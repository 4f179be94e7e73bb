import Curriculum.Json.Plan
import Curriculum.Proofs.Json.Requisites
import Curriculum.Proofs.Verdict.Declarative

/-!
# Plans read back from JSON

A plan is written with the members of its maps and sets in some order, and reads back from any
order of them. So does every requisite from what is written for it.
-/

namespace Curriculum

open JsonForm

/-! ## Parts of a plan -/

instance : OrderFree TermId where
  ofJson?_of_rearranges {t v} h := by
    cases h
    rfl

instance : LawfulJsonKey TermId := ⟨fun _ => rfl⟩

theorem PlannedCourse.ofJson?_of_fields {n : PlannedCourse} {v term isSatisfied dependents : Json}
    (hfields : v.fields? [["term_id"], ["is_satisfied"], ["affected_course_ids"]] =
      some [some term, some isSatisfied, some dependents])
    (hterm : Json.required? (some term) = some n.term)
    (hsatisfied : Json.required? (some isSatisfied) = some n.isSatisfied)
    (hdependents : Json.required? (some dependents) = some n.dependents) : ofJson? v = some n := by
  simp [ofJson?, hfields, hterm, hsatisfied, hdependents]

instance : OrderFree PlannedCourse where
  ofJson?_of_rearranges {n v} h := by
    obtain ⟨values, hvalues, hfields⟩ := Json.fields?_of_rearranges (by simp) h
    obtain - | ⟨hterm, - | ⟨hsatisfied, - | ⟨hdependents, - | -⟩⟩⟩ := hvalues
    exact PlannedCourse.ofJson?_of_fields hfields (required?_of_rearranges hterm)
      (required?_of_rearranges hsatisfied) (required?_of_rearranges hdependents)

theorem DependencyGraph.ofJson?_of_fields {g : DependencyGraph}
    {v nodes bySubject creditHolders : Json}
    (hfields : v.fields? [["dep_graph"], ["subject_map"], ["credits_req_map"]] =
      some [some nodes, some bySubject, some creditHolders])
    (hnodes : Json.required? (some nodes) = some g.nodes)
    (hsubject : Json.required? (some bySubject) = some g.bySubject)
    (hholders : Json.required? (some creditHolders) = some g.creditHolders) :
    ofJson? v = some g := by
  simp [ofJson?, hfields, hnodes, hsubject, hholders]

instance : OrderFree DependencyGraph where
  ofJson?_of_rearranges {g v} h := by
    obtain ⟨values, hvalues, hfields⟩ := Json.fields?_of_rearranges (by simp) h
    obtain - | ⟨hnodes, - | ⟨hsubject, - | ⟨hholders, - | -⟩⟩⟩ := hvalues
    exact DependencyGraph.ofJson?_of_fields hfields (required?_of_rearranges hnodes)
      (required?_of_rearranges hsubject) (required?_of_rearranges hholders)

instance : OrderFree EquivalenceRules where
  ofJson?_of_rearranges {r v} h := by
    obtain ⟨values, hvalues, hfields⟩ := Json.fields?_of_rearranges (by simp) h
    obtain - | ⟨hlinks, - | -⟩ := hvalues
    replace hfields : v.fields? [["links"]] = some _ := hfields
    simp [ofJson?, hfields, required?_of_rearranges hlinks]

instance : OrderFree TermOrder where
  ofJson?_of_rearranges {o v} h := by
    obtain ⟨values, hvalues, hfields⟩ := Json.fields?_of_rearranges (by simp) h
    obtain - | ⟨hpositions, - | -⟩ := hvalues
    replace hfields : v.fields? [["orders"]] = some _ := hfields
    simp [ofJson?, hfields, required?_of_rearranges hpositions]

theorem PlanState.ofJson?_of_fields {s : PlanState} {v graph terms equivalences : Json}
    (hfields : v.fields? [["deps"], ["term_order"], ["equivalences"]] =
      some [some graph, some terms, some equivalences])
    (hgraph : Json.required? (some graph) = some s.graph)
    (hterms : Json.required? (some terms) = some s.terms)
    (hequivalences : Json.required? (some equivalences) = some s.equivalences) :
    ofJson? v = some s := by
  simp [ofJson?, hfields, hgraph, hterms, hequivalences]

instance : OrderFree PlanState where
  ofJson?_of_rearranges {s v} h := by
    obtain ⟨values, hvalues, hfields⟩ := Json.fields?_of_rearranges (by simp) h
    obtain - | ⟨hgraph, - | ⟨hterms, - | ⟨hequivalences, - | -⟩⟩⟩ := hvalues
    exact PlanState.ofJson?_of_fields hfields (required?_of_rearranges hgraph)
      (required?_of_rearranges hterms) (required?_of_rearranges hequivalences)

/-! ## What is written reads back -/

/-- Groups of any shape, requisites and plans read back from what is written for them, and plans
also when the members of any map or set in them are written in another order. -/
theorem JsonForm.reads_back :
    (∀ g : Group, ofJson? (toJson g) = some g) ∧
    (∀ r : Requisites, ofJson? (toJson r) = some r) ∧
    (∀ s : PlanState, ofJson? (toJson s) = some s) ∧
    ∀ (s : PlanState) (v : Json), (toJson s).Rearranges v → ofJson? v = some s :=
  ⟨ofJson?_toJson, ofJson?_toJson, ofJson?_toJson, fun _ _ => ofJson?_of_rearranges⟩

namespace Sample

/-- Two courses in the first of two terms, for one of which a third may stand in. -/
def twoTermPlan : PlanState :=
  ⟨(DependencyGraph.empty.add twoCourses ⟨"first"⟩ [comp 250, comp 251]).1,
    .ofTerms [⟨"first"⟩, ⟨"second"⟩], EquivalenceRules.empty.insert ⟨comp 202, comp 250⟩⟩

end Sample

open Sample in
theorem JsonForm.reads_back_latestFirst :
    let positions := Json.object [("second", .integer 1), ("first", .integer 0)]
    let v := Json.object
      [("term_order", .object [("orders", positions)]), ("deps", toJson twoTermPlan.graph),
        ("equivalences", toJson twoTermPlan.equivalences)]
    (toJson twoTermPlan).Rearranges v ∧ ofJson? v = some twoTermPlan := by
  intro positions v
  have hlist : twoTermPlan.terms.positions.toList = [(⟨"first"⟩, 0), (⟨"second"⟩, 1)] := by
    decide +kernel
  have hpositions : (toJson twoTermPlan.terms.positions).Rearranges positions := by
    have hwritten : toJson twoTermPlan.terms.positions =
        .object [("first", .integer 0), ("second", .integer 1)] := by
      change Json.object (twoTermPlan.terms.positions.toList.map _) = _
      rw [hlist]
      rfl
    rw [hwritten]
    exact .object (List.forall₂_same.2 fun m _ => .value m.1 (.same m.2)) (.swap _ _ _)
  have hterms : (toJson twoTermPlan.terms).Rearranges (.object [("orders", positions)]) :=
    .object (.cons (.value "orders" hpositions) .nil) (.refl _)
  have hv : (toJson twoTermPlan).Rearranges v :=
    .object (.cons (.value "deps" (.same _)) (.cons (.value "term_order" hterms)
      (.cons (.value "equivalences" (.same _)) .nil))) (.swap _ _ _)
  exact ⟨hv, reads_back.2.2.2 _ _ hv⟩

end Curriculum
