import Curriculum.Proofs.Plan.Determined
import Curriculum.Proofs.Planner.Returned

/-!
# Courses that are added again

To add courses that are planned already is to move them. The one way builds their nodes anew and
looks through the catalog for what depends on them, the other keeps the nodes and trusts them. Where
the graph is exact they differ in the verdicts in store, and only until these are recomputed.
-/

namespace Curriculum

variable {W : Type} {d : CourseId} {term : TermId} {ids : List CourseId}

namespace DependencyGraph

variable {catalog : Catalog W} {g g' : DependencyGraph} {affected : CourseSet}
  {change change' : DependencyGraph × CourseSet}

/-- A course that neither of two changes affects has one verdict in store after both. -/
theorem isSatisfied_of_apply {c e : PlanChange} (hg : g.Exact catalog)
    (happly : g.apply catalog c = .ok change) (happly' : g.apply catalog e = .ok change')
    {node node' : PlannedCourse} (hnode : change.1.get? d = some node)
    (hnode' : change'.1.get? d = some node') (hout : d ∉ change.2) (hout' : d ∉ change'.2) :
    node'.isSatisfied = node.isSatisfied := by
  have hkept := (apply_covers hg happly).kept d (contains_of_get? hnode) hout
  have hkept' := (apply_covers hg happly').kept d (contains_of_get? hnode') hout'
  rw [← hkept, hnode, hnode', Option.map_some, Option.map_some, Option.some.injEq] at hkept'
  exact congrArg Prod.snd hkept'

variable [CreditWeight W] {ctx : Context W}

theorem verdicts_congr (hterm : ∀ x, g'.term? x = g.term? x)
    (hsubject : ∀ s, g'.ofSubject s = g.ofSubject s) :
    g'.verdicts ctx affected = g.verdicts ctx affected := by
  have hcontains : g'.contains = g.contains := funext (contains_of_term? hterm)
  have hsatisfied : ctx.isSatisfied g' = ctx.isSatisfied g :=
    funext (Context.isSatisfied_of_term? hterm hsubject)
  rw [verdicts, verdicts, hcontains, hsatisfied]

/-- Exact graphs that differ in verdicts to be recomputed are the same once these are. -/
theorem Recomputed.unique {next next' : DependencyGraph} (hg : g.Exact catalog)
    (hg' : g'.Exact catalog) (hterm : ∀ x, g'.term? x = g.term? x)
    (hkept : ∀ d node node', d ∉ affected → g.get? d = some node → g'.get? d = some node' →
      node'.isSatisfied = node.isSatisfied)
    (h : Recomputed ctx affected g next) (h' : Recomputed ctx affected g' next') : next' = next := by
  have hsubject := hg.toIndexesExact.ofSubject_eq hg'.toIndexesExact hterm
  refine (h.exact hg).eq_of_verdicts (h'.exact hg') (fun x => ?_) fun x node node' hx hx' => ?_
  · rw [h.term?, h'.term?, hterm]
  · by_cases hmem : x ∈ affected
    · have hverdict := h'.verdict_of_mem hmem hx'
      rw [Context.isSatisfied_of_term? hterm hsubject, h.verdict_of_mem hmem hx] at hverdict
      exact (Except.ok.inj hverdict).symm
    · rw [h.get?_of_not_mem x hmem] at hx
      rw [h'.get?_of_not_mem x hmem] at hx'
      exact hkept x node node' hmem hx hx'

theorem recompute_congr (hg : g.Exact catalog) (hg' : g'.Exact catalog)
    (hterm : ∀ x, g'.term? x = g.term? x)
    (hkept : ∀ d node node', d ∉ affected → g.get? d = some node → g'.get? d = some node' →
      node'.isSatisfied = node.isSatisfied) :
    g'.recompute ctx affected = g.recompute ctx affected := by
  have hverdicts : g'.verdicts ctx affected = g.verdicts ctx affected :=
    verdicts_congr hterm (hg.toIndexesExact.ofSubject_eq hg'.toIndexesExact hterm)
  unfold recompute
  rw [hverdicts]
  cases hout : g.verdicts ctx affected with
  | error cause => rfl
  | ok out =>
      exact congrArg Except.ok ((recompute_eq_ok (bind_eq_ok.2 ⟨out, hout, rfl⟩)).unique hg hg'
        hterm hkept (recompute_eq_ok (bind_eq_ok.2 ⟨out, hverdicts.trans hout, rfl⟩)))

end DependencyGraph

namespace Planner

variable {p : Planner W} {plan : PlanId} {s : PlanState} {change : DependencyGraph × CourseSet}

/-- Where courses are moved, the same courses would be recomputed if they were added. -/
theorem recomputed_add_eq_move (hs : s.Sound p.catalog) (hmove : s.graph.move ids term = .ok change) :
    (p.withGraph s ids (s.graph.add p.catalog term ids)).2 = (p.withGraph s ids change).2 := by
  have hterm (x : CourseId) : change.1.term? x = (s.graph.add p.catalog term ids).1.term? x := by
    rw [DependencyGraph.term?_move hmove, DependencyGraph.term?_add]
  ext d
  refine (mem_withGraph (c := .add term ids) hs rfl).trans
    (Iff.trans ?_ (mem_withGraph (c := .move ids term) hs hmove).symm)
  simp only [DependencyGraph.contains_of_term? hterm]
  rfl

variable [CreditWeight W] {f f' : PlanState → Except ConsistencyError (PlanState × CourseSet)}

theorem settle_add_eq_move (hs : s.Sound p.catalog) (hmove : s.graph.move ids term = .ok change)
    (ledger : Ledger) (walk : Walk) :
    let added := p.withGraph s ids (s.graph.add p.catalog term ids)
    let moved := p.withGraph s ids change
    added.1.settle ledger p.catalog walk added.2 =
      moved.1.settle ledger p.catalog walk moved.2 := by
  intro added moved
  have haffected : added.2 = moved.2 := recomputed_add_eq_move hs hmove
  have hgraph : added.1.graph.recompute (added.1.context ledger p.catalog walk) added.2 =
      moved.1.graph.recompute (moved.1.context ledger p.catalog walk) moved.2 := by
    rw [haffected]
    refine DependencyGraph.recompute_congr (hs.exact.move hmove) (hs.exact.add term ids) ?_ ?_
    · intro x
      exact DependencyGraph.term?_add.trans (DependencyGraph.term?_move hmove).symm
    · intro d node node' hout hnode hnode'
      have hout' : d ∉ added.2 := by rwa [haffected]
      refine DependencyGraph.isSatisfied_of_apply (c := .move ids term) (e := .add term ids)
        hs.exact hmove rfl hnode hnode' ?_ ?_
      · exact fun hmem => hout (Std.ExtTreeSet.mem_union_iff.2 (Or.inl hmem))
      · exact fun hmem => hout' (Std.ExtTreeSet.mem_union_iff.2 (Or.inl hmem))
  rw [PlanState.settle, PlanState.settle, hgraph]
  rfl

/-- Of a change, only the courses to recompute and the settled plan show. -/
theorem commit_congr {result result' : PlanState × CourseSet} (hs : p.plans[plan]? = some s)
    (hresult : f s = .ok result) (hresult' : f' s = .ok result') (haffected : result.2 = result'.2)
    (hsettle : result.1.settle p.ledger p.catalog (p.walks plan) result.2 =
      result'.1.settle p.ledger p.catalog (p.walks plan) result'.2) :
    p.commit plan f = p.commit plan f' := by
  rw [commit_of_change hs hresult, commit_of_change hs hresult', hsettle, haffected]

theorem Consistent.addCourses_eq_moveCourses (hp : p.Consistent)
    (hplanned : ∀ id ∈ ids, ∃ s, p.plans[plan]? = some s ∧ s.graph.contains id = true) :
    p.addCourses plan term ids = p.moveCourses plan ids term := by
  cases hs : p.plans[plan]? with
  | none => exact (commit_of_missing hs).trans (commit_of_missing hs).symm
  | some s =>
      have hsound := (hp plan s hs).sound
      have hthere (id : CourseId) (hid : id ∈ ids) : s.graph.contains id = true := by
        obtain ⟨s', hs', hcontains⟩ := hplanned id hid
        cases hs.symm.trans hs'
        exact hcontains
      obtain ⟨change, hmove⟩ := DependencyGraph.move_ok term hthere
      exact commit_congr hs rfl (congrArg (Except.map (p.withGraph s ids)) hmove)
        (recomputed_add_eq_move hsound hmove)
        (settle_add_eq_move hsound hmove p.ledger (p.walks plan))

/-- After any history, courses that are planned already can be added to a term or moved to it: the
same planner comes out with the same courses recomputed, or the same error. -/
theorem run_add_eq_move (settings : Settings) (catalog : Catalog W) (walks : PlanId → Walk)
    (actions : List PlannerAction) (plan : PlanId) (term : TermId) (ids : List CourseId)
    (hplanned : ∀ id ∈ ids, ∃ s,
      ((new settings catalog walks).run actions).plans[plan]? = some s ∧
        s.graph.contains id = true) :
    let p := (new settings catalog walks).run actions
    p.addCourses plan term ids = p.moveCourses plan ids term ∧
      p.step (.addCourses plan term ids) = p.step (.moveCourses plan ids term) := by
  intro p
  have hp : p.Consistent := (consistent_new settings catalog walks).run actions
  have heq : p.addCourses plan term ids = p.moveCourses plan ids term :=
    hp.addCourses_eq_moveCourses hplanned
  refine ⟨heq, ?_⟩
  rw [step, step, perform, perform, heq]

end Planner

open Sample in
/-- `COMP 250` is added to the second term while it is planned in the first, and `COMP 251`, which
names it, fails by that. -/
theorem Planner.add_eq_move_leafInPlace :
    let p := (new {} oneLeaf).run leafInPlace
    p.addCourses ⟨1⟩ ⟨"second"⟩ [comp 250] = p.moveCourses ⟨1⟩ [comp 250] ⟨"second"⟩ ∧
    p.isSatisfied ⟨1⟩ (comp 251) = .ok true ∧
    (p.step (.moveCourses ⟨1⟩ [comp 250] ⟨"second"⟩)).isSatisfied ⟨1⟩ (comp 251) = .ok false ∧
    (p.step (.addCourses ⟨1⟩ ⟨"second"⟩ [comp 250])).isSatisfied ⟨1⟩ (comp 251) = .ok false := by
  intro p
  have hplan : (p.plans[(⟨1⟩ : PlanId)]?).map (fun s => s.graph.contains (comp 250)) =
      some true := by
    decide +kernel
  obtain ⟨s, hs, hplanned⟩ := Option.map_eq_some_iff.1 hplan
  have hmoved : (p.step (.moveCourses ⟨1⟩ [comp 250] ⟨"second"⟩)).isSatisfied ⟨1⟩ (comp 251) =
      .ok false := by
    decide +kernel
  obtain ⟨heq, hstep⟩ := run_add_eq_move {} oneLeaf _ leafInPlace ⟨1⟩ ⟨"second"⟩ [comp 250]
    fun id hid => ⟨s, hs, by rwa [List.mem_singleton.1 hid]⟩
  refine ⟨heq, by decide +kernel, hmoved, ?_⟩
  rw [← hmoved]
  exact congrArg (fun p => p.isSatisfied ⟨1⟩ (comp 251)) hstep

end Curriculum
