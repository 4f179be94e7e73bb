import Curriculum.Proofs.Planner.Transition
import Curriculum.Proofs.Verdict.Declarative

/-!
# Verdicts that a change leaves alone

Without equivalence rules, a change of the graph says itself which verdicts it may touch: those on
the courses that it affects, and on the holders of credit rules over the subjects of what changed.
-/

namespace Curriculum

variable {W : Type} [CreditWeight W]

/-- After a change to a plan that has no equivalence rules, a planned course keeps its verdict, or
its error, unless it is affected or holds a credit rule over the subject of a course that changed. -/
theorem DependencyGraph.isSatisfied_of_not_affected (catalog : Catalog W)
    (changes : List PlanChange) (c : PlanChange) {next : DependencyGraph} {affected : CourseSet}
    (happly : (empty.run catalog changes).apply catalog c = .ok (next, affected))
    (terms : TermOrder) (ledger : Ledger) (walk : Walk) {d : CourseId}
    (hplanned : next.contains d = true) (haffected : d ∉ affected)
    (hholder : d ∉ next.creditDependents (c.ids.map CourseId.subject)) :
    let ctx := Context.mk terms ledger catalog .empty walk
    ctx.isSatisfied (empty.run catalog changes) d = ctx.isSatisfied next d := by
  intro ctx
  have hexact : (empty.run catalog changes).Exact catalog := (exact_empty catalog).run changes
  have hnext : next.Exact catalog := change_of_apply happly ▸ hexact.change c
  have hsound : PlanState.Sound ⟨empty.run catalog changes, terms, .empty⟩ catalog :=
    ⟨hexact, EquivalenceRules.symmetric_empty⟩
  have hcovers := apply_covers hexact happly
  refine Context.isSatisfied_congr
    ((PlanState.transition_of_covers hsound hnext hcovers).alike d hplanned ?_ ?_ walk)
  · have hreferencing : d ∉ next.referencing catalog
        (c.ids.flatMap fun id => (EquivalenceRules.empty.equivalents id).toList) := by
      rw [DependencyGraph.mem_referencing]
      rintro ⟨_, _, x, hx, _⟩
      obtain ⟨id, _, hmem⟩ := List.mem_flatMap.1 hx
      exact EquivalenceRules.not_mem_equivalents_empty (Std.ExtTreeSet.mem_toList.1 hmem)
    rw [Std.ExtTreeSet.mem_union_iff, PlanState.changeDependents, if_pos rfl,
      Std.ExtTreeSet.mem_union_iff]
    rintro (hcovered | hmem | hmem)
    · exact haffected hcovered
    · exact hholder hmem
    · exact hreferencing hmem
  · rintro ⟨⟨id, _, hmem⟩, _⟩
    exact EquivalenceRules.not_mem_equivalents_empty hmem

namespace Sample

def phys : CourseId :=
  ⟨⟨['P', 'H', 'Y', 'S'], by decide⟩, ⟨101, by decide⟩, none⟩

end Sample

open Sample in
/-- `COMP 251` holds a credit rule, but none that `PHYS 101` counts for. -/
theorem DependencyGraph.isSatisfied_without_phys :
    let ctx := Context.mk twoTerms .empty twoCourses .empty .byId
    let g := empty.run twoCourses
      [.add ⟨"first"⟩ [comp 250, phys], .add ⟨"second"⟩ [comp 251]]
    let next := (g.delete [phys]).1
    next.contains (comp 251) = true ∧ comp 251 ∉ (g.delete [phys]).2 ∧
      ctx.isSatisfied g (comp 251) = ctx.isSatisfied next (comp 251) ∧
      ctx.isSatisfied g (comp 251) = .ok true := by
  intro ctx g next
  have hplanned : next.contains (comp 251) = true := by decide +kernel
  have haffected : comp 251 ∉ (g.delete [phys]).2 := by decide +kernel
  exact ⟨hplanned, haffected,
    isSatisfied_of_not_affected twoCourses _ (.delete [phys]) rfl twoTerms .empty .byId hplanned
      haffected (by decide +kernel), by decide +kernel⟩

end Curriculum
