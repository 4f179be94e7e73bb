import Curriculum.Proofs.Planner.Consistency
import Curriculum.Proofs.Planner.UpToDate

/-!
# Changes of the ledger

A change of the ledger looks for the dependents of one completed course at a time, in every plan and
whatever the settings. So it loses sight of a course only if the course names itself.
-/

namespace Curriculum

namespace Planner

variable {W : Type} [CreditWeight W] {p p' : Planner W} {ledger : Ledger}
  {changed : List CourseId}

theorem commitLedger_upToDate (hp : p.Consistent)
    (hself : ∀ d, p.catalog.references d d = false) (hbefore : p.UpToDate)
    (hagree : Ledger.AgreeOff changed p.ledger ledger) :
    ∃ p', p.commitLedger ledger changed = .ok p' ∧ p'.ledger = ledger ∧ p'.UpToDate := by
  obtain ⟨p', hcommit⟩ := commitLedger_ok hp ledger changed
  refine ⟨p', hcommit, ?_⟩
  obtain ⟨plans, rfl, _, hplans⟩ := commitLedger_eq_ok hcommit
  refine ⟨rfl, fun plan s' hs' => ?_⟩
  obtain ⟨s, hs, hsettle⟩ := hplans plan s' hs'
  have htransition := PlanState.transition_ledger (hp plan s hs).sound hagree
  refine (htransition.upToDate_iff hsettle (hbefore plan s hs)).2 fun d _ hlost _ => ?_
  cases (hself d).symm.trans hlost.2

/-- If no course names itself, stored verdicts that are right in all plans are so again after
completed courses were recorded or forgotten. -/
theorem run_ledger_upToDate (settings : Settings) (catalog : Catalog W) (walks : PlanId → Walk)
    (hself : ∀ d, catalog.references d d = false) (actions : List PlannerAction)
    (hbefore : ((new settings catalog walks).run actions).UpToDate) (ids : List CourseId) :
    let p := (new settings catalog walks).run actions
    (∃ p', p.recordTaken ids = .ok p' ∧
      (∀ x, p'.ledger.contains x = true ↔ p.ledger.contains x = true ∨ x ∈ ids) ∧
      p'.UpToDate) ∧
    ∃ p', p.forgetTaken ids = .ok p' ∧
      (∀ x, p'.ledger.contains x = true ↔ p.ledger.contains x = true ∧ x ∉ ids) ∧
      p'.UpToDate := by
  intro p
  have hp : p.Consistent := (consistent_new settings catalog walks).run actions
  have hcatalog : p.catalog = catalog := run_catalog _ actions
  rw [← hcatalog] at hself
  obtain ⟨recorded, hrecord, hrecorded, hup⟩ := commitLedger_upToDate hp hself hbefore
    (changeLedger_agreeOff Ledger.record_agreeOff p.ledger ids)
  obtain ⟨forgotten, hforget, hforgotten, hup'⟩ := commitLedger_upToDate hp hself hbefore
    (changeLedger_agreeOff Ledger.forget_agreeOff p.ledger ids)
  refine ⟨⟨recorded, hrecord, fun x => ?_, hup⟩, forgotten, hforget, fun x => ?_, hup'⟩
  · rw [hrecorded, contains_changeLedger_record]
  · rw [hforgotten, contains_changeLedger_forget]

end Planner

namespace Sample

/-- `COMP 202` may stand in for `COMP 250`, which `COMP 251` names. -/
def standIn : List PlannerAction :=
  [.createPlan [⟨"first"⟩, ⟨"second"⟩],
    .addEquivalence ⟨1⟩ ⟨comp 202, comp 250⟩,
    .addCourses ⟨1⟩ ⟨"second"⟩ [comp 251]]

end Sample

open Sample in
/-- The verdict on `COMP 251` follows when `COMP 202` is recorded. -/
theorem Planner.upToDate_recorded_standIn :
    let p := (new {} oneLeaf).run standIn
    p.isSatisfied ⟨1⟩ (comp 251) = .ok false ∧
      ∃ p', p.recordTaken [comp 202] = .ok p' ∧ p'.isSatisfied ⟨1⟩ (comp 251) = .ok true ∧
        p'.UpToDate := by
  intro p
  have hself (d : CourseId) : oneLeaf.references d d = false := by
    simp only [oneLeaf, Catalog.references, Catalog.requisites?, Catalog.get?_insert]
    split
    next heq =>
      subst heq
      decide
    next => simp
  obtain ⟨⟨p', hrecord, _, hup⟩, _⟩ :=
    run_ledger_upToDate {} oneLeaf (fun _ => .byId) hself standIn (by decide +kernel) [comp 202]
  refine ⟨by decide +kernel, p', hrecord, ?_, hup⟩
  have hverdict : (p.recordTaken [comp 202]).bind (·.isSatisfied ⟨1⟩ (comp 251)) = .ok true := by
    decide +kernel
  rw [hrecord] at hverdict
  exact hverdict

end Curriculum
