import Curriculum.Proofs.Ledger.Changed
import Curriculum.Proofs.Planner.Step

/-!
# Effects of actions

What an action can do, said once: it starts or removes a plan, changes one plan and settles it, or
changes the ledger and settles all plans. What holds of every plan in every state is then shown
from the effect that an action has on one plan.
-/

namespace Curriculum

/-- The plan that an action changes in place. -/
def PlannerAction.target? : PlannerAction → Option PlanId
  | .addCourses plan _ _ | .deleteCourses plan _ | .moveCourses plan _ _ | .reorderTerms plan _
  | .addEquivalence plan _ | .removeEquivalence plan _ => some plan
  | .createPlan _ | .deletePlan _ | .recordTaken _ | .forgetTaken _ => none

namespace Planner

section

variable {W : Type}

/-- What an action makes of a plan: the plan before it is settled, the ledger to settle it under,
and the courses to recompute. -/
inductive Effect (p : Planner W) (s : PlanState) :
    PlannerAction → PlanState → Ledger → CourseSet → Prop
  | add (plan : PlanId) (term : TermId) (ids : List CourseId) :
    Effect p s (.addCourses plan term ids) (p.withGraph s ids (s.graph.add p.catalog term ids)).1
      p.ledger (p.withGraph s ids (s.graph.add p.catalog term ids)).2
  | delete (plan : PlanId) (ids : List CourseId) :
    Effect p s (.deleteCourses plan ids) (p.withGraph s ids (s.graph.delete ids)).1 p.ledger
      (p.withGraph s ids (s.graph.delete ids)).2
  | move (plan : PlanId) {ids : List CourseId} {term : TermId} {change : DependencyGraph × CourseSet}
    (hmove : s.graph.move ids term = .ok change) :
    Effect p s (.moveCourses plan ids term) (p.withGraph s ids change).1 p.ledger
      (p.withGraph s ids change).2
  | reorder (plan : PlanId) (terms : List TermId) :
    Effect p s (.reorderTerms plan terms) { s with terms := .ofTerms terms } p.ledger
      s.graph.courses
  | addRule (plan : PlanId) (rule : EquivalenceRule) :
    Effect p s (.addEquivalence plan rule) { s with equivalences := s.equivalences.insert rule }
      p.ledger (s.graph.ruleDependents p.catalog rule)
  | removeRule (plan : PlanId) (rule : EquivalenceRule) :
    Effect p s (.removeEquivalence plan rule) { s with equivalences := s.equivalences.erase rule }
      p.ledger (s.graph.ruleDependents p.catalog rule)
  | record (ids : List CourseId) :
    Effect p s (.recordTaken ids) s (changeLedger Ledger.record p.ledger ids).1
      (s.ledgerDependents p.catalog (changeLedger Ledger.record p.ledger ids).2)
  | forget (ids : List CourseId) :
    Effect p s (.forgetTaken ids) s (changeLedger Ledger.forget p.ledger ids).1
      (s.ledgerDependents p.catalog (changeLedger Ledger.forget p.ledger ids).2)

end

variable {W : Type} [CreditWeight W] {p p' : Planner W} {action : PlannerAction}
  {plan target : PlanId} {s s' : PlanState} {ledger : Ledger} {changed : List CourseId}
  {affected : CourseSet} {reply : PlannerReply}
  {change : PlanState → Except ConsistencyError (PlanState × CourseSet)}

/-- A plan becomes another one by the effect of an action. -/
def Settles (p : Planner W) (action : PlannerAction) (ledger : Ledger) (walk : Walk)
    (affected : CourseSet) (s s' : PlanState) : Prop :=
  ∃ next, p.Effect s action next ledger affected ∧
    next.settle ledger p.catalog walk affected = .ok s'

/-- All that an action can do when it succeeds. -/
inductive Performed (p : Planner W) : PlannerAction → Planner W → PlannerReply → Prop
  | created (terms : List TermId) :
    Performed p (.createPlan terms) (p.createPlan terms).1 (.created (p.createPlan terms).2)
  | deleted {plan : PlanId} {s : PlanState} (hs : p.plans[plan]? = some s) :
    Performed p (.deletePlan plan) { p with plans := p.plans.erase plan } (.deleted s)
  | changed {action : PlannerAction} {plan : PlanId} {s s' : PlanState} {affected : CourseSet}
    (htarget : action.target? = some plan) (hs : p.plans[plan]? = some s)
    (hsettles : p.Settles action p.ledger (p.walks plan) affected s s') :
    Performed p action { p with plans := p.plans.insert plan s' } (.recomputed affected)
  | booked {action : PlannerAction} {ledger : Ledger} {plans : Std.ExtTreeMap PlanId PlanState}
    (htarget : action.target? = none) (hledger : ∃ changes, ledger = p.ledger.run changes)
    (hkept : ∀ plan, plan ∈ p.plans → plan ∈ plans)
    (hplans : ∀ (plan : PlanId) (s' : PlanState), plans[plan]? = some s' →
      ∃ s affected, p.plans[plan]? = some s ∧
        p.Settles action ledger (p.walks plan) affected s s') :
    Performed p action { p with ledger, plans } .done

theorem performed_commit
    (hcommit : (p.commit plan change).map (fun (next, affected) =>
      (next, PlannerReply.recomputed affected)) = .ok (p', reply))
    (htarget : action.target? = some plan)
    (hchange : ∀ s next affected, change s = .ok (next, affected) →
      p.Effect s action next p.ledger affected) : p.Performed action p' reply := by
  obtain ⟨⟨after, affected⟩, hresult, hreply⟩ := map_eq_ok.1 hcommit
  obtain ⟨s, next, s', hs, hnext, hsettle, rfl⟩ := commit_eq_ok hresult
  cases hreply
  exact .changed htarget hs ⟨next, hchange s next affected hnext, hsettle⟩

theorem performed_commitLedger
    (hcommit : (p.commitLedger ledger changed).map (fun next => (next, PlannerReply.done)) =
      .ok (p', reply))
    (htarget : action.target? = none) (hledger : ∃ changes, ledger = p.ledger.run changes)
    (heffect : ∀ s, p.Effect s action s ledger (s.ledgerDependents p.catalog changed)) :
    p.Performed action p' reply := by
  obtain ⟨after, hresult, hreply⟩ := map_eq_ok.1 hcommit
  obtain ⟨plans, rfl, hkept, hplans⟩ := commitLedger_eq_ok hresult
  cases hreply
  refine .booked htarget hledger hkept fun plan s' hs' => ?_
  obtain ⟨s, hs, hsettle⟩ := hplans plan s' hs'
  exact ⟨s, _, hs, s, heffect s, hsettle⟩

theorem performed (h : p.perform action = .ok (p', reply)) : p.Performed action p' reply := by
  cases action with
  | createPlan terms =>
      cases h
      exact .created terms
  | deletePlan plan =>
      obtain ⟨⟨next, s⟩, hdelete, hreply⟩ := map_eq_ok.1 h
      obtain ⟨state, hstate, hnext⟩ := bind_eq_ok.1 hdelete
      cases hnext
      cases hreply
      exact .deleted (plan_eq_ok.1 hstate)
  | addCourses plan term ids =>
      refine performed_commit h rfl fun s next affected hchange => ?_
      cases hchange
      exact .add plan term ids
  | deleteCourses plan ids =>
      refine performed_commit h rfl fun s next affected hchange => ?_
      cases hchange
      exact .delete plan ids
  | moveCourses plan ids term =>
      refine performed_commit h rfl fun s next affected hchange => ?_
      obtain ⟨change, hmove, hnext⟩ := map_eq_ok.1 hchange
      cases hnext
      exact .move plan hmove
  | reorderTerms plan terms =>
      refine performed_commit h rfl fun s next affected hchange => ?_
      cases hchange
      exact .reorder plan terms
  | addEquivalence plan rule =>
      refine performed_commit h rfl fun s next affected hchange => ?_
      cases hchange
      exact .addRule plan rule
  | removeEquivalence plan rule =>
      refine performed_commit h rfl fun s next affected hchange => ?_
      cases hchange
      exact .removeRule plan rule
  | recordTaken ids =>
      exact performed_commitLedger h rfl ⟨_, changeLedger_record p.ledger ids⟩ fun _ => .record ids
  | forgetTaken ids =>
      exact performed_commitLedger h rfl ⟨_, changeLedger_forget p.ledger ids⟩ fun _ => .forget ids

/-- An action that changes a plan in place changes that plan only, and tells what it recomputed. -/
theorem Performed.of_target (h : p.Performed action p' reply)
    (htarget : action.target? = some plan) :
    ∃ s s' affected, p.plans[plan]? = some s ∧
      p.Settles action p.ledger (p.walks plan) affected s s' ∧
      p' = { p with plans := p.plans.insert plan s' } ∧ reply = .recomputed affected := by
  cases h with
  | created terms => cases htarget
  | deleted hs => cases htarget
  | booked hnone hledger hkept hplans => cases htarget.symm.trans hnone
  | changed htarget' hs hsettles =>
      cases htarget.symm.trans htarget'
      exact ⟨_, _, _, hs, hsettles, rfl, rfl⟩

/-! ## Steps -/

theorem performed_step (p : Planner W) (action : PlannerAction) :
    p.step action = p ∨ ∃ reply, p.Performed action (p.step action) reply := by
  cases hperform : p.perform action with
  | error e => exact Or.inl (step_of_error hperform)
  | ok result =>
      obtain ⟨p', reply⟩ := result
      rw [step_of_ok hperform]
      exact Or.inr ⟨reply, performed hperform⟩

/-- No step touches the settings or the catalog, or how courses are met. -/
theorem step_frame (p : Planner W) (action : PlannerAction) :
    (p.step action).settings = p.settings ∧ (p.step action).catalog = p.catalog ∧
      (p.step action).walks = p.walks := by
  rcases performed_step p action with hsame | ⟨reply, hperformed⟩
  · rw [hsame]
    exact ⟨rfl, rfl, rfl⟩
  generalize p.step action = next at hperformed ⊢
  cases hperformed with
  | created terms => exact ⟨rfl, rfl, rfl⟩
  | deleted hs => exact ⟨rfl, rfl, rfl⟩
  | changed htarget hs hsettles => exact ⟨rfl, rfl, rfl⟩
  | booked htarget hledger hkept hplans => exact ⟨rfl, rfl, rfl⟩

theorem run_settings (p : Planner W) (actions : List PlannerAction) :
    (p.run actions).settings = p.settings := by
  refine run_induction (I := fun q => q.settings = p.settings) (fun q action _ h => ?_) rfl
  rw [(step_frame q action).1, h]

theorem run_catalog (p : Planner W) (actions : List PlannerAction) :
    (p.run actions).catalog = p.catalog := by
  refine run_induction (I := fun q => q.catalog = p.catalog) (fun q action _ h => ?_) rfl
  rw [(step_frame q action).2.1, h]

/-- What a step leaves in the place of a plan: the plan itself, a plan that is new, or what the
plan has become. -/
theorem effect_of_step (h : (p.step action).plans[plan]? = some s') :
    p.plans[plan]? = some s' ∧ (p.step action).ledger = p.ledger ∨
    (∃ terms, s' = .ofTerms terms) ∨
    ∃ s affected, p.plans[plan]? = some s ∧
      p.Settles action (p.step action).ledger (p.walks plan) affected s s' := by
  rcases performed_step p action with hsame | ⟨reply, hperformed⟩
  · rw [hsame] at h ⊢
    exact Or.inl ⟨h, rfl⟩
  generalize p.step action = next at h hperformed ⊢
  cases hperformed with
  | created terms =>
      simp only [createPlan, Std.ExtTreeMap.getElem?_insert, Std.compare_eq_iff_eq] at h
      split at h
      next => exact Or.inr (Or.inl ⟨_, (Option.some.inj h).symm⟩)
      next => exact Or.inl ⟨h, rfl⟩
  | deleted hs =>
      simp only [Std.ExtTreeMap.getElem?_erase, Std.compare_eq_iff_eq] at h
      split at h
      next => cases h
      next => exact Or.inl ⟨h, rfl⟩
  | changed htarget hs hsettles =>
      simp only [Std.ExtTreeMap.getElem?_insert, Std.compare_eq_iff_eq] at h
      split at h
      next heq =>
        cases h
        subst heq
        exact Or.inr (Or.inr ⟨_, _, hs, hsettles⟩)
      next => exact Or.inl ⟨h, rfl⟩
  | booked htarget hledger hkept hplans => exact Or.inr (Or.inr (hplans plan s' h))

/-- What new plans have and settled plans keep, all plans keep. -/
theorem forall_plans_step {I : PlanState → Prop} (hcreated : ∀ terms, I (.ofTerms terms))
    (hsettled : ∀ {s s' ledger walk affected},
      p.Settles action ledger walk affected s s' → I s → I s')
    (hp : ∀ (plan : PlanId) (s : PlanState), p.plans[plan]? = some s → I s)
    (hs' : (p.step action).plans[plan]? = some s') : I s' := by
  rcases effect_of_step hs' with ⟨hs, _⟩ | ⟨terms, rfl⟩ | ⟨s, affected, hs, hsettles⟩
  · exact hp plan s' hs
  · exact hcreated terms
  · exact hsettled hsettles (hp plan s hs)

/-! ## Ledgers -/

theorem exists_ledger_step (p : Planner W) (action : PlannerAction) :
    ∃ changes, (p.step action).ledger = p.ledger.run changes := by
  rcases performed_step p action with hsame | ⟨reply, hperformed⟩
  · rw [hsame]
    exact ⟨[], rfl⟩
  generalize p.step action = next at hperformed ⊢
  cases hperformed with
  | created terms => exact ⟨[], rfl⟩
  | deleted hs => exact ⟨[], rfl⟩
  | changed htarget hs hsettles => exact ⟨[], rfl⟩
  | booked htarget hledger hkept hplans => exact hledger

/-- The ledger of a planner has a history of its own. -/
theorem exists_ledger_run (p : Planner W) (actions : List PlannerAction) :
    ∃ changes, (p.run actions).ledger = p.ledger.run changes := by
  refine run_induction (I := fun q => ∃ changes, q.ledger = p.ledger.run changes)
    (fun q action _ h => ?_) ⟨[], rfl⟩
  obtain ⟨before, hbefore⟩ := h
  obtain ⟨changes, hchanges⟩ := exists_ledger_step q action
  refine ⟨before ++ changes, ?_⟩
  rw [hchanges, hbefore, Ledger.run_append]

end Planner

end Curriculum
