import Curriculum.Proofs.Planner.Consistency

/-!
# Actions on a planner in place

A planner that is held in one place is written to plan by plan, and an action that fails halfway
would leave it half changed. Here the actions are told with each write where it takes place. No
action writes before everything that can fail has been done, so what comes of it is the next planner
or the one before.
-/

namespace Curriculum

namespace Planner

variable {W : Type}

/-- A result or an error, and either way the planner that is there then. -/
abbrev InPlace (W α : Type) := ExceptT PlannerError (StateM (Planner W)) α

namespace InPlace

def exec {α : Type} (x : InPlace W α) (p : Planner W) : Except PlannerError α × Planner W :=
  x.run.run p

def attempt {α : Type} (result : Except PlannerError α) : InPlace W α := ExceptT.mk (pure result)

def check {α : Type} (result : Except ConsistencyError α) : InPlace W α :=
  attempt (result.mapError .consistency)

def writePlan (plan : PlanId) (s : PlanState) : InPlace W Unit :=
  modify fun p => { p with plans := p.plans.insert plan s }

def removePlan (plan : PlanId) : InPlace W Unit :=
  modify fun p => { p with plans := p.plans.erase plan }

def writeLedger (ledger : Ledger) : InPlace W Unit :=
  modify fun p => { p with ledger }

/-- Takes a number for a new plan. -/
def drawNumber : InPlace W UInt64 := do
  let p ← get
  set { p with nextPlan := p.nextPlan + 1 }
  return p.nextPlan

/-- Writes several plans, one after the other. -/
def writePlans : List (PlanId × PlanState) → InPlace W Unit
  | [] => return ()
  | (plan, s) :: rest => do
    writePlan plan s
    writePlans rest

variable [CreditWeight W]

/-- Settles several plans, one after the other, and keeps them aside. -/
def stage (ledger : Ledger) (changed : List CourseId) :
    List (PlanId × PlanState) → InPlace W (List (PlanId × PlanState))
  | [] => return []
  | (plan, s) :: rest => do
    let p ← get
    let settled ←
      check (s.settle ledger p.catalog (p.walks plan) (s.ledgerDependents p.catalog changed))
    return (plan, settled) :: (← stage ledger changed rest)

def changePlan (plan : PlanId)
    (change : Planner W → PlanState → Except ConsistencyError (PlanState × CourseSet)) :
    InPlace W PlannerReply := do
  let p ← get
  let s ← attempt (p.plan plan)
  let (next, affected) ← check (change p s)
  let settled ← check (next.settle p.ledger p.catalog (p.walks plan) affected)
  writePlan plan settled
  return .recomputed affected

def changeBooks (change : Ledger → CourseId → Bool × Ledger) (ids : List CourseId) :
    InPlace W PlannerReply := do
  let p ← get
  let (ledger, changed) := changeLedger change p.ledger ids
  let staged ← stage ledger changed p.plans.toList
  writePlans staged
  writeLedger ledger
  return .done

end InPlace

open InPlace

variable [CreditWeight W]

/-- Carries out an action in place. -/
def inPlace : PlannerAction → InPlace W PlannerReply
  | .createPlan terms => do
    let number ← drawNumber
    writePlan ⟨number⟩ (.ofTerms (.ofTerms terms))
    return .created ⟨number⟩
  | .deletePlan plan => do
    let p ← get
    removePlan plan
    let s ← attempt (p.plan plan)
    return .deleted s
  | .addCourses plan term ids =>
    changePlan plan fun p s => .ok (p.withGraph s ids (s.graph.add p.catalog term ids))
  | .deleteCourses plan ids =>
    changePlan plan fun p s => .ok (p.withGraph s ids (s.graph.delete ids))
  | .moveCourses plan ids term =>
    changePlan plan fun p s => (s.graph.move ids term).map (p.withGraph s ids)
  | .reorderTerms plan terms =>
    changePlan plan fun _ s => .ok ({ s with terms := .ofTerms terms }, s.graph.courses)
  | .addEquivalence plan rule =>
    changePlan plan fun p s =>
      .ok ({ s with equivalences := s.equivalences.insert rule },
        s.graph.ruleDependents p.catalog rule)
  | .removeEquivalence plan rule =>
    changePlan plan fun p s =>
      .ok ({ s with equivalences := s.equivalences.erase rule },
        s.graph.ruleDependents p.catalog rule)
  | .recordTaken ids => changeBooks Ledger.record ids
  | .forgetTaken ids => changeBooks Ledger.forget ids

/-- What an action answers in place, and the planner that is there afterwards. -/
def transact (p : Planner W) (action : PlannerAction) :
    Except PlannerError PlannerReply × Planner W :=
  (inPlace action).exec p

/-! ## All writes or none -/

/-- The answer of an action and the planner it leaves, which is the same one if it fails. -/
def outcome (p : Planner W) :
    Except PlannerError (Planner W × PlannerReply) → Except PlannerError PlannerReply × Planner W
  | .ok (next, reply) => (.ok reply, next)
  | .error e => (.error e, p)

variable {p : Planner W} {action : PlannerAction} {plan : PlanId} {ledger : Ledger}
  {changed ids : List CourseId} {entries : List (PlanId × PlanState)}

namespace InPlace

section

omit [CreditWeight W]

theorem exec_bind {α β : Type} (x : InPlace W α) (f : α → InPlace W β) :
    (x >>= f).exec p = match x.exec p with
      | (.ok a, q) => (f a).exec q
      | (.error e, q) => (.error e, q) := by
  unfold exec
  simp only [ExceptT.run_bind, StateT.run_bind]
  cases x.run.run p with
  | mk result q => cases result <;> rfl

theorem exec_get : (get : InPlace W (Planner W)).exec p = (.ok p, p) :=
  rfl

theorem exec_attempt {α : Type} (result : Except PlannerError α) :
    (attempt result).exec p = (result, p) :=
  rfl

theorem exec_check {α : Type} (result : Except ConsistencyError α) :
    (check result).exec p = (result.mapError .consistency, p) :=
  rfl

theorem exec_writePlan {s : PlanState} :
    (writePlan plan s).exec p = (.ok (), { p with plans := p.plans.insert plan s }) :=
  rfl

theorem exec_removePlan :
    (removePlan plan).exec p = (.ok (), { p with plans := p.plans.erase plan }) :=
  rfl

theorem exec_writeLedger : (writeLedger ledger).exec p = (.ok (), { p with ledger }) :=
  rfl

theorem erase_of_missing {plans : Std.ExtTreeMap PlanId PlanState} (h : plans[plan]? = none) :
    plans.erase plan = plans := by
  apply Std.ExtTreeMap.ext_getElem?
  intro other
  rw [Std.ExtTreeMap.getElem?_erase]
  split
  next heq => rw [← Std.LawfulEqOrd.eq_of_compare heq, h]
  next => rfl

theorem exec_writePlans : (writePlans entries).exec p = (.ok (), { p with
    plans := entries.foldl (fun plans entry => plans.insert entry.1 entry.2) p.plans }) := by
  induction entries generalizing p with
  | nil => rfl
  | cons entry rest ih =>
      rw [writePlans, exec_bind, exec_writePlan]
      exact ih

end

theorem exec_stage : (stage ledger changed entries).exec p =
    ((settleAll p.catalog ledger p.walks changed entries).mapError .consistency, p) := by
  induction entries with
  | nil => rfl
  | cons entry rest ih =>
      simp only [stage, settleAll, exec_bind, exec_get, exec_check]
      cases entry.2.settle ledger p.catalog (p.walks entry.1)
        (entry.2.ledgerDependents p.catalog changed) with
      | error cause => rfl
      | ok settled =>
          simp only [Except.mapError, ih]
          cases settleAll p.catalog ledger p.walks changed rest <;> rfl

theorem exec_changePlan
    {change : Planner W → PlanState → Except ConsistencyError (PlanState × CourseSet)} :
    (changePlan plan change).exec p = p.outcome ((p.commit plan (change p)).map
      fun (next, affected) => (next, .recomputed affected)) := by
  simp only [changePlan, exec_bind, exec_get, exec_attempt, exec_check, Planner.plan]
  cases hs : p.plans[plan]? with
  | none =>
      rw [commit_of_missing hs]
      rfl
  | some s =>
      cases hchange : change p s with
      | error cause =>
          rw [commit_of_refused hs hchange]
          simp only [hchange]
          rfl
      | ok result =>
          rw [commit_of_change hs hchange]
          simp only [hchange, Except.mapError]
          cases result.1.settle p.ledger p.catalog (p.walks plan) result.2 <;> rfl

theorem exec_changeBooks {change : Ledger → CourseId → Bool × Ledger} :
    (changeBooks change ids).exec p =
      p.outcome ((p.commitLedger (changeLedger change p.ledger ids).1
        (changeLedger change p.ledger ids).2).map fun next => (next, .done)) := by
  simp only [changeBooks, commitLedger, exec_bind, exec_get, exec_stage]
  cases hsettled : settleAll p.catalog (changeLedger change p.ledger ids).1 p.walks
      (changeLedger change p.ledger ids).2 p.plans.toList with
  | error cause => rfl
  | ok settled =>
      simp only [Except.mapError, exec_writePlans, exec_writeLedger]
      rfl

end InPlace

/-- An action in place leaves the planner that it comes to, or the one that was there. -/
theorem transact_eq (p : Planner W) (action : PlannerAction) :
    p.transact action = p.outcome (p.perform action) := by
  unfold transact
  cases action with
  | createPlan terms => rfl
  | deletePlan plan =>
      simp only [inPlace, perform, deletePlan, Planner.plan, exec_bind, exec_get, exec_removePlan,
        exec_attempt]
      cases hs : p.plans[plan]? with
      | none =>
          have hsame : p.plans.erase plan = p.plans := erase_of_missing hs
          rw [hsame]
          rfl
      | some s => rfl
  | addCourses | deleteCourses | moveCourses | reorderTerms | addEquivalence
  | removeEquivalence =>
      rw [inPlace, exec_changePlan]
      rfl
  | recordTaken | forgetTaken =>
      rw [inPlace, exec_changeBooks]
      rfl

theorem transact_of_error {e : PlannerError} (h : (p.transact action).1 = .error e) :
    p.perform action = .error e ∧ (p.transact action).2 = p := by
  rw [transact_eq] at h ⊢
  cases hperform : p.perform action with
  | error e' =>
      rw [hperform] at h
      cases h
      exact ⟨rfl, rfl⟩
  | ok result =>
      rw [hperform] at h
      cases h

theorem transact_of_ok {reply : PlannerReply} (h : (p.transact action).1 = .ok reply) :
    p.perform action = .ok ((p.transact action).2, reply) := by
  rw [transact_eq] at h ⊢
  cases hperform : p.perform action with
  | error e =>
      rw [hperform] at h
      cases h
  | ok result =>
      rw [hperform] at h
      cases h
      rfl

theorem transact_snd (p : Planner W) (action : PlannerAction) :
    (p.transact action).2 = p.step action := by
  rw [transact_eq, step]
  cases p.perform action <;> rfl

end Planner

end Curriculum
