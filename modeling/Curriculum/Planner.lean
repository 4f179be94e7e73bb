import Curriculum.Settings
import Curriculum.Verdict

/-!
# Planner

A planner keeps any number of plans over one catalog and one ledger, and their stored verdicts up
to date. Every action is a transaction: it changes what it is meant to, recomputes the verdicts
that may have changed, and leaves everything as it was if a verdict cannot be had.
-/

namespace Curriculum

structure PlanId where
  number : UInt64
deriving DecidableEq

namespace PlanId

instance : Ord PlanId := ⟨compareOn number⟩

instance : Std.TransOrd PlanId := inferInstanceAs (Std.TransCmp (compareOn number))

instance : Std.LawfulEqOrd PlanId where
  eq_of_compare {a b} h := by
    have hnumber : a.number = b.number := Std.LawfulEqOrd.eq_of_compare h
    cases a
    cases b
    simpa using hnumber

def text (p : PlanId) : String := s!"plan-{p.number.toNat}"

end PlanId

/-- All that verdicts depend on and that belongs to one plan. -/
structure PlanState where
  graph : DependencyGraph
  terms : TermOrder
  equivalences : EquivalenceRules
deriving DecidableEq

namespace PlanState

def ofTerms (terms : TermOrder) : PlanState := ⟨.empty, terms, .empty⟩

variable {W : Type}

/-- Verdicts in this plan, with a ledger and a catalog. -/
def context (s : PlanState) (ledger : Ledger) (catalog : Catalog W) (walk : Walk := .byId) :
    Context W :=
  ⟨s.terms, ledger, catalog, s.equivalences, walk⟩

/-- Recomputes the verdicts of some courses. -/
def settle [CreditWeight W] (s : PlanState) (ledger : Ledger) (catalog : Catalog W)
    (walk : Walk) (affected : CourseSet) : Except ConsistencyError PlanState := do
  return { s with graph := ← s.graph.recompute (s.context ledger catalog walk) affected }

/-- The planned courses that depend on some courses by a rule, or by a credit rule if those are
wanted as well. -/
def changeDependents (s : PlanState) (catalog : Catalog W) (widen : Bool)
    (ids : List CourseId) : CourseSet :=
  let holders := if widen then s.graph.creditDependents (ids.map CourseId.subject) else ∅
  let equivalents := ids.flatMap fun id => (s.equivalences.equivalents id).toList
  holders ∪ s.graph.referencing catalog equivalents

/-- The planned courses whose verdict may depend on whether some courses are completed. Each
target is looked for by itself, since it may be planned and name another one. -/
def ledgerDependents (s : PlanState) (catalog : Catalog W) (changed : List CourseId) :
    CourseSet :=
  let targets := changed ++ changed.flatMap fun id => (s.equivalences.equivalents id).toList
  targets.foldl (fun found target => found ∪ s.graph.referencing catalog [target])
    (s.graph.creditDependents (changed.map CourseId.subject))

end PlanState

inductive PlannerError where
  | parse (cause : ParseError)
  | consistency (cause : ConsistencyError)
  | catalog (cause : CatalogError)
  | settings (cause : SettingsError)
  | planNotFound (plan : PlanId)
deriving DecidableEq

def PlannerError.message : PlannerError → String
  | .parse cause => s!"parse error: {cause.message}"
  | .consistency cause => s!"consistency error: {cause.message}"
  | .catalog cause => s!"catalog error: {cause.message}"
  | .settings cause => s!"config error: {cause.message}"
  | .planNotFound plan => s!"plan {plan.text} not found"

structure Planner (W : Type) where
  settings : Settings
  catalog : Catalog W
  ledger : Ledger
  plans : Std.ExtTreeMap PlanId PlanState
  nextPlan : UInt64
  /-- How the courses of each plan are met. No plan tells, and none is told apart by it. -/
  walks : PlanId → Walk

namespace Planner

variable {W : Type}

/-- A planner without plans and with an empty ledger. -/
def new (settings : Settings) (catalog : Catalog W) (walks : PlanId → Walk := fun _ => .byId) :
    Planner W :=
  ⟨settings, catalog, .empty, ∅, 1, walks⟩

/-- A planner over the records of a catalog, unless settings or records are at fault. -/
def ofRecords (settings : Settings) (records : List (CourseRecord W)) :
    Except PlannerError (Planner W) := do
  let settings ← settings.validate.mapError .settings
  let catalog ← (Catalog.ofRecords settings.nestingLimit records).mapError .catalog
  return new settings catalog

def plan (p : Planner W) (plan : PlanId) : Except PlannerError PlanState :=
  match p.plans[plan]? with
  | some state => .ok state
  | none => .error (.planNotFound plan)

def parseRequisite (p : Planner W) (text : String) : Except PlannerError Group :=
  (Group.parse p.settings.nestingLimit text).mapError .parse

/-- Starts an empty plan over terms in order of time. -/
def createPlan (p : Planner W) (terms : List TermId) : Planner W × PlanId :=
  let plan : PlanId := ⟨p.nextPlan⟩
  ({ p with
      plans := p.plans.insert plan (.ofTerms (.ofTerms terms))
      nextPlan := p.nextPlan + 1 }, plan)

/-- Removes a plan and gives its last state. -/
def deletePlan (p : Planner W) (plan : PlanId) : Except PlannerError (Planner W × PlanState) := do
  let state ← p.plan plan
  return ({ p with plans := p.plans.erase plan }, state)

/-- Carries out a change of one plan, which tells the courses to recompute. -/
def commit [CreditWeight W] (p : Planner W) (plan : PlanId)
    (change : PlanState → Except ConsistencyError (PlanState × CourseSet)) :
    Except PlannerError (Planner W × CourseSet) := do
  let state ← p.plan plan
  let (next, affected) ← (change state).mapError .consistency
  let settled ← (next.settle p.ledger p.catalog (p.walks plan) affected).mapError .consistency
  return ({ p with plans := p.plans.insert plan settled }, affected)

/-- A changed graph, and the courses to recompute after some courses have changed in it. -/
def withGraph (p : Planner W) (state : PlanState) (ids : List CourseId)
    (change : DependencyGraph × CourseSet) : PlanState × CourseSet :=
  let next := { state with graph := change.1 }
  (next,
    change.2 ∪ next.changeDependents p.catalog p.settings.widenCreditDependents ids)

def addCourses [CreditWeight W] (p : Planner W) (plan : PlanId) (term : TermId)
    (ids : List CourseId) : Except PlannerError (Planner W × CourseSet) :=
  p.commit plan fun state =>
    .ok (p.withGraph state ids (state.graph.add p.catalog term ids))

def deleteCourses [CreditWeight W] (p : Planner W) (plan : PlanId) (ids : List CourseId) :
    Except PlannerError (Planner W × CourseSet) :=
  p.commit plan fun state => .ok (p.withGraph state ids (state.graph.delete ids))

def moveCourses [CreditWeight W] (p : Planner W) (plan : PlanId) (ids : List CourseId)
    (term : TermId) : Except PlannerError (Planner W × CourseSet) :=
  p.commit plan fun state => (state.graph.move ids term).map (p.withGraph state ids)

/-- Puts the terms of a plan in another order. -/
def reorderTerms [CreditWeight W] (p : Planner W) (plan : PlanId) (terms : List TermId) :
    Except PlannerError (Planner W × CourseSet) :=
  p.commit plan fun state => .ok ({ state with terms := .ofTerms terms }, state.graph.courses)

def addEquivalence [CreditWeight W] (p : Planner W) (plan : PlanId) (rule : EquivalenceRule) :
    Except PlannerError (Planner W × CourseSet) :=
  p.commit plan fun state =>
    .ok ({ state with equivalences := state.equivalences.insert rule },
      state.graph.ruleDependents p.catalog rule)

def removeEquivalence [CreditWeight W] (p : Planner W) (plan : PlanId)
    (rule : EquivalenceRule) : Except PlannerError (Planner W × CourseSet) :=
  p.commit plan fun state =>
    .ok ({ state with equivalences := state.equivalences.erase rule },
      state.graph.ruleDependents p.catalog rule)

/-- Settles every plan of a list under a new ledger. -/
def settleAll [CreditWeight W] (catalog : Catalog W) (ledger : Ledger)
    (walks : PlanId → Walk) (changed : List CourseId) :
    List (PlanId × PlanState) → Except ConsistencyError (List (PlanId × PlanState))
  | [] => .ok []
  | (plan, state) :: rest => do
    let settled ←
      state.settle ledger catalog (walks plan) (state.ledgerDependents catalog changed)
    return (plan, settled) :: (← settleAll catalog ledger walks changed rest)

/-- Puts a new ledger into effect in all plans or in none. -/
def commitLedger [CreditWeight W] (p : Planner W) (ledger : Ledger) (changed : List CourseId) :
    Except PlannerError (Planner W) := do
  let settled ←
    (settleAll p.catalog ledger p.walks changed p.plans.toList).mapError .consistency
  return { p with
    ledger
    plans := settled.foldl (fun plans entry => plans.insert entry.1 entry.2) p.plans }

/-- Changes the ledger course by course, and lists the courses for which that made a difference. -/
def changeLedger (change : Ledger → CourseId → Bool × Ledger) (ledger : Ledger)
    (ids : List CourseId) : Ledger × List CourseId :=
  ids.foldl
    (fun (ledger, changed) id =>
      let (isNew, next) := change ledger id
      (next, if isNew then changed ++ [id] else changed))
    (ledger, [])

/-- Records completed courses. -/
def recordTaken [CreditWeight W] (p : Planner W) (ids : List CourseId) :
    Except PlannerError (Planner W) :=
  let (ledger, changed) := changeLedger Ledger.record p.ledger ids
  p.commitLedger ledger changed

/-- Forgets completed courses. -/
def forgetTaken [CreditWeight W] (p : Planner W) (ids : List CourseId) :
    Except PlannerError (Planner W) :=
  let (ledger, changed) := changeLedger Ledger.forget p.ledger ids
  p.commitLedger ledger changed

/-- The stored verdict on a course. -/
def isSatisfied (p : Planner W) (plan : PlanId) (id : CourseId) : Except PlannerError Bool :=
  (p.plan plan).map fun state => state.graph.isSatisfied id

/-- The planned courses that are not satisfied, in id order. -/
def unsatisfied (p : Planner W) (plan : PlanId) : Except PlannerError (List CourseId) :=
  (p.plan plan).map fun state =>
    (state.graph.nodes.toList.filter fun entry => !entry.2.isSatisfied).map Prod.fst

end Planner

end Curriculum
