import Curriculum.Proofs.Planner.Undo

/-!
# Outlines

The outline of a planner is its ledger, and for each plan the terms of its courses, the order of the
terms and the rules. Where the verdicts in store are right, a planner follows from its outline and
from how it walks. What an action on a list of courses does to the outline, and whether it succeeds,
can be told for two parts of the list one after the other.
-/

namespace Curriculum

/-- What a plan says apart from verdicts and indexes. -/
structure PlanOutline where
  term? : CourseId → Option TermId
  terms : TermOrder
  equivalences : EquivalenceRules

structure PlannerOutline (W : Type) where
  settings : Settings
  catalog : Catalog W
  ledger : Ledger
  plan? : PlanId → Option PlanOutline
  nextPlan : UInt64

/-- The actions on courses, each without its list of courses. -/
inductive Batch where
  | add (plan : PlanId) (term : TermId)
  | delete (plan : PlanId)
  | move (plan : PlanId) (term : TermId)
  | record
  | forget

variable {W : Type}

def PlanState.outline (s : PlanState) : PlanOutline :=
  ⟨s.graph.term?, s.terms, s.equivalences⟩

def Planner.outline (p : Planner W) : PlannerOutline W where
  settings := p.settings
  catalog := p.catalog
  ledger := p.ledger
  plan? plan := (p.plans[plan]?).map PlanState.outline
  nextPlan := p.nextPlan

/-- The courses come to a term, or from the plan. -/
def PlanOutline.place (o : PlanOutline) (ids : List CourseId) (term : Option TermId) :
    PlanOutline :=
  { o with term? := fun x => if x ∈ ids then term else o.term? x }

/-- The term can hold the courses, if there are any. -/
def PlanOutline.Takes (o : PlanOutline) (ids : List CourseId) (term : TermId) : Prop :=
  ids ≠ [] → ∃ position, o.terms.position? term = some position

def PlanOutline.PlansAll (o : PlanOutline) (ids : List CourseId) : Prop :=
  ∀ id ∈ ids, ∃ term, o.term? id = some term

/-- The plan is there, and the condition holds of it. -/
def PlannerOutline.Has (o : PlannerOutline W) (plan : PlanId) (condition : PlanOutline → Prop) :
    Prop :=
  ∃ s, o.plan? plan = some s ∧ condition s

def PlannerOutline.Plans (o : PlannerOutline W) (plan : PlanId) (id : CourseId) : Prop :=
  o.Has plan fun s => ∃ term, s.term? id = some term

def PlannerOutline.modify (o : PlannerOutline W) (plan : PlanId) (f : PlanOutline → PlanOutline) :
    PlannerOutline W :=
  { o with plan? := fun other =>
      if plan = other then (o.plan? other).map f else o.plan? other }

namespace Batch

def action : Batch → List CourseId → PlannerAction
  | .add plan term, ids => .addCourses plan term ids
  | .delete plan, ids => .deleteCourses plan ids
  | .move plan term, ids => .moveCourses plan ids term
  | .record, ids => .recordTaken ids
  | .forget, ids => .forgetTaken ids

/-- What the action makes of an outline. -/
def outline (b : Batch) (ids : List CourseId) (o : PlannerOutline W) : PlannerOutline W :=
  match b with
  | .add plan term | .move plan term => o.modify plan (·.place ids (some term))
  | .delete plan => o.modify plan (·.place ids none)
  | .record => { o with ledger := (Planner.changeLedger Ledger.record o.ledger ids).1 }
  | .forget => { o with ledger := (Planner.changeLedger Ledger.forget o.ledger ids).1 }

/-- The outline allows for the action. -/
def Admits (b : Batch) (ids : List CourseId) (o : PlannerOutline W) : Prop :=
  match b with
  | .add plan term => o.Has plan fun s => s.Takes ids term
  | .delete plan => o.Has plan fun _ => True
  | .move plan term => o.Has plan fun s => s.PlansAll ids ∧ s.Takes ids term
  | .record | .forget => True

end Batch

/-! ## Outlines of batches -/

variable {xs ys : List CourseId}

namespace Batch

end Batch

/-! ## What an outline determines -/

variable [CreditWeight W]

namespace PlanState

variable {catalog : Catalog W} {s s' next : PlanState} {ledger : Ledger} {walk : Walk}
  {affected : CourseSet}

theorem eq_of_outline (hs : s.Sound catalog) (hs' : s'.Sound catalog)
    (hup : s.UpToDate ledger catalog walk) (hup' : s'.UpToDate ledger catalog walk)
    (h : s'.outline = s.outline) : s' = s := by
  have hterm (x : CourseId) : s'.graph.term? x = s.graph.term? x :=
    congrFun (congrArg PlanOutline.term? h) x
  have hterms : s'.terms = s.terms := congrArg PlanOutline.terms h
  have hrules : s'.equivalences = s.equivalences := congrArg PlanOutline.equivalences h
  have hgraph : s'.graph = s.graph := by
    refine hs.exact.eq_of_verdicts hs'.exact hterm fun d node node' hnode hnode' => ?_
    have hverdict : s'.verdict ledger catalog walk d = s.verdict ledger catalog walk d :=
      verdict_of_term? hs.exact hs'.exact hterms hrules hterm d
    rw [hup d node hnode, hup' d node' hnode'] at hverdict
    exact Except.ok.inj hverdict
  cases s
  cases s'
  simp_all

end PlanState

namespace Planner

variable {p p' : Planner W} {b : Batch} {ids : List CourseId} {reply : PlannerReply}

theorem eq_of_outline (hp : p.Consistent) (hp' : p'.Consistent) (hup : p.UpToDate)
    (hup' : p'.UpToDate) (h : p'.outline = p.outline) (hwalks : p'.walks = p.walks) :
    p' = p := by
  have hcatalog : p'.catalog = p.catalog := congrArg PlannerOutline.catalog h
  have hledger : p'.ledger = p.ledger := congrArg PlannerOutline.ledger h
  have hplans : p'.plans = p.plans := by
    apply Std.ExtTreeMap.ext_getElem?
    intro plan
    have hplan : (p'.plans[plan]?).map PlanState.outline = (p.plans[plan]?).map PlanState.outline :=
      congrFun (congrArg PlannerOutline.plan? h) plan
    cases hs' : p'.plans[plan]? with
    | none =>
        rw [hs', Option.map_none, eq_comm, Option.map_eq_none_iff] at hplan
        exact hplan.symm
    | some s' =>
        rw [hs', Option.map_some, eq_comm, Option.map_eq_some_iff] at hplan
        obtain ⟨s, hs, houtline⟩ := hplan
        have hsound' := (hp' plan s' hs').sound
        have hfresh' := hup' plan s' hs'
        rw [hcatalog] at hsound' hfresh'
        rw [hledger, hwalks] at hfresh'
        rw [hs, PlanState.eq_of_outline (hp plan s hs).sound hsound' (hup plan s hs) hfresh'
          houtline.symm]
  cases p
  cases p'
  simp_all [outline]

end Planner

end Curriculum
