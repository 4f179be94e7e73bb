import Curriculum.Plan.Change
import Curriculum.Ledger

/-!
# Verdicts

A planned course is satisfied when its requisites hold at its term and, if it is a later part of
a multi-term course, the part before it stands in the term directly before. A course that is
neither planned nor completed satisfies nothing; the one thing that can go wrong is a planned
course whose term has no position.
-/

namespace Curriculum

/-- The order in which the planned courses of a subject are met. It is the same every time for the
same courses of one subject; nothing else is known of it. -/
structure Walk where
  list : SubjectCode → CourseSet → List CourseId
  perm (subject : SubjectCode) (courses : CourseSet) :
    (list subject courses).Perm courses.toList

/-- The courses of every subject are met in id order. -/
def Walk.byId : Walk := ⟨fun _ courses => courses.toList, fun _ _ => .refl _⟩

/-- What verdicts depend on besides the plan's graph. -/
structure Context (W : Type) where
  terms : TermOrder
  ledger : Ledger
  catalog : Catalog W
  equivalences : EquivalenceRules
  walk : Walk

/-- Where a requisite is examined: for which course, at which position in time. -/
structure Scope where
  course : CourseId
  position : Int32
  includesCurrent : Bool
deriving DecidableEq

namespace Scope

/-- A course planned at this position counts as done. -/
def admits (s : Scope) (position : Int32) : Bool :=
  position < s.position || (s.includesCurrent && position == s.position)

end Scope

/-- The position directly before, unless there is none. -/
def previousPosition? (position : Int32) : Option Int32 :=
  if position = Int32.minValue then none else some (position - 1)

/-- A verdict, or the reason why there is none. -/
abbrev Verdict := Except ConsistencyError Bool

variable {W : Type}

namespace Context

/-- The position of a course in the plan; `none` if it is not planned. -/
def plannedPosition (ctx : Context W) (g : DependencyGraph) (id : CourseId) :
    Except ConsistencyError (Option Int32) :=
  match g.term? id with
  | none => .ok none
  | some term =>
    match ctx.terms.position? term with
    | some position => .ok (some position)
    | none => .error (.termNotOrdered id term)

/-- The course is planned where the scope admits it. -/
def plannedWithin (ctx : Context W) (g : DependencyGraph) (scope : Scope) (id : CourseId) :
    Verdict := do
  return (← ctx.plannedPosition g id).any scope.admits

/-- The course itself satisfies a leaf. A part of a multi-term course does so only from the
position directly before. -/
def leafHoldsBy (ctx : Context W) (g : DependencyGraph) (scope : Scope) (id : CourseId) :
    Verdict :=
  if id.isMultiTerm then do
    let planned ← ctx.plannedPosition g id
    return planned.isSome && planned == previousPosition? scope.position
  else if ctx.ledger.contains id then .ok true
  else ctx.plannedWithin g scope id

/-- The first of some courses that satisfies a leaf decides. -/
def leafHoldsByAny (ctx : Context W) (g : DependencyGraph) (scope : Scope) :
    List CourseId → Verdict
  | [] => .ok false
  | id :: rest => do
    if ← ctx.leafHoldsBy g scope id then return true
    ctx.leafHoldsByAny g scope rest

/-- A leaf holds by its course or by an equivalent one. -/
def leafHolds (ctx : Context W) (g : DependencyGraph) (scope : Scope) (id : CourseId) : Verdict :=
  ctx.leafHoldsByAny g scope (id :: (ctx.equivalences.equivalents id).toList)

/-- The courses that may count toward a credit rule, completed ones before planned ones. -/
def creditCandidates (ctx : Context W) (g : DependencyGraph) (scope : Scope)
    (rule : CreditRule) : List CourseId :=
  ((rule.subjects.flatMap fun subject =>
      ctx.ledger.ofSubject subject ++ ctx.walk.list subject (g.ofSubject subject)).filter fun id =>
    id != scope.course && rule.counts id).eraseDups

/-- Counts the credits of courses that are done until there are enough. -/
def creditsReach [CreditWeight W] (ctx : Context W) (g : DependencyGraph) (scope : Scope)
    (required : UInt32) (sum : W) : List CourseId → Verdict
  | [] => .ok false
  | id :: rest => do
    let done ← if ctx.ledger.contains id then .ok true else ctx.plannedWithin g scope id
    if done then
      let next := CreditWeight.add sum (ctx.catalog.credits id)
      if CreditWeight.reaches next required then return true
      ctx.creditsReach g scope required next rest
    else ctx.creditsReach g scope required sum rest

def creditHolds [CreditWeight W] (ctx : Context W) (g : DependencyGraph) (scope : Scope)
    (rule : CreditRule) : Verdict :=
  if rule.isVacuous then .ok true
  else ctx.creditsReach g scope rule.required CreditWeight.zero (ctx.creditCandidates g scope rule)

mutual

def nodeHolds [CreditWeight W] (ctx : Context W) (g : DependencyGraph) (scope : Scope) :
    Node → Verdict
  | .course id => ctx.leafHolds g scope id
  | .group group => ctx.groupHolds g scope group

def groupHolds [CreditWeight W] (ctx : Context W) (g : DependencyGraph) (scope : Scope) :
    Group → Verdict
  | .empty => .ok true
  | .credit rule => ctx.creditHolds g scope rule
  | .join .and nodes => ctx.allHold g scope nodes
  | .join .pair nodes => ctx.enoughHold g scope 2 nodes
  | .join .or nodes => ctx.enoughHold g scope 1 nodes
  | .join .single nodes => ctx.enoughHold g scope 1 nodes

/-- Examines nodes until one does not hold. -/
def allHold [CreditWeight W] (ctx : Context W) (g : DependencyGraph) (scope : Scope) :
    List Node → Verdict
  | [] => .ok true
  | node :: rest => do
    if ← ctx.nodeHolds g scope node then ctx.allHold g scope rest else return false

/-- Examines nodes until as many as are wanted hold. -/
def enoughHold [CreditWeight W] (ctx : Context W) (g : DependencyGraph) (scope : Scope)
    (wanted : Nat) : List Node → Verdict
  | [] => .ok (wanted == 0)
  | node :: rest => do
    if wanted = 0 then return true
    if ← ctx.nodeHolds g scope node then ctx.enoughHold g scope (wanted - 1) rest
    else ctx.enoughHold g scope wanted rest

end

/-- Examines requirements until one is not met. -/
def allMet [CreditWeight W] (ctx : Context W) (g : DependencyGraph) (course : CourseId)
    (position : Int32) : List Requirement → Verdict
  | [] => .ok true
  | requirement :: rest => do
    let met ← requirement.isMetBy fun group includesCurrent =>
      ctx.groupHolds g ⟨course, position, includesCurrent⟩ group
    if met then ctx.allMet g course position rest else return false

def requisitesHold [CreditWeight W] (ctx : Context W) (g : DependencyGraph) (course : CourseId)
    (position : Int32) : Verdict :=
  ctx.allMet g course position (((ctx.catalog.requisites? course).map Requisites.toList).getD [])

/-- The part before a later part of a multi-term course stands directly before it. -/
def predecessorInPlace (ctx : Context W) (g : DependencyGraph) (course : CourseId)
    (position : Int32) : Verdict :=
  match course.predecessorPart? with
  | none => .ok true
  | some part => do
    let planned ← ctx.plannedPosition g part
    return planned.isSome && planned == previousPosition? position

/-- The verdict on a course, from scratch. -/
def isSatisfied [CreditWeight W] (ctx : Context W) (g : DependencyGraph) (course : CourseId) :
    Verdict := do
  match ← ctx.plannedPosition g course with
  | none => return false
  | some position =>
    if ← ctx.requisitesHold g course position then ctx.predecessorInPlace g course position
    else return false

end Context

namespace DependencyGraph

/-- The verdicts of the planned courses among some, all on the graph as it is. -/
def verdicts [CreditWeight W] (g : DependencyGraph) (ctx : Context W) (courses : CourseSet) :
    Except ConsistencyError (List (CourseId × Bool)) :=
  (courses.toList.filter g.contains).mapM fun id => do
    return (id, ← ctx.isSatisfied g id)

/-- Stores the verdicts of the planned courses among some. No verdict is stored unless all can
be had. -/
def recompute [CreditWeight W] (g : DependencyGraph) (ctx : Context W) (courses : CourseSet) :
    Except ConsistencyError DependencyGraph := do
  return (← g.verdicts ctx courses).foldl (fun g verdict => g.setSatisfied verdict.1 verdict.2) g

def recomputeAll [CreditWeight W] (g : DependencyGraph) (ctx : Context W) :
    Except ConsistencyError DependencyGraph :=
  g.recompute ctx g.courses

end DependencyGraph

end Curriculum
