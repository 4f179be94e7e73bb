import Curriculum.Plan.Graph
import Curriculum.Equivalence

/-!
# Changes to a plan

Courses are added to a term, deleted, or moved to another term, and equivalence rules come and
go. Each change gives the next graph together with the planned courses whose verdicts it may
touch. Stored verdicts are left alone; a course that is added starts unsatisfied.
-/

namespace Curriculum

inductive ConsistencyError where
  | notPlanned (id : CourseId)
  | termNotOrdered (id : CourseId) (term : TermId)
deriving DecidableEq

def ConsistencyError.message : ConsistencyError → String
  | .notPlanned id => s!"course {id.text} is not planned"
  | .termNotOrdered id term =>
    s!"course {id.text} is planned in term {term.text}, which has no order"

namespace DependencyGraph

variable {W : Type}

/-- The part of a multi-term course that follows a course, if it is planned. -/
def plannedSuccessor (g : DependencyGraph) (id : CourseId) : CourseSet :=
  match id.successorPart? with
  | some part => if g.contains part then {part} else ∅
  | none => ∅

/-- Tells the planned courses that a course names about it. -/
def linkForward (g : DependencyGraph) (id : CourseId) (requisites : Requisites) :
    DependencyGraph :=
  let targets := requisites.referencedCourses.erase id
  { g with
    nodes := targets.foldl
      (fun nodes target => nodes.modify target fun node =>
        { node with dependents := node.dependents.insert id })
      g.nodes
    creditHolders := (requisites.creditRules.flatMap CreditRule.subjects).foldl
      (fun index subject => index.add subject id) g.creditHolders }

/-- Places one course, in place of itself if it is planned already. -/
def place (g : DependencyGraph) (catalog : Catalog W) (term : TermId) (id : CourseId) :
    DependencyGraph :=
  let known := ((g.get? id).map PlannedCourse.dependents).getD ∅
  let node : PlannedCourse := ⟨term, false, known ∪ g.referencing catalog [id]⟩
  let placed : DependencyGraph :=
    { g with nodes := g.nodes.insert id node, bySubject := g.bySubject.add id.subject id }
  match catalog.requisites? id with
  | some requisites => placed.linkForward id requisites
  | none => placed

/-- Places courses in a term, one after the other. -/
def add (g : DependencyGraph) (catalog : Catalog W) (term : TermId) (ids : List CourseId) :
    DependencyGraph × CourseSet :=
  ids.foldl
    (fun (g, affected) id =>
      let next := g.place catalog term id
      (next, (affected ∪ g.referencing catalog [id]).insert id ∪ next.plannedSuccessor id))
    (g, ∅)

/-- Takes one course off the plan, with what depended on it. -/
def withdraw (g : DependencyGraph) (id : CourseId) : DependencyGraph × CourseSet :=
  match g.get? id with
  | none => (g, ∅)
  | some node =>
    (⟨g.nodes.erase id, g.bySubject.remove id, g.creditHolders.remove id⟩,
      match id.successorPart? with
      | some part => node.dependents.insert part
      | none => node.dependents)

/-- Removes courses from the sets of dependents. -/
def forgetDependents (g : DependencyGraph) (ids : List CourseId) : DependencyGraph :=
  { g with
    nodes := g.nodes.map fun _ node =>
      { node with dependents := node.dependents.filter fun id => !ids.contains id } }

/-- Deletes courses. Those that are not planned are left out of account. -/
def delete (g : DependencyGraph) (ids : List CourseId) : DependencyGraph × CourseSet :=
  let (withdrawn, affected) := ids.foldl
    (fun (g, affected) id => ((g.withdraw id).1, affected ∪ (g.withdraw id).2)) (g, ∅)
  let next := withdrawn.forgetDependents ids
  (next, affected.filter next.contains)

/-- Moves one planned course to another term. -/
def relocate (g : DependencyGraph) (term : TermId) (id : CourseId) : DependencyGraph :=
  { g with nodes := g.nodes.modify id fun node => { node with term } }

/-- Moves courses to another term, unless one of them is not planned. -/
def move (g : DependencyGraph) (ids : List CourseId) (term : TermId) :
    Except ConsistencyError (DependencyGraph × CourseSet) :=
  match ids.find? fun id => !g.contains id with
  | some id => .error (.notPlanned id)
  | none => .ok <| ids.foldl
      (fun (g, affected) id =>
        let dependents := ((g.get? id).map PlannedCourse.dependents).getD ∅
        (g.relocate term id, (affected ∪ dependents).insert id ∪ g.plannedSuccessor id))
      (g, ∅)

/-- The planned courses that name a side of a rule, be they a side themselves or not. -/
def ruleDependents (g : DependencyGraph) (catalog : Catalog W) (rule : EquivalenceRule) :
    CourseSet :=
  let names (side other : CourseId) : CourseSet :=
    if g.contains side && catalog.references side other then {side} else ∅
  g.referencing catalog [rule.first, rule.second] ∪ names rule.first rule.second ∪
    names rule.second rule.first

end DependencyGraph

end Curriculum
