import Curriculum.Catalog
import Curriculum.TermOrder

/-!
# Dependency graph of a plan

The graph holds the planned courses, each with its term, its stored verdict and the planned
courses that depend on it, because their requisites name it. Two indexes list the planned
courses of a subject and those with a credit rule over a subject.
-/

namespace Curriculum

structure PlannedCourse where
  term : TermId
  isSatisfied : Bool
  /-- Planned courses whose requisites name this one. -/
  dependents : CourseSet
deriving DecidableEq

abbrev SubjectIndex := Std.ExtTreeMap SubjectCode CourseSet

namespace SubjectIndex

def coursesOf (index : SubjectIndex) (subject : SubjectCode) : CourseSet :=
  index[subject]?.getD ∅

def add (index : SubjectIndex) (subject : SubjectCode) (id : CourseId) : SubjectIndex :=
  index.insert subject ((coursesOf index subject).insert id)

/-- Removes a course everywhere, with the entries that it leaves empty. -/
def remove (index : SubjectIndex) (id : CourseId) : SubjectIndex :=
  index.filterMap fun _ ids =>
    if ids.contains id then
      if (ids.erase id).isEmpty then none else some (ids.erase id)
    else some ids

end SubjectIndex

structure DependencyGraph where
  nodes : Std.ExtTreeMap CourseId PlannedCourse
  bySubject : SubjectIndex
  creditHolders : SubjectIndex
deriving DecidableEq

namespace DependencyGraph

def empty : DependencyGraph := ⟨∅, ∅, ∅⟩

def get? (g : DependencyGraph) (id : CourseId) : Option PlannedCourse := g.nodes[id]?

def contains (g : DependencyGraph) (id : CourseId) : Bool := g.nodes.contains id

def term? (g : DependencyGraph) (id : CourseId) : Option TermId :=
  (g.get? id).map PlannedCourse.term

/-- The stored verdict. A course that is not planned is not satisfied. -/
def isSatisfied (g : DependencyGraph) (id : CourseId) : Bool :=
  (g.get? id).any PlannedCourse.isSatisfied

/-- The planned courses. -/
def courses (g : DependencyGraph) : CourseSet := .ofList g.nodes.keys

def ofSubject (g : DependencyGraph) (subject : SubjectCode) : CourseSet :=
  g.bySubject.coursesOf subject

def size (g : DependencyGraph) : Nat := g.nodes.size

def isEmpty (g : DependencyGraph) : Bool := g.nodes.isEmpty

/-- Stores a verdict, if the course is planned. -/
def setSatisfied (g : DependencyGraph) (id : CourseId) (verdict : Bool) : DependencyGraph :=
  { g with nodes := g.nodes.modify id fun node => { node with isSatisfied := verdict } }

/-- The planned courses with a credit rule over one of the subjects. -/
def creditDependents (g : DependencyGraph) (subjects : List SubjectCode) : CourseSet :=
  subjects.foldl (fun found subject => found ∪ g.creditHolders.coursesOf subject) ∅

variable {W : Type}

/-- The planned courses, the targets apart, whose requisites name one of the targets. -/
def referencing (g : DependencyGraph) (catalog : Catalog W) (targets : List CourseId) :
    CourseSet :=
  g.courses.filter fun planned =>
    !targets.contains planned && targets.any fun target => catalog.references planned target

end DependencyGraph

end Curriculum
