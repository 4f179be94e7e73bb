import Std.Data.ExtTreeSet.Basic
import Curriculum.Group.Parser

/-!
# Requirements

A course has up to three requisite fields. Prerequisites are to be done before its term,
corequisites by its term, and restrictions must not be done by its term. Each field is read on
its own, so a malformed one is dropped and reported while the others stay.
-/

namespace Curriculum

inductive RequirementKind where
  | prerequisite
  | corequisite
  | restriction
deriving DecidableEq

namespace RequirementKind

/-- The kinds in the order in which requirements are examined. -/
def all : List RequirementKind := [.restriction, .prerequisite, .corequisite]

def name : RequirementKind → String
  | .prerequisite => "prerequisite"
  | .corequisite => "corequisite"
  | .restriction => "restriction"

/-- Courses of the same term count. -/
def includesCurrentTerm : RequirementKind → Bool
  | .prerequisite => false
  | .corequisite | .restriction => true

/-- A group that holds blocks the course. -/
def isExclusion : RequirementKind → Bool
  | .restriction => true
  | .prerequisite | .corequisite => false

end RequirementKind

structure Requirement where
  kind : RequirementKind
  group : Group
deriving DecidableEq

namespace Requirement

def parse (limit : Nat) (kind : RequirementKind) (text : String) :
    Except ParseError Requirement :=
  (Group.parse limit text).map (⟨kind, ·⟩)

/-- The verdict on a requirement, from that on its group with or without the current term. The
empty restriction never blocks. -/
def isMetBy {m : Type → Type} [Monad m] (r : Requirement) (holds : Group → Bool → m Bool) :
    m Bool :=
  if r.kind.isExclusion then
    if r.group.isEmpty then pure true
    else do return !(← holds r.group r.kind.includesCurrentTerm)
  else holds r.group r.kind.includesCurrentTerm

end Requirement

structure Requisites where
  prerequisites : Option Requirement
  corequisites : Option Requirement
  restrictions : Option Requirement
deriving DecidableEq

namespace Requisites

def empty : Requisites := ⟨none, none, none⟩

/-- A field that was read, or the fault that made it drop out. -/
def parseField (limit : Nat) (kind : RequirementKind) (text : Option String) :
    Option Requirement × List (RequirementKind × ParseError) :=
  match text.map (Requirement.parse limit kind) with
  | none => (none, [])
  | some (.ok requirement) => (some requirement, [])
  | some (.error fault) => (none, [(kind, fault)])

/-- Reads the three fields and lists their faults. -/
def parseFields (limit : Nat) (prerequisites corequisites restrictions : Option String) :
    Requisites × List (RequirementKind × ParseError) :=
  let p := parseField limit .prerequisite prerequisites
  let c := parseField limit .corequisite corequisites
  let r := parseField limit .restriction restrictions
  (⟨p.1, c.1, r.1⟩, p.2 ++ c.2 ++ r.2)

def get? (r : Requisites) : RequirementKind → Option Requirement
  | .prerequisite => r.prerequisites
  | .corequisite => r.corequisites
  | .restriction => r.restrictions

/-- The requirements there are, in the order in which they are examined. -/
def toList (r : Requisites) : List Requirement := RequirementKind.all.filterMap r.get?

/-- Every course that some field names. -/
def referencedCourses (r : Requisites) : CourseSet :=
  .ofList (r.toList.flatMap fun requirement => requirement.group.courses)

/-- Some field names the course. -/
def references (r : Requisites) (id : CourseId) : Bool :=
  r.toList.any fun requirement => requirement.group.references id

def creditRules (r : Requisites) : List CreditRule :=
  r.toList.flatMap fun requirement => requirement.group.creditRules

end Requisites

end Curriculum
