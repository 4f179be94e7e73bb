import Std.Data.ExtTreeMap.Basic
import Curriculum.Course.Id

/-!
# Equivalence rules

A rule lets each of two courses stand in for the other where a requisite names it. Rules reach
one step: `A ~ B` and `B ~ C` do not let `A` stand in for `C`. The store links each side of a
rule to the other.
-/

namespace Curriculum

structure EquivalenceRule where
  first : CourseId
  second : CourseId
deriving DecidableEq

/-- The rule between two courses, the smaller id first. -/
def EquivalenceRule.between (a b : CourseId) : EquivalenceRule :=
  if (compare a b).isLE then ⟨a, b⟩ else ⟨b, a⟩

structure EquivalenceRules where
  links : Std.ExtTreeMap CourseId CourseSet
deriving DecidableEq

namespace EquivalenceRules

def empty : EquivalenceRules := ⟨∅⟩

def link (links : Std.ExtTreeMap CourseId CourseSet) (a b : CourseId) :
    Std.ExtTreeMap CourseId CourseSet :=
  links.alter a fun linked => some ((linked.getD ∅).insert b)

/-- Takes a link away, and its entry if that becomes empty. -/
def unlink (links : Std.ExtTreeMap CourseId CourseSet) (a b : CourseId) :
    Std.ExtTreeMap CourseId CourseSet :=
  links.alter a fun linked =>
    linked.bind fun set => if (set.erase b).isEmpty then none else some (set.erase b)

/-- Adds a rule. A rule between a course and itself says nothing. -/
def insert (r : EquivalenceRules) (rule : EquivalenceRule) : EquivalenceRules :=
  if rule.first = rule.second then r
  else ⟨link (link r.links rule.first rule.second) rule.second rule.first⟩

def erase (r : EquivalenceRules) (rule : EquivalenceRule) : EquivalenceRules :=
  ⟨unlink (unlink r.links rule.first rule.second) rule.second rule.first⟩

/-- The courses that may stand in for one. -/
def equivalents (r : EquivalenceRules) (id : CourseId) : CourseSet := r.links[id]?.getD ∅

def contains (r : EquivalenceRules) (rule : EquivalenceRule) : Bool :=
  (r.equivalents rule.first).contains rule.second

/-- Every rule, by its smaller and then by its greater side. -/
def toList (r : EquivalenceRules) : List EquivalenceRule :=
  r.links.toList.flatMap fun (a, linked) =>
    (linked.toList.filter fun b => (compare a b).isLT).map fun b => ⟨a, b⟩

def isEmpty (r : EquivalenceRules) : Bool := r.links.isEmpty

end EquivalenceRules

end Curriculum
