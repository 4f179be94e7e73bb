import Mathlib.Algebra.BigOperators.Finprod
import Mathlib.Algebra.Order.Ring.Rat
import Curriculum.Verdict

/-!
# What a verdict means

The judgement on a requisite, without an order of examination: which courses are done at a place
in time, when a leaf and a group hold, and when a planned course is satisfied. Credits are
counted in exact rationals, each course once. Positions are compared as integers, so the part
before a course at the least position has no place to stand.
-/

namespace Curriculum

instance : CreditWeight ℚ where
  zero := 0
  add := (· + ·)
  reaches sum required := decide ((required.toNat : ℚ) ≤ sum)

/-- A course planned at this position is early enough. -/
def Scope.Admits (s : Scope) (position : Int32) : Prop :=
  position.toInt < s.position.toInt ∨
    s.includesCurrent = true ∧ position.toInt = s.position.toInt

namespace Context

section

variable {W : Type} (ctx : Context W) (g : DependencyGraph)

/-- The course is planned in a term that has this position. -/
def PlannedAt (id : CourseId) (position : Int32) : Prop :=
  ∃ term, g.term? id = some term ∧ ctx.terms.position? term = some position

/-- Every planned course stands in a term with a position. -/
def TermsOrdered : Prop :=
  ∀ id term, g.term? id = some term → ∃ position, ctx.terms.position? term = some position

/-- The course is planned in the position directly before. -/
def StandsDirectlyBefore (position : Int32) (id : CourseId) : Prop :=
  ∃ k, ctx.PlannedAt g id k ∧ k.toInt = position.toInt - 1

/-- The course is completed, or planned early enough. -/
def Done (scope : Scope) (id : CourseId) : Prop :=
  ctx.ledger.contains id = true ∨ ∃ k, ctx.PlannedAt g id k ∧ scope.Admits k

/-- The course does what a leaf asks for. A part of a multi-term course must directly precede, and
having completed it does not help. -/
def Answers (scope : Scope) (id : CourseId) : Prop :=
  if id.isMultiTerm then ctx.StandsDirectlyBefore g scope.position id else ctx.Done g scope id

/-- The leaf is answered by its own course or by one equivalent to it. -/
def LeafHolds (scope : Scope) (id : CourseId) : Prop :=
  ctx.Answers g scope id ∨ ∃ e ∈ ctx.equivalences.equivalents id, ctx.Answers g scope e

/-- The courses, other than the one examined, that count toward a credit rule. -/
def creditCourses (scope : Scope) (rule : CreditRule) : Set CourseId :=
  fun id => id ≠ scope.course ∧ id.subject ∈ rule.subjects ∧ rule.matchesLevel id.level = true ∧
    ctx.Done g scope id

end

section

variable (ctx : Context ℚ) (g : DependencyGraph)

/-- A vacuous rule holds. Another one holds if the courses that count weigh enough together. -/
def CreditHolds (scope : Scope) (rule : CreditRule) : Prop :=
  rule.subjects = [] ∨ rule.required = 0 ∨
    (rule.required.toNat : ℚ) ≤ ∑ᶠ id ∈ ctx.creditCourses g scope rule, ctx.catalog.credits id

mutual

inductive NodeHolds (ctx : Context ℚ) (g : DependencyGraph) (scope : Scope) : Node → Prop
  | course {id : CourseId} (h : ctx.LeafHolds g scope id) : NodeHolds ctx g scope (.course id)
  | group {group : Group} (h : GroupHolds ctx g scope group) :
    NodeHolds ctx g scope (.group group)

inductive GroupHolds (ctx : Context ℚ) (g : DependencyGraph) (scope : Scope) : Group → Prop
  | empty : GroupHolds ctx g scope .empty
  | credit {rule : CreditRule} (h : ctx.CreditHolds g scope rule) :
    GroupHolds ctx g scope (.credit rule)
  | single {nodes : List Node} {n : Node} (hmem : n ∈ nodes) (h : NodeHolds ctx g scope n) :
    GroupHolds ctx g scope (.join .single nodes)
  | or {nodes : List Node} {n : Node} (hmem : n ∈ nodes) (h : NodeHolds ctx g scope n) :
    GroupHolds ctx g scope (.join .or nodes)
  | and {nodes : List Node} (h : ∀ n ∈ nodes, NodeHolds ctx g scope n) :
    GroupHolds ctx g scope (.join .and nodes)
  /-- Two children in different places hold, be they equal or not. -/
  | pair {nodes : List Node} {i j : Nat} {m n : Node} (hlt : i < j) (hi : nodes[i]? = some m)
    (hj : nodes[j]? = some n) (hm : NodeHolds ctx g scope m) (hn : NodeHolds ctx g scope n) :
    GroupHolds ctx g scope (.join .pair nodes)

end

/-- What a requirement of each kind demands of its group, for a course at a position. -/
def Demands (course : CourseId) (position : Int32) : RequirementKind → Group → Prop
  | .restriction, group =>
    group = .empty ∨ ¬ctx.GroupHolds g ⟨course, position, true⟩ group
  | .prerequisite, group => ctx.GroupHolds g ⟨course, position, false⟩ group
  | .corequisite, group => ctx.GroupHolds g ⟨course, position, true⟩ group

/-- The course is planned, its requirements are met there, and the part before it, if there is
one, stands directly before it. -/
def Satisfied (course : CourseId) : Prop :=
  ∃ position, ctx.PlannedAt g course position ∧
    (∀ requisites, ctx.catalog.requisites? course = some requisites →
      ∀ r ∈ requisites.toList, ctx.Demands g course position r.kind r.group) ∧
    ∀ part, course.predecessorPart? = some part → ctx.StandsDirectlyBefore g position part

end

end Context

end Curriculum
