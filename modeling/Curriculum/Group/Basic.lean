import Curriculum.Group.CreditRule

/-!
# Requisite groups

A requisite is a tree whose leaves are courses and credit rules. `COMP 250 + (MATH 235 / MATH 240)`
asks for the first course and one of the other two; `a | b | c` asks for two of three; courses
without an operator form a single group, of which one is enough.
-/

namespace Curriculum

/-- How the children of a group are joined. -/
inductive Connective where
  | single
  | and
  | or
  | pair
deriving DecidableEq

inductive GroupKind where
  | and
  | or
  | single
  | pair
  | credit
  | empty
deriving DecidableEq

namespace GroupKind

/-- The operator that types a group of this kind. -/
def operator? : GroupKind → Option Char
  | .and => some '+'
  | .or => some '/'
  | .pair => some '|'
  | .credit => some '-'
  | .single | .empty => none

def ofOperator? : Char → Option GroupKind
  | '+' => some .and
  | '/' => some .or
  | '|' => some .pair
  | '-' => some .credit
  | _ => none

def connective? : GroupKind → Option Connective
  | .and => some .and
  | .or => some .or
  | .single => some .single
  | .pair => some .pair
  | .credit | .empty => none

end GroupKind

def Connective.kind : Connective → GroupKind
  | .single => .single
  | .and => .and
  | .or => .or
  | .pair => .pair

mutual

inductive Node where
  | course (id : CourseId)
  | group (g : Group)

inductive Group where
  /-- The group that always holds, written `()`. -/
  | empty
  | credit (rule : CreditRule)
  | join (connective : Connective) (children : List Node)

end

instance : Inhabited Group := ⟨.empty⟩

instance : Inhabited Node := ⟨.group .empty⟩

mutual

def Node.decEq : (a b : Node) → Decidable (a = b)
  | .course x, .course y => decidable_of_iff (x = y) (by simp)
  | .group g, .group h =>
    haveI := Group.decEq g h
    decidable_of_iff (g = h) (by simp)
  | .course _, .group _ => isFalse (by simp)
  | .group _, .course _ => isFalse (by simp)

def Group.decEq : (g h : Group) → Decidable (g = h)
  | .empty, .empty => isTrue rfl
  | .credit r, .credit s => decidable_of_iff (r = s) (by simp)
  | .join c xs, .join d ys =>
    haveI := Node.decEqAll xs ys
    decidable_of_iff (c = d ∧ xs = ys) (by simp)
  | .empty, .credit _ => isFalse (by simp)
  | .empty, .join .. => isFalse (by simp)
  | .credit _, .empty => isFalse (by simp)
  | .credit _, .join .. => isFalse (by simp)
  | .join .., .empty => isFalse (by simp)
  | .join .., .credit _ => isFalse (by simp)

def Node.decEqAll : (xs ys : List Node) → Decidable (xs = ys)
  | [], [] => isTrue rfl
  | x :: xs, y :: ys =>
    haveI := Node.decEq x y
    haveI := Node.decEqAll xs ys
    decidable_of_iff (x = y ∧ xs = ys) (by simp)
  | [], _ :: _ => isFalse (by simp)
  | _ :: _, [] => isFalse (by simp)

end

instance : DecidableEq Node := Node.decEq

instance : DecidableEq Group := Group.decEq

namespace Group

def course (id : CourseId) : Group := .join .single [.course id]

/-- A group of the given kind; only a join keeps the children. -/
def ofKind (kind : GroupKind) (children : List Node) : Group :=
  match kind.connective? with
  | some connective => .join connective children
  | none => .empty

def kind : Group → GroupKind
  | .empty => .empty
  | .credit _ => .credit
  | .join connective _ => connective.kind

def children : Group → List Node
  | .join _ nodes => nodes
  | _ => []

def isEmpty : Group → Bool
  | .empty => true
  | _ => false

end Group

mutual

/-- The course leaves of a node, from left to right. -/
def Node.courses : Node → List CourseId
  | .course id => [id]
  | .group g => g.courses

def Group.courses : Group → List CourseId
  | .join _ nodes => Node.coursesAll nodes
  | _ => []

def Node.coursesAll : List Node → List CourseId
  | [] => []
  | n :: rest => n.courses ++ Node.coursesAll rest

end

mutual

/-- The credit rules of a node, from left to right. -/
def Node.creditRules : Node → List CreditRule
  | .course _ => []
  | .group g => g.creditRules

def Group.creditRules : Group → List CreditRule
  | .empty => []
  | .credit rule => [rule]
  | .join _ nodes => Node.creditRulesAll nodes

def Node.creditRulesAll : List Node → List CreditRule
  | [] => []
  | n :: rest => n.creditRules ++ Node.creditRulesAll rest

end

mutual

/-- The course is one of the leaves. -/
def Node.references (id : CourseId) : Node → Bool
  | .course c => c == id
  | .group g => g.references id

def Group.references (id : CourseId) : Group → Bool
  | .join _ nodes => Node.referencesAny id nodes
  | _ => false

def Node.referencesAny (id : CourseId) : List Node → Bool
  | [] => false
  | n :: rest => n.references id || Node.referencesAny id rest

end

end Curriculum
