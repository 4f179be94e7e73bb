import Curriculum.Group.Basic

/-!
# Writing groups

The text of a group reads back to the group, simplified. Two devices make that so: an operator
that trails a group of fewer than two children keeps its type, and the children of a single
group stand in parentheses side by side, since courses without an operator would run together.
-/

namespace Curriculum

/-- What stands between two children. -/
def Connective.separator : Connective → List Char
  | .single => []
  | .and => [' ', '+', ' ']
  | .or => [' ', '/', ' ']
  | .pair => [' ', '|', ' ']

/-- What follows the last of `count` children. -/
def Connective.trailer (c : Connective) (count : Nat) : List Char :=
  match c.kind.operator?, count with
  | some op, 0 => [op]
  | some op, 1 => [' ', op]
  | _, _ => []

mutual

/-- The text of a node between operators. -/
def Node.chars : Node → List Char
  | .course id => id.chars
  | .group .empty => ['(', ')']
  | .group g => '(' :: g.chars ++ [')']

def Group.chars : Group → List Char
  | .empty => ['(', ')']
  | .credit rule => rule.chars
  | .join c nodes =>
    if c = .single ∧ 2 ≤ nodes.length then Node.wrappedAll nodes
    else Node.separatedBy c.separator nodes ++ c.trailer nodes.length

/-- Nodes side by side, each in parentheses. -/
def Node.wrappedAll : List Node → List Char
  | [] => []
  | .course id :: rest => '(' :: id.chars ++ ')' :: Node.wrappedAll rest
  | .group g :: rest => Node.chars (.group g) ++ Node.wrappedAll rest

def Node.separatedBy (separator : List Char) : List Node → List Char
  | [] => []
  | [n] => n.chars
  | n :: rest => n.chars ++ separator ++ Node.separatedBy separator rest

end

def Group.text (g : Group) : String := String.ofList g.chars

end Curriculum
