import Curriculum.Group.Basic

/-!
# Simplified groups

Simplifying merges a child into its parent when both are joined alike or the child is a single
group, and replaces a group whose only child is a group by that child.
-/

namespace Curriculum

mutual

/-- The nodes that stand for a child once it is merged into a parent joined by `parent`. -/
def Node.splice (parent : Connective) : Node → List Node
  | .course id => [.course id]
  | .group g => g.splice parent

def Group.splice (parent : Connective) : Group → List Node
  | .empty => [.group .empty]
  | .credit rule => [.group (.credit rule)]
  | .join c nodes =>
    if c = parent ∨ c = .single then Node.spliceAll parent nodes else [.group (.join c nodes)]

def Node.spliceAll (parent : Connective) : List Node → List Node
  | [] => []
  | n :: rest => n.splice parent ++ Node.spliceAll parent rest

end

/-- The group of some nodes, or the node itself if it is the only one and a group. -/
def Group.collapse (connective : Connective) : List Node → Group
  | [.group g] => g
  | nodes => .join connective nodes

mutual

def Node.simplify : Node → Node
  | .course id => .course id
  | .group g => .group g.simplify

def Group.simplify : Group → Group
  | .empty => .empty
  | .credit rule => .credit rule
  | .join c nodes => Group.collapse c (Node.spliceAll c (Node.simplifyAll nodes))

def Node.simplifyAll : List Node → List Node
  | [] => []
  | n :: rest => n.simplify :: Node.simplifyAll rest

end

end Curriculum
