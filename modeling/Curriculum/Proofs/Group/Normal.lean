import Curriculum.Group.Simplify

/-!
# Normal groups

A group is normal if no child of it can be merged into its parent and no join has a group as its
only child. Simplifying leads to a normal group and leaves a normal group alone.
-/

namespace Curriculum

/-- The node is not one to be merged into a parent joined by `parent`. -/
def Node.Fits (parent : Connective) : Node → Prop
  | .group (.join c _) => c ≠ parent ∧ c ≠ .single
  | _ => True

mutual

inductive Node.Normal : Node → Prop
  | course {id : CourseId} : Node.Normal (.course id)
  | group {g : Group} (h : Group.Normal g) : Node.Normal (.group g)

inductive Group.Normal : Group → Prop
  | empty : Group.Normal .empty
  | credit {rule : CreditRule} : Group.Normal (.credit rule)
  | join {c : Connective} {nodes : List Node} (hnormal : ∀ n ∈ nodes, Node.Normal n)
    (hfits : ∀ n ∈ nodes, n.Fits c) (hne : ∀ g, nodes ≠ [.group g]) :
    Group.Normal (.join c nodes)

end

/-! ## Simplifying leads to a normal group -/

mutual

theorem Node.normal_splice (c : Connective) :
    (n : Node) → n.Normal → ∀ m ∈ n.splice c, m.Normal ∧ m.Fits c
  | .course id, _, m, hm => by
      rw [Node.splice, List.mem_singleton] at hm
      subst hm
      exact ⟨.course, trivial⟩
  | .group g, .group h, m, hm => by
      rw [Node.splice] at hm
      exact g.normal_splice c h m hm

theorem Group.normal_splice (c : Connective) :
    (g : Group) → g.Normal → ∀ m ∈ g.splice c, m.Normal ∧ m.Fits c
  | .empty, h, m, hm => by
      rw [Group.splice, List.mem_singleton] at hm
      subst hm
      exact ⟨.group h, trivial⟩
  | .credit rule, h, m, hm => by
      rw [Group.splice, List.mem_singleton] at hm
      subst hm
      exact ⟨.group h, trivial⟩
  | .join d nodes, .join hnormal hfits hne, m, hm => by
      rw [Group.splice] at hm
      split at hm
      -- The children of a merged group may be groups to merge themselves.
      next => exact Node.normal_spliceAll c nodes hnormal m hm
      next hd =>
        rw [List.mem_singleton] at hm
        subst hm
        exact ⟨.group (.join hnormal hfits hne), not_or.1 hd⟩

theorem Node.normal_spliceAll (c : Connective) :
    (nodes : List Node) → (∀ n ∈ nodes, n.Normal) →
      ∀ m ∈ Node.spliceAll c nodes, m.Normal ∧ m.Fits c
  | [], _, m, hm => by
      rw [Node.spliceAll] at hm
      cases hm
  | n :: rest, h, m, hm => by
      rw [List.forall_mem_cons] at h
      rw [Node.spliceAll, List.mem_append] at hm
      rcases hm with hm | hm
      · exact n.normal_splice c h.1 m hm
      · exact Node.normal_spliceAll c rest h.2 m hm

end

theorem Group.normal_collapse {c : Connective} {nodes : List Node}
    (h : ∀ m ∈ nodes, m.Normal ∧ m.Fits c) : (Group.collapse c nodes).Normal := by
  unfold Group.collapse
  split
  -- An only child that is a group takes the place of its parent.
  next g =>
    cases (h (.group g) List.mem_cons_self).1 with
    | group hg => exact hg
  next hne => exact .join (fun n hn => (h n hn).1) (fun n hn => (h n hn).2) hne

mutual

theorem Node.normal_simplify : (n : Node) → n.simplify.Normal
  | .course id => by
      rw [Node.simplify]
      exact .course
  | .group g => by
      rw [Node.simplify]
      exact .group g.normal_simplify

theorem Group.normal_simplify : (g : Group) → g.simplify.Normal
  | .empty => by
      rw [Group.simplify]
      exact .empty
  | .credit rule => by
      rw [Group.simplify]
      exact .credit
  | .join c nodes => by
      rw [Group.simplify]
      apply Group.normal_collapse
      exact Node.normal_spliceAll c _ (Node.normal_simplifyAll nodes)

theorem Node.normal_simplifyAll : (nodes : List Node) → ∀ n ∈ Node.simplifyAll nodes, n.Normal
  | [] => by
      rw [Node.simplifyAll]
      exact nofun
  | n :: rest => by
      rw [Node.simplifyAll, List.forall_mem_cons]
      exact ⟨n.normal_simplify, Node.normal_simplifyAll rest⟩

end

/-! ## Simplifying leaves normal groups alone -/

theorem Node.splice_of_fits {c : Connective} {n : Node} (h : n.Fits c) : n.splice c = [n] := by
  cases n with
  | course id => rw [Node.splice]
  | group g =>
      rw [Node.splice]
      cases g with
      | empty => rw [Group.splice]
      | credit rule => rw [Group.splice]
      | join d nodes => rw [Group.splice, if_neg (not_or.2 h)]

theorem Node.spliceAll_of_fits {c : Connective} {nodes : List Node} (h : ∀ n ∈ nodes, n.Fits c) :
    Node.spliceAll c nodes = nodes := by
  induction nodes with
  | nil => rw [Node.spliceAll]
  | cons n rest ih =>
      rw [List.forall_mem_cons] at h
      rw [Node.spliceAll, Node.splice_of_fits h.1, ih h.2, List.singleton_append]

theorem Group.collapse_of_ne {c : Connective} {nodes : List Node}
    (h : ∀ g, nodes ≠ [.group g]) : Group.collapse c nodes = .join c nodes := by
  unfold Group.collapse
  split
  next g => exact absurd rfl (h g)
  next => rfl

mutual

theorem Node.simplify_of_normal : (n : Node) → n.Normal → n.simplify = n
  | .course id, _ => by rw [Node.simplify]
  | .group g, .group h => by rw [Node.simplify, g.simplify_of_normal h]

theorem Group.simplify_of_normal : (g : Group) → g.Normal → g.simplify = g
  | .empty, _ => by rw [Group.simplify]
  | .credit rule, _ => by rw [Group.simplify]
  | .join c nodes, .join hnormal hfits hne => by
      rw [Group.simplify, Node.simplifyAll_of_normal nodes hnormal, Node.spliceAll_of_fits hfits,
        Group.collapse_of_ne hne]

theorem Node.simplifyAll_of_normal :
    (nodes : List Node) → (∀ n ∈ nodes, n.Normal) → Node.simplifyAll nodes = nodes
  | [], _ => by rw [Node.simplifyAll]
  | n :: rest, h => by
      rw [List.forall_mem_cons] at h
      rw [Node.simplifyAll, n.simplify_of_normal h.1, Node.simplifyAll_of_normal rest h.2]

end

@[simp]
theorem Group.simplify_simplify (g : Group) : g.simplify.simplify = g.simplify :=
  g.simplify.simplify_of_normal g.normal_simplify

/-- The children may be simplified first. -/
theorem Group.simplify_join_simplifyAll (c : Connective) (nodes : List Node) :
    (Group.join c (Node.simplifyAll nodes)).simplify = (Group.join c nodes).simplify := by
  rw [Group.simplify, Group.simplify,
    Node.simplifyAll_of_normal _ (Node.normal_simplifyAll nodes)]

end Curriculum
