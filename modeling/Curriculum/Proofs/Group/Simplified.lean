import Curriculum.Proofs.Group.Legible
import Curriculum.Proofs.Group.Normal

/-!
# Texts of simplified groups

The height of a group is how deep the parentheses in its text nest. The parentheses around the
courses of a single group count too, although they stand for no level of the tree. A simplified
group is as legible as the group, and no higher.
-/

namespace Curriculum

/-- The parentheses around the courses of a group, if they stand side by side in it. -/
def Connective.wrapping (c : Connective) (count : Nat) : Nat :=
  if c = .single ∧ 2 ≤ count then 1 else 0

mutual

def Node.height : Node → Nat
  | .course _ => 0
  | .group .empty => 1
  | .group g => g.height + 1

def Group.height : Group → Nat
  | .empty => 1
  | .credit _ => 0
  | .join c nodes => max (c.wrapping nodes.length) (Node.heightAll nodes)

def Node.heightAll : List Node → Nat
  | [] => 0
  | n :: rest => max n.height (Node.heightAll rest)

end

variable {c : Connective} {nodes : List Node} {n : Node} {g : Group} {d : Nat}

theorem Node.height_group (h : g ≠ .empty) : (Node.group g).height = g.height + 1 := by
  rw [Node.height]
  exact h

theorem Node.height_group_pos (g : Group) : 1 ≤ (Node.group g).height := by
  by_cases hempty : g = .empty
  · exact Nat.le_of_eq (by rw [hempty, Node.height])
  · rw [Node.height_group hempty]
    omega

theorem Group.height_le_node (g : Group) : g.height ≤ (Node.group g).height := by
  by_cases hempty : g = .empty
  · exact Nat.le_of_eq (by rw [hempty, Group.height, Node.height])
  · rw [Node.height_group hempty]
    omega

theorem Node.heightAll_le_iff : Node.heightAll nodes ≤ d ↔ ∀ n ∈ nodes, n.height ≤ d := by
  induction nodes with
  | nil => simp [Node.heightAll]
  | cons n rest ih => rw [Node.heightAll, Nat.max_le, ih, List.forall_mem_cons]

theorem Node.height_le_heightAll (h : n ∈ nodes) : n.height ≤ Node.heightAll nodes :=
  Node.heightAll_le_iff.1 (Nat.le_refl _) n h

theorem Group.heightAll_le_height (c : Connective) (nodes : List Node) :
    Node.heightAll nodes ≤ (Group.join c nodes).height := by
  rw [Group.height]
  exact Nat.le_max_right _ _

/-! ## Texts -/

theorem Connective.parenDepth_separator (c : Connective) : parenDepth c.separator = 0 := by
  cases c <;> decide

theorem Connective.parenDepth_trailer (c : Connective) (count : Nat) :
    parenDepth (c.trailer count) = 0 := by
  match count with
  | 0 => cases c <;> decide
  | 1 => cases c <;> decide
  | _ + 2 => cases c <;> rfl

mutual

theorem Node.parenDepth_chars : (n : Node) → n.Legible → parenDepth n.chars ≤ n.height
  | .course id, _ => by
      rw [Node.chars, (parenDepth_of_plain id.plain_chars).2]
      exact Int.natCast_nonneg _
  | .group g, .group h => by
      by_cases hempty : g = .empty
      · subst hempty
        rw [Node.chars, Node.height]
        decide
      · have hg := g.parenDepth_chars h
        rw [Node.chars_group hempty, parenDepth_paren (g.openParens_chars h),
          Node.height_group hempty]
        omega

theorem Group.parenDepth_chars : (g : Group) → g.Legible → parenDepth g.chars ≤ g.height
  | .empty, _ => by
      rw [Group.chars, Group.height]
      decide
  | .credit rule, .credit h => by
      rw [Group.chars, (parenDepth_of_plain h.plain_chars).2]
      exact Int.natCast_nonneg _
  | .join c nodes, .join _ h => by
      obtain ⟨hwrapped, hseparated⟩ := Node.parenDepth_charsAll nodes h
      rw [Group.chars, Group.height, Connective.wrapping]
      split
      next => omega
      next =>
        have hopen := (Node.openParens_charsAll nodes h).2 c
        have hnodes := hseparated c
        rw [parenDepth_append, hopen, c.parenDepth_trailer]
        omega

theorem Node.parenDepth_charsAll : (nodes : List Node) → (∀ n ∈ nodes, n.Legible) →
    parenDepth (Node.wrappedAll nodes) ≤ max 1 (Node.heightAll nodes) ∧
      ∀ c : Connective, parenDepth (Node.separatedBy c.separator nodes) ≤ Node.heightAll nodes
  | [], _ => by
      rw [Node.wrappedAll, Node.heightAll]
      refine ⟨by decide, fun c => ?_⟩
      rw [Node.separatedBy]
      decide
  | n :: rest, h => by
      rw [List.forall_mem_cons] at h
      have hn := n.parenDepth_chars h.1
      have hopen := n.openParens_chars h.1
      obtain ⟨hwrapped, hseparated⟩ := Node.parenDepth_charsAll rest h.2
      rw [Node.heightAll]
      constructor
      · cases n with
        | course id =>
            have hplain := parenDepth_of_plain id.plain_chars
            rw [Node.wrappedAll, List.append_cons, parenDepth_append, openParens_paren, hplain.1,
              parenDepth_paren hplain.1, hplain.2]
            omega
        | group g =>
            rw [Node.wrappedAll, parenDepth_append, hopen]
            omega
      · intro c
        cases rest with
        | nil =>
            rw [Node.separatedBy]
            omega
        | cons m more =>
            have hrest := hseparated c
            rw [Node.separatedBy_cons_cons, parenDepth_append, parenDepth_append, openParens_append,
              hopen, c.parenDepth_separator, c.plain_separator]
            omega

end

/-! ## Merged children -/

mutual

theorem Node.height_splice (c : Connective) :
    (n : Node) → ∀ m ∈ n.splice c, m.height ≤ n.height
  | .course id, m, hm => by
      rw [Node.splice, List.mem_singleton] at hm
      exact Nat.le_of_eq (congrArg Node.height hm)
  | .group g, m, hm => by
      rw [Node.splice] at hm
      exact g.height_splice c m hm

theorem Group.height_splice (c : Connective) :
    (g : Group) → ∀ m ∈ g.splice c, m.height ≤ (Node.group g).height
  | .empty, m, hm => by
      rw [Group.splice, List.mem_singleton] at hm
      exact Nat.le_of_eq (congrArg Node.height hm)
  | .credit rule, m, hm => by
      rw [Group.splice, List.mem_singleton] at hm
      exact Nat.le_of_eq (congrArg Node.height hm)
  | .join d nodes, m, hm => by
      rw [Group.splice] at hm
      split at hm
      next =>
        calc
          m.height ≤ Node.heightAll nodes := Node.height_spliceAll c nodes m hm
          _ ≤ (Group.join d nodes).height := Group.heightAll_le_height d nodes
          _ ≤ (Node.group (.join d nodes)).height := Group.height_le_node _
      next =>
        rw [List.mem_singleton] at hm
        exact Nat.le_of_eq (congrArg Node.height hm)

theorem Node.height_spliceAll (c : Connective) :
    (nodes : List Node) → ∀ m ∈ Node.spliceAll c nodes, m.height ≤ Node.heightAll nodes
  | [], m, hm => by
      rw [Node.spliceAll] at hm
      cases hm
  | n :: rest, m, hm => by
      rw [Node.spliceAll, List.mem_append] at hm
      rw [Node.heightAll]
      rcases hm with hm | hm
      · exact Nat.le_trans (n.height_splice c m hm) (Nat.le_max_left _ _)
      · exact Nat.le_trans (Node.height_spliceAll c rest m hm) (Nat.le_max_right _ _)

end

/-- Without a group among the nodes, none of them is merged. -/
theorem Node.spliceAll_of_flat (h : Node.heightAll nodes = 0) : Node.spliceAll c nodes = nodes := by
  induction nodes with
  | nil => rw [Node.spliceAll]
  | cons n rest ih =>
      rw [Node.heightAll] at h
      cases n with
      | course id => rw [Node.spliceAll, Node.splice, ih (by omega), List.singleton_append]
      | group g =>
          have hpos := Node.height_group_pos g
          omega

theorem Group.height_collapse : (Group.collapse c nodes).height ≤ (Group.join c nodes).height := by
  unfold Group.collapse
  split
  next g =>
    calc
      g.height ≤ (Node.group g).height := g.height_le_node
      _ ≤ Node.heightAll [.group g] := Node.height_le_heightAll List.mem_cons_self
      _ ≤ (Group.join c [.group g]).height := Group.heightAll_le_height c _
  next => exact Nat.le_refl _

theorem Node.length_simplifyAll (nodes : List Node) :
    (Node.simplifyAll nodes).length = nodes.length := by
  induction nodes with
  | nil => rw [Node.simplifyAll]
  | cons n rest ih => rw [Node.simplifyAll, List.length_cons, List.length_cons, ih]

/-- More children stand side by side only where one of them was in parentheses. -/
theorem Group.height_join_splice (hle : Node.heightAll (Node.simplifyAll nodes) ≤
    Node.heightAll nodes) :
    (Group.join c (Node.spliceAll c (Node.simplifyAll nodes))).height ≤
      (Group.join c nodes).height := by
  have hspliced : Node.heightAll (Node.spliceAll c (Node.simplifyAll nodes)) ≤
      Node.heightAll nodes :=
    Nat.le_trans (Node.heightAll_le_iff.2 (Node.height_spliceAll c _)) hle
  rw [Group.height, Group.height]
  by_cases hflat : Node.heightAll nodes = 0
  · have hsame := Node.spliceAll_of_flat (c := c) (Nat.le_zero.1 (hflat ▸ hle))
    rw [hsame] at hspliced
    rw [hsame, Node.length_simplifyAll]
    omega
  · have hwrapping : c.wrapping (Node.spliceAll c (Node.simplifyAll nodes)).length ≤ 1 := by
      unfold Connective.wrapping
      split <;> omega
    omega

mutual

theorem Node.height_simplify : (n : Node) → n.simplify.height ≤ n.height
  | .course id => by
      exact Nat.le_of_eq (by rw [Node.simplify])
  | .group g => by
      have hg := g.height_simplify
      rw [Node.simplify]
      by_cases hempty : g = .empty
      · exact Nat.le_of_eq (by rw [hempty, Group.simplify])
      · rw [Node.height_group hempty]
        by_cases hempty' : g.simplify = .empty
        · rw [hempty', Node.height]
          omega
        · rw [Node.height_group hempty']
          omega

theorem Group.height_simplify : (g : Group) → g.simplify.height ≤ g.height
  | .empty => by
      exact Nat.le_of_eq (by rw [Group.simplify])
  | .credit rule => by
      exact Nat.le_of_eq (by rw [Group.simplify])
  | .join c nodes => by
      rw [Group.simplify]
      exact Nat.le_trans Group.height_collapse
        (Group.height_join_splice (Node.height_simplifyAll nodes))

theorem Node.height_simplifyAll :
    (nodes : List Node) → Node.heightAll (Node.simplifyAll nodes) ≤ Node.heightAll nodes
  | [] => by
      exact Nat.le_of_eq (by rw [Node.simplifyAll])
  | n :: rest => by
      have hn := n.height_simplify
      have hrest := Node.height_simplifyAll rest
      rw [Node.simplifyAll, Node.heightAll, Node.heightAll]
      omega

end

/-! ## Legible groups -/

mutual

theorem Node.Legible.splice (c : Connective) :
    {n : Node} → n.Legible → n.splice c ≠ [] ∧ ∀ m ∈ n.splice c, m.Legible
  | .course id, h => by
      rw [Node.splice, List.forall_mem_singleton]
      exact ⟨List.cons_ne_nil _ _, h⟩
  | .group g, .group h => by
      rw [Node.splice]
      exact h.splice c

theorem Group.Legible.splice (c : Connective) :
    {g : Group} → g.Legible → g.splice c ≠ [] ∧ ∀ m ∈ g.splice c, m.Legible
  | .empty, h => by
      rw [Group.splice, List.forall_mem_singleton]
      exact ⟨List.cons_ne_nil _ _, .group h⟩
  | .credit rule, h => by
      rw [Group.splice, List.forall_mem_singleton]
      exact ⟨List.cons_ne_nil _ _, .group h⟩
  | .join d nodes, .join hne h => by
      rw [Group.splice]
      split
      next =>
        obtain ⟨hmerged, hlegible⟩ := Node.Legible.spliceAll c nodes h
        exact ⟨hmerged hne, hlegible⟩
      next =>
        rw [List.forall_mem_singleton]
        exact ⟨List.cons_ne_nil _ _, .group (.join hne h)⟩

theorem Node.Legible.spliceAll (c : Connective) : (nodes : List Node) →
    (∀ n ∈ nodes, n.Legible) →
      (nodes ≠ [] → Node.spliceAll c nodes ≠ []) ∧ ∀ m ∈ Node.spliceAll c nodes, m.Legible
  | [], _ => by
      rw [Node.spliceAll]
      exact ⟨id, nofun⟩
  | n :: rest, h => by
      rw [List.forall_mem_cons] at h
      obtain ⟨hne, hn⟩ := h.1.splice c
      rw [Node.spliceAll, List.forall_mem_append]
      exact ⟨fun _ => List.append_ne_nil_of_left_ne_nil hne _, hn,
        (Node.Legible.spliceAll c rest h.2).2⟩

end

theorem Group.legible_collapse (hne : nodes ≠ []) (h : ∀ n ∈ nodes, n.Legible) :
    (Group.collapse c nodes).Legible := by
  unfold Group.collapse
  split
  next g =>
    cases h (.group g) List.mem_cons_self with
    | group hg => exact hg
  next => exact .join hne h

mutual

theorem Node.Legible.simplify : {n : Node} → n.Legible → n.simplify.Legible
  | .course id, h => by
      rw [Node.simplify]
      exact h
  | .group g, .group h => by
      rw [Node.simplify]
      exact .group h.simplify

theorem Group.Legible.simplify : {g : Group} → g.Legible → g.simplify.Legible
  | .empty, h => by
      rw [Group.simplify]
      exact h
  | .credit rule, h => by
      rw [Group.simplify]
      exact h
  | .join c nodes, .join hne h => by
      obtain ⟨hsplice, hlegible⟩ :=
        Node.Legible.spliceAll c (Node.simplifyAll nodes) (Node.Legible.simplifyAll nodes h)
      have hne' : Node.simplifyAll nodes ≠ [] := by
        rw [← List.length_pos_iff, Node.length_simplifyAll, List.length_pos_iff]
        exact hne
      rw [Group.simplify]
      exact Group.legible_collapse (hsplice hne') hlegible

theorem Node.Legible.simplifyAll : (nodes : List Node) → (∀ n ∈ nodes, n.Legible) →
    ∀ n ∈ Node.simplifyAll nodes, n.Legible
  | [], _ => by
      rw [Node.simplifyAll]
      exact nofun
  | n :: rest, h => by
      rw [List.forall_mem_cons] at h
      rw [Node.simplifyAll, List.forall_mem_cons]
      exact ⟨h.1.simplify, Node.Legible.simplifyAll rest h.2⟩

end

end Curriculum
