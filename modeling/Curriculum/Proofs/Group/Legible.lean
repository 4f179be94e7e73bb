import Curriculum.Group.Printer
import Curriculum.Proofs.Group.CreditChunks
import Curriculum.Proofs.Group.ParenDepth
import Curriculum.Proofs.Course.Written

/-!
# Legible groups

A group is legible if every join in it has a child and every leaf is one that its text brings back.
The parentheses in the text of a legible group are balanced.
-/

namespace Curriculum

mutual

inductive Node.Legible : Node → Prop
  | course {id : CourseId} (h : id.subject.Legible) : Node.Legible (.course id)
  | group {g : Group} (h : Group.Legible g) : Node.Legible (.group g)

inductive Group.Legible : Group → Prop
  | empty : Group.Legible .empty
  | credit {rule : CreditRule} (h : rule.Legible) : Group.Legible (.credit rule)
  | join {c : Connective} {nodes : List Node} (hne : nodes ≠ [])
    (h : ∀ n ∈ nodes, Node.Legible n) : Group.Legible (.join c nodes)

end

theorem IsWordChar.not_paren {c : Char} (h : IsWordChar c) : c ≠ '(' ∧ c ≠ ')' :=
  ⟨h.ne (by decide), h.ne (by decide)⟩

/-- The text of an id is the packed id with a blank in it. -/
theorem CourseId.plain_chars (id : CourseId) : ∀ c ∈ id.chars, c ≠ '(' ∧ c ≠ ')' := by
  intro c hc
  have hword := id.isWordChar_packed c
  rw [packed, List.mem_append] at hword
  rw [chars, List.mem_append, List.mem_cons] at hc
  rcases hc with hc | rfl | hc
  · exact (hword (Or.inl hc)).not_paren
  · decide
  · exact (hword (Or.inr hc)).not_paren

namespace CreditRule

variable {r : CreditRule}

theorem Legible.isWordChar_chunks (h : r.Legible) :
    ∀ cs ∈ r.chunks, cs ≠ [] ∧ ∀ c ∈ cs, IsWordChar c := by
  simp only [chunks, List.forall_mem_cons, List.forall_mem_map]
  refine ⟨⟨Nat.toDigits_ne_nil, fun c hc => ?_⟩, ⟨?_, fun c hc => ?_⟩,
    fun s _ => ⟨?_, s.isWordChar⟩⟩
  · exact Or.inr (Nat.isDigit_of_mem_toDigits (by decide) (by decide) hc)
  · exact fun hnil => h.2.1 (String.toList_eq_nil_iff.1 hnil)
  · exact Or.inr (List.all_eq_true.1 h.2.2.1 c hc)
  · obtain ⟨a, b, c, d, hchars, _⟩ := s.exists_chars
    rw [hchars]
    exact List.cons_ne_nil _ _

theorem chars_eq_chunks (r : CreditRule) :
    r.chars = Nat.toDigits 10 r.required.toNat ++ r.chunks.tail.flatMap fun cs => '-' :: cs := by
  rw [chars, chunks, List.tail_cons, List.flatMap_cons, List.flatMap_map, List.append_assoc]

theorem Legible.plain_chars (h : r.Legible) : ∀ c ∈ r.chars, c ≠ '(' ∧ c ≠ ')' := by
  intro c hc
  have hchunks := h.isWordChar_chunks
  rw [chars_eq_chunks, List.mem_append, List.mem_flatMap] at hc
  rcases hc with hc | ⟨cs, hcs, hc⟩
  · exact ((hchunks _ List.mem_cons_self).2 c hc).not_paren
  · rcases List.mem_cons.1 hc with rfl | hc
    · decide
    · exact ((hchunks cs (List.mem_of_mem_tail hcs)).2 c hc).not_paren

end CreditRule

/-! ## Balanced parentheses -/

theorem Node.chars_group {g : Group} (h : g ≠ .empty) :
    (Node.group g).chars = '(' :: g.chars ++ [')'] := by
  rw [Node.chars]
  exact h

theorem Node.separatedBy_cons_cons {separator : List Char} {n m : Node} {rest : List Node} :
    Node.separatedBy separator (n :: m :: rest) =
      n.chars ++ separator ++ Node.separatedBy separator (m :: rest) := by
  rw [Node.separatedBy]
  exact nofun

theorem Connective.plain_separator (c : Connective) : openParens c.separator = 0 := by
  cases c <;> decide

theorem Connective.plain_trailer (c : Connective) (count : Nat) :
    openParens (c.trailer count) = 0 := by
  match count with
  | 0 => cases c <;> decide
  | 1 => cases c <;> decide
  | _ + 2 => cases c <;> rfl

mutual

theorem Node.openParens_chars : (n : Node) → n.Legible → openParens n.chars = 0
  | .course id, _ => by
      rw [Node.chars]
      exact (parenDepth_of_plain id.plain_chars).1
  | .group g, .group h => by
      by_cases hempty : g = .empty
      · subst hempty
        rw [Node.chars]
        decide
      · rw [Node.chars_group hempty, openParens_paren]
        exact g.openParens_chars h

theorem Group.openParens_chars : (g : Group) → g.Legible → openParens g.chars = 0
  | .empty, _ => by
      rw [Group.chars]
      decide
  | .credit rule, .credit h => by
      rw [Group.chars]
      exact (parenDepth_of_plain h.plain_chars).1
  | .join c nodes, .join _ h => by
      have hnodes := Node.openParens_charsAll nodes h
      rw [Group.chars]
      split
      · exact hnodes.1
      · rw [openParens_append, hnodes.2 c, c.plain_trailer, Int.add_zero]

theorem Node.openParens_charsAll :
    (nodes : List Node) → (∀ n ∈ nodes, n.Legible) →
      openParens (Node.wrappedAll nodes) = 0 ∧
        ∀ c : Connective, openParens (Node.separatedBy c.separator nodes) = 0
  | [], _ => by
      rw [Node.wrappedAll]
      refine ⟨rfl, fun c => ?_⟩
      rw [Node.separatedBy]
      rfl
  | n :: rest, h => by
      rw [List.forall_mem_cons] at h
      have hn := n.openParens_chars h.1
      have hrest := Node.openParens_charsAll rest h.2
      constructor
      · -- A course gets parentheses here that its own text does not have.
        cases n with
        | course id =>
            rw [Node.chars] at hn
            rw [Node.wrappedAll, List.append_cons, openParens_append, openParens_paren, hn,
              hrest.1]
            rfl
        | group g => rw [Node.wrappedAll, openParens_append, hn, hrest.1, Int.add_zero]
      · intro c
        cases rest with
        | nil =>
            rw [Node.separatedBy]
            exact hn
        | cons m more =>
            rw [Node.separatedBy_cons_cons, openParens_append, openParens_append, hn, hrest.2 c,
              c.plain_separator]
            rfl

end

end Curriculum
