import Curriculum.Proofs.Course.WordChar

/-!
# Capitals

The capital of a character is the character itself, unless that is one of the letters from `a` to
`z`. So whatever does not tell letters apart does not tell a character from its capital.
-/

namespace Curriculum

/-- The range of codes with all letters that have another case. -/
def IsLetterCode (n : Nat) : Prop := 65 ≤ n ∧ n ≤ 122

namespace IsLetterCode

variable {c : Char}

theorem isDigit (h : IsLetterCode c.toNat) : c.isDigit = false := by
  simp only [Char.isDigit, Bool.and_eq_false_iff, decide_eq_false_iff_not]
  refine Or.inr fun hle => ?_
  replace hle : c.toNat ≤ 57 := hle
  have hlo := h.1
  omega

theorem isDecimalDigit (h : IsLetterCode c.toNat) : Text.isDecimalDigit c = false := by
  obtain ⟨hlo, hhi⟩ := h
  exact isDecimalDigit_of_between (by omega) (by omega)

theorem isBlank (h : IsLetterCode c.toNat) : Text.isBlank c = false := by
  obtain ⟨hlo, hhi⟩ := h
  simp only [Text.isBlank, Bool.or_eq_false_iff, Bool.and_eq_false_iff, decide_eq_false_iff_not,
    beq_eq_false_iff_ne]
  omega

theorem utf8Size (h : IsLetterCode c.toNat) : c.utf8Size = 1 := by
  have hle : c.toNat ≤ 127 := Nat.le_trans h.2 (by decide)
  exact Char.utf8Size_eq_one_iff.2 hle

end IsLetterCode

section

variable (c : Char)

theorem toUpper_of_isLower (h : c.isLower = true) :
    97 ≤ c.toNat ∧ IsLetterCode c.toNat ∧ c.toUpper.toNat + 32 = c.toNat := by
  obtain ⟨hlo, hhi⟩ := Bool.and_eq_true_iff.1 h
  have hrange : 'a'.val ≤ c.val ∧ c.val ≤ 'z'.val := ⟨of_decide_eq_true hlo, of_decide_eq_true hhi⟩
  replace hlo : 97 ≤ c.toNat := hrange.1
  replace hhi : c.toNat ≤ 122 := hrange.2
  have hval : (c.val + ('A'.val - 'a'.val)).toNat = c.toNat - 32 := by
    have hshift : ('A'.val - 'a'.val).toNat = 4294967264 := rfl
    rw [UInt32.toNat_add, hshift, Char.toNat_val]
    omega
  have hupper : c.toUpper.val = c.val + ('A'.val - 'a'.val) := by
    unfold Char.toUpper
    rw [dif_pos hrange]
  refine ⟨hlo, ⟨Nat.le_trans (by decide) hlo, hhi⟩, ?_⟩
  rw [← Char.toNat_val, hupper, hval]
  omega

theorem toUpper_of_not_isLower (h : c.isLower = false) : c.toUpper = c := by
  have hrange : ¬('a'.val ≤ c.val ∧ c.val ≤ 'z'.val) := fun hrange =>
    Bool.eq_false_iff.1 h
      (Bool.and_eq_true_iff.2 ⟨decide_eq_true hrange.1, decide_eq_true hrange.2⟩)
  exact dif_neg hrange

theorem toUpper_cases :
    c.toUpper = c ∨
      97 ≤ c.toNat ∧ IsLetterCode c.toNat ∧ c.toUpper.toNat + 32 = c.toNat := by
  cases h : c.isLower with
  | false => exact Or.inl (toUpper_of_not_isLower c h)
  | true => exact Or.inr (toUpper_of_isLower c h)

/-- What does not tell letters apart does not tell the two cases of a character apart. -/
theorem congr_toUpper {α : Type} {f : Char → α} {a : α}
    (h : ∀ x : Char, IsLetterCode x.toNat → f x = a) : f c.toUpper = f c := by
  rcases toUpper_cases c with hsame | ⟨hlo, hletter, hupper⟩
  · rw [hsame]
  · have hletter' : IsLetterCode c.toUpper.toNat := by
      have hhi := hletter.2
      exact ⟨by omega, by omega⟩
    rw [h c hletter, h c.toUpper hletter']

theorem toUpper_toUpper : c.toUpper.toUpper = c.toUpper := by
  rcases toUpper_cases c.toUpper with hsame | ⟨hlo, _, _⟩
  · exact hsame
  · rcases toUpper_cases c with hsame | ⟨_, hletter, hupper⟩
    · rw [hsame, hsame]
    · have hhi := hletter.2
      omega

theorem map_toUpper_map_toUpper (cs : List Char) :
    (cs.map Char.toUpper).map Char.toUpper = cs.map Char.toUpper := by
  rw [List.map_map]
  exact List.map_congr_left fun c _ => toUpper_toUpper c

theorem isDigit_toUpper : c.toUpper.isDigit = c.isDigit :=
  congr_toUpper c fun _ => IsLetterCode.isDigit

theorem isDecimalDigit_toUpper : Text.isDecimalDigit c.toUpper = Text.isDecimalDigit c :=
  congr_toUpper c fun _ => IsLetterCode.isDecimalDigit

theorem isUpper_toUpper : c.toUpper.isUpper = c.isAlpha := by
  have halpha : c.isAlpha = (c.isUpper || c.isLower) := rfl
  cases h : c.isLower with
  | false => rw [toUpper_of_not_isLower c h, halpha, h, Bool.or_false]
  | true =>
      obtain ⟨hlo, hletter, hupper⟩ := toUpper_of_isLower c h
      have hhi := hletter.2
      rw [halpha, h, Bool.or_true]
      exact decide_eq_true ⟨show 65 ≤ c.toUpper.toNat by omega, show c.toUpper.toNat ≤ 90 by omega⟩

theorem isBlank_toUpper : Text.isBlank c.toUpper = Text.isBlank c :=
  congr_toUpper c fun _ => IsLetterCode.isBlank

theorem utf8Size_toUpper : c.toUpper.utf8Size = c.utf8Size :=
  congr_toUpper c fun _ => IsLetterCode.utf8Size

theorem utf8ByteSize_map_toUpper (cs : List Char) :
    (String.ofList (cs.map Char.toUpper)).utf8ByteSize = (String.ofList cs).utf8ByteSize := by
  induction cs with
  | nil => rfl
  | cons c rest ih =>
      rw [List.map_cons, String.ofList_cons, String.ofList_cons, String.utf8ByteSize_append,
        String.utf8ByteSize_append, String.utf8ByteSize_singleton, String.utf8ByteSize_singleton,
        utf8Size_toUpper, ih]

end

end Curriculum
