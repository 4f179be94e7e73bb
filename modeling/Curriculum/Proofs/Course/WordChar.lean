import Curriculum.Course.Id
import Curriculum.Text.DecimalDigit

/-!
# Characters of written ids

Ids are written in capital letters and digits. These stand apart from blanks, marks and
parentheses, and they have no other case.
-/

namespace Curriculum

/-- A capital letter or a digit. -/
def IsWordChar (c : Char) : Prop := c.isUpper = true ∨ c.isDigit = true

namespace IsWordChar

variable {c : Char}

theorem toNat_bounds (h : IsWordChar c) :
    48 ≤ c.toNat ∧ c.toNat ≤ 57 ∨ 65 ≤ c.toNat ∧ c.toNat ≤ 90 := by
  rcases h with h | h
  · have hbounds := of_decide_eq_true h
    exact Or.inr ⟨hbounds.1, hbounds.2⟩
  · simp only [Char.isDigit, Bool.and_eq_true, decide_eq_true_iff] at h
    exact Or.inl ⟨h.1, h.2⟩

theorem toUpper (h : IsWordChar c) : c.toUpper = c := by
  unfold Char.toUpper
  split
  next hlower =>
    have hlo : 97 ≤ c.toNat := hlower.1
    have hbounds := h.toNat_bounds
    omega
  next => rfl

theorem not_isBlank (h : IsWordChar c) : Text.isBlank c = false := by
  have hbounds := h.toNat_bounds
  simp only [Text.isBlank, Bool.or_eq_false_iff, Bool.and_eq_false_iff, decide_eq_false_iff_not,
    beq_eq_false_iff_ne]
  omega

theorem utf8Size (h : IsWordChar c) : c.utf8Size = 1 := by
  have hbounds := h.toNat_bounds
  have hle : c.toNat ≤ 127 := by omega
  exact Char.utf8Size_eq_one_iff.2 hle

theorem utf8ByteSize_ofList {cs : List Char} (h : ∀ c ∈ cs, IsWordChar c) :
    (String.ofList cs).utf8ByteSize = cs.length := by
  induction cs with
  | nil => rfl
  | cons c rest ih =>
      rw [List.forall_mem_cons] at h
      rw [String.ofList_cons, String.utf8ByteSize_append, String.utf8ByteSize_singleton,
        h.1.utf8Size, ih h.2, List.length_cons, Nat.add_comm]

theorem ne (h : IsWordChar c) {d : Char} (hd : d.toNat < 48 ∨ 90 < d.toNat) : c ≠ d := by
  rintro rfl
  have hbounds := h.toNat_bounds
  omega

theorem map_toUpper {cs : List Char} (h : ∀ c ∈ cs, IsWordChar c) :
    cs.map Char.toUpper = cs := by
  rw [List.map_congr_left fun c hc => (h c hc).toUpper, List.map_id']

end IsWordChar

/-! ## Digits of any script -/

theorem isDecimalDigit_of_isDigit {c : Char} (h : c.isDigit = true) :
    Text.isDecimalDigit c = true := by
  simp only [Char.isDigit, Bool.and_eq_true, decide_eq_true_iff] at h
  have hlo : 48 ≤ c.toNat := h.1
  have hhi : c.toNat ≤ 57 := h.2
  refine List.any_eq_true.2 ⟨48, by decide, ?_⟩
  rw [Bool.and_eq_true, decide_eq_true_iff, decide_eq_true_iff]
  omega

/-- No digits stand between the ASCII ones and those of the next script. -/
theorem isDecimalDigit_of_between {c : Char} (hlo : 58 ≤ c.toNat) (hhi : c.toNat < 0x660) :
    Text.isDecimalDigit c = false := by
  have hrange : ∀ z ∈ Text.digitZeros, z + 10 ≤ 58 ∨ 0x660 ≤ z := by decide
  refine List.any_eq_false.2 fun z hz => ?_
  have hz := hrange z hz
  rw [Bool.and_eq_true, decide_eq_true_iff, decide_eq_true_iff]
  omega

theorem isDecimalDigit_of_isUpper {c : Char} (h : c.isUpper = true) :
    Text.isDecimalDigit c = false := by
  have hlo : 65 ≤ c.toNat := (of_decide_eq_true h).1
  have hhi : c.toNat ≤ 90 := (of_decide_eq_true h).2
  exact isDecimalDigit_of_between (by omega) (by omega)

theorem isUpper_of_isDigit {c : Char} (h : c.isDigit = true) : c.isUpper = false := by
  refine Bool.eq_false_iff.2 fun hupper => ?_
  cases (isDecimalDigit_of_isDigit h).symm.trans (isDecimalDigit_of_isUpper hupper)

theorem isDecimalDigit_of_isBlank {c : Char} (h : Text.isBlank c = true) :
    Text.isDecimalDigit c = false := by
  have hrange : ∀ z ∈ Text.digitZeros, z = 0x30 ∨ 0x660 ≤ z ∧ z + 10 ≤ 0x1680 ∨
      0x1681 ≤ z ∧ z + 10 ≤ 0x2000 ∨ 0x3001 ≤ z := by
    decide
  simp only [Text.isBlank, Bool.or_eq_true, Bool.and_eq_true, decide_eq_true_iff, beq_iff_eq] at h
  refine List.any_eq_false.2 fun z hz => ?_
  have hz := hrange z hz
  rw [Bool.and_eq_true, decide_eq_true_iff, decide_eq_true_iff]
  omega

/-! ## Digits and their values -/

theorem isDigit_digitChar_of_lt {n : Nat} (h : n < 10) : (Nat.digitChar n).isDigit = true := by
  rw [Nat.isDigit_digitChar, decide_eq_true h]

theorem digitValue_lt {c : Char} (h : c.isDigit = true) : c.toNat - 48 < 10 := by
  simp only [Char.isDigit, Bool.and_eq_true, decide_eq_true_iff] at h
  have hhi : c.toNat ≤ 57 := h.2
  omega

theorem digitChar_digitValue {c : Char} (h : c.isDigit = true) :
    Nat.digitChar (c.toNat - 48) = c := by
  simp only [Char.isDigit, Bool.and_eq_true, decide_eq_true_iff] at h
  have hlo : 48 ≤ c.toNat := h.1
  have hhi : c.toNat ≤ 57 := h.2
  rw [← Char.toNat_inj, Nat.toNat_digitChar_of_lt_ten (by omega)]
  omega

/-! ## The parts of an id -/

theorem SubjectCode.exists_chars (s : SubjectCode) :
    ∃ a b c d, s.chars = [a, b, c, d] ∧ a.isUpper = true ∧
      IsWordChar b ∧ IsWordChar c ∧ IsWordChar d := by
  obtain ⟨chars, hchars⟩ := s
  unfold isSubjectText at hchars
  split at hchars
  next a b c d =>
    simp only [List.all_cons, List.all_nil, Bool.and_true, Bool.and_eq_true,
      Bool.or_eq_true] at hchars
    exact ⟨a, b, c, d, rfl, hchars.1, hchars.2.1, hchars.2.2.1, hchars.2.2.2⟩
  next => cases hchars

theorem SubjectCode.isWordChar (s : SubjectCode) : ∀ c ∈ s.chars, IsWordChar c := by
  obtain ⟨a, b, c, d, hchars, ha, hb, hc, hd⟩ := s.exists_chars
  rw [hchars]
  simp only [List.forall_mem_cons]
  exact ⟨Or.inl ha, hb, hc, hd, nofun⟩

theorem SubjectCode.length_chars (s : SubjectCode) : s.chars.length = 4 := by
  obtain ⟨a, b, c, d, hchars, _⟩ := s.exists_chars
  rw [hchars]
  rfl

theorem CourseNumber.isDigit (n : CourseNumber) : ∀ c ∈ n.chars, c.isDigit = true := by
  have hdigit (k : Nat) : (CourseNumber.digit k).isDigit = true :=
    isDigit_digitChar_of_lt (Nat.mod_lt k (by decide))
  simp only [CourseNumber.chars, List.forall_mem_cons]
  exact ⟨hdigit _, hdigit _, hdigit _, nofun⟩

theorem TermSuffix.isWordChar (s : TermSuffix) : ∀ c ∈ s.chars, IsWordChar c := by
  have hpart := s.part_le
  simp only [TermSuffix.chars, List.forall_mem_cons]
  exact ⟨Or.inl s.letter_isUpper, Or.inr (isDigit_digitChar_of_lt (by omega)), nofun⟩

end Curriculum
