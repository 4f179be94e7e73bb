import Curriculum.Proofs.Course.Capitals

/-!
# Spellings of subjects

A subject may be written in letters of either case and with blanks around it. Four characters leave
no room for blanks.
-/

namespace Curriculum

namespace Text

theorem trim_sublist (cs : List Char) : (trim cs).Sublist cs := by
  have hfront := List.dropWhile_sublist (l := cs) isBlank
  have hback := List.dropWhile_sublist (l := (cs.dropWhile isBlank).reverse) isBlank
  exact (List.reverse_sublist.1 (by rwa [trim, List.reverse_reverse])).trans hfront

theorem trim_eq_self {cs : List Char} (h : ∀ c ∈ cs, isBlank c = false) :
    trim cs = cs := by
  have hdrop {cs : List Char} (h : ∀ c ∈ cs, isBlank c = false) :
      cs.dropWhile isBlank = cs := by
    cases cs with
    | nil => rfl
    | cons c rest => exact List.dropWhile_cons_of_neg (by simp [h c List.mem_cons_self])
  rw [trim, hdrop h, hdrop fun c hc => h c (List.mem_reverse.1 hc), List.reverse_reverse]

theorem length_le_utf8ByteSize (cs : List Char) : cs.length ≤ (String.ofList cs).utf8ByteSize := by
  induction cs with
  | nil => exact Nat.le_refl 0
  | cons c rest ih =>
      have hpos := c.utf8Size_pos
      rw [String.ofList_cons, String.utf8ByteSize_append, String.utf8ByteSize_singleton,
        List.length_cons]
      omega

end Text

namespace SubjectCode

variable {code cs : List Char} {s : SubjectCode}

/-- A letter and three more letters or digits. -/
def IsSpelling (code : List Char) : Prop :=
  ∃ a b c d, code = [a, b, c, d] ∧ a.isAlpha = true ∧ b.isAlphanum = true ∧
    c.isAlphanum = true ∧ d.isAlphanum = true

theorem parse_eq_ok {raw : String} :
    parse raw = .ok s ↔ s.chars = (Text.trim raw.toList).map Char.toUpper := by
  unfold parse
  constructor
  · intro h
    split at h
    next t ht =>
      cases h
      exact chars_of_ofChars? ht
    next => cases h
  · intro h
    rw [parse?, ← h, ofChars?_chars]

theorem length_of_chars (h : s.chars = code.map Char.toUpper) : code.length = 4 := by
  rw [← s.length_chars, h, List.length_map]

/-- What capitals show to be letters and digits takes one byte for each character. -/
theorem utf8ByteSize_of_subset (h : s.chars = code.map Char.toUpper) (hsub : cs ⊆ code) :
    (String.ofList cs).utf8ByteSize = cs.length := by
  rw [← utf8ByteSize_map_toUpper, IsWordChar.utf8ByteSize_ofList, List.length_map]
  refine List.forall_mem_map.2 fun c hc => s.isWordChar _ ?_
  rw [h]
  exact List.mem_map_of_mem (hsub hc)

theorem parse_eq_ok_of_length (h : code.length ≤ 4) :
    parse (String.ofList code) = .ok s ↔ s.chars = code.map Char.toUpper := by
  rw [parse_eq_ok, String.toList_ofList]
  constructor
  · intro hchars
    have hlength := length_of_chars hchars
    rw [hchars, (Text.trim_sublist code).eq_of_length_le (by omega)]
  · intro hchars
    rw [hchars, Text.trim_eq_self]
    intro c hc
    have hword := s.isWordChar c.toUpper (by rw [hchars]; exact List.mem_map_of_mem hc)
    rw [← isBlank_toUpper, hword.not_isBlank]

theorem isSubjectText_map_toUpper :
    isSubjectText (code.map Char.toUpper) = true ↔ IsSpelling code := by
  rcases code with _ | ⟨a, _ | ⟨b, _ | ⟨c, _ | ⟨d, _ | ⟨e, rest⟩⟩⟩⟩⟩
  case cons.cons.cons.cons.nil =>
    have hchars : isSubjectText ([a, b, c, d].map Char.toUpper) = true ↔
        a.isAlpha = true ∧ b.isAlphanum = true ∧ c.isAlphanum = true ∧ d.isAlphanum = true := by
      simp only [isSubjectText, List.map_cons, List.map_nil, List.all_cons, List.all_nil,
        isUpper_toUpper, isDigit_toUpper, Char.isAlphanum, Bool.and_eq_true, Bool.and_true]
    rw [hchars]
    constructor
    · exact fun h => ⟨a, b, c, d, rfl, h⟩
    · rintro ⟨_, _, _, _, heq, h⟩
      cases heq
      exact h
  all_goals
    refine iff_of_false nofun ?_
    rintro ⟨_, _, _, _, heq, _⟩
    cases heq

theorem exists_chars_iff :
    (∃ s : SubjectCode, s.chars = code.map Char.toUpper) ↔ IsSpelling code := by
  rw [← isSubjectText_map_toUpper]
  constructor
  · rintro ⟨s, hs⟩
    rw [← hs, s.wellFormed]
  · intro h
    exact ⟨⟨_, h⟩, rfl⟩

theorem eq_of_chars (s t : SubjectCode) (h : s.chars = t.chars) : s = t := by
  cases s
  cases t
  simpa using h

theorem parse_chars (s : SubjectCode) : parse (String.ofList s.chars) = .ok s := by
  rw [parse_eq_ok_of_length (Nat.le_of_eq s.length_chars), IsWordChar.map_toUpper s.isWordChar]

end SubjectCode

end Curriculum
