import Curriculum.Proofs.Course.Written
import Curriculum.Proofs.Course.Subject

/-!
# Ids read back

The text of an id, a suffix or a number is one of its spellings.
-/

namespace Curriculum

theorem SubjectCode.parse?_text (s : SubjectCode) : parse? s.text = some s := by
  have hparse := s.parse_chars
  unfold parse at hparse
  split at hparse
  next subject hsubject =>
    cases hparse
    exact hsubject
  next => cases hparse

theorem TermSuffix.ofChars?_chars (s : TermSuffix) : ofChars? s.chars = some s :=
  s.withDigit?_part

namespace CourseId

variable (id : CourseId)

theorem compact_chars : compact id.chars = id.packed := by
  have hkeep {cs : List Char} (h : ∀ c ∈ cs, IsWordChar c) :
      cs.filter (fun c => !Text.isBlank c && c != '-') = cs := by
    refine List.filter_eq_self.2 fun c hc => ?_
    have hne : c ≠ '-' := (h c hc).ne (by decide)
    simp [(h c hc).not_isBlank, hne]
  have hsubject := hkeep id.subject.isWordChar
  have hrest : (id.number.chars ++ id.suffix.elim [] TermSuffix.chars).filter
      (fun c => !Text.isBlank c && c != '-') =
        id.number.chars ++ id.suffix.elim [] TermSuffix.chars :=
    hkeep fun c hc => id.isWordChar_packed c (List.mem_append_right _ hc)
  -- Of all the characters only the blank between subject and number goes.
  have hblank : (!Text.isBlank ' ' && ' ' != '-') = false := by decide
  rw [compact, chars, List.filter_append, hsubject, List.filter_cons, hblank,
    if_neg Bool.false_ne_true, hrest]
  exact IsWordChar.map_toUpper id.isWordChar_packed

theorem parseSuffix_chars (suffix : Option TermSuffix) :
    parseSuffix (suffix.elim [] TermSuffix.chars) = .ok suffix := by
  cases suffix with
  | none => rfl
  | some s =>
      have hread := s.ofChars?_chars
      rw [TermSuffix.chars] at hread
      rw [Option.elim_some, TermSuffix.chars, parseSuffix, hread]
      exact List.cons_ne_nil _ _

theorem parseNumber_chars (n : CourseNumber) : parseNumber n.chars = .ok n := by
  rw [parseNumber, n.ofChars?_chars]

theorem compact_text : compact id.text.toList = id.packed := by
  rw [text, String.toList_ofList, compact_chars]

/-- A text is read as an id if what is left of it when it is made compact is the id. -/
theorem parse_of_compact {raw : String} (hcompact : compact raw.toList = id.packed) :
    parse raw = .ok id := by
  have hlength := id.subject.length_chars
  have htake : id.packed.take 4 = id.subject.chars := by
    rw [packed, List.take_left' hlength]
  have hdrop : id.packed.drop 4 = id.number.chars ++ id.suffix.elim [] TermSuffix.chars := by
    rw [packed, List.drop_left' hlength]
  have hsuffix : id.packed.drop 7 = id.suffix.elim [] TermSuffix.chars := by
    rw [show 7 = 4 + 3 from rfl, ← List.drop_drop, hdrop]
    rfl
  have hnumber : (id.packed.drop 4).take 3 = id.number.chars := by
    rw [hdrop]
    rfl
  have hascii : id.packed.all isAscii = true := by
    refine List.all_eq_true.2 fun c hc => decide_eq_true ?_
    have hbounds := (id.isWordChar_packed c hc).toNat_bounds
    omega
  have hlong : 7 ≤ id.packed.length := by
    rw [packed, List.length_append, hlength, List.length_append]
    exact Nat.add_le_add_left (Nat.le_add_right 3 _) 4
  rw [parse, hcompact, hascii, decide_eq_true hlong, Bool.and_self, if_pos rfl, hsuffix, htake,
    hnumber, parseSuffix_chars, SubjectCode.parse_chars, parseNumber_chars]
  rfl

theorem parse_of_text : parse id.text = .ok id :=
  id.parse_of_compact id.compact_text

end CourseId

end Curriculum
