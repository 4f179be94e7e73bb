import Curriculum.Proofs.Course.ReadBack
import Curriculum.Proofs.Outcome

/-!
# Spellings of ids

What may be written for a number, a suffix or a whole id, and which one it is read as. A text is an
id exactly if it has the form of one once blanks and dashes are out of it, and two texts are one id
exactly if they are the same in compact form.
-/

namespace Curriculum

/-! ## Numbers -/

namespace CourseNumber

variable {cs : List Char} {n : CourseNumber}

/-- Three digits. -/
def IsSpelling (cs : List Char) : Prop :=
  ∃ a b c, cs = [a, b, c] ∧ a.isDigit = true ∧ b.isDigit = true ∧ c.isDigit = true

theorem chars_of_ofChars? (h : ofChars? cs = some n) : n.chars = cs := by
  unfold ofChars? at h
  split at h
  next a b c =>
    split at h
    next hdigits =>
      simp only [Bool.and_eq_true] at hdigits
      obtain ⟨⟨ha, hb⟩, hc⟩ := hdigits
      have hlta := digitValue_lt ha
      have hltb := digitValue_lt hb
      have hltc := digitValue_lt hc
      have hval : n.val = (a.toNat - 48) * 100 + (b.toNat - 48) * 10 + (c.toNat - 48) := by
        rw [← Option.some.inj h, Fin.val_ofNat]
        exact Nat.mod_eq_of_lt (by omega)
      have hhundreds : n.val / 100 % 10 = a.toNat - 48 := by omega
      have htens : n.val / 10 % 10 = b.toNat - 48 := by omega
      have hones : n.val % 10 = c.toNat - 48 := by omega
      rw [chars, digit, digit, digit, hhundreds, htens, hones, digitChar_digitValue ha,
        digitChar_digitValue hb, digitChar_digitValue hc]
    next => cases h
  next => cases h

theorem exists_chars_iff : (∃ n : CourseNumber, n.chars = cs.map Char.toUpper) ↔ IsSpelling cs := by
  constructor
  · rintro ⟨n, hn⟩
    have hdigits : ∀ c ∈ cs, c.isDigit = true := by
      intro c hc
      rw [← isDigit_toUpper]
      exact n.isDigit _ (hn ▸ List.mem_map_of_mem hc)
    rcases cs with _ | ⟨a, _ | ⟨b, _ | ⟨c, _ | ⟨_, _⟩⟩⟩⟩
    case cons.cons.cons.nil =>
      simp only [List.forall_mem_cons] at hdigits
      exact ⟨a, b, c, rfl, hdigits.1, hdigits.2.1, hdigits.2.2.1⟩
    all_goals simp [chars] at hn
  · rintro ⟨a, b, c, rfl, ha, hb, hc⟩
    have hword : ∀ x ∈ [a, b, c], IsWordChar x := by
      simp only [List.forall_mem_cons]
      exact ⟨Or.inr ha, Or.inr hb, Or.inr hc, List.forall_mem_nil _⟩
    rw [IsWordChar.map_toUpper hword]
    exact ⟨_, chars_of_ofChars? (if_pos (by rw [ha, hb, hc]; rfl))⟩

end CourseNumber

/-! ## Suffixes -/

namespace TermSuffix

variable {cs : List Char} {s : TermSuffix}

/-- A letter and a digit that is not zero. -/
def IsSpelling (cs : List Char) : Prop :=
  ∃ letter digit, cs = [letter, digit] ∧ letter.isAlpha = true ∧ '1' ≤ digit ∧ digit ≤ '9'

theorem chars_of_ofChars? (h : ofChars? cs = some s) : s.chars = cs.map Char.toUpper := by
  unfold ofChars? at h
  split at h
  next letter digit =>
    unfold withDigit? at h
    split at h
    next hdigit =>
      obtain ⟨hletter, hpart⟩ := ofParts?_eq_some_iff.1 h
      rw [chars, hletter, hpart, List.map_cons, List.map_singleton,
        IsWordChar.toUpper (Or.inr hdigit)]
      exact congrArg (fun c => [letter.toUpper, c]) (digitChar_digitValue hdigit)
    next => cases h
  next => cases h

theorem exists_chars_iff : (∃ s : TermSuffix, s.chars = cs.map Char.toUpper) ↔ IsSpelling cs := by
  constructor
  · rintro ⟨s, hs⟩
    have hpos := s.part_pos
    have hlt : s.part < 10 := Nat.lt_succ_of_le s.part_le
    rcases cs with _ | ⟨letter, _ | ⟨digit, _ | ⟨_, _⟩⟩⟩
    case cons.cons.nil =>
      obtain ⟨hletter, hdigit⟩ : s.letter = letter.toUpper ∧ Nat.digitChar s.part = digit.toUpper :=
        by simpa [chars] using hs
      have hisDigit : digit.isDigit = true := by
        rw [← isDigit_toUpper, ← hdigit, isDigit_digitChar_of_lt hlt]
      have hsame : digit.toUpper = digit := IsWordChar.toUpper (Or.inr hisDigit)
      have htoNat : digit.toNat = 48 + s.part := by
        rw [← hsame, ← hdigit, Nat.toNat_digitChar_of_lt_ten hlt]
      refine ⟨letter, digit, rfl, ?_, ?_, ?_⟩
      · rw [← isUpper_toUpper, ← hletter, s.letter_isUpper]
      · exact show 49 ≤ digit.toNat by omega
      · exact show digit.toNat ≤ 57 by omega
    all_goals simp [chars] at hs
  · rintro ⟨letter, digit, rfl, hletter, hlo, hhi⟩
    have hlo : 49 ≤ digit.toNat := hlo
    have hhi : digit.toNat ≤ 57 := hhi
    have hdigit : digit.isDigit = true := by
      rw [Char.isDigit, Bool.and_eq_true, decide_eq_true_iff, decide_eq_true_iff]
      exact ⟨show 48 ≤ digit.toNat by omega, hhi⟩
    have hpart : 1 ≤ digit.toNat - 48 ∧ digit.toNat - 48 ≤ 9 := by omega
    refine ⟨⟨letter.toUpper, digit.toNat - 48, ?_, hpart.1, hpart.2⟩, ?_⟩
    · rw [isUpper_toUpper, hletter]
    · rw [chars, digitChar_digitValue hdigit, List.map_cons, List.map_singleton,
        IsWordChar.toUpper (Or.inr hdigit)]

end TermSuffix

/-! ## Ids -/

namespace CourseId

variable {raw : String} {id : CourseId} {cs : List Char}

/-- The form of a compact id: a subject, a number and a suffix or none. -/
def IsSpelling (cs : List Char) : Prop :=
  ∃ subject number suffix, cs = subject ++ (number ++ suffix) ∧ SubjectCode.IsSpelling subject ∧
    CourseNumber.IsSpelling number ∧ (suffix = [] ∨ TermSuffix.IsSpelling suffix)

theorem map_toUpper_compact (cs : List Char) : (compact cs).map Char.toUpper = compact cs :=
  map_toUpper_map_toUpper _

theorem chars_of_parseSuffix {suffix : Option TermSuffix} (h : parseSuffix cs = .ok suffix) :
    suffix.elim [] TermSuffix.chars = cs.map Char.toUpper := by
  unfold parseSuffix at h
  split at h
  next =>
    cases h
    rfl
  next =>
    split at h
    next s hs =>
      cases h
      exact TermSuffix.chars_of_ofChars? hs
    next => cases h

theorem chars_of_parseNumber {n : CourseNumber} (h : parseNumber cs = .ok n) : n.chars = cs := by
  unfold parseNumber at h
  split at h
  next m hm =>
    cases h
    exact CourseNumber.chars_of_ofChars? hm
  next => cases h

theorem parse_eq_ok : parse raw = .ok id ↔ compact raw.toList = id.packed := by
  refine ⟨fun h => ?_, id.parse_of_compact⟩
  unfold parse at h
  dsimp only at h
  split at h
  next =>
    obtain ⟨suffix, hsuffix, h⟩ := bind_eq_ok.1 h
    obtain ⟨subject, hsubject, h⟩ := bind_eq_ok.1 h
    obtain ⟨number, hnumber, h⟩ := bind_eq_ok.1 h
    cases pure_eq_ok.1 h
    have hupper := map_toUpper_compact raw.toList
    rw [SubjectCode.parse_eq_ok_of_length (List.length_take_le 4 _), List.map_take, hupper]
      at hsubject
    have hsuffix := chars_of_parseSuffix hsuffix
    rw [List.map_drop, hupper] at hsuffix
    have hdrop : (compact raw.toList).drop 7 = ((compact raw.toList).drop 4).drop 3 := by
      rw [List.drop_drop]
    rw [packed, hsubject, chars_of_parseNumber hnumber, hsuffix, hdrop, List.take_append_drop,
      List.take_append_drop]
  next => cases h

theorem exists_packed_iff :
    (∃ id : CourseId, id.packed = cs.map Char.toUpper) ↔ IsSpelling cs := by
  constructor
  · rintro ⟨⟨subject, number, suffix⟩, h⟩
    obtain ⟨cs, rest, rfl, hsubject, h⟩ := List.map_eq_append_iff.1 h.symm
    obtain ⟨cs', cs'', rfl, hnumber, hsuffix⟩ := List.map_eq_append_iff.1 h
    refine ⟨cs, cs', cs'', rfl, SubjectCode.exists_chars_iff.1 ⟨subject, hsubject.symm⟩,
      CourseNumber.exists_chars_iff.1 ⟨number, hnumber.symm⟩, ?_⟩
    cases suffix with
    | none => exact Or.inl (List.map_eq_nil_iff.1 hsuffix)
    | some s => exact Or.inr (TermSuffix.exists_chars_iff.1 ⟨s, hsuffix.symm⟩)
  · rintro ⟨subject, number, suffix, rfl, hsubject, hnumber, hsuffix⟩
    obtain ⟨s, hs⟩ := SubjectCode.exists_chars_iff.2 hsubject
    obtain ⟨n, hn⟩ := CourseNumber.exists_chars_iff.2 hnumber
    rw [List.map_append, List.map_append, ← hs, ← hn]
    rcases hsuffix with rfl | hsuffix
    · exact ⟨⟨s, n, none⟩, rfl⟩
    · obtain ⟨t, ht⟩ := TermSuffix.exists_chars_iff.2 hsuffix
      exact ⟨⟨s, n, some t⟩, by rw [← ht]; rfl⟩

theorem packed_inj {id id' : CourseId} : id.packed = id'.packed ↔ id = id' := by
  refine ⟨fun h => ?_, congrArg packed⟩
  have hparse : parse id.text = .ok id' := id'.parse_of_compact (id.compact_text.trans h)
  exact Except.ok.inj (id.parse_of_text.symm.trans hparse)

/-- A text is an id exactly if what remains of it without blanks and dashes has the form of one. The
id is determined by what remains, and it is written as one of the texts that are read as it. -/
theorem parse_spellings :
    (∀ raw, (∃ id, parse raw = .ok id) ↔ IsSpelling (compact raw.toList)) ∧
      (∀ raw id, parse raw = .ok id →
        compact id.text.toList = compact raw.toList ∧ parse id.text = .ok id) ∧
      ∀ raw raw' id id', parse raw = .ok id → parse raw' = .ok id' →
        (id = id' ↔ compact raw.toList = compact raw'.toList) := by
  refine ⟨fun raw => ?_, fun raw id h => ?_, fun raw raw' id id' h h' => ?_⟩
  · rw [← exists_packed_iff, map_toUpper_compact]
    exact exists_congr fun id => parse_eq_ok.trans eq_comm
  · exact ⟨id.compact_text.trans (parse_eq_ok.1 h).symm, id.parse_of_text⟩
  · rw [parse_eq_ok.1 h, parse_eq_ok.1 h']
    exact packed_inj.symm

/-- A blank of another kind, a dash and small letters make no difference. -/
theorem parse_spellings_spacedOut :
    ∃ id, parse "comp\u00a0-361 d1" = .ok id ∧ parse "COMP361D1" = .ok id ∧
      parse id.text = .ok id := by
  obtain ⟨id, h⟩ : ∃ id, parse "comp\u00a0-361 d1" = .ok id := ⟨_, rfl⟩
  obtain ⟨id', h'⟩ : ∃ id, parse "COMP361D1" = .ok id := ⟨_, rfl⟩
  obtain rfl : id = id' := (parse_spellings.2.2 _ _ id id' h h').2 (by decide)
  exact ⟨id, h, h', (parse_spellings.2.1 _ id h).2⟩

end CourseId

end Curriculum
