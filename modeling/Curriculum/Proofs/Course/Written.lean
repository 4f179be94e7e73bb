import Curriculum.Proofs.Course.Parts
import Curriculum.Proofs.Course.Readers

/-!
# Written ids in prose

The text of an id, with its blank left out, is a mention of that id and of nothing else, as long as
its subject consists of letters and is not taken for a season.
-/

namespace Curriculum

open Text (isBlank)

theorem CourseNumber.ofChars?_chars (n : CourseNumber) : ofChars? n.chars = some n := by
  have hvalue (k : Nat) : (CourseNumber.digit k).toNat - 48 = k % 10 :=
    Nat.toNat_digitChar_sub_48_of_lt_ten (Nat.mod_lt k (by decide))
  have hdigits := n.isDigit
  simp only [CourseNumber.chars, List.forall_mem_cons] at hdigits
  obtain ⟨ha, hb, hc, _⟩ := hdigits
  have hlt := n.isLt
  simp only [CourseNumber.chars, ofChars?, ha, hb, hc, hvalue, Bool.and_self, if_true,
    Option.some.injEq]
  apply Fin.ext
  rw [Fin.val_ofNat]
  omega

theorem TermSuffix.withDigit?_part (s : TermSuffix) :
    withDigit? s.letter (Nat.digitChar s.part) = some s := by
  have hpart : s.part < 10 := Nat.lt_succ_of_le s.part_le
  rw [withDigit?, if_pos (isDigit_digitChar_of_lt hpart)]
  change ofParts? s.letter ((Nat.digitChar s.part).toNat - 48) = some s
  rw [Nat.toNat_digitChar_sub_48_of_lt_ten hpart, ofParts?_eq_some]
  exact ⟨rfl, rfl⟩

/-- The characters of an id without the blank. -/
def CourseId.packed (id : CourseId) : List Char :=
  id.subject.chars ++ (id.number.chars ++ id.suffix.elim [] TermSuffix.chars)

theorem CourseId.isWordChar_packed (id : CourseId) : ∀ c ∈ id.packed, IsWordChar c := by
  intro c hc
  simp only [packed, List.mem_append] at hc
  rcases hc with hc | hc | hc
  · exact id.subject.isWordChar c hc
  · exact Or.inr (id.number.isDigit c hc)
  · cases hsuffix : id.suffix with
    | none =>
        rw [hsuffix] at hc
        cases hc
    | some s =>
        rw [hsuffix] at hc
        exact s.isWordChar c hc

/-- The subject is found in prose: it is all letters and no season. -/
def SubjectCode.Legible (s : SubjectCode) : Prop :=
  s.chars.all Char.isUpper = true ∧ s.chars ∉ Mention.seasonWords

instance (s : SubjectCode) : Decidable s.Legible :=
  inferInstanceAs (Decidable (s.chars.all Char.isUpper = true ∧ s.chars ∉ Mention.seasonWords))

namespace Mention

variable {c : Char} {cs : List Char}

theorem dropWhile_isBlank_of_isWordChar (h : IsWordChar c) (cs : List Char) :
    (c :: cs).dropWhile isBlank = c :: cs :=
  List.dropWhile_cons_of_neg (by rw [h.not_isBlank]; decide)

theorem mark?_of_isWordChar {mark : Char} (h : IsWordChar c) (hmark : c ≠ mark) :
    mark? mark (c :: cs) = none := by
  rw [mark?, dropWhile_isBlank_of_isWordChar h]
  exact if_neg hmark

theorem isGap_of_isWordChar (h : IsWordChar c) : isGap c = false := by
  rw [isGap, h.not_isBlank, Bool.false_or, beq_eq_false_iff_ne]
  exact h.ne (by decide)

theorem nextWord?_of_gap {gap : List Char} (hgap : ∀ c ∈ gap, isGap c = true)
    (hc : IsWordChar c) (cs : List Char) : nextWord? (gap ++ c :: cs) = none := by
  suffices hmark : mark? '/' (gap ++ c :: cs) = none by rw [nextWord?, hmark, Option.bind_none]
  induction gap with
  | nil => exact mark?_of_isWordChar hc (hc.ne (by decide))
  | cons g gap ih =>
      rw [List.forall_mem_cons] at hgap
      have hrest := ih hgap.2
      cases hblank : isBlank g with
      | true =>
          rw [mark?] at hrest ⊢
          rwa [List.cons_append, List.dropWhile_cons_of_pos hblank]
      | false =>
          have hdash : g = '-' := by
            have hg := hgap.1
            rw [isGap, hblank, Bool.false_or, beq_iff_eq] at hg
            exact hg
          rw [mark?, List.cons_append, List.dropWhile_cons_of_neg (by rw [hblank]; decide)]
          exact if_neg (by rw [hdash]; decide)

theorem word?_chars {s : SubjectCode} (h : s.Legible) (rest : List Char) :
    word? (s.chars ++ rest) = some (s.chars, rest) := by
  obtain ⟨a, b, c, d, hchars, _⟩ := s.exists_chars
  have hupper := h.1
  rw [hchars] at hupper ⊢
  exact if_pos hupper

/-- A number as a mention has it. -/
def numeralOf (n : CourseNumber) : Numeral :=
  ⟨CourseNumber.digit (n / 100), CourseNumber.digit (n / 10), CourseNumber.digit n⟩

theorem numeral?_chars (n : CourseNumber) (rest : List Char) :
    numeral? (n.chars ++ rest) = some (numeralOf n, rest) := by
  refine if_pos (List.all_eq_true.2 fun c hc => ?_)
  exact isDecimalDigit_of_isDigit (n.isDigit c hc)

/-- Blanks and dashes in front of a number are skipped. -/
theorem dropWhile_isGap_chars {gap : List Char} (hgap : ∀ c ∈ gap, isGap c = true)
    (n : CourseNumber) (rest : List Char) :
    (gap ++ (n.chars ++ rest)).dropWhile isGap = n.chars ++ rest := by
  have hfirst : isGap (CourseNumber.digit (n / 100)) = false :=
    isGap_of_isWordChar (Or.inr (n.isDigit _ List.mem_cons_self))
  rw [List.dropWhile_append_of_pos hgap]
  exact List.dropWhile_cons_of_neg (by rw [hfirst]; decide)

/-- A suffix as a mention has it. -/
def itemsOf (suffix : Option TermSuffix) : List MentionItem :=
  suffix.elim [] fun s => [.suffix (some s.letter) (Nat.digitChar s.part)]

theorem readItems_nil (afterSuffix : Bool) : readItems afterSuffix [] = ([], []) :=
  readItems_of_none (by cases afterSuffix <;> rfl)

theorem isDigit_part (s : TermSuffix) : (Nat.digitChar s.part).isDigit = true :=
  isDigit_digitChar_of_lt (Nat.lt_succ_of_le s.part_le)

theorem fullSuffix?_chars (s : TermSuffix) (rest : List Char) :
    fullSuffix? (s.chars ++ rest) =
      some (.suffix (some s.letter) (Nat.digitChar s.part), rest) :=
  if_pos (by rw [s.letter_isUpper, isDecimalDigit_of_isDigit (isDigit_part s)]; rfl)

/-- Right after a number a suffix with its letter is what is tried first. -/
theorem nextItem?_chars (s : TermSuffix) (rest : List Char) :
    nextItem? false (s.chars ++ rest) =
      some (.suffix (some s.letter) (Nat.digitChar s.part), rest) := by
  rw [nextItem?, if_neg Bool.false_ne_true, fullSuffix?_chars, Option.some_or]

theorem readItems_chars (suffix : Option TermSuffix) :
    readItems false (suffix.elim [] TermSuffix.chars) = (itemsOf suffix, []) := by
  cases suffix with
  | none => exact readItems_nil false
  | some s =>
      have hitem := nextItem?_chars s []
      rw [List.append_nil] at hitem
      exact readItems_cons hitem (readItems_nil true) rfl

/-- A written id is read as one mention. -/
theorem read?_packed {id : CourseId} (h : id.subject.Legible) :
    read? id.packed =
      some (⟨[id.subject.chars], numeralOf id.number, itemsOf id.suffix⟩, []) := by
  -- The number follows the subject at once, so there are no other words and no gap to skip.
  have hwords (rest : List Char) :
      readWords (id.number.chars ++ rest) = ([], id.number.chars ++ rest) :=
    readWords_of_none (nextWord?_of_gap (List.forall_mem_nil _)
      (Or.inr (id.number.isDigit _ List.mem_cons_self)) _)
  have hdrop (rest : List Char) :
      (id.number.chars ++ rest).dropWhile isGap = id.number.chars ++ rest :=
    dropWhile_isGap_chars (List.forall_mem_nil _) id.number rest
  simp only [read?, CourseId.packed, word?_chars h, Option.bind_eq_bind, Option.bind_some, hwords,
    hdrop, numeral?_chars, readItems_chars, startsWithDigit, Bool.false_eq_true, if_false]

/-- The mention stands for the id. -/
theorem ids_packed {id : CourseId} (h : id.subject.Legible) :
    (⟨[id.subject.chars], numeralOf id.number, itemsOf id.suffix⟩ : Mention).ids = [id] := by
  have hsubject : (⟨[id.subject.chars], numeralOf id.number, itemsOf id.suffix⟩ :
      Mention).subjectCodes = [id.subject] := by
    have hseason : (!seasonWords.contains id.subject.chars) = true := by
      simpa using h.2
    have hkept : [id.subject.chars].filter (fun word => !seasonWords.contains word) =
        [id.subject.chars] :=
      List.filter_cons_of_pos (p := fun word => !seasonWords.contains word) hseason
    rw [subjectCodes, hkept, List.filterMap_cons_some id.subject.ofChars?_chars,
      List.filterMap_nil]
  have hnumber : CourseNumber.ofChars? (numeralOf id.number).chars = some id.number :=
    id.number.ofChars?_chars
  rw [ids, hsubject, listings]
  obtain ⟨subject, number, suffix⟩ := id
  cases suffix with
  | none => simp [itemsOf, listingsFrom, Listing.ids, hnumber, termSuffixes]
  | some s =>
      simp [itemsOf, listingsFrom, Listing.ids, hnumber, termSuffixes, s.withDigit?_part]

end Mention

theorem extractFirst?_packed {id : CourseId} (h : id.subject.Legible) :
    extractFirst? (String.ofList id.packed) = some id := by
  rw [extractFirst?, Mention.all, String.toList_ofList, IsWordChar.map_toUpper id.isWordChar_packed]
  simp only [Mention.read?_packed h, List.findSome?_cons, Mention.ids_packed h, List.head?_cons]

end Curriculum
