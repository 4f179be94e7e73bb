import Curriculum.Proofs.Course.Joined

/-!
# Compact notation

A catalog lists courses item by item, as in `NRSC/BIOL 451, 361D1/2;COMP 250`: subjects, a blank and
numbers, each of which may have suffixes behind it. The items are read one by one, whether or not
anything stands between them, and stand for every course they list.
-/

namespace Curriculum

open Text (isBlank isDecimalDigit)

/-- A suffix behind another one. Without a letter it takes that of the first one. -/
inductive FurtherSuffix where
  | full (suffix : TermSuffix)
  | bare (part : Nat) (part_pos : 1 ≤ part) (part_le : part ≤ 9)

namespace FurtherSuffix

def chars : FurtherSuffix → List Char
  | full s => s.chars
  | bare part _ _ => [Nat.digitChar part]

def suffix (first : TermSuffix) : FurtherSuffix → TermSuffix
  | full s => s
  | bare part part_pos part_le => ⟨first.letter, part, first.letter_isUpper, part_pos, part_le⟩

/-- The suffix as a mention has it. -/
def mark : FurtherSuffix → Option Char × Char
  | full s => (some s.letter, Nat.digitChar s.part)
  | bare part _ _ => (none, Nat.digitChar part)

end FurtherSuffix

/-- A number and the suffixes behind it, the first of which has a letter. -/
structure NumberEntry where
  number : CourseNumber
  suffixes : Option (TermSuffix × List FurtherSuffix)

namespace NumberEntry

def suffixChars (e : NumberEntry) : List Char :=
  e.suffixes.elim [] fun (first, more) => first.chars ++ more.flatMap fun s => '/' :: s.chars

def chars (e : NumberEntry) : List Char := e.number.chars ++ e.suffixChars

/-- The suffixes, each with its letter. -/
def termSuffixes (e : NumberEntry) : List TermSuffix :=
  e.suffixes.elim [] fun (first, more) => first :: more.map (FurtherSuffix.suffix first)

/-- One course for each suffix, or one without a suffix. -/
def ids (subject : SubjectCode) (e : NumberEntry) : List CourseId :=
  match e.termSuffixes with
  | [] => [⟨subject, e.number, none⟩]
  | suffixes => suffixes.map fun s => ⟨subject, e.number, some s⟩

/-- The suffixes as a mention has them. -/
def marks (e : NumberEntry) : List (Option Char × Char) :=
  e.suffixes.elim [] fun (first, more) =>
    (some first.letter, Nat.digitChar first.part) :: more.map FurtherSuffix.mark

def items (e : NumberEntry) : List MentionItem :=
  e.marks.map fun (letter, digit) => .suffix letter digit

end NumberEntry

/-- One item of the notation. -/
structure CompactItem where
  subjects : List SubjectCode
  numbers : List NumberEntry
  subjects_ne : subjects ≠ []
  numbers_ne : numbers ≠ []
  legible : ∀ s ∈ subjects, s.Legible

namespace CompactItem

def chars (i : CompactItem) : List Char :=
  List.intercalate ['/'] (i.subjects.map SubjectCode.chars) ++
    ' ' :: List.intercalate [',', ' '] (i.numbers.map NumberEntry.chars)

/-- The courses that the item lists, subject by subject and number by number. -/
def ids (i : CompactItem) : List CourseId :=
  i.subjects.flatMap fun s => i.numbers.flatMap (NumberEntry.ids s)

end CompactItem

/-- Blanks and semicolons between two items, or nothing at all. -/
structure Separator where
  chars : List Char
  wellFormed : ∀ c ∈ chars, c = ' ' ∨ c = ';'

namespace Mention

/-! ## What may follow a mention -/

/-- Nothing of the text belongs to a mention in front of it that has its number. -/
structure Ends (after : List Char) : Prop where
  noItem : ∀ afterSuffix, nextItem? afterSuffix after = none
  noDigit : startsWithDigit after = false

variable {after : List Char}

theorem Bars.ends (h : Bars after) : Ends after where
  noItem afterSuffix := by
    have hnone : nextItem? afterSuffix [] = none := by cases afterSuffix <;> rfl
    have happend : nextItem? afterSuffix ([] ++ after) = _ := nextItem?_append h afterSuffix
    rwa [hnone] at happend
  noDigit := by
    have happend : startsWithDigit ([] ++ after) = _ := startsWithDigit_append h
    exact happend

/-- Blanks do not keep an item apart from a mention, but they begin none either. -/
theorem Ends.blank (h : Ends after) : Ends (' ' :: after) where
  noItem afterSuffix := by
    have hskip (mark : Char) : mark? mark (' ' :: after) = mark? mark after := by
      rw [mark?, mark?, List.dropWhile_cons_of_pos (by decide)]
    have hnone := h.noItem true
    rw [nextItem?, if_pos rfl, Option.or_eq_none_iff] at hnone
    have hfull : fullSuffix? (' ' :: after) = none := by cases after <;> rfl
    rw [nextItem?, nextSuffix?, nextNumber?, hskip, hskip, hfull]
    change (if afterSuffix = true then nextSuffix? after else none).or (nextNumber? after) = none
    rw [hnone.1, hnone.2, ite_self, Option.or_none]
  noDigit := by rfl

theorem bars_nil : Bars [] := ⟨nofun, rfl⟩

theorem bars_capitals {a b : Char} (ha : a.isUpper = true) (hb : b.isUpper = true)
    (rest : List Char) : Bars (a :: b :: rest) where
  first c hc := by
    cases hc
    have hword : IsWordChar a := Or.inl ha
    exact ⟨isDecimalDigit_of_isUpper ha, isGap_of_isWordChar hword, hword.ne (by decide),
      hword.ne (by decide)⟩
  noSuffix := if_neg (by rw [isDecimalDigit_of_isUpper hb, Bool.and_false]; decide)

/-! ## Reading the numbers -/

variable {rest last : List Char} {more : List MentionItem} {item : MentionItem}
  {afterSuffix : Bool}

theorem mark?_cons {mark : Char} (h : isBlank mark = false) (cs : List Char) :
    mark? mark (mark :: cs) = some (cs.dropWhile isBlank) := by
  rw [mark?, List.dropWhile_cons_of_neg (by rw [h]; decide)]
  exact if_pos rfl

theorem nextItem?_further (s : FurtherSuffix) (rest : List Char) :
    nextItem? true ('/' :: (s.chars ++ rest)) = some (.suffix s.mark.1 s.mark.2, rest) := by
  have hslash : isBlank '/' = false := by decide
  rw [nextItem?, if_pos rfl, nextSuffix?, mark?_cons hslash]
  cases s with
  | full s =>
      have hdrop : (s.chars ++ rest).dropWhile isBlank = s.chars ++ rest :=
        dropWhile_isBlank_of_isWordChar (Or.inl s.letter_isUpper) _
      rw [FurtherSuffix.chars, hdrop, Option.bind_some, fullSuffix?_chars]
      rfl
  | bare part part_pos part_le =>
      have hdigit : (Nat.digitChar part).isDigit = true :=
        isDigit_digitChar_of_lt (Nat.lt_succ_of_le part_le)
      have hfull : fullSuffix? (Nat.digitChar part :: rest) = none := by
        cases rest with
        | nil => rfl
        | cons c rest => exact if_neg (by rw [isUpper_of_isDigit hdigit, Bool.false_and]; decide)
      have hbare : bareSuffix? (Nat.digitChar part :: rest) =
          some (.suffix none (Nat.digitChar part), rest) :=
        if_pos (isDecimalDigit_of_isDigit hdigit)
      rw [FurtherSuffix.chars, List.singleton_append,
        dropWhile_isBlank_of_isWordChar (Or.inr hdigit), Option.bind_some, hfull, hbare]
      rfl

theorem nextItem?_number (afterSuffix : Bool) (n : CourseNumber) (rest : List Char) :
    nextItem? afterSuffix (',' :: ' ' :: (n.chars ++ rest)) =
      some (.number (numeralOf n), rest) := by
  have hcomma : isBlank ',' = false := by decide
  have hdrop : (n.chars ++ rest).dropWhile isBlank = n.chars ++ rest :=
    dropWhile_isBlank_of_isWordChar (Or.inr (n.isDigit _ List.mem_cons_self)) _
  have hnumber : nextNumber? (',' :: ' ' :: (n.chars ++ rest)) =
      some (.number (numeralOf n), rest) := by
    rw [nextNumber?, mark?_cons hcomma, List.dropWhile_cons_of_pos (by decide), hdrop,
      Option.bind_some, numeral?_chars]
    rfl
  have hsuffix : nextSuffix? (',' :: ' ' :: (n.chars ++ rest)) = none := by
    rw [nextSuffix?, mark?, List.dropWhile_cons_of_neg (by decide)]
    rfl
  have hfull : fullSuffix? (',' :: ' ' :: (n.chars ++ rest)) = none := rfl
  rw [nextItem?, hnumber, hsuffix, hfull, ite_self, Option.none_or]

theorem readItems_further (suffixes : List FurtherSuffix)
    (hrest : readItems true rest = (more, last)) (hlast : startsWithDigit last = false) :
    readItems true (suffixes.flatMap (fun s => '/' :: s.chars) ++ rest) =
      (suffixes.map (fun s => .suffix s.mark.1 s.mark.2) ++ more, last) := by
  induction suffixes with
  | nil => exact hrest
  | cons s suffixes ih =>
      rw [List.flatMap_cons, List.append_assoc]
      exact readItems_cons (nextItem?_further s _) ih hlast

/-- The suffixes behind a number are read in front of whatever else is read. -/
theorem readItems_suffixes (e : NumberEntry)
    (hrest : ∀ afterSuffix, readItems afterSuffix rest = (more, last))
    (hlast : startsWithDigit last = false) :
    readItems false (e.suffixChars ++ rest) = (e.items ++ more, last) := by
  obtain ⟨number, suffixes⟩ := e
  cases suffixes with
  | none => exact hrest false
  | some list =>
      obtain ⟨first, further⟩ := list
      have hfurther := readItems_further further (hrest true) hlast
      simp only [NumberEntry.suffixChars, NumberEntry.items, NumberEntry.marks, Option.elim_some,
        List.append_assoc, List.map_cons, List.map_map]
      exact readItems_cons (nextItem?_chars first _) hfurther hlast

/-- The items for numbers behind the first one. -/
def itemsOfNumbers (numbers : List NumberEntry) : List MentionItem :=
  numbers.flatMap fun e => .number (numeralOf e.number) :: e.items

theorem readItems_numbers (numbers : List NumberEntry) (hends : Ends after) (afterSuffix : Bool) :
    readItems afterSuffix (numbers.flatMap (fun e => [',', ' '] ++ e.chars) ++ after) =
      (itemsOfNumbers numbers, after) := by
  induction numbers generalizing afterSuffix with
  | nil => exact readItems_of_none (hends.noItem afterSuffix)
  | cons e numbers ih =>
      have hsuffixes := readItems_suffixes e ih hends.noDigit
      have htext (tail : List Char) : [',', ' '] ++ e.chars ++ tail =
          ',' :: ' ' :: (e.number.chars ++ (e.suffixChars ++ tail)) := by
        simp [NumberEntry.chars]
      rw [List.flatMap_cons, List.append_assoc, htext]
      exact readItems_cons (nextItem?_number afterSuffix e.number _) hsuffixes hends.noDigit

/-! ## Reading the subjects -/

theorem nextWord?_chars {s : SubjectCode} (h : s.Legible) (rest : List Char) :
    nextWord? ('/' :: (s.chars ++ rest)) = some (s.chars, rest) := by
  obtain ⟨a, b, c, d, hchars, ha, _⟩ := s.exists_chars
  have hdrop : (s.chars ++ rest).dropWhile isBlank = s.chars ++ rest := by
    rw [hchars]
    exact dropWhile_isBlank_of_isWordChar (Or.inl ha) _
  rw [nextWord?, mark?_cons (by decide), hdrop, Option.bind_some, word?_chars h]

theorem readWords_subjects {subjects : List SubjectCode} (h : ∀ s ∈ subjects, s.Legible)
    (hrest : nextWord? rest = none) :
    readWords (subjects.flatMap (fun s => ['/'] ++ s.chars) ++ rest) =
      (subjects.map SubjectCode.chars, rest) := by
  induction subjects with
  | nil => exact readWords_of_none hrest
  | cons s subjects ih =>
      rw [List.forall_mem_cons] at h
      rw [List.flatMap_cons, List.append_assoc, List.append_assoc]
      rw [List.singleton_append, readWords_of_some (nextWord?_chars h.1 _), ih h.2, List.map_cons]

/-- Once its subjects are read, a mention is read up to the end of its numbers. -/
theorem read?_of_subjects {cs word gap : List Char} {words : List (List Char)} {e : NumberEntry}
    {numbers : List NumberEntry} (hword : word? cs = some (word, rest))
    (hwords : readWords rest =
      (words, gap ++ (e.chars ++ (numbers.flatMap (fun e => [',', ' '] ++ e.chars) ++ after))))
    (hgap : ∀ c ∈ gap, isGap c = true) (hends : Ends after) :
    read? cs =
      some (⟨word :: words, numeralOf e.number, e.items ++ itemsOfNumbers numbers⟩, after) := by
  have hitems := readItems_suffixes e (readItems_numbers numbers hends) hends.noDigit
  have hdrop := dropWhile_isGap_chars hgap e.number
  rw [NumberEntry.chars, List.append_assoc] at hwords
  simp only [read?, hword, Option.bind_eq_bind, Option.bind_some, hwords, hdrop, numeral?_chars,
    hitems, hends.noDigit, Bool.false_eq_true, if_false]

end Mention

namespace FurtherSuffix

theorem isDigit_mark (s : FurtherSuffix) : s.mark.2.isDigit = true := by
  cases s with
  | full s => exact Mention.isDigit_part s
  | bare part _ part_le => exact isDigit_digitChar_of_lt (Nat.lt_succ_of_le part_le)

/-- A suffix is made out once the letter of the first one is known. -/
theorem termSuffixes_marks (first : TermSuffix) (more : List FurtherSuffix) :
    Mention.termSuffixes (some first.letter) (more.map mark) = more.map (suffix first) := by
  induction more with
  | nil => rfl
  | cons s more ih =>
      have hmade : (s.mark.1.or (some first.letter)).bind (TermSuffix.withDigit? · s.mark.2) =
          some (s.suffix first) := by
        cases s with
        | full s => exact s.withDigit?_part
        | bare part part_pos part_le =>
            exact (suffix first (.bare part part_pos part_le)).withDigit?_part
      rw [List.map_cons, List.map_cons, Mention.termSuffixes, hmade]
      exact congrArg _ ih

end FurtherSuffix

namespace NumberEntry

variable (e : NumberEntry)

theorem isDigit_marks : ∀ m ∈ e.marks, m.2.isDigit = true := by
  obtain ⟨number, suffixes⟩ := e
  cases suffixes with
  | none => exact nofun
  | some list =>
      obtain ⟨first, more⟩ := list
      rw [marks, Option.elim_some, List.forall_mem_cons, List.forall_mem_map]
      exact ⟨Mention.isDigit_part first, fun s _ => s.isDigit_mark⟩

theorem termSuffixes_marks : Mention.termSuffixes none e.marks = e.termSuffixes := by
  obtain ⟨number, suffixes⟩ := e
  cases suffixes with
  | none => rfl
  | some list =>
      obtain ⟨first, more⟩ := list
      have hfirst : ((some first.letter).or none).bind
          (TermSuffix.withDigit? · (Nat.digitChar first.part)) = some first :=
        first.withDigit?_part
      rw [marks, Option.elim_some, Mention.termSuffixes, hfirst]
      exact congrArg _ (FurtherSuffix.termSuffixes_marks first more)

def listing : Mention.Listing := ⟨Mention.numeralOf e.number, e.marks⟩

theorem ids_listing (subject : SubjectCode) : e.listing.ids subject = e.ids subject := by
  have hnumber : CourseNumber.ofChars? e.listing.numeral.chars = some e.number :=
    e.number.ofChars?_chars
  rw [Mention.Listing.ids, hnumber, listing, termSuffixes_marks]
  rfl

end NumberEntry

namespace Mention

variable {numeral : Numeral} {items : List MentionItem}

theorem listingsFrom_marks {others : List Listing}
    (h : listingsFrom numeral items = ⟨numeral, []⟩ :: others)
    (marks : List (Option Char × Char)) :
    listingsFrom numeral (marks.map (fun (letter, digit) => .suffix letter digit) ++ items) =
      ⟨numeral, marks⟩ :: others := by
  induction marks with
  | nil => exact h
  | cons mark marks ih => rw [List.map_cons, List.cons_append, listingsFrom, ih]

theorem listingsFrom_numbers (numeral : Numeral) (numbers : List NumberEntry) :
    listingsFrom numeral (itemsOfNumbers numbers) =
      ⟨numeral, []⟩ :: numbers.map NumberEntry.listing := by
  induction numbers generalizing numeral with
  | nil => rfl
  | cons e numbers ih =>
      rw [itemsOfNumbers, List.flatMap_cons, List.cons_append, listingsFrom]
      exact congrArg _ (listingsFrom_marks (ih _) e.marks)

theorem subjectCodes_of_legible {subjects : List SubjectCode} (h : ∀ s ∈ subjects, s.Legible) :
    (⟨subjects.map SubjectCode.chars, numeral, items⟩ : Mention).subjectCodes = subjects := by
  have hkept : (subjects.map SubjectCode.chars).filter (fun word => !seasonWords.contains word) =
      subjects.map SubjectCode.chars := by
    refine List.filter_eq_self.2 (List.forall_mem_map.2 fun s hs => ?_)
    simpa using (h s hs).2
  have hread : SubjectCode.ofChars? ∘ SubjectCode.chars = some :=
    funext SubjectCode.ofChars?_chars
  rw [subjectCodes, hkept, List.filterMap_map, hread, List.filterMap_some]

/-- A mention stands for the courses that its numbers list under each of its subjects. -/
theorem ids_of_numbers {m : Mention} {e : NumberEntry} {numbers : List NumberEntry}
    (hnumeral : m.numeral = numeralOf e.number)
    (hitems : m.items = e.items ++ itemsOfNumbers numbers) :
    m.ids = m.subjectCodes.flatMap fun s => (e :: numbers).flatMap (NumberEntry.ids s) := by
  have hlistings : m.listings = (e :: numbers).map NumberEntry.listing := by
    rw [listings, hnumeral, hitems]
    exact listingsFrom_marks (listingsFrom_numbers (numeralOf e.number) numbers) e.marks
  rw [ids, hlistings]
  simp only [List.flatMap_map, NumberEntry.ids_listing]

theorem isDigit_lastDigit {m : Mention} (hnumeral : m.numeral.third.isDigit = true)
    (hitems : ∀ i ∈ m.items, i.lastDigit.isDigit = true) : m.lastDigit.isDigit = true := by
  rw [lastDigit]
  cases hlast : m.items.getLast? with
  | none => exact hnumeral
  | some i => exact hitems i (List.mem_of_getLast? hlast)

end Mention

namespace CompactItem

variable (i : CompactItem)

/-- The mention that an item is read as. -/
def mention : Mention where
  subjects := i.subjects.map SubjectCode.chars
  numeral := Mention.numeralOf (i.numbers.head i.numbers_ne).number
  items := (i.numbers.head i.numbers_ne).items ++ Mention.itemsOfNumbers i.numbers.tail

theorem read?_chars {after : List Char} (hends : Mention.Ends after) :
    Mention.read? (i.chars ++ after) = some (i.mention, after) := by
  obtain ⟨subjects, numbers, hsubjects, hnumbers, hlegible⟩ := i
  cases subjects with
  | nil => exact absurd rfl hsubjects
  | cons s subjects =>
      cases numbers with
      | nil => exact absurd rfl hnumbers
      | cons e numbers =>
          rw [List.forall_mem_cons] at hlegible
          have hgap : ∀ c ∈ [' '], Mention.isGap c = true := List.forall_mem_singleton.2 rfl
          have hnumber : Mention.nextWord? ([' '] ++ (e.chars ++
              (numbers.flatMap (fun e => [',', ' '] ++ e.chars) ++ after))) = none :=
            Mention.nextWord?_of_gap hgap (Or.inr (e.number.isDigit _ List.mem_cons_self)) _
          have htext : (CompactItem.mk (s :: subjects) (e :: numbers) hsubjects hnumbers
              (List.forall_mem_cons.2 hlegible)).chars ++ after =
                s.chars ++ (subjects.flatMap (fun s => ['/'] ++ s.chars) ++ ([' '] ++ (e.chars ++
                  (numbers.flatMap (fun e => [',', ' '] ++ e.chars) ++ after)))) := by
            simp [chars, intercalate_cons, List.flatMap_map]
          rw [htext]
          exact Mention.read?_of_subjects (Mention.word?_chars hlegible.1 _)
            (Mention.readWords_subjects hlegible.2 hnumber) hgap hends

theorem ids_mention : i.mention.ids = i.ids := by
  rw [Mention.ids_of_numbers rfl rfl, List.cons_head_tail]
  exact congrArg (List.flatMap _) (Mention.subjectCodes_of_legible i.legible)

theorem isDigit_lastDigit : i.mention.lastDigit.isDigit = true := by
  have hitems (e : NumberEntry) : ∀ x ∈ e.items, x.lastDigit.isDigit = true :=
    List.forall_mem_map.2 e.isDigit_marks
  have hnumeral (n : CourseNumber) : (Mention.numeralOf n).third.isDigit = true :=
    n.isDigit _ (by simp [CourseNumber.chars, Mention.numeralOf])
  refine Mention.isDigit_lastDigit (hnumeral _) ?_
  rw [mention, List.forall_mem_append]
  refine ⟨hitems _, fun x hx => ?_⟩
  obtain ⟨e, _, hx⟩ := List.mem_flatMap.1 hx
  rcases List.mem_cons.1 hx with rfl | hx
  · exact hnumeral e.number
  · exact hitems e x hx

/-- The text of some items with what separates each from the next one. -/
def textOf (items : List (CompactItem × Separator)) : List Char :=
  items.flatMap fun (i, separator) => i.chars ++ separator.chars

theorem bars_textOf (items : List (CompactItem × Separator)) : Mention.Bars (textOf items) := by
  cases items with
  | nil => exact Mention.bars_nil
  | cons item items =>
      obtain ⟨⟨subjects, numbers, hsubjects, hnumbers, hlegible⟩, separator⟩ := item
      cases subjects with
      | nil => exact absurd rfl hsubjects
      | cons s subjects =>
          obtain ⟨a, b, c, d, hchars, _⟩ := s.exists_chars
          have hupper := (hlegible s List.mem_cons_self).1
          rw [hchars, List.all_eq_true, List.forall_mem_cons, List.forall_mem_cons] at hupper
          simp only [textOf, List.flatMap_cons, chars, List.map_cons, intercalate_cons, hchars,
            List.cons_append]
          exact Mention.bars_capitals hupper.1 hupper.2.1 _

theorem ends_textOf (items : List (CompactItem × Separator)) (separator : Separator) :
    Mention.Ends (separator.chars ++ textOf items) := by
  obtain ⟨cs, hcs⟩ := separator
  induction cs with
  | nil => exact (bars_textOf items).ends
  | cons c cs ih =>
      rw [List.forall_mem_cons] at hcs
      rcases hcs.1 with rfl | rfl
      · exact (ih hcs.2).blank
      · exact (Mention.bars_semicolon _).ends

end CompactItem

namespace Mention

theorem read?_of_not_isUpper {c : Char} (h : c.isUpper = false) (cs : List Char) :
    read? (c :: cs) = none := by
  have hword : word? ([] ++ c :: cs) = none := by
    refine word?_append (Or.inl fun d hd => ?_)
    cases hd
    exact h
  rw [read?, ← List.nil_append (c :: cs), hword]
  rfl

/-- What stands between two items is passed over. -/
theorem find?_separator {c : Char} (h : c.isUpper = false) (separator : Separator)
    (cs : List Char) :
    find? (c :: (separator.chars ++ cs)) = (read? cs).or (find? cs) := by
  obtain ⟨gap, hgap⟩ := separator
  induction gap generalizing c with
  | nil => exact find?_cons_of_not_isUpper h cs
  | cons d gap ih =>
      rw [List.forall_mem_cons] at hgap
      have hd : d.isUpper = false := by rcases hgap.1 with rfl | rfl <;> decide
      rw [find?_cons_of_not_isUpper h, List.cons_append, read?_of_not_isUpper hd, Option.none_or]
      exact ih hd hgap.2

/-- The items of a text are its mentions, also where they touch: the digit that ends one of them is
what stands in front of the next. -/
theorem allFrom_textOf {c : Char} (h : c.isUpper = false) (separator : Separator)
    (items : List (CompactItem × Separator)) :
    allFrom (c :: (separator.chars ++ CompactItem.textOf items)) =
      items.map fun (i, _) => i.mention := by
  induction items generalizing c separator with
  | nil => exact allFrom_of_none (find?_separator h separator [])
  | cons item items ih =>
      obtain ⟨i, next⟩ := item
      have hread := i.read?_chars (CompactItem.ends_textOf items next)
      have hfind : find? (c :: (separator.chars ++ CompactItem.textOf ((i, next) :: items))) =
          some (i.mention, next.chars ++ CompactItem.textOf items) := by
        rw [CompactItem.textOf, List.flatMap_cons, List.append_assoc, find?_separator h]
        exact congrArg (Option.or · _) hread
      have hdigit := i.isDigit_lastDigit
      rw [allFrom_of_some hfind, resume, if_pos hdigit, ih (isUpper_of_isDigit hdigit)]
      rfl

end Mention

/-- The compact notation of some items stands for the courses that they list, item by item, each
course where it comes first. The case of letters makes no difference. -/
theorem extractIds_compact (items : List (CompactItem × Separator)) (text : String)
    (htext : text.toList.map Char.toUpper = CompactItem.textOf items) :
    extractIds text = (items.flatMap fun (i, _) => i.ids).eraseDups := by
  have hall : Mention.all text = items.map fun (i, _) => i.mention := by
    rw [Mention.all_eq_allFrom, htext]
    exact Mention.allFrom_textOf (by decide) ⟨[], nofun⟩ items
  rw [extractIds, hall, List.flatMap_map]
  simp only [CompactItem.ids_mention]

namespace Sample

def nrsc : SubjectCode := ⟨['N', 'R', 'S', 'C'], by decide⟩

def biol : SubjectCode := ⟨['B', 'I', 'O', 'L'], by decide⟩

def firstPart : TermSuffix := ⟨'D', 1, by decide, by decide, by decide⟩

def seminars : CompactItem where
  subjects := [nrsc, biol]
  numbers := [⟨⟨451, by decide⟩, some (firstPart,
      [.bare 2 (by decide) (by decide), .full ⟨'E', 3, by decide, by decide, by decide⟩])⟩,
    ⟨⟨330, by decide⟩, none⟩]
  subjects_ne := List.cons_ne_nil _ _
  numbers_ne := List.cons_ne_nil _ _
  legible := by decide

def lecture : CompactItem where
  subjects := [biol]
  numbers := [⟨⟨330, by decide⟩, none⟩]
  subjects_ne := List.cons_ne_nil _ _
  numbers_ne := List.cons_ne_nil _ _
  legible := by decide

end Sample

open Sample in
theorem extractIds_compact_touching :
    let items := [(seminars, ⟨[], nofun⟩), (lecture, ⟨[';', ' '], by simp⟩)]
    let text := "nrsc/BIOL 451D1/2/e3, 330Biol 330; "
    text.toList.map Char.toUpper = CompactItem.textOf items ∧
      (extractIds text).map CourseId.text =
        ["NRSC 451D1", "NRSC 451D2", "NRSC 451E3", "NRSC 330", "BIOL 451D1", "BIOL 451D2",
          "BIOL 451E3", "BIOL 330"] := by
  intro items text
  have htext : text.toList.map Char.toUpper = CompactItem.textOf items := by decide +kernel
  refine ⟨htext, ?_⟩
  rw [extractIds_compact items text htext]
  decide +kernel

end Curriculum
