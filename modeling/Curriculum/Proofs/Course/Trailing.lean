import Curriculum.Proofs.Course.Compact
import Curriculum.Proofs.Group.LetterCase

/-!
# Ids at the end of a text

An id at the end of a text is found, whatever the text in front of it looks like: either a mention
goes on into it, as a further subject, or it is a mention of its own. The one exception is a mention
right in front of it that ends in a digit of another script, since the search goes on behind such a
digit and nothing is left there for the id to follow.
-/

namespace Curriculum

open Text (isBlank isDecimalDigit)

/-- The number of an id and its suffix. -/
def CourseId.entry (id : CourseId) : NumberEntry := ⟨id.number, id.suffix.map fun s => (s, [])⟩

theorem CourseId.chars_entry (id : CourseId) :
    id.entry.chars = id.number.chars ++ id.suffix.elim [] TermSuffix.chars := by
  obtain ⟨subject, number, suffix⟩ := id
  cases suffix <;> simp [entry, NumberEntry.chars, NumberEntry.suffixChars]

theorem CourseId.ids_entry (id : CourseId) : id.entry.ids id.subject = [id] := by
  obtain ⟨subject, number, suffix⟩ := id
  cases suffix <;> rfl

/-- The characters of an id with something between its subject and its number. -/
def CourseId.charsWith (id : CourseId) (gap : List Char) : List Char :=
  id.subject.chars ++ (gap ++ id.entry.chars)

namespace Mention

/-- What is left of a text when no mention is found any more: all that is behind the last one and
the digit that ends that one, provided that it is an ASCII digit. -/
def leftFrom (cs : List Char) : List Char :=
  match h : find? cs with
  | none => cs
  | some (m, rest) =>
    have := length_of_find? h
    have := m.length_resume rest
    leftFrom (m.resume rest)
termination_by cs.length

/-- Nothing is left of the text that could stand in front of one more mention. -/
def Exhausts (text : String) : Prop := leftFrom (';' :: text.toList.map Char.toUpper) = []

variable {cs rest word : List Char} {m : Mention}

theorem leftFrom_of_none (h : find? cs = none) : leftFrom cs = cs := by
  rw [leftFrom]
  split
  next => rfl
  next m rest hsome => cases h.symm.trans hsome

theorem suffix_resume (h : find? cs = some (m, rest)) : m.resume rest <:+ cs := by
  have hsuffix := (suffix_of_find? h).2
  unfold resume
  split
  next => exact hsuffix
  next => exact (List.suffix_cons _ _).trans hsuffix

theorem getLast?_of_suffix {front : List Char} (h : rest <:+ front) (hne : rest ≠ []) :
    front.getLast? = rest.getLast? := by
  obtain ⟨first, rfl⟩ := h
  rw [List.getLast?_append, List.getLast?_eq_some_getLast hne, Option.some_or]

/-- A text is used up by a mention that ends it in a digit of another script. -/
theorem foreign_digit_of_leftFrom (h : leftFrom cs = []) (hne : cs ≠ []) :
    ∃ d, cs.getLast? = some d ∧ isDecimalDigit d = true ∧ d.isDigit = false := by
  fun_induction leftFrom cs with
  | case1 => exact absurd h hne
  | case2 cs m rest hfind _ _ ih =>
      by_cases hresume : m.resume rest = []
      · obtain ⟨hdigit, hsuffix⟩ := suffix_of_find? hfind
        have hlast : rest = [] ∧ m.lastDigit.isDigit = false := by
          unfold resume at hresume
          split at hresume
          next => cases hresume
          next hforeign => exact ⟨hresume, Bool.eq_false_iff.2 hforeign⟩
        refine ⟨m.lastDigit, ?_, hdigit, hlast.2⟩
        rw [getLast?_of_suffix hsuffix (List.cons_ne_nil _ _), hlast.1]
        rfl
      · obtain ⟨d, hd, hforeign⟩ := ih h hresume
        exact ⟨d, (getLast?_of_suffix (suffix_resume hfind) hresume).trans hd, hforeign⟩

theorem find?_of_no_digit (h : ∀ c ∈ cs, isDecimalDigit c = false) : find? cs = none := by
  refine Option.eq_none_iff_forall_ne_some.2 fun ⟨m, rest⟩ hsome => ?_
  obtain ⟨hdigit, hsuffix⟩ := suffix_of_find? hsome
  cases (h m.lastDigit (hsuffix.subset List.mem_cons_self)).symm.trans hdigit

/-- A mention starts from four capitals. -/
theorem find?_of_few_capitals (h : cs.countP Char.isUpper < 4) : find? cs = none := by
  have hread (tail : List Char) (htail : tail.countP Char.isUpper < 4) : read? tail = none := by
    have hword : word? tail = none := by
      refine Option.eq_none_iff_forall_ne_some.2 fun ⟨word, rest⟩ hsome => ?_
      obtain ⟨rfl, hlength, hupper⟩ := word?_eq_some.1 hsome
      have hcount := List.countP_eq_length.2 (List.all_eq_true.1 hupper)
      rw [List.countP_append] at htail
      omega
    rw [read?, hword]
    rfl
  induction cs with
  | nil => rfl
  | cons c rest ih =>
      have hrest : rest.countP Char.isUpper < 4 :=
        Nat.lt_of_le_of_lt (List.sublist_cons_self c rest).countP_le h
      rw [find?, hread rest hrest, ih hrest, ite_self]

theorem find?_append_of_capitals (h : word.all Char.isUpper = true) (cs : List Char) :
    find? (word ++ cs) = find? cs := by
  induction word with
  | nil => rfl
  | cons c word ih =>
      rw [List.all_cons, Bool.and_eq_true] at h
      rw [List.cons_append, find?, if_pos h.1, ih h.2]

/-! ## The id on its own -/

section

variable {id : CourseId} {gap : List Char} (hlegible : id.subject.Legible)
  (hgap : ∀ c ∈ gap, isGap c = true)

include hlegible hgap

/-- A mention one of whose subjects is that of the id and whose number is that of the id. -/
theorem exists_read?_of_entry {words : List (List Char)} (hword : word? cs = some (word, rest))
    (hwords : readWords rest = (words, gap ++ id.entry.chars))
    (hmem : id.subject.chars ∈ word :: words) : ∃ m, read? cs = some (m, []) ∧ id ∈ m.ids := by
  have hsubject : id.subject ∈ subjectCodes
      ⟨word :: words, numeralOf id.entry.number, id.entry.items ++ itemsOfNumbers []⟩ := by
    refine List.mem_filterMap.2 ⟨id.subject.chars, List.mem_filter.2 ⟨hmem, ?_⟩,
      id.subject.ofChars?_chars⟩
    simpa using hlegible.2
  have hwords' : readWords rest = (words, gap ++ (id.entry.chars ++
      (([] : List NumberEntry).flatMap (fun e => [',', ' '] ++ e.chars) ++ []))) := by
    simpa using hwords
  refine ⟨_, read?_of_subjects hword hwords' hgap bars_nil.ends, ?_⟩
  rw [ids_of_numbers rfl rfl]
  refine List.mem_flatMap.2 ⟨id.subject, hsubject, List.mem_flatMap.2 ⟨id.entry, ?_, ?_⟩⟩
  · exact List.mem_cons_self
  · rw [id.ids_entry]
    exact List.mem_cons_self

omit hlegible in
theorem nextWord?_entry : nextWord? (gap ++ id.entry.chars) = none :=
  nextWord?_of_gap hgap (Or.inr (id.number.isDigit _ List.mem_cons_self)) _

theorem exists_read?_charsWith : ∃ m, read? (id.charsWith gap) = some (m, []) ∧ id ∈ m.ids :=
  exists_read?_of_entry hlegible hgap (word?_chars hlegible _)
    (readWords_of_none (nextWord?_entry hgap)) List.mem_cons_self

omit hgap in
theorem bars_charsWith : Bars (id.charsWith gap) := by
  obtain ⟨a, b, c, d, hchars, _⟩ := id.subject.exists_chars
  have hupper := hlegible.1
  rw [hchars, List.all_eq_true, List.forall_mem_cons, List.forall_mem_cons] at hupper
  rw [CourseId.charsWith, hchars]
  exact bars_capitals hupper.1 hupper.2.1 _

/-- Without anything in front of it, the id is not found. -/
theorem find?_charsWith : find? (id.charsWith gap) = none := by
  have hgap' : gap.countP Char.isUpper = 0 := by
    refine List.countP_eq_zero.2 fun c hc hupper => ?_
    have hfirst := (bars_capitals hupper hupper []).first c rfl
    cases hfirst.2.1.symm.trans (hgap c hc)
  have hnumber : id.number.chars.countP Char.isUpper = 0 := by
    refine List.countP_eq_zero.2 fun c hc hupper => ?_
    cases (isUpper_of_isDigit (id.number.isDigit c hc)).symm.trans hupper
  have hsuffix : (id.suffix.elim [] TermSuffix.chars).countP Char.isUpper ≤ 2 := by
    refine Nat.le_trans List.countP_le_length ?_
    cases id.suffix with
    | none => exact Nat.zero_le 2
    | some s => exact Nat.le_refl 2
  rw [CourseId.charsWith, find?_append_of_capitals hlegible.1]
  refine find?_of_few_capitals ?_
  rw [CourseId.chars_entry, List.countP_append, List.countP_append]
  omega

/-! ## The id behind a text -/

/-- A mention in the text is read as before, unless it lacks just the last subject and the number,
and these are the ones of the id. -/
theorem read?_append_charsWith (hlast : ∃ d, cs.getLast? = some d ∧ d.isUpper = false) :
    read? (cs ++ id.charsWith gap) = (read? cs).map (followedBy (id.charsWith gap)) ∨
      (read? cs).or (find? cs) = none ∧
        ∃ m, read? (cs ++ id.charsWith gap) = some (m, []) ∧ id ∈ m.ids := by
  have hbars : Bars (id.charsWith gap) := bars_charsWith hlegible
  have hword : word? (cs ++ id.charsWith gap) = (word? cs).map (followedBy (id.charsWith gap)) :=
    word?_append (Or.inr hlast)
  cases hfirst : word? cs with
  | none =>
      refine Or.inl (read?_append_of_words hbars hword fun word rest hsome => ?_)
      cases hfirst.symm.trans hsome
  | some found =>
      obtain ⟨word, rest⟩ := found
      by_cases hcross : mark? '/' (readWords rest).2 = some []
      · right
        obtain ⟨rfl, _, hupper⟩ := word?_eq_some.1 hfirst
        obtain ⟨front, hfront, hwords⟩ := exists_front_readWords rest
        obtain ⟨slash, hslash, hmark⟩ := not_isDecimalDigit_of_mark? hcross
        rw [List.append_nil] at hslash
        have hplain : ∀ c ∈ ';' :: (word ++ rest), isDecimalDigit c = false := by
          rw [hfront, hslash, List.forall_mem_cons, List.forall_mem_append, List.forall_mem_append]
          refine ⟨by decide, fun c hc => ?_, hwords, hmark⟩
          exact isDecimalDigit_of_isUpper (List.all_eq_true.1 hupper c hc)
        have hnext : nextWord? ((readWords rest).2 ++ id.charsWith gap) =
            some (id.subject.chars, gap ++ id.entry.chars) := by
          rw [nextWord?, mark?_append hbars (Or.inl rfl), hcross]
          exact word?_chars hlegible _
        have hsubjects : readWords (rest ++ id.charsWith gap) =
            ((readWords rest).1 ++ [id.subject.chars], gap ++ id.entry.chars) := by
          rw [readWords_append hbars, readWords_of_some hnext,
            readWords_of_none (nextWord?_entry hgap)]
        refine ⟨?_, exists_read?_of_entry hlegible hgap (word?_append_of_some hfirst) hsubjects
          (by simp)⟩
        rw [← find?_cons_of_not_isUpper (c := ';') (by decide)]
        exact find?_of_no_digit hplain
      · left
        refine read?_append_of_words hbars hword fun word' rest' hsome => ?_
        cases hfirst.symm.trans hsome
        refine readWords_append_of_word hbars fun tail hmark => ?_
        have hne : tail ≠ [] := by
          rintro rfl
          exact hcross hmark
        obtain ⟨rfl, _⟩ := word?_eq_some.1 hfirst
        obtain ⟨front, hfront, _⟩ := exists_front_readWords rest
        have htail : tail <:+ word ++ rest :=
          ((suffix_of_mark? hmark).trans ⟨front, hfront.symm⟩).trans (List.suffix_append word rest)
        obtain ⟨d, hd, hlower⟩ := hlast
        exact word?_append (Or.inr ⟨d, (getLast?_of_suffix htail hne).symm.trans hd, hlower⟩)

/-- The first mention in the text is found as before, or there is none and one of the id is. -/
theorem find?_append_charsWith (hlast : ∃ d, cs.getLast? = some d ∧ d.isUpper = false) :
    (∃ m rest, find? cs = some (m, rest) ∧
        find? (cs ++ id.charsWith gap) = some (m, rest ++ id.charsWith gap)) ∨
      find? cs = none ∧ ∃ m, find? (cs ++ id.charsWith gap) = some (m, []) ∧ id ∈ m.ids := by
  induction cs with
  | nil =>
      obtain ⟨d, hd, _⟩ := hlast
      cases hd
  | cons c rest ih =>
      rw [List.cons_append]
      by_cases hrest : rest = []
      · obtain ⟨d, hd, hlower⟩ := hlast
        have hc : c.isUpper = false := by
          subst hrest
          cases hd
          exact hlower
        obtain ⟨m, hread, hid⟩ := exists_read?_charsWith hlegible hgap
        refine Or.inr ⟨?_, m, ?_, hid⟩
        · rw [hrest, find?_cons_of_not_isUpper hc]
          rfl
        · rw [hrest, List.nil_append, find?_cons_of_not_isUpper hc, hread, Option.some_or]
      · have hlast' : ∃ d, rest.getLast? = some d ∧ d.isUpper = false := by
          rwa [getLast?_of_suffix (List.suffix_cons c rest) hrest] at hlast
        cases hupper : c.isUpper with
        | true =>
            rw [find?, find?, if_pos hupper, if_pos hupper]
            exact ih hlast'
        | false =>
            rw [find?_cons_of_not_isUpper hupper, find?_cons_of_not_isUpper hupper]
            rcases read?_append_charsWith hlegible hgap hlast' with hapart | ⟨hnone, m, hread, hid⟩
            · rw [hapart]
              cases hread : read? rest with
              | some found => exact Or.inl ⟨found.1, found.2, rfl, rfl⟩
              | none => exact ih hlast'
            · exact Or.inr ⟨hnone, m, by rw [hread, Option.some_or], hid⟩

/-- The search comes to the id unless nothing of the text is left in front of it. -/
theorem mem_allFrom_append_charsWith (hlast : ∃ d, cs.getLast? = some d ∧ d.isUpper = false) :
    id ∈ (allFrom (cs ++ id.charsWith gap)).flatMap ids ↔
      id ∈ (allFrom cs).flatMap ids ∨ leftFrom cs ≠ [] := by
  fun_induction leftFrom cs with
  | case1 cs hnone =>
      have hne : cs ≠ [] := by
        rintro rfl
        obtain ⟨d, hd, _⟩ := hlast
        cases hd
      rcases find?_append_charsWith hlegible hgap hlast with
        ⟨m, rest, hsome, _⟩ | ⟨_, m, hfound, hid⟩
      · cases hnone.symm.trans hsome
      · rw [allFrom_of_some hfound, List.flatMap_cons, List.mem_append]
        exact iff_of_true (Or.inl hid) (Or.inr hne)
  | case2 cs m rest hsome _ _ ih =>
      rcases find?_append_charsWith hlegible hgap hlast with
        ⟨m', rest', hsome', hfound⟩ | ⟨hnone, _⟩
      · cases hsome.symm.trans hsome'
        rw [allFrom_of_some hfound, allFrom_of_some hsome, resume_append, List.flatMap_cons,
          List.flatMap_cons, List.mem_append, List.mem_append, or_assoc]
        refine or_congr_right ?_
        by_cases hresume : m.resume rest = []
        · rw [hresume, List.nil_append, allFrom_of_none (find?_charsWith hlegible hgap),
            allFrom_of_none rfl, leftFrom_of_none rfl]
          simp
        · refine ih ?_
          rwa [getLast?_of_suffix (suffix_resume hsome) hresume] at hlast
      · cases hnone.symm.trans hsome

end

end Mention

/-- An id that ends a text is found in it exactly if it is found in what is in front of it or that
leaves something for the id to follow. What leaves nothing ends in a digit of another script. -/
theorem mem_extractIds_append_iff {t written : String} {id : CourseId}
    (hlegible : id.subject.Legible)
    (hwritten : written = id.text ∨ written = String.ofList id.packed)
    (hend : ∀ c, t.toList.getLast? = some c → c.isAlpha = false) :
    (id ∈ extractIds (t ++ written) ↔ id ∈ extractIds t ∨ ¬Mention.Exhausts t) ∧
      (Mention.Exhausts t →
        ∃ c, t.toList.getLast? = some c ∧ isDecimalDigit c = true ∧ c.isDigit = false) := by
  have hchars : ∃ gap, (∀ c ∈ gap, Mention.isGap c = true) ∧
      (t ++ written).toList.map Char.toUpper =
        t.toList.map Char.toUpper ++ id.charsWith gap := by
    have hsubject := IsWordChar.map_toUpper id.subject.isWordChar
    have hnumber := IsWordChar.map_toUpper fun c hc =>
      id.isWordChar_packed c (List.mem_append_right id.subject.chars hc)
    rcases hwritten with rfl | rfl
    · refine ⟨[' '], List.forall_mem_singleton.2 rfl, ?_⟩
      rw [String.toList_append, List.map_append, CourseId.text, String.toList_ofList, CourseId.chars,
        List.map_append, List.map_cons, hsubject, hnumber, CourseId.charsWith, id.chars_entry]
      rfl
    · refine ⟨[], List.forall_mem_nil _, ?_⟩
      rw [String.toList_append, List.map_append, String.toList_ofList,
        IsWordChar.map_toUpper id.isWordChar_packed, CourseId.charsWith, id.chars_entry]
      rfl
  obtain ⟨gap, hgap, hchars⟩ := hchars
  have hlast : ∃ d, (';' :: t.toList.map Char.toUpper).getLast? = some d ∧ d.isUpper = false := by
    rw [List.getLast?_cons, List.getLast?_map]
    cases hc : t.toList.getLast? with
    | none => exact ⟨';', rfl, by decide⟩
    | some c => exact ⟨c.toUpper, rfl, (isUpper_toUpper c).trans (hend c hc)⟩
  constructor
  · rw [extractIds, extractIds, List.mem_eraseDups, List.mem_eraseDups, Mention.all_eq_allFrom,
      Mention.all_eq_allFrom, hchars, ← List.cons_append]
    exact Mention.mem_allFrom_append_charsWith hlegible hgap hlast
  · intro hexhausts
    obtain ⟨d, hd, hdigit, hforeign⟩ :=
      Mention.foreign_digit_of_leftFrom hexhausts (List.cons_ne_nil _ _)
    rw [List.getLast?_cons, List.getLast?_map] at hd
    cases hc : t.toList.getLast? with
    | none =>
        rw [hc] at hd
        cases hd
        cases hdigit
    | some c =>
        rw [hc] at hd
        cases hd
        refine ⟨c, rfl, ?_, ?_⟩
        · rw [← isDecimalDigit_toUpper c]
          exact hdigit
        · rw [← isDigit_toUpper c]
          exact hforeign

def Sample.project : CourseId := ⟨Sample.biol, ⟨361, by decide⟩, some Sample.firstPart⟩

open Sample in
/-- Behind a slash the id gives the number of the subject in front of it too. -/
theorem mem_extractIds_append_project :
    project.subject.Legible ∧
      project ∈ extractIds ("COMP 330, nrsc/" ++ String.ofList project.packed) := by
  have hlegible : project.subject.Legible := by decide
  obtain ⟨hfound, hforeign⟩ := mem_extractIds_append_iff (t := "COMP 330, nrsc/") hlegible
    (Or.inr rfl) fun c hc => by cases hc; rfl
  refine ⟨hlegible, hfound.2 (Or.inr fun hexhausts => ?_)⟩
  obtain ⟨c, hc, hdigit, _⟩ := hforeign hexhausts
  cases hc
  cases hdigit

/-- Behind a number in the digits of another script nothing is left for the id to follow. -/
theorem not_mem_extractIds_append :
    "COMP ٢٥٠".toList.getLast?.all (!·.isAlpha) ∧
      ∃ id : CourseId, id.subject.Legible ∧ id.text = "MATH 240" ∧
        id ∉ extractIds ("COMP ٢٥٠" ++ id.text) := by
  refine ⟨by decide, ⟨⟨['M', 'A', 'T', 'H'], by decide⟩, ⟨240, by decide⟩, none⟩, by decide, ?_, ?_⟩
  · decide +kernel
  · decide +kernel

end Curriculum
