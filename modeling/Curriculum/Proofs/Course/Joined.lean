import Curriculum.Proofs.Course.Readers
import Curriculum.Proofs.Course.Set
import Curriculum.Proofs.Course.Written

/-!
# Mentions in joined texts

A mention goes on into what follows it only by a digit, a suffix, a slash, a comma or, between its
subject and its number, a blank or a dash. Text that starts otherwise is read apart from the text in
front of it. A semicolon keeps two texts apart altogether.
-/

namespace Curriculum

open Text (isBlank isDecimalDigit)

namespace Mention

/-- Text that no mention in front of it goes on into, unless by a further subject. -/
structure Bars (after : List Char) : Prop where
  first : ∀ c, after.head? = some c →
    isDecimalDigit c = false ∧ isGap c = false ∧ c ≠ '/' ∧ c ≠ ','
  noSuffix : fullSuffix? after = none

/-- The outcome of a reader that has more text behind what it leaves. -/
def followedBy {α : Type} (after : List Char) (outcome : α × List Char) : α × List Char :=
  (outcome.1, outcome.2 ++ after)

variable {after cs rest word : List Char} {p : Char → Bool}

/-! ## Words and numbers -/

theorem dropWhile_append (h : ∀ c, after.head? = some c → p c = false) :
    (cs ++ after).dropWhile p = cs.dropWhile p ++ after := by
  have hafter : after.dropWhile p = after := by
    cases after with
    | nil => rfl
    | cons c rest => exact List.dropWhile_cons_of_neg (by rw [h c rfl]; decide)
  rw [List.dropWhile_append, hafter]
  split
  next hempty => rw [List.isEmpty_iff.1 hempty, List.nil_append]
  next => rfl

/-- Characters of one sort do not reach over an end where one of the two characters is of another
sort. -/
theorem exists_left_of_append (happend : cs ++ after = word ++ rest) (hword : word.all p = true)
    (hend : (∀ c, after.head? = some c → p c = false) ∨
      ∃ d, cs.getLast? = some d ∧ p d = false) :
    ∃ left, cs = word ++ left ∧ rest = left ++ after := by
  rw [List.all_eq_true] at hword
  rcases List.append_eq_append_iff.1 happend with ⟨excess, rfl, rfl⟩ | ⟨left, rfl, rfl⟩
  · cases excess with
    | nil => exact ⟨[], by simp, rfl⟩
    | cons c excess =>
        rcases hend with hfirst | ⟨d, hlast, hd⟩
        · cases (hfirst c rfl).symm.trans (hword c (by simp))
        · have hmem := List.mem_append_left (c :: excess) (List.mem_of_getLast? hlast)
          cases hd.symm.trans (hword d hmem)
  · exact ⟨left, rfl, rfl⟩

theorem word?_append_of_some (h : word? cs = some (word, rest)) :
    word? (cs ++ after) = some (word, rest ++ after) := by
  obtain ⟨rfl, hword⟩ := word?_eq_some.1 h
  exact word?_eq_some.2 ⟨List.append_assoc .., hword⟩

theorem word?_append (hend : (∀ c, after.head? = some c → c.isUpper = false) ∨
      ∃ d, cs.getLast? = some d ∧ d.isUpper = false) :
    word? (cs ++ after) = (word? cs).map (followedBy after) := by
  cases hword : word? cs with
  | some found => exact word?_append_of_some hword
  | none =>
      refine Option.eq_none_iff_forall_ne_some.2 fun ⟨word, rest⟩ hsome => ?_
      obtain ⟨happend, hlength, hupper⟩ := word?_eq_some.1 hsome
      obtain ⟨left, hleft, _⟩ := exists_left_of_append happend hupper hend
      cases hword.symm.trans (word?_eq_some.2 ⟨hleft, hlength, hupper⟩)

section

variable (hbars : Bars after)

include hbars

theorem numeral?_append : numeral? (cs ++ after) = (numeral? cs).map (followedBy after) := by
  cases hnumeral : numeral? cs with
  | some found =>
      obtain ⟨rfl, hdigits⟩ := numeral?_eq_some.1 hnumeral
      exact numeral?_eq_some.2 ⟨List.append_assoc .., hdigits⟩
  | none =>
      refine Option.eq_none_iff_forall_ne_some.2 fun ⟨numeral, rest⟩ hsome => ?_
      obtain ⟨happend, hdigits⟩ := numeral?_eq_some.1 hsome
      have hfirst (c : Char) (hc : after.head? = some c) := (hbars.first c hc).1
      obtain ⟨left, hleft, _⟩ := exists_left_of_append happend hdigits (Or.inl hfirst)
      cases hnumeral.symm.trans (numeral?_eq_some.2 ⟨hleft, hdigits⟩)

/-! ## Items -/

theorem bars_cases : after = [] ∨ ∃ c rest, after = c :: rest ∧ isDecimalDigit c = false ∧
    c ≠ '/' ∧ c ≠ ',' := by
  cases after with
  | nil => exact Or.inl rfl
  | cons c rest =>
      obtain ⟨hdigit, _, hmarks⟩ := hbars.first c rfl
      exact Or.inr ⟨c, rest, rfl, hdigit, hmarks⟩

theorem not_isBlank_of_bars (c : Char) (hc : after.head? = some c) : isBlank c = false :=
  (Bool.or_eq_false_iff.1 (hbars.first c hc).2.1).1

theorem mark?_append {mark : Char} (hmark : mark = '/' ∨ mark = ',') :
    mark? mark (cs ++ after) = (mark? mark cs).map (· ++ after) := by
  have hblank := not_isBlank_of_bars hbars
  rw [mark?, mark?, dropWhile_append hblank]
  cases cs.dropWhile isBlank with
  | cons c rest =>
      rw [List.cons_append]
      dsimp only
      split
      next => rw [dropWhile_append hblank, Option.map_some]
      next => rfl
  | nil =>
      rcases bars_cases hbars with rfl | ⟨c, rest, rfl, _, hslash, hcomma⟩
      · rfl
      · refine if_neg ?_
        rcases hmark with rfl | rfl
        · exact hslash
        · exact hcomma

theorem fullSuffix?_append :
    fullSuffix? (cs ++ after) = (fullSuffix? cs).map (followedBy after) := by
  match cs with
  | [] =>
      rw [List.nil_append, hbars.noSuffix]
      rfl
  | [letter] =>
      rcases bars_cases hbars with rfl | ⟨c, rest, rfl, hdigit, _⟩
      · rfl
      · exact if_neg (by rw [hdigit, Bool.and_false]; decide)
  | letter :: digit :: rest =>
      rw [List.cons_append, List.cons_append, fullSuffix?, fullSuffix?]
      split <;> rfl

theorem bareSuffix?_append :
    bareSuffix? (cs ++ after) = (bareSuffix? cs).map (followedBy after) := by
  cases cs with
  | nil =>
      rcases bars_cases hbars with rfl | ⟨c, rest, rfl, hdigit, _⟩
      · rfl
      · exact if_neg (by rw [hdigit]; decide)
  | cons digit rest =>
      rw [List.cons_append, bareSuffix?, bareSuffix?]
      split <;> rfl

theorem nextSuffix?_append :
    nextSuffix? (cs ++ after) = (nextSuffix? cs).map (followedBy after) := by
  rw [nextSuffix?, nextSuffix?, mark?_append hbars (Or.inl rfl)]
  cases mark? '/' cs with
  | none => rfl
  | some rest =>
      rw [Option.map_some, Option.bind_some, Option.bind_some, fullSuffix?_append hbars,
        bareSuffix?_append hbars, Option.map_or]

theorem nextNumber?_append :
    nextNumber? (cs ++ after) = (nextNumber? cs).map (followedBy after) := by
  rw [nextNumber?, nextNumber?, mark?_append hbars (Or.inr rfl)]
  cases mark? ',' cs with
  | none => rfl
  | some rest =>
      rw [Option.map_some, Option.bind_some, Option.bind_some, numeral?_append hbars,
        Option.map_map, Option.map_map]
      rfl

theorem nextItem?_append (afterSuffix : Bool) :
    nextItem? afterSuffix (cs ++ after) = (nextItem? afterSuffix cs).map (followedBy after) := by
  rw [nextItem?, nextItem?, nextNumber?_append hbars, Option.map_or]
  split
  next => rw [nextSuffix?_append hbars]
  next => rw [fullSuffix?_append hbars]

theorem startsWithDigit_append : startsWithDigit (cs ++ after) = startsWithDigit cs := by
  cases cs with
  | cons c rest => rfl
  | nil =>
      rcases bars_cases hbars with rfl | ⟨c, rest, rfl, hdigit, _⟩
      · rfl
      · cases hascii : c.isDigit with
        | true => cases hdigit.symm.trans (isDecimalDigit_of_isDigit hascii)
        | false => exact hascii

theorem readItems_append (afterSuffix : Bool) :
    readItems afterSuffix (cs ++ after) = followedBy after (readItems afterSuffix cs) := by
  fun_induction readItems afterSuffix cs with
  | case1 afterSuffix cs hnone =>
      exact readItems_of_none (by rw [nextItem?_append hbars, hnone]; rfl)
  | case2 afterSuffix cs item rest hsome _ more last hrec hstop ih =>
      have hnext : nextItem? afterSuffix (cs ++ after) = some (item, rest ++ after) := by
        rw [nextItem?_append hbars, hsome]
        rfl
      rw [hrec] at ih
      rw [readItems_of_some hnext ih, startsWithDigit_append hbars, if_pos hstop]
      rfl
  | case3 afterSuffix cs item rest hsome _ more last hrec hgoes ih =>
      have hnext : nextItem? afterSuffix (cs ++ after) = some (item, rest ++ after) := by
        rw [nextItem?_append hbars, hsome]
        rfl
      rw [hrec] at ih
      rw [readItems_of_some hnext ih, startsWithDigit_append hbars, if_neg hgoes]
      rfl

/-! ## Subjects -/

theorem readWords_append :
    readWords (cs ++ after) =
      ((readWords cs).1 ++ (readWords ((readWords cs).2 ++ after)).1,
        (readWords ((readWords cs).2 ++ after)).2) := by
  fun_induction readWords cs with
  | case1 => rfl
  | case2 cs word rest hsome _ ih =>
      obtain ⟨tail, hmark, hword⟩ := Option.bind_eq_some_iff.1 hsome
      have hnext : nextWord? (cs ++ after) = some (word, rest ++ after) := by
        rw [nextWord?, mark?_append hbars (Or.inl rfl), hmark]
        exact word?_append_of_some hword
      rw [readWords_of_some hnext, ih]
      rfl

/-- Subjects are read apart from what follows if no further one starts at the end. -/
theorem readWords_append_of_word
    (hword : ∀ tail, mark? '/' (readWords cs).2 = some tail →
      word? (tail ++ after) = (word? tail).map (followedBy after)) :
    readWords (cs ++ after) = followedBy after (readWords cs) := by
  have hlast : nextWord? ((readWords cs).2 ++ after) = none := by
    have hnone := nextWord?_readWords cs
    rw [nextWord?] at hnone
    rw [nextWord?, mark?_append hbars (Or.inl rfl)]
    cases hmark : mark? '/' (readWords cs).2 with
    | none => rfl
    | some tail =>
        rw [hmark] at hnone
        exact (hword tail hmark).trans (congrArg (Option.map (followedBy after)) hnone)
  rw [readWords_append hbars, readWords_of_none hlast, List.append_nil]
  rfl

/-! ## Whole mentions -/

/-- A mention is read apart from what follows if its subjects are. -/
theorem read?_append_of_words (hword : word? (cs ++ after) = (word? cs).map (followedBy after))
    (hwords : ∀ word rest, word? cs = some (word, rest) →
      readWords (rest ++ after) = followedBy after (readWords rest)) :
    read? (cs ++ after) = (read? cs).map (followedBy after) := by
  rw [read?, read?, hword]
  cases hfirst : word? cs with
  | none => rfl
  | some found =>
      obtain ⟨word, rest⟩ := found
      simp only [Option.map_some, Option.bind_eq_bind, Option.bind_some, followedBy,
        hwords word rest hfirst, dropWhile_append (fun c hc => (hbars.first c hc).2.1),
        numeral?_append hbars]
      cases numeral? ((readWords rest).2.dropWhile isGap) with
      | none => rfl
      | some found =>
          simp only [Option.map_some, Option.bind_some, followedBy, readItems_append hbars,
            startsWithDigit_append hbars]
          split <;> rfl

omit hbars in
theorem resume_append (m : Mention) : m.resume (rest ++ after) = m.resume rest ++ after := by
  unfold resume
  split <;> rfl

variable (hfirst : ∀ c, after.head? = some c → c.isUpper = false)

include hfirst

theorem read?_append : read? (cs ++ after) = (read? cs).map (followedBy after) :=
  read?_append_of_words hbars (word?_append (Or.inl hfirst)) fun _ _ _ =>
    readWords_append_of_word hbars fun _ _ => word?_append (Or.inl hfirst)

theorem find?_append :
    find? (cs ++ after) = ((find? cs).map (followedBy after)).or (find? after) := by
  induction cs with
  | nil => rfl
  | cons c rest ih =>
      rw [List.cons_append]
      cases hupper : c.isUpper with
      | true => rw [find?, find?, if_pos hupper, if_pos hupper, ih]
      | false =>
          rw [find?_cons_of_not_isUpper hupper, find?_cons_of_not_isUpper hupper,
            read?_append hbars hfirst, ih, Option.map_or, Option.or_assoc]

theorem allFrom_append : allFrom (cs ++ after) = allFrom cs ++ allFrom after := by
  fun_induction allFrom cs with
  | case1 cs hnone =>
      exact allFrom_congr (by rw [find?_append hbars hfirst, hnone]; rfl)
  | case2 cs m rest hsome _ _ ih =>
      have hfound : find? (cs ++ after) = some (m, rest ++ after) := by
        rw [find?_append hbars hfirst, hsome]
        rfl
      rw [allFrom_of_some hfound, resume_append, ih, List.cons_append]

end

theorem bars_semicolon (rest : List Char) : Bars (';' :: rest) where
  first c hc := by
    cases hc
    decide
  noSuffix := by cases rest <;> rfl

/-- No mention reaches over a semicolon. -/
theorem all_semicolon (t u : String) : all (t ++ ";" ++ u) = all t ++ all u := by
  have hupper : (t ++ ";" ++ u).toList.map Char.toUpper =
      t.toList.map Char.toUpper ++ ';' :: u.toList.map Char.toUpper := by
    simp
  rw [all_eq_allFrom, all_eq_allFrom, all_eq_allFrom, hupper, ← List.cons_append]
  exact allFrom_append (bars_semicolon _) fun c hc => by cases hc; decide

end Mention

/-- A semicolon cuts a text in two: the courses that the text mentions are those of the first part,
and then those of the second part that are not among them. -/
theorem extractIds_semicolon (t u : String) :
    extractIds (t ++ ";" ++ u) =
      extractIds t ++ (extractIds u).filter fun id => id ∉ extractIds t := by
  have hnew (id : CourseId) : (!((Mention.all t).flatMap Mention.ids).elem id) =
      decide (id ∉ extractIds t) := by
    simp only [extractIds, List.mem_eraseDups, List.elem_eq_mem, decide_not]
  calc
    extractIds (t ++ ";" ++ u)
    _ = ((Mention.all t).flatMap Mention.ids ++ (Mention.all u).flatMap Mention.ids).eraseDups := by
      rw [extractIds, Mention.all_semicolon, List.flatMap_append]
    _ = extractIds t ++
        (extractIds u).filter fun id => !((Mention.all t).flatMap Mention.ids).elem id := by
      rw [List.eraseDups_append, List.removeAll, eraseDups_filter]
      rfl
    _ = extractIds t ++ (extractIds u).filter fun id => id ∉ extractIds t := by
      simp only [hnew]

end Curriculum
