import Curriculum.Course.Extract
import Curriculum.Proofs.Course.WordChar

/-!
# Readers of mentions

What each reader takes off the front of a text and what it leaves. A mention ends in a digit, and
what is left is the text behind that digit.
-/

namespace Curriculum

namespace Mention

open Text (isBlank isDecimalDigit)

variable {cs rest word : List Char} {numeral : Numeral} {item : MentionItem} {mark digit : Char}
  {afterSuffix : Bool} {m : Mention}

/-! ## Equations -/

theorem word?_eq_some :
    word? cs = some (word, rest) ↔
      cs = word ++ rest ∧ word.length = 4 ∧ word.all Char.isUpper = true := by
  constructor
  · intro h
    unfold word? at h
    split at h
    next =>
      split at h
      next hupper =>
        cases h
        exact ⟨rfl, rfl, hupper⟩
      next => cases h
    next => cases h
  · rintro ⟨rfl, hlength, hupper⟩
    match word, hlength with
    | [a, b, c, d], _ => exact if_pos hupper

theorem numeral?_eq_some :
    numeral? cs = some (numeral, rest) ↔
      cs = numeral.chars ++ rest ∧ numeral.chars.all isDecimalDigit = true := by
  constructor
  · intro h
    unfold numeral? at h
    split at h
    next =>
      split at h
      next hdigits =>
        cases h
        exact ⟨rfl, hdigits⟩
      next => cases h
    next => cases h
  · rintro ⟨rfl, hdigits⟩
    exact if_pos hdigits

theorem readWords_of_none (h : nextWord? cs = none) : readWords cs = ([], cs) := by
  rw [readWords]
  split
  next => rfl
  next word rest hsome => cases h.symm.trans hsome

theorem readWords_of_some (h : nextWord? cs = some (word, rest)) :
    readWords cs = (word :: (readWords rest).1, (readWords rest).2) := by
  rw [readWords]
  split
  next hnone => cases h.symm.trans hnone
  next word' rest' hsome =>
    cases h.symm.trans hsome
    rfl

theorem nextWord?_readWords (cs : List Char) : nextWord? (readWords cs).2 = none := by
  fun_induction readWords cs with
  | case1 cs hnone => exact hnone
  | case2 cs word rest _ _ ih => exact ih

theorem readItems_of_none (h : nextItem? afterSuffix cs = none) :
    readItems afterSuffix cs = ([], cs) := by
  rw [readItems]
  split
  next => rfl
  next item rest hsome => cases h.symm.trans hsome

theorem readItems_of_some {more : List MentionItem} {last : List Char}
    (h : nextItem? afterSuffix cs = some (item, rest))
    (hrest : readItems item.isSuffix rest = (more, last)) :
    readItems afterSuffix cs =
      if more.isEmpty && startsWithDigit last then ([], cs) else (item :: more, last) := by
  rw [readItems]
  split
  next hnone => cases h.symm.trans hnone
  next item' rest' hsome =>
    cases h.symm.trans hsome
    rw [hrest]

theorem readItems_cons {more : List MentionItem} {last : List Char}
    (h : nextItem? afterSuffix cs = some (item, rest))
    (hrest : readItems item.isSuffix rest = (more, last)) (hlast : startsWithDigit last = false) :
    readItems afterSuffix cs = (item :: more, last) := by
  rw [readItems_of_some h hrest, hlast, Bool.and_false, if_neg Bool.false_ne_true]

/-- A mention is read part by part. -/
theorem exists_parts_of_read? (h : read? cs = some (m, rest)) :
    ∃ word afterWord numeral afterNumeral, word? cs = some (word, afterWord) ∧
      numeral? ((readWords afterWord).2.dropWhile isGap) = some (numeral, afterNumeral) ∧
      m = ⟨word :: (readWords afterWord).1, numeral, (readItems false afterNumeral).1⟩ ∧
      rest = (readItems false afterNumeral).2 := by
  obtain ⟨⟨word, afterWord⟩, hword, h⟩ := Option.bind_eq_some_iff.1 h
  obtain ⟨⟨numeral, afterNumeral⟩, hnumeral, h⟩ := Option.bind_eq_some_iff.1 h
  dsimp only at h
  split at h
  next => cases h
  next =>
    cases h
    exact ⟨word, afterWord, numeral, afterNumeral, hword, hnumeral, rfl, rfl⟩

theorem allFrom_of_none (h : find? cs = none) : allFrom cs = [] := by
  rw [allFrom]
  split
  next => rfl
  next m rest hsome => cases h.symm.trans hsome

theorem allFrom_of_some (h : find? cs = some (m, rest)) :
    allFrom cs = m :: allFrom (m.resume rest) := by
  rw [allFrom]
  split
  next hnone => cases h.symm.trans hnone
  next m' rest' hsome =>
    cases h.symm.trans hsome
    rfl

theorem allFrom_congr {cs' : List Char} (h : find? cs = find? cs') : allFrom cs = allFrom cs' := by
  cases hfind : find? cs' with
  | none => rw [allFrom_of_none (h.trans hfind), allFrom_of_none hfind]
  | some found => rw [allFrom_of_some (h.trans hfind), allFrom_of_some hfind]

theorem find?_cons_of_not_isUpper {c : Char} (h : c.isUpper = false) (cs : List Char) :
    find? (c :: cs) = (read? cs).or (find? cs) := by
  rw [find?, if_neg (by rw [h]; decide)]
  cases read? cs <;> rfl

/-- The start of a text is no other place than behind a semicolon. -/
theorem all_eq_allFrom (text : String) :
    all text = allFrom (';' :: text.toList.map Char.toUpper) := by
  have hfind := find?_cons_of_not_isUpper (c := ';') (by decide)
  rw [all]
  split
  next m rest hread => exact (allFrom_of_some (by rw [hfind, hread, Option.some_or])).symm
  next hnone => exact allFrom_congr (by rw [hfind, hnone, Option.none_or])

/-! ## What is left -/

theorem exists_front_of_mark? (h : mark? mark cs = some rest) :
    ∃ front, cs = front ++ rest ∧ ∀ c ∈ front, isBlank c = true ∨ c = mark := by
  unfold mark? at h
  split at h
  next c after heq =>
    split at h
    next hc =>
      cases h
      refine ⟨cs.takeWhile isBlank ++ c :: after.takeWhile isBlank, ?_, fun x hx => ?_⟩
      · rw [List.append_assoc, List.cons_append, List.takeWhile_append_dropWhile, ← heq,
          List.takeWhile_append_dropWhile]
      · rw [List.mem_append, List.mem_cons] at hx
        rcases hx with hx | rfl | hx
        · exact Or.inl (List.all_eq_true.1 List.all_takeWhile _ hx)
        · exact Or.inr hc
        · exact Or.inl (List.all_eq_true.1 List.all_takeWhile _ hx)
    next => cases h
  next => cases h

theorem suffix_of_mark? (h : mark? mark cs = some rest) : rest <:+ cs := by
  obtain ⟨front, hcs, _⟩ := exists_front_of_mark? h
  exact ⟨front, hcs.symm⟩

theorem not_isDecimalDigit_of_mark? (h : mark? '/' cs = some rest) :
    ∃ front, cs = front ++ rest ∧ ∀ c ∈ front, isDecimalDigit c = false := by
  obtain ⟨front, hcs, hfront⟩ := exists_front_of_mark? h
  refine ⟨front, hcs, fun c hc => ?_⟩
  rcases hfront c hc with hblank | rfl
  · exact isDecimalDigit_of_isBlank hblank
  · decide

/-- No digit stands in what is read as subjects. -/
theorem exists_front_readWords (cs : List Char) :
    ∃ front, cs = front ++ (readWords cs).2 ∧ ∀ c ∈ front, isDecimalDigit c = false := by
  fun_induction readWords cs with
  | case1 cs => exact ⟨[], rfl, List.forall_mem_nil _⟩
  | case2 cs word rest h _ ih =>
      obtain ⟨after, hmark, hword⟩ := Option.bind_eq_some_iff.1 h
      obtain ⟨front, rfl, hfront⟩ := not_isDecimalDigit_of_mark? hmark
      obtain ⟨rfl, _, hupper⟩ := word?_eq_some.1 hword
      obtain ⟨words, hrest, hwords⟩ := ih
      refine ⟨front ++ (word ++ words), ?_, fun c hc => ?_⟩
      · rw [List.append_assoc, List.append_assoc, ← hrest]
      · rcases List.mem_append.1 hc with hc | hc
        · exact hfront c hc
        · rcases List.mem_append.1 hc with hc | hc
          · exact isDecimalDigit_of_isUpper (List.all_eq_true.1 hupper c hc)
          · exact hwords c hc

theorem suffix_of_numeral? (h : numeral? cs = some (numeral, rest)) :
    isDecimalDigit numeral.third = true ∧ numeral.third :: rest <:+ cs := by
  obtain ⟨rfl, hdigits⟩ := numeral?_eq_some.1 h
  refine ⟨List.all_eq_true.1 hdigits _ (by simp [Numeral.chars]), ?_⟩
  exact List.suffix_append [numeral.first, numeral.second] (numeral.third :: rest)

theorem suffix_of_fullSuffix? (h : fullSuffix? cs = some (item, rest)) :
    isDecimalDigit item.lastDigit = true ∧ item.lastDigit :: rest <:+ cs := by
  unfold fullSuffix? at h
  split at h
  next =>
    split at h
    next hboth =>
      cases h
      exact ⟨(Bool.and_eq_true_iff.1 hboth).2, List.suffix_cons _ _⟩
    next => cases h
  next => cases h

theorem suffix_of_bareSuffix? (h : bareSuffix? cs = some (item, rest)) :
    isDecimalDigit item.lastDigit = true ∧ item.lastDigit :: rest <:+ cs := by
  unfold bareSuffix? at h
  split at h
  next =>
    split at h
    next hdigit =>
      cases h
      exact ⟨hdigit, List.suffix_rfl⟩
    next => cases h
  next => cases h

theorem suffix_of_nextItem? (h : nextItem? afterSuffix cs = some (item, rest)) :
    isDecimalDigit item.lastDigit = true ∧ item.lastDigit :: rest <:+ cs := by
  rcases Option.or_eq_some_iff.1 h with hsuffix | ⟨_, hnumber⟩
  · split at hsuffix
    next =>
      obtain ⟨after, hmark, hitem⟩ := Option.bind_eq_some_iff.1 hsuffix
      have hafter := suffix_of_mark? hmark
      rcases Option.or_eq_some_iff.1 hitem with hfull | ⟨_, hbare⟩
      · exact (suffix_of_fullSuffix? hfull).imp_right fun hrest => hrest.trans hafter
      · exact (suffix_of_bareSuffix? hbare).imp_right fun hrest => hrest.trans hafter
    next => exact suffix_of_fullSuffix? hsuffix
  · obtain ⟨after, hmark, hitem⟩ := Option.bind_eq_some_iff.1 hnumber
    obtain ⟨⟨numeral, tail⟩, hnumeral, heq⟩ := Option.map_eq_some_iff.1 hitem
    cases heq
    exact (suffix_of_numeral? hnumeral).imp_right fun hrest => hrest.trans (suffix_of_mark? hmark)

/-- The digit in which the items behind another digit end. -/
theorem suffix_readItems (hdigit : isDecimalDigit digit = true) (afterSuffix : Bool)
    (cs : List Char) :
    isDecimalDigit (((readItems afterSuffix cs).1.getLast?.map MentionItem.lastDigit).getD digit) =
        true ∧
      ((readItems afterSuffix cs).1.getLast?.map MentionItem.lastDigit).getD digit ::
        (readItems afterSuffix cs).2 <:+ digit :: cs := by
  fun_induction readItems afterSuffix cs generalizing digit with
  | case1 => exact ⟨hdigit, List.suffix_rfl⟩
  | case2 => exact ⟨hdigit, List.suffix_rfl⟩
  | case3 afterSuffix cs item rest h _ more last hrec _ ih =>
      obtain ⟨hitem, hrest⟩ := suffix_of_nextItem? h
      have hmore := ih hitem
      rw [hrec] at hmore
      have hlast : ((item :: more).getLast?.map MentionItem.lastDigit).getD digit =
          (more.getLast?.map MentionItem.lastDigit).getD item.lastDigit := by
        rw [List.getLast?_cons]
        cases more.getLast? <;> rfl
      rw [hlast]
      exact hmore.imp_right fun hmore => (hmore.trans hrest).trans (List.suffix_cons _ _)

theorem suffix_of_read? (h : read? cs = some (m, rest)) :
    isDecimalDigit m.lastDigit = true ∧ m.lastDigit :: rest <:+ cs := by
  obtain ⟨word, afterWord, numeral, afterNumeral, hword, hnumeral, rfl, rfl⟩ :=
    exists_parts_of_read? h
  obtain ⟨rfl, _⟩ := word?_eq_some.1 hword
  obtain ⟨hdigit, hthird⟩ := suffix_of_numeral? hnumeral
  obtain ⟨front, hfront, _⟩ := exists_front_readWords afterWord
  have hwords : (readWords afterWord).2 <:+ afterWord := ⟨front, hfront.symm⟩
  have hnumber : numeral.third :: afterNumeral <:+ word ++ afterWord :=
    ((hthird.trans (List.dropWhile_suffix isGap)).trans hwords).trans
      (List.suffix_append word afterWord)
  exact (suffix_readItems hdigit false afterNumeral).imp_right fun hitems => hitems.trans hnumber

/-- What is left after a mention that is found stands behind the digit that ends the mention. -/
theorem suffix_of_find? (h : find? cs = some (m, rest)) :
    isDecimalDigit m.lastDigit = true ∧ m.lastDigit :: rest <:+ cs := by
  fun_induction find? cs with
  | case1 => cases h
  | case2 c tail _ ih => exact (ih h).imp_right fun hrest => hrest.trans (List.suffix_cons _ _)
  | case3 c tail _ found hread =>
      cases h
      exact (suffix_of_read? hread).imp_right fun hrest => hrest.trans (List.suffix_cons _ _)
  | case4 c tail _ _ ih => exact (ih h).imp_right fun hrest => hrest.trans (List.suffix_cons _ _)

end Mention

end Curriculum
