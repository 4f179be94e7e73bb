import Curriculum.Course.Extract
import Curriculum.Proofs.Group.CreditChunks

/-!
# Letter case

Chunks of a text are put in capitals before they are read. What is found in them is what would be
found in them as they stand.
-/

namespace Curriculum

/-- A chunk in capitals. -/
def inCapitals (chunk : List Char) : String := String.ofList (chunk.map Char.toUpper)

variable {chunk : List Char} {chunks : List (List Char)}

theorem utf8ByteSize_inCapitals (chunk : List Char) :
    (inCapitals chunk).utf8ByteSize = (String.ofList chunk).utf8ByteSize :=
  utf8ByteSize_map_toUpper chunk

/-! ## Courses -/

theorem Mention.all_inCapitals (chunk : List Char) :
    all (inCapitals chunk) = all (String.ofList chunk) := by
  rw [all, all, inCapitals, String.toList_ofList, String.toList_ofList, map_toUpper_map_toUpper]

/-- The first course of a text comes first in the list of its courses. -/
theorem extractFirst?_eq_head? (text : String) : extractFirst? text = (extractIds text).head? := by
  have hhead (ids : List CourseId) : ids.eraseDups.head? = ids.head? := by
    cases ids with
    | nil => rfl
    | cons id rest => rw [List.eraseDups_cons, List.head?_cons, List.head?_cons]
  rw [extractIds, hhead, List.head?_flatMap]
  rfl

theorem extractFirst?_inCapitals (chunk : List Char) :
    extractFirst? (inCapitals chunk) = extractFirst? (String.ofList chunk) := by
  rw [extractFirst?, extractFirst?, Mention.all_inCapitals]

theorem exists_extractFirst?_inCapitals :
    (∃ id, extractFirst? (inCapitals chunk) = some id) ↔
      extractIds (String.ofList chunk) ≠ [] := by
  rw [extractFirst?_inCapitals, extractFirst?_eq_head?, ← Option.ne_none_iff_exists', ne_eq,
    List.head?_eq_none_iff]

/-! ## Credit rules -/

theorem SubjectCode.parse_inCapitals {code : List Char} {s : SubjectCode} :
    parse (inCapitals code) = .ok s ↔ parse (String.ofList code) = .ok s := by
  have hblank : Text.isBlank ∘ Char.toUpper = Text.isBlank := funext isBlank_toUpper
  have htrim : Text.trim (code.map Char.toUpper) = (Text.trim code).map Char.toUpper := by
    unfold Text.trim
    rw [List.dropWhile_map, hblank, ← List.map_reverse, List.dropWhile_map, hblank,
      List.map_reverse]
  rw [parse_eq_ok, parse_eq_ok, inCapitals, String.toList_ofList, String.toList_ofList, htrim,
    map_toUpper_map_toUpper]

namespace CreditRule

theorem all_isDigit_inCapitals (chunk : List Char) :
    (inCapitals chunk).toList.all Char.isDigit = chunk.all Char.isDigit := by
  rw [inCapitals, String.toList_ofList, List.all_map]
  exact congrArg chunk.all (funext isDigit_toUpper)

/-- Digits are capitals already. -/
theorem inCapitals_of_digits (h : chunk.all Char.isDigit = true) :
    inCapitals chunk = String.ofList chunk := by
  rw [inCapitals, IsWordChar.map_toUpper fun c hc => Or.inr (List.all_eq_true.1 h c hc)]

theorem parseAmount_inCapitals {required : UInt32} :
    parseAmount (inCapitals chunk) = .ok required ↔
      parseAmount (String.ofList chunk) = .ok required := by
  cases hdigits : chunk.all Char.isDigit with
  | true => rw [inCapitals_of_digits hdigits]
  | false => simp [parseAmount_eq_ok, IsAmount, all_isDigit_inCapitals, hdigits]

theorem parseScope_inCapitals {scope : String} :
    parseScope (inCapitals chunk) = .ok scope ↔
      parseScope (String.ofList chunk) = .ok scope := by
  cases hdigits : chunk.all Char.isDigit with
  | true => rw [inCapitals_of_digits hdigits]
  | false => simp [parseScope, all_isDigit_inCapitals, hdigits]

theorem codesFrom_inCapitals (pending cs : List Char) {subjects : List SubjectCode} :
    codesFrom (pending.map Char.toUpper) (cs.map Char.toUpper) = .ok subjects ↔
      codesFrom pending cs = .ok subjects := by
  induction cs generalizing pending subjects with
  | nil => rfl
  | cons c rest ih =>
      have hcode : pending.map Char.toUpper ++ [c.toUpper] = (pending ++ [c]).map Char.toUpper := by
        rw [List.map_append, List.map_singleton]
      have hsize : (String.ofList ((pending ++ [c]).map Char.toUpper)).utf8ByteSize =
          (String.ofList (pending ++ [c])).utf8ByteSize :=
        utf8ByteSize_inCapitals _
      have hparse (s : SubjectCode) :
          SubjectCode.parse (String.ofList ((pending ++ [c]).map Char.toUpper)) = .ok s ↔
            SubjectCode.parse (String.ofList (pending ++ [c])) = .ok s :=
        SubjectCode.parse_inCapitals
      have hrest (others : List SubjectCode) :
          codesFrom [] (rest.map Char.toUpper) = .ok others ↔ codesFrom [] rest = .ok others :=
        ih []
      rw [List.map_cons, codesFrom, codesFrom, hcode, hsize]
      split
      next => exact ih _
      next =>
        simp only [bind_eq_ok, pure_eq_ok, hrest]
        split
        next => simp only [hparse]
        next => rfl

theorem parseSubjects_inCapitals {subjects : List SubjectCode} :
    parseSubjects (inCapitals chunk) = .ok subjects ↔
      parseSubjects (String.ofList chunk) = .ok subjects := by
  rw [parseSubjects, parseSubjects, utf8ByteSize_inCapitals]
  split
  next =>
    rw [inCapitals, String.toList_ofList, String.toList_ofList]
    exact codesFrom_inCapitals [] chunk
  next => simp

theorem mapM_parseSubjects_inCapitals {subjects : List (List SubjectCode)} :
    (chunks.map inCapitals).mapM parseSubjects = .ok subjects ↔
      (chunks.map String.ofList).mapM parseSubjects = .ok subjects := by
  induction chunks generalizing subjects with
  | nil => rfl
  | cons chunk rest ih =>
      simp only [List.map_cons, List.mapM_cons, bind_eq_ok, pure_eq_ok, parseSubjects_inCapitals,
        ih]

theorem ofChunks_inCapitals {rule : CreditRule} :
    ofChunks (chunks.map inCapitals) = .ok rule ↔
      ofChunks (chunks.map String.ofList) = .ok rule := by
  have hchunk (chunk : Option (List Char)) (f : List Char → String) (h : f [] = "") :
      (chunk.map f).getD "" = f (chunk.getD []) := by
    cases chunk with
    | none => exact h.symm
    | some chunk => rfl
  simp only [ofChunks, bind_eq_ok, pure_eq_ok, mapError_eq_ok, List.head?_map, List.getElem?_map,
    hchunk _ inCapitals rfl, hchunk _ String.ofList rfl, parseAmount_inCapitals,
    parseScope_inCapitals, ← List.map_drop, mapM_parseSubjects_inCapitals]

end CreditRule

end Curriculum
