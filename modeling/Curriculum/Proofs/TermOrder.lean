import Std.Data.ExtTreeMap.Lemmas
import Curriculum.TermOrder

/-!
# Terms with positions

Numbering gives a position to the terms that are listed and to no others.
-/

namespace Curriculum.TermOrder

variable {o : TermOrder} {term t : TermId} {terms : List TermId} {position : Int32}

@[simp]
theorem position?_empty : TermOrder.empty.position? t = none := by
  simp [TermOrder.empty, position?]

theorem position?_withPosition :
    (o.withPosition term position).position? t =
      if term = t then some position else o.position? t := by
  simp only [position?, withPosition, Std.ExtTreeMap.getElem?_insert, Std.compare_eq_iff_eq]

theorem position?_ofTerms_isSome : ((ofTerms terms).position? t).isSome = true ↔ t ∈ terms := by
  have hfold (o : TermOrder) (f : TermOrder → TermId → TermOrder)
      (hf : ∀ o term, f o term = if (o.position? term).isSome then o
        else o.withPosition term (Int32.ofNat o.size)) :
      ((terms.foldl f o).position? t).isSome = true ↔
        t ∈ terms ∨ (o.position? t).isSome = true := by
    induction terms generalizing o with
    | nil => simp
    | cons term rest ih =>
        rw [List.foldl_cons, ih, hf, List.mem_cons, or_comm (a := t = term), or_assoc]
        refine or_congr_right ?_
        -- A term that is listed again has a position already.
        by_cases heq : term = t
        · subst heq
          split
          next hknown => simp [hknown]
          next => simp [position?_withPosition]
        · have hne : t ≠ term := Ne.symm heq
          split
          · simp [hne]
          · simp [position?_withPosition, heq, hne]
  unfold ofTerms
  rw [hfold _ _ fun _ _ => rfl, position?_empty]
  simp

end Curriculum.TermOrder
