import Curriculum.Proofs.Group.Legible

/-!
# Well-formed chunks

A list of strings makes up a credit rule exactly if it is an amount, the digits of some levels and
codes of subjects that may run together. The rule does not depend on which of them do, and it comes
back from the pieces of its text between the dashes.
-/

namespace Curriculum

namespace CreditRule

variable {r : CreditRule} {amount scope : String} {groups : List (List (List Char))}

/-- An amount of seven digits is within 32 bits, and it does not matter which codes run together. -/
theorem exists_ofChunks_spelled (h : WellFormed amount scope groups) :
    ∃ r : CreditRule,
      (∀ groups', groups'.flatten = groups.flatten →
        ofChunks (spelled amount scope groups') = .ok r) ∧
      r.required.toNat = Nat.ofDigitChars 10 amount.toList 0 ∧ r.scope = scope ∧
      r.subjects.map SubjectCode.chars =
        (groups.flatten.map (List.map Char.toUpper)).eraseDups := by
  have hlt := Nat.lt_of_le_of_lt h.amount.value_le (show 9999999 < UInt32.size by decide)
  have hvalue := UInt32.toNat_ofNat_of_lt' hlt
  obtain ⟨subjects, hsubjects⟩ := exists_subjects_iff.2 h.codes
  have hkept := (eraseDups_flatten_eq_iff hsubjects _).1 rfl
  refine ⟨⟨UInt32.ofNat _, scope, _⟩, fun groups' hsame => ?_, hvalue, rfl, hkept⟩
  have hform : WellFormed amount scope groups' := { h with codes := hsame ▸ h.codes }
  exact ofChunks_eq_ok.2 ⟨amount, groups', rfl, hform, hvalue, hsame ▸ hkept⟩

theorem chars_eq_intercalate (r : CreditRule) : r.chars = ['-'].intercalate r.chunks := by
  rw [chars_eq_chunks, chunks, intercalate_cons, List.tail_cons]
  rfl

/-- The dashes in the text of a rule are those between its chunks. -/
theorem split_text (h : r.Legible) :
    (r.text.split '-').toList.map String.Slice.copy = r.chunks.map String.ofList := by
  have hdash (cs : List Char) (hcs : cs ∈ r.chunks) : '-' ∉ cs := fun hmem =>
    ((h.isWordChar_chunks cs hcs).2 '-' hmem).ne (by decide) rfl
  rw [String.toList_split_char, text, String.toList_ofList, chars_eq_intercalate,
    List.splitOn_intercalate '-' hdash (List.cons_ne_nil _ _)]

/-- The chunks of a rule are those that are well-formed, and the rule has the amount, the levels and
the codes that stand in them. -/
theorem ofChunks_spellings :
    (∀ chunks, (∃ r, ofChunks chunks = .ok r) ↔
      ∃ amount scope groups, chunks = spelled amount scope groups ∧
        WellFormed amount scope groups) ∧
    ∀ amount scope groups, WellFormed amount scope groups →
      ∃ r : CreditRule,
        (∀ groups', groups'.flatten = groups.flatten →
          ofChunks (spelled amount scope groups') = .ok r) ∧
        r.required.toNat = Nat.ofDigitChars 10 amount.toList 0 ∧ r.scope = scope ∧
        r.subjects.map SubjectCode.chars =
          (groups.flatten.map (List.map Char.toUpper)).eraseDups ∧
        ofChunks ((r.text.split '-').toList.map String.Slice.copy) = .ok r := by
  refine ⟨fun chunks => ⟨?_, ?_⟩, fun amount scope groups h => ?_⟩
  · rintro ⟨r, hr⟩
    obtain ⟨amount, groups, hchunks, h, _⟩ := ofChunks_eq_ok.1 hr
    exact ⟨amount, r.scope, groups, hchunks, h⟩
  · rintro ⟨amount, scope, groups, rfl, h⟩
    obtain ⟨r, hr, _⟩ := exists_ofChunks_spelled h
    exact ⟨r, hr groups rfl⟩
  · obtain ⟨r, hr, hvalue, hscope, hkept⟩ := exists_ofChunks_spelled h
    have hlegible := legible_of_ofChunks (hr groups rfl)
    exact ⟨r, hr, hvalue, hscope, hkept, by rw [split_text hlegible, ofChunks_chunks hlegible]⟩

/-- Which codes run together makes no difference, and small letters and repeats make none. -/
theorem ofChunks_spellings_regrouped :
    ∃ r : CreditRule,
      ofChunks ["6", "34", "mathCOMP", "Comp"] = .ok r ∧
        ofChunks ["6", "34", "math", "COMPComp"] = .ok r ∧
        r.required.toNat = 6 ∧ r.scope = "34" ∧
        r.subjects.map SubjectCode.chars = ["MATH".toList, "COMP".toList] := by
  have hcodes : ∀ code ∈ ["math".toList, "COMP".toList, "Comp".toList],
      SubjectCode.IsSpelling code := by
    simp only [List.forall_mem_cons]
    exact ⟨⟨'m', 'a', 't', 'h', rfl, rfl, rfl, rfl, rfl⟩,
      ⟨'C', 'O', 'M', 'P', rfl, rfl, rfl, rfl, rfl⟩,
      ⟨'C', 'o', 'm', 'p', rfl, rfl, rfl, rfl, rfl⟩, nofun⟩
  obtain ⟨r, hr, hvalue, hscope, hkept, _⟩ :=
    ofChunks_spellings.2 "6" "34" [["math".toList, "COMP".toList], ["Comp".toList]]
      ⟨⟨by decide, by decide, by decide⟩, by decide, by decide, hcodes⟩
  exact ⟨r, hr _ rfl, hr [["math".toList], ["COMP".toList, "Comp".toList]] rfl, hvalue, hscope,
    hkept⟩

end CreditRule

end Curriculum
