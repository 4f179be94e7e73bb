import Curriculum.Proofs.Course.Written
import Curriculum.Proofs.Group.CreditChunks
import Curriculum.Proofs.Outcome

/-!
# Leaves that are read

Whatever is read as a leaf is one that its text brings back. A mention starts from words of four
capitals, so a course that is found has a subject of letters, and no season. The chunks of a credit
rule are kept within bounds where they are read.
-/

namespace Curriculum

/-! ## Courses -/

namespace Mention

variable {cs rest word : List Char} {m : Mention} {s : SubjectCode} {id : CourseId}

theorem capitals_of_word? (h : word? cs = some (word, rest)) : word.all Char.isUpper = true := by
  obtain ⟨_, _, hupper⟩ := word?_eq_some.1 h
  exact hupper

theorem capitals_of_readWords (cs : List Char) :
    ∀ word ∈ (readWords cs).1, word.all Char.isUpper = true := by
  fun_induction readWords cs with
  | case1 => exact fun word hword => absurd hword List.not_mem_nil
  | case2 cs word rest h _ ih =>
      obtain ⟨after, _, hword⟩ := Option.bind_eq_some_iff.1 h
      rw [List.forall_mem_cons]
      exact ⟨capitals_of_word? hword, ih⟩

theorem capitals_of_read? (h : read? cs = some (m, rest)) :
    ∀ word ∈ m.subjects, word.all Char.isUpper = true := by
  obtain ⟨word, after, numeral, tail, hword, _, rfl, _⟩ := exists_parts_of_read? h
  rw [List.forall_mem_cons]
  exact ⟨capitals_of_word? hword, capitals_of_readWords after⟩

theorem exists_read?_of_find? (h : find? cs = some (m, rest)) :
    ∃ tail, read? tail = some (m, rest) := by
  fun_induction find? cs with
  | case1 => cases h
  | case2 c tail hupper ih => exact ih h
  | case3 c tail hupper found hread =>
      cases h
      exact ⟨tail, hread⟩
  | case4 c tail hupper hread ih => exact ih h

theorem exists_read?_of_mem_allFrom (h : m ∈ allFrom cs) :
    ∃ tail rest, read? tail = some (m, rest) := by
  fun_induction allFrom cs with
  | case1 => cases h
  | case2 cs first rest hfind _ _ ih =>
      rcases List.mem_cons.1 h with rfl | hmem
      · obtain ⟨tail, hread⟩ := exists_read?_of_find? hfind
        exact ⟨tail, rest, hread⟩
      · exact ih hmem

/-- Every mention in a text is read at some place. -/
theorem exists_read?_of_mem_all {text : String} (h : m ∈ all text) :
    ∃ tail rest, read? tail = some (m, rest) := by
  rw [all_eq_allFrom] at h
  exact exists_read?_of_mem_allFrom h

theorem legible_of_mem_subjectCodes (hm : ∀ word ∈ m.subjects, word.all Char.isUpper = true)
    (h : s ∈ m.subjectCodes) : s.Legible := by
  obtain ⟨word, hword, hs⟩ := List.mem_filterMap.1 h
  rw [List.mem_filter] at hword
  rw [SubjectCode.Legible, SubjectCode.chars_of_ofChars? hs]
  exact ⟨hm word hword.1, by simpa using hword.2⟩

theorem subject_of_mem_ids {l : Listing} (h : id ∈ l.ids s) : id.subject = s := by
  unfold Listing.ids at h
  split at h
  next => cases h
  next =>
    split at h
    next => rw [List.mem_singleton.1 h]
    next =>
      obtain ⟨_, _, rfl⟩ := List.mem_map.1 h
      rfl

theorem legible_of_mem_ids (hm : ∀ word ∈ m.subjects, word.all Char.isUpper = true)
    (h : id ∈ m.ids) : id.subject.Legible := by
  obtain ⟨s, hs, hid⟩ := List.mem_flatMap.1 h
  obtain ⟨l, _, hid⟩ := List.mem_flatMap.1 hid
  rw [subject_of_mem_ids hid]
  exact legible_of_mem_subjectCodes hm hs

end Mention

theorem legible_of_extractFirst? {text : String} {id : CourseId}
    (h : extractFirst? text = some id) : id.subject.Legible := by
  obtain ⟨m, hm, hhead⟩ := List.exists_of_findSome?_eq_some h
  obtain ⟨tail, rest, hread⟩ := Mention.exists_read?_of_mem_all hm
  exact Mention.legible_of_mem_ids (Mention.capitals_of_read? hread) (List.mem_of_head? hhead)

end Curriculum
