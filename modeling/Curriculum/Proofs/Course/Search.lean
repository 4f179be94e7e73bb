import Curriculum.Proofs.Group.FoundLeaves

/-!
# Searches that stop early

A text is searched mention by mention, and what a mention stands for is added to what has been
found. A search that stops as soon as it has found enough has found the first part of what there is
to find. So looking for one course comes to the first of all courses, whatever stands before it that
looks like a mention and names none.
-/

namespace Curriculum

namespace Mention

/-- What has been found, with the ids of one more mention. An id found again keeps its place. -/
def gather (found more : List CourseId) : List CourseId := (found ++ more).eraseDups

/-- What a search through a text finds in addition to what has been found before. The search is over
after a mention with which enough has been found. -/
def search (enough : List CourseId → Bool) (found : List CourseId) (cs : List Char) :
    List CourseId :=
  match h : find? cs with
  | none => found
  | some (m, rest) =>
    have := length_of_find? h
    have := m.length_resume rest
    if enough (gather found m.ids) then gather found m.ids
    else search enough (gather found m.ids) (m.resume rest)
termination_by cs.length

/-- A search for everything. -/
def searchAll : List Char → List CourseId := search (fun _ => false) []

/-- A search for one course, which is over with the first mention that names any. -/
def searchOne : List Char → List CourseId := search (fun found => !found.isEmpty) []

variable {enough : List CourseId → Bool} {found : List CourseId} {cs rest : List Char} {m : Mention}

theorem search_of_none (h : find? cs = none) : search enough found cs = found := by
  rw [search]
  split
  next => rfl
  next m rest hsome => cases h.symm.trans hsome

theorem search_of_some (h : find? cs = some (m, rest)) :
    search enough found cs =
      if enough (gather found m.ids) then gather found m.ids
      else search enough (gather found m.ids) (m.resume rest) := by
  rw [search]
  split
  next hnone => cases h.symm.trans hnone
  next m' rest' hsome =>
    cases h.symm.trans hsome
    rfl

/-! ## What is found first -/

theorem prefix_gather (h : found.Nodup) (more : List CourseId) : found <+: gather found more := by
  rw [gather, List.eraseDups_append, eraseDups_of_nodup h]
  exact List.prefix_append _ _

/-- What has been found once stays in front. -/
theorem prefix_search (h : found.Nodup) : found <+: search enough found cs := by
  fun_induction search enough found cs with
  | case1 found cs hnone => exact List.prefix_refl found
  | case2 found cs m rest hsome _ _ henough => exact prefix_gather h m.ids
  | case3 found cs m rest hsome _ _ hmore ih =>
      exact (prefix_gather h m.ids).trans (ih (nodup_eraseDups _))

/-- Stopping cuts the list short and changes nothing in it. -/
theorem search_prefix (enough : List CourseId → Bool) (found : List CourseId) (cs : List Char) :
    search enough found cs <+: search (fun _ => false) found cs := by
  fun_induction search enough found cs with
  | case1 found cs hnone =>
      rw [search_of_none hnone]
  | case2 found cs m rest hsome _ _ henough =>
      rw [search_of_some hsome, if_neg Bool.false_ne_true]
      exact prefix_search (nodup_eraseDups _)
  | case3 found cs m rest hsome _ _ hmore ih =>
      rw [search_of_some hsome, if_neg Bool.false_ne_true]
      exact ih

/-- A search that is not content with nothing comes back with nothing only if there is nothing. -/
theorem search_eq_nil (henough : enough [] = false) (h : search enough [] cs = []) :
    search (fun _ => false) [] cs = [] := by
  induction hlength : cs.length using Nat.strongRecOn generalizing cs with
  | ind n ih =>
      cases hfind : find? cs with
      | none => rw [search_of_none hfind]
      | some next =>
          obtain ⟨m, rest⟩ := next
          have hshort := length_of_find? hfind
          have hresume := m.length_resume rest
          rw [search_of_some hfind] at h
          -- Whether the search stops here or goes on, this mention has added nothing.
          have hnone : gather [] m.ids = [] := by
            split at h
            next => exact h
            next =>
              have hkept : gather [] m.ids <+: search enough (gather [] m.ids) (m.resume rest) :=
                prefix_search (nodup_eraseDups _)
              rw [h] at hkept
              exact List.prefix_nil.1 hkept
          rw [hnone, if_neg (by rw [henough]; decide)] at h
          rw [search_of_some hfind, hnone, if_neg Bool.false_ne_true]
          exact ih _ (by omega) h rfl

/-! ## Both ways to search -/

theorem search_false_eq (found : List CourseId) (cs : List Char) (h : found.Nodup) :
    search (fun _ => false) found cs = (found ++ (allFrom cs).flatMap ids).eraseDups := by
  fun_induction allFrom cs generalizing found with
  | case1 cs hnone =>
      rw [search_of_none hnone, List.flatMap_nil, List.append_nil, eraseDups_of_nodup h]
  | case2 cs m rest hsome _ _ ih =>
      rw [search_of_some hsome, if_neg Bool.false_ne_true,
        ih (gather found m.ids) (nodup_eraseDups _), gather, eraseDups_append_eraseDups,
        List.flatMap_cons, List.append_assoc]

theorem searchOne_head? (cs : List Char) :
    (searchOne cs).head? = (allFrom cs).findSome? fun m => m.ids.head? := by
  unfold searchOne
  fun_induction allFrom cs with
  | case1 cs hnone =>
      rw [search_of_none hnone]
      rfl
  | case2 cs m rest hsome _ _ ih =>
      rw [search_of_some hsome, List.findSome?_cons]
      cases hids : m.ids with
      | nil => exact ih
      | cons id others =>
          have hgather : gather [] (id :: others) = id :: (others.filter (!· == id)).eraseDups :=
            List.eraseDups_cons
          rw [hgather]
          rfl

end Mention

theorem extractIds_eq_searchAll (text : String) :
    extractIds text = Mention.searchAll (';' :: text.toList.map Char.toUpper) := by
  rw [extractIds, Mention.all_eq_allFrom, Mention.searchAll,
    Mention.search_false_eq _ _ List.nodup_nil, List.nil_append]

theorem extractFirst?_eq_searchOne (text : String) :
    extractFirst? text = (Mention.searchOne (';' :: text.toList.map Char.toUpper)).head? := by
  rw [extractFirst?, Mention.all_eq_allFrom, Mention.searchOne_head?]

theorem legible_of_mem_extractIds {text : String} {id : CourseId} (h : id ∈ extractIds text) :
    id.subject.Legible := by
  rw [extractIds, List.mem_eraseDups] at h
  obtain ⟨m, hm, hid⟩ := List.mem_flatMap.1 h
  obtain ⟨tail, rest, hread⟩ := Mention.exists_read?_of_mem_all hm
  exact Mention.legible_of_mem_ids (Mention.capitals_of_read? hread) hid

/-- The list of the courses of a text has no course twice, and none with a subject that is not all
letters or that names a season; and looking for one course finds the first of them, if there is
any. -/
theorem extractIds_take_one (text : String) :
    (extractIds text).Nodup ∧ (∀ id ∈ extractIds text, id.subject.Legible) ∧
      (extractFirst? text).toList = (extractIds text).take 1 := by
  refine ⟨nodup_eraseDups _, fun id => legible_of_mem_extractIds, ?_⟩
  rw [extractFirst?_eq_searchOne, extractIds_eq_searchAll, List.take_one]
  generalize ';' :: text.toList.map Char.toUpper = cs
  obtain ⟨later, hall⟩ : Mention.searchOne cs <+: Mention.searchAll cs :=
    Mention.search_prefix _ [] cs
  cases hone : Mention.searchOne cs with
  | nil =>
      have hnil : Mention.searchAll cs = [] := Mention.search_eq_nil rfl hone
      rw [hnil]
  | cons id others =>
      rw [← hall, hone]
      rfl

/-- A season, a number in the digits of another script and a suffix without a part come before the
first course. -/
example : (extractFirst? "FALL 202, MATH ٢٤٠ or comp 250, math 240").map CourseId.text =
    some "COMP 250" := by
  decide +kernel

end Curriculum
