import Curriculum.Plan.Graph
import Curriculum.Proofs.Course.Set

/-!
# Subject indexes

What adding and removing a course does to the sets of an index. An index is tidy if none of its
entries is empty; both operations keep it so.
-/

namespace Curriculum.SubjectIndex

variable {index : SubjectIndex} {subject s : SubjectCode} {id x : CourseId}

@[simp]
theorem not_mem_coursesOf_empty : x ∉ coursesOf (∅ : SubjectIndex) s := by
  simp [coursesOf]

@[simp]
theorem mem_coursesOf_add :
    x ∈ (index.add subject id).coursesOf s ↔ subject = s ∧ id = x ∨ x ∈ index.coursesOf s := by
  simp only [coursesOf, add, Std.ExtTreeMap.getElem?_insert, Std.compare_eq_iff_eq]
  by_cases h : subject = s
  · subst h
    simp
  · simp [h]

/-- Adds a course under each of some subjects. -/
def addAll (index : SubjectIndex) (subjects : List SubjectCode) (id : CourseId) : SubjectIndex :=
  subjects.foldl (fun index subject => index.add subject id) index

/-- An entry is begun, or grows, if its subject is one of those. -/
theorem getElem?_addAll {subjects : List SubjectCode} :
    (index.addAll subjects id)[s]? =
      if s ∈ subjects then some ((index.coursesOf s).insert id) else index[s]? := by
  induction subjects generalizing index with
  | nil => rfl
  | cons subject rest ih =>
      have hfirst : (index.addAll (subject :: rest) id)[s]? =
          ((index.add subject id).addAll rest id)[s]? := rfl
      have hadd : (index.add subject id)[s]? =
          if subject = s then some ((index.coursesOf subject).insert id) else index[s]? := by
        simp only [add, Std.ExtTreeMap.getElem?_insert, Std.compare_eq_iff_eq]
      rw [hfirst, ih, coursesOf, hadd]
      by_cases heq : subject = s
      · subst heq
        simp
      · simp [heq, Ne.symm heq, coursesOf]

theorem coursesOf_addAll {subjects : List SubjectCode} :
    (index.addAll subjects id).coursesOf s =
      if s ∈ subjects then (index.coursesOf s).insert id else index.coursesOf s := by
  rw [coursesOf, getElem?_addAll]
  split <;> rfl

theorem mem_coursesOf_addAll {subjects : List SubjectCode} :
    x ∈ (index.addAll subjects id).coursesOf s ↔
      s ∈ subjects ∧ id = x ∨ x ∈ index.coursesOf s := by
  rw [coursesOf_addAll]
  split <;> simp [*]

theorem addAll_comm (subjects others : List SubjectCode) (id other : CourseId) :
    (index.addAll subjects id).addAll others other =
      (index.addAll others other).addAll subjects id := by
  apply Std.ExtTreeMap.ext_getElem?
  intro s
  simp only [getElem?_addAll, coursesOf_addAll]
  by_cases hid : s ∈ subjects <;> by_cases hother : s ∈ others <;>
    simp [hid, hother, CourseSet.insert_comm _ id other]

theorem addAll_addAll (subjects : List SubjectCode) (id : CourseId) :
    (index.addAll subjects id).addAll subjects id = index.addAll subjects id := by
  apply Std.ExtTreeMap.ext_getElem?
  intro s
  simp only [getElem?_addAll, coursesOf_addAll]
  by_cases hid : s ∈ subjects <;> simp [hid]

/-- What is left of an entry when a course is removed. -/
theorem getElem?_remove :
    (index.remove id)[s]? = index[s]?.bind fun ids =>
      if id ∈ ids then if ids.erase id = ∅ then none else some (ids.erase id) else some ids := by
  simp [remove, Std.ExtTreeSet.isEmpty_iff]

@[simp]
theorem mem_coursesOf_remove :
    x ∈ (index.remove id).coursesOf s ↔ id ≠ x ∧ x ∈ index.coursesOf s := by
  simp only [coursesOf, getElem?_remove]
  cases index[s]? with
  | none => simp
  | some ids =>
      simp only [Option.bind_some, Option.getD_some]
      by_cases hmem : id ∈ ids
      · -- An entry that is left without members is dropped, which has the same members.
        have herase : x ∈ ids.erase id ↔ id ≠ x ∧ x ∈ ids := by simp
        by_cases hempty : ids.erase id = ∅
        · rw [← herase, if_pos hmem, if_pos hempty, hempty, Option.getD_none]
        · rw [← herase, if_pos hmem, if_neg hempty, Option.getD_some]
      · have hne : x ∈ ids → id ≠ x := fun hx heq => hmem (heq ▸ hx)
        simpa [hmem] using hne

/-- No entry is an empty set. -/
def Tidy (index : SubjectIndex) : Prop :=
  ∀ subject : SubjectCode, index[subject]? ≠ some ∅

theorem tidy_empty : Tidy ∅ := by
  intro subject
  simp

theorem Tidy.add (h : Tidy index) : Tidy (SubjectIndex.add index subject id) := by
  intro s
  simp only [SubjectIndex.add, Std.ExtTreeMap.getElem?_insert, Std.compare_eq_iff_eq]
  split
  · rw [ne_eq, Option.some.injEq]
    exact Std.ExtTreeSet.insert_ne_empty
  · exact h s

theorem Tidy.addAll {subjects : List SubjectCode} (h : Tidy index) :
    Tidy (SubjectIndex.addAll index subjects id) := by
  intro s
  rw [getElem?_addAll]
  split
  · rw [ne_eq, Option.some.injEq]
    exact Std.ExtTreeSet.insert_ne_empty
  · exact h s

theorem Tidy.remove (h : Tidy index) : Tidy (SubjectIndex.remove index id) := by
  intro s
  have hs := h s
  rw [getElem?_remove]
  cases hget : index[s]? with
  | none => simp
  | some ids =>
      rw [hget, ne_eq, Option.some.injEq] at hs
      rw [Option.bind_some]
      split
      · split
        · simp
        next hempty => simpa using hempty
      · simpa using hs

/-- A tidy index is determined by the courses of each subject. -/
theorem Tidy.eq_of_mem_iff {index' : SubjectIndex} (h : Tidy index) (h' : Tidy index')
    (hmem : ∀ s x, x ∈ index.coursesOf s ↔ x ∈ index'.coursesOf s) : index = index' := by
  apply eq_of_getD_eq h h'
  intro s
  ext x
  exact hmem s x

end Curriculum.SubjectIndex
