import Std.Data.ExtTreeMap.Lemmas
import Std.Data.ExtTreeSet.Lemmas
import Curriculum.Course.Id
import Curriculum.Proofs.Lists

/-!
# Collections of courses

Membership in the sets that changes of a plan build up, course by course; the values of a map, and
maps that keep no default.
-/

namespace Curriculum

@[simp]
theorem CourseSet.mem_foldl_union {α : Type} {f : α → CourseSet} {l : List α} {s : CourseSet}
    {a : CourseId} :
    a ∈ l.foldl (fun found x => found ∪ f x) s ↔ a ∈ s ∨ ∃ x ∈ l, a ∈ f x := by
  induction l generalizing s with
  | nil => simp
  | cons x rest ih =>
      simp only [List.foldl_cons, ih, Std.ExtTreeSet.mem_union_iff, List.mem_cons, exists_eq_or_imp,
        or_assoc]

@[simp]
theorem CourseSet.insert_insert (s : CourseSet) (a : CourseId) :
    Std.ExtTreeSet.insert (s.insert a) a = s.insert a := by
  ext x
  simp

theorem CourseSet.insert_comm (s : CourseSet) (a b : CourseId) :
    Std.ExtTreeSet.insert (s.insert a) b = Std.ExtTreeSet.insert (s.insert b) a := by
  ext x
  simp [or_left_comm]

theorem CourseSet.nodup_toList (s : CourseSet) : s.toList.Nodup := by
  refine s.distinct_toList.imp ?_
  rintro a _ hne rfl
  exact hne Std.ReflCmp.compare_self

theorem CourseSet.mem_toList_ofList {ids : List CourseId} {a : CourseId} :
    a ∈ (Std.ExtTreeSet.ofList ids : CourseSet).toList ↔ a ∈ ids := by
  rw [Std.ExtTreeSet.mem_toList, Std.ExtTreeSet.mem_ofList, List.contains_iff_mem]

theorem CourseSet.toList_ofList_perm (ids : List CourseId) :
    (Std.ExtTreeSet.ofList ids : CourseSet).toList.Perm ids.eraseDups := by
  rw [List.perm_ext_iff_of_nodup (CourseSet.nodup_toList _) (nodup_eraseDups ids)]
  intro a
  rw [CourseSet.mem_toList_ofList, List.mem_eraseDups]

theorem values_eq_map_toList {K V : Type} [Ord K] [Std.TransOrd K] (t : Std.ExtTreeMap K V) :
    t.values = t.toList.map Prod.snd := by
  have hfold : t.values = t.foldr (fun _ v more => v :: more) [] := by
    obtain ⟨⟨t⟩⟩ := t
    rfl
  rw [hfold, Std.ExtTreeMap.foldr_eq_foldr_toList]
  induction t.toList with
  | nil => rfl
  | cons entry rest ih => rw [List.foldr_cons, ih, List.map_cons]

/-- Two maps without default entries are equal if they look the same with the default. -/
theorem eq_of_getD_eq {K V : Type} [Ord K] [Std.TransOrd K] [Std.LawfulEqOrd K] {default : V}
    {a b : Std.ExtTreeMap K V} (ha : ∀ k : K, a[k]? ≠ some default)
    (hb : ∀ k : K, b[k]? ≠ some default)
    (h : ∀ k : K, a[k]?.getD default = b[k]?.getD default) : a = b := by
  apply Std.ExtTreeMap.ext_getElem?
  intro k
  have hk := h k
  cases hx : a[k]? with
  | none =>
      cases hy : b[k]? with
      | none => rfl
      | some y =>
          rw [hx, hy] at hk
          exact absurd (hy.trans (congrArg some hk.symm)) (hb k)
  | some x =>
      cases hy : b[k]? with
      | none =>
          rw [hx, hy] at hk
          exact absurd (hx.trans (congrArg some hk)) (ha k)
      | some y =>
          rw [hx, hy] at hk
          exact congrArg some hk

end Curriculum
