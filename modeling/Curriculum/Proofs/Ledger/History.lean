import Mathlib.Data.List.Induction
import Std.Data.ExtTreeMap.Lemmas
import Curriculum.Ledger
import Curriculum.Proofs.Course.Set

/-!
# Histories of the ledger

A ledger that was filled by recording and forgetting keeps every course under its own subject, and
no subject without courses.
-/

namespace Curriculum

inductive LedgerChange where
  | record (id : CourseId)
  | forget (id : CourseId)

namespace Ledger

variable {l l' : Ledger} {id x : CourseId} {s : SubjectCode}

def change (l : Ledger) : LedgerChange → Ledger
  | .record id => (l.record id).2
  | .forget id => (l.forget id).2

def run (l : Ledger) (changes : List LedgerChange) : Ledger := changes.foldl change l

theorem run_append (l : Ledger) (first second : List LedgerChange) :
    l.run (first ++ second) = (l.run first).run second :=
  List.foldl_append

theorem ofSubject_insert {list : List CourseId} :
    (⟨l.bySubject.insert id.subject list⟩ : Ledger).ofSubject s =
      if id.subject = s then list else l.ofSubject s := by
  simp only [ofSubject, Std.ExtTreeMap.getElem?_insert, Std.compare_eq_iff_eq]
  split <;> rfl

theorem ofSubject_record :
    (l.record id).2.ofSubject s =
      if id.subject = s ∧ l.contains id = false then l.ofSubject s ++ [id] else l.ofSubject s := by
  unfold record
  split
  next h => simp [h]
  next h =>
    rw [ofSubject_insert]
    by_cases hs : id.subject = s
    · subst hs
      simp [h]
    · simp [hs]

theorem ofSubject_forget :
    (l.forget id).2.ofSubject s =
      if id.subject = s then (l.ofSubject s).filter (· != id) else l.ofSubject s := by
  unfold forget
  dsimp only
  split
  next hempty =>
    simp only [ofSubject, Std.ExtTreeMap.getElem?_erase, Std.compare_eq_iff_eq]
    split
    next hs =>
      subst hs
      exact (List.isEmpty_iff.1 hempty).symm
    next => rfl
  next =>
    rw [ofSubject_insert]
    split
    next hs => rw [hs]
    next => rfl

/-- Every course stands under its own subject. -/
def Filed (l : Ledger) : Prop :=
  ∀ s x, x ∈ l.ofSubject s → x.subject = s

theorem Filed.change (h : l.Filed) (c : LedgerChange) : (l.change c).Filed := by
  intro s x hx
  cases c with
  | record id =>
      rw [Ledger.change, ofSubject_record] at hx
      split at hx
      next hnew =>
        rcases List.mem_append.1 hx with hold | hlast
        · exact h s x hold
        · rw [List.mem_singleton.1 hlast]
          exact hnew.1
      next => exact h s x hx
  | forget id =>
      rw [Ledger.change, ofSubject_forget] at hx
      split at hx
      · exact h s x (List.mem_filter.1 hx).1
      · exact h s x hx

theorem Filed.run (h : l.Filed) (changes : List LedgerChange) : (l.run changes).Filed := by
  induction changes generalizing l with
  | nil => exact h
  | cons c rest ih => exact ih (h.change c)

theorem filed_run (changes : List LedgerChange) : (empty.run changes).Filed := by
  apply Filed.run
  intro s x hx
  simp [empty, ofSubject] at hx

theorem Filed.mem_ofSubject (h : l.Filed) :
    x ∈ l.ofSubject s ↔ x.subject = s ∧ l.contains x = true := by
  constructor
  · intro hx
    have hs := h s x hx
    subst hs
    exact ⟨rfl, List.contains_iff_mem.2 hx⟩
  · rintro ⟨rfl, hx⟩
    exact List.contains_iff_mem.1 hx

/-- The list of a subject has the courses of the subject in the order of recording, each in the
place where it was recorded first. -/
theorem ofSubject_ofList (ids : List CourseId) :
    (ofList ids).ofSubject s = (ids.filter (·.subject = s)).eraseDups := by
  -- The last course of a list is recorded last.
  have hlast (ids : List CourseId) (id : CourseId) :
      ofList (ids ++ [id]) = ((ofList ids).record id).2 :=
    List.foldl_append
  induction ids using List.reverseRecOn with
  | nil => simp [ofList, empty, ofSubject]
  | append_singleton ids id ih =>
      rw [hlast, ofSubject_record, List.filter_append]
      by_cases hs : id.subject = s
      · subst hs
        by_cases hmem : id ∈ ids
        · simp [ih, contains, eraseDups_append_singleton, hmem]
        · simp [ih, contains, eraseDups_append_singleton, hmem]
      · simp [hs, ih]

/-- No subject has an empty list. -/
def Tidy (l : Ledger) : Prop :=
  ∀ s : SubjectCode, l.bySubject[s]? ≠ some []

theorem Tidy.record (h : l.Tidy) (id : CourseId) : (l.record id).2.Tidy := by
  intro s
  unfold Ledger.record
  split
  next => exact h s
  next =>
    simp only [Std.ExtTreeMap.getElem?_insert, Std.compare_eq_iff_eq]
    split
    · simp
    · exact h s

theorem Tidy.forget (h : l.Tidy) (id : CourseId) : (l.forget id).2.Tidy := by
  intro s
  unfold Ledger.forget
  dsimp only
  split
  next =>
    simp only [Std.ExtTreeMap.getElem?_erase, Std.compare_eq_iff_eq]
    split
    · simp
    · exact h s
  next hkept =>
    simp only [Std.ExtTreeMap.getElem?_insert, Std.compare_eq_iff_eq]
    split
    · rw [ne_eq, Option.some.injEq, ← List.isEmpty_iff]
      exact hkept
    · exact h s

theorem Tidy.run (h : l.Tidy) (changes : List LedgerChange) : (l.run changes).Tidy := by
  induction changes generalizing l with
  | nil => exact h
  | cons c rest ih =>
      cases c with
      | record id => exact ih (h.record id)
      | forget id => exact ih (h.forget id)

theorem tidy_run (changes : List LedgerChange) : (empty.run changes).Tidy := by
  apply Tidy.run
  intro s
  simp [empty]

/-- A tidy ledger is determined by the list of each subject. -/
theorem Tidy.eq_of_ofSubject (h : l.Tidy) (h' : l'.Tidy)
    (hlists : ∀ s, l.ofSubject s = l'.ofSubject s) : l = l' := by
  have hmaps : l.bySubject = l'.bySubject := eq_of_getD_eq h h' hlists
  cases l
  cases l'
  exact congrArg Ledger.mk hmaps

end Ledger

end Curriculum
