import Mathlib.Data.Set.Card
import Curriculum.Proofs.Ledger.Changed

/-!
# Ledgers as sets in insertion order

Whatever has been recorded and forgotten, the ledger holds the courses whose last change recorded
them, and lists those of a subject in the order in which they came in. Recording a course that is
there leaves it in its place; one that was forgotten in between goes to the end.
-/

namespace Curriculum

/-! ## Histories -/

deriving instance DecidableEq for LedgerChange

namespace LedgerChange

variable {changes : List LedgerChange} {c : LedgerChange} {id x y : CourseId} {i : Nat}

def course : LedgerChange → CourseId
  | .record id | .forget id => id

/-- The last change that is about a course. -/
def last? (changes : List LedgerChange) (id : CourseId) : Option LedgerChange :=
  (changes.filter fun change => change.course = id).getLast?

/-- The `i`-th change records a course that is not there: no change before it is about that course,
or the last one that is forgot it. -/
def BringsIn (changes : List LedgerChange) (id : CourseId) (i : Nat) : Prop :=
  changes[i]? = some (.record id) ∧ last? (changes.take i) id ≠ some (.record id)

instance : Decidable (BringsIn changes id i) := inferInstanceAs (Decidable (_ ∧ _))

/-- The place in the history of the last change that brought a course in. -/
def broughtIn? (changes : List LedgerChange) (id : CourseId) : Option Nat :=
  ((List.range changes.length).filter fun i => BringsIn changes id i).getLast?

/-- The first course was brought in earlier than the second one. -/
def Before (changes : List LedgerChange) (x y : CourseId) : Prop :=
  ∃ i j, broughtIn? changes x = some i ∧ broughtIn? changes y = some j ∧ i < j

theorem last?_append_singleton (changes : List LedgerChange) (c : LedgerChange) (id : CourseId) :
    last? (changes ++ [c]) id = if c.course = id then some c else last? changes id := by
  unfold last?
  simp only [getLast?_filter_concat, decide_eq_true_eq]

theorem bringsIn_append_singleton_of_lt (h : i < changes.length) :
    BringsIn (changes ++ [c]) id i ↔ BringsIn changes id i := by
  simp only [BringsIn, List.getElem?_append_left h, List.take_append_of_le_length h.le]

theorem bringsIn_append_singleton_length :
    BringsIn (changes ++ [c]) id changes.length ↔
      c = .record id ∧ last? changes id ≠ some (.record id) := by
  simp [BringsIn]

theorem broughtIn?_append_singleton (changes : List LedgerChange) (c : LedgerChange)
    (id : CourseId) :
    broughtIn? (changes ++ [c]) id =
      if c = .record id ∧ last? changes id ≠ some (.record id) then some changes.length
      else broughtIn? changes id := by
  have hbefore : (List.range changes.length).filter (fun i => BringsIn (changes ++ [c]) id i) =
      (List.range changes.length).filter fun i => BringsIn changes id i := by
    apply List.filter_congr
    intro i hi
    simp only [bringsIn_append_singleton_of_lt (List.mem_range.1 hi)]
  rw [broughtIn?, List.length_append, List.length_singleton, List.range_succ,
    getLast?_filter_concat, hbefore, broughtIn?]
  simp only [decide_eq_true_eq, bringsIn_append_singleton_length]

theorem lt_of_broughtIn? (h : broughtIn? changes id = some i) : i < changes.length := by
  have hmem := List.mem_of_getLast? h
  exact List.mem_range.1 (List.mem_filter.1 hmem).1

/-- A course that is recorded stays in its place. -/
theorem broughtIn?_of_recorded (h : last? changes id = some (.record id)) (c : LedgerChange) :
    broughtIn? (changes ++ [c]) id = broughtIn? changes id := by
  rw [broughtIn?_append_singleton, if_neg fun hnew => hnew.2 h]

theorem exists_broughtIn? (h : last? changes id = some (.record id)) :
    ∃ i, broughtIn? changes id = some i := by
  induction changes using List.reverseRecOn with
  | nil => cases h
  | append_singleton changes c ih =>
      by_cases hrecorded : last? changes id = some (.record id)
      · rw [broughtIn?_of_recorded hrecorded]
        exact ih hrecorded
      · rw [last?_append_singleton] at h
        split at h
        next =>
          cases h
          rw [broughtIn?_append_singleton, if_pos ⟨rfl, hrecorded⟩]
          exact ⟨changes.length, rfl⟩
        next => exact absurd h hrecorded

end LedgerChange

namespace Ledger

open LedgerChange (last? broughtIn? Before)

variable {l : Ledger} {changes : List LedgerChange} {c : LedgerChange} {id x y : CourseId}
  {s : SubjectCode}

/-! ## What is recorded, and where -/

theorem run_append_record (l : Ledger) (changes : List LedgerChange) (id : CourseId) :
    l.run (changes ++ [.record id]) = ((l.run changes).record id).2 :=
  run_append l changes [.record id]

theorem run_append_forget (l : Ledger) (changes : List LedgerChange) (id : CourseId) :
    l.run (changes ++ [.forget id]) = ((l.run changes).forget id).2 :=
  run_append l changes [.forget id]

theorem contains_run :
    (empty.run changes).contains id = true ↔ last? changes id = some (.record id) := by
  induction changes using List.reverseRecOn with
  | nil => simp [run, empty, contains, ofSubject, last?]
  | append_singleton changes c ih =>
      rw [LedgerChange.last?_append_singleton]
      cases c with
      | record x =>
          rw [run_append_record, contains_record, ih]
          by_cases heq : x = id
          · simp [LedgerChange.course, heq]
          · simp [LedgerChange.course, heq, Ne.symm heq]
      | forget x =>
          rw [run_append_forget, contains_forget, ih]
          by_cases heq : x = id
          · simp [LedgerChange.course, heq]
          · simp [LedgerChange.course, heq, Ne.symm heq]

theorem before_append_singleton (hx : (empty.run changes).contains x = true)
    (hy : (empty.run changes).contains y = true) :
    Before (changes ++ [c]) x y ↔ Before changes x y := by
  rw [contains_run] at hx hy
  simp only [Before, LedgerChange.broughtIn?_of_recorded hx, LedgerChange.broughtIn?_of_recorded hy]

theorem before_of_new (hx : (empty.run changes).contains x = true)
    (hid : (empty.run changes).contains id = false) :
    Before (changes ++ [.record id]) x id := by
  rw [contains_run] at hx
  obtain ⟨i, hi⟩ := LedgerChange.exists_broughtIn? hx
  refine ⟨i, changes.length, ?_, ?_, LedgerChange.lt_of_broughtIn? hi⟩
  · rw [LedgerChange.broughtIn?_of_recorded hx, hi]
  · rw [LedgerChange.broughtIn?_append_singleton, if_pos]
    refine ⟨rfl, ?_⟩
    rw [ne_eq, ← contains_run, hid]
    exact Bool.false_ne_true

/-- The list of a subject is in the order in which its courses were brought in. -/
theorem ofSubject_run_pairwise (changes : List LedgerChange) (s : SubjectCode) :
    ((empty.run changes).ofSubject s).Pairwise (Before changes) := by
  induction changes using List.reverseRecOn with
  | nil => simp [run, empty, ofSubject]
  | append_singleton changes c ih =>
      have hcontains {x : CourseId} (hx : x ∈ (empty.run changes).ofSubject s) :
          (empty.run changes).contains x = true :=
        ((filed_run changes).mem_ofSubject.1 hx).2
      -- The courses that were there before are in the same order as before.
      have hold : ((empty.run changes).ofSubject s).Pairwise (Before (changes ++ [c])) := by
        apply ih.imp_of_mem
        intro x y hx hy hbefore
        exact (before_append_singleton (hcontains hx) (hcontains hy)).2 hbefore
      cases c with
      | record id =>
          rw [run_append_record, ofSubject_record]
          split
          next hnew =>
            rw [List.pairwise_append]
            refine ⟨hold, List.pairwise_singleton _ _, fun x hx y hy => ?_⟩
            rw [List.mem_singleton.1 hy]
            exact before_of_new (hcontains hx) hnew.2
          next => exact hold
      | forget id =>
          rw [run_append_forget, ofSubject_forget]
          split
          next => exact hold.filter _
          next => exact hold

theorem nodup_ofSubject_run (changes : List LedgerChange) (s : SubjectCode) :
    ((empty.run changes).ofSubject s).Nodup := by
  apply (ofSubject_run_pairwise changes s).imp
  rintro x _ ⟨i, j, hi, hj, hlt⟩ rfl
  cases hi.symm.trans hj
  exact lt_irrefl i hlt

/-! ## How many courses there are -/

theorem toList_eq (l : Ledger) : l.toList = l.bySubject.toList.flatMap Prod.snd := by
  rw [toList, values_eq_map_toList, List.flatMap_def]

theorem ofSubject_of_mem {courses : List CourseId} (h : (s, courses) ∈ l.bySubject.toList) :
    l.ofSubject s = courses := by
  rw [Std.ExtTreeMap.mem_toList_iff_getElem?_eq_some] at h
  rw [ofSubject, h, Option.getD_some]

theorem Filed.mem_toList (h : l.Filed) : id ∈ l.toList ↔ l.contains id = true := by
  rw [toList_eq, List.mem_flatMap]
  constructor
  · rintro ⟨⟨s, courses⟩, hentry, hid⟩
    rw [← ofSubject_of_mem hentry] at hid
    exact (h.mem_ofSubject.1 hid).2
  · intro hid
    have hmem := h.mem_ofSubject.2 ⟨rfl, hid⟩
    cases hentry : l.bySubject[id.subject]? with
    | none => simp [ofSubject, hentry] at hmem
    | some courses =>
        refine ⟨(id.subject, courses), ?_, ?_⟩
        · exact Std.ExtTreeMap.mem_toList_iff_getElem?_eq_some.2 hentry
        · simpa [ofSubject, hentry] using hmem

theorem Filed.nodup_toList (h : l.Filed) (hlists : ∀ s, (l.ofSubject s).Nodup) :
    l.toList.Nodup := by
  rw [toList_eq, List.Nodup, List.pairwise_flatMap]
  constructor
  · rintro ⟨s, courses⟩ hentry
    rw [← ofSubject_of_mem hentry]
    exact hlists s
  · -- A course that two lists have in common stands under one subject.
    apply l.bySubject.distinct_keys_toList.imp_of_mem
    rintro ⟨s, courses⟩ ⟨t, others⟩ hs ht hne x hx y hy rfl
    rw [← ofSubject_of_mem hs] at hx
    rw [← ofSubject_of_mem ht] at hy
    apply hne
    rw [Std.compare_eq_iff_eq, ← h s x hx, h t x hy]

theorem encard_contains_run (changes : List LedgerChange) :
    {id | (empty.run changes).contains id = true}.encard = (empty.run changes).size := by
  have hfiled := filed_run changes
  have hnodup := hfiled.nodup_toList (nodup_ofSubject_run changes)
  have hset : {id | (empty.run changes).contains id = true} =
      ((empty.run changes).toList.toFinset : Set CourseId) := by
    ext id
    simp [hfiled.mem_toList]
  rw [hset, Set.encard_coe_eq_coe_finsetCard, List.toFinset_card_of_nodup hnodup, size]

theorem Tidy.isEmpty_iff (h : l.Tidy) : l.isEmpty = true ↔ l.size = 0 := by
  rw [isEmpty, ← Std.ExtTreeMap.isEmpty_toList, List.isEmpty_iff, size, List.length_eq_zero_iff,
    toList_eq]
  constructor
  · intro hnone
    rw [hnone, List.flatMap_nil]
  · intro hnone
    rw [List.flatMap_eq_nil_iff] at hnone
    apply List.eq_nil_iff_forall_not_mem.2
    rintro ⟨s, courses⟩ hentry
    have hempty : courses = [] := hnone _ hentry
    rw [Std.ExtTreeMap.mem_toList_iff_getElem?_eq_some, hempty] at hentry
    exact h s hentry

/-! ## What a change returns -/

theorem record_fst_iff (l : Ledger) (id : CourseId) :
    (l.record id).1 = true ↔ (l.record id).2 ≠ l := by
  rw [record_fst]
  cases hid : l.contains id with
  | true => simp [record, hid]
  | false =>
      refine iff_of_true rfl fun hsame => ?_
      have hnow : (l.record id).2.contains id = true := (contains_record l id id).2 (Or.inr rfl)
      rw [hsame, hid] at hnow
      cases hnow

theorem Tidy.forget_fst_iff (h : l.Tidy) (id : CourseId) :
    (l.forget id).1 = true ↔ (l.forget id).2 ≠ l := by
  change l.contains id = true ↔ _
  cases hid : l.contains id with
  | true =>
      refine iff_of_true rfl fun hsame => ?_
      have hgone := (contains_forget l id id).not.2 fun h => h.2 rfl
      rw [hsame] at hgone
      exact hgone hid
  | false =>
      have hsame : (l.forget id).2 = l :=
        (h.forget id).eq_of_ofSubject h (ofSubject_forget_of_not_contains hid)
      simp [hsame]

/-- After any history no list that the ledger keeps is empty, has a course twice or has a course of
another subject. A course is there if the last change about it recorded it, and the courses of a
subject are listed in the order in which they were brought in last. The size is the number of
courses, and a ledger counts as empty if that is zero. Recording and forgetting tell whether they
make a difference. -/
theorem run_insertionOrdered (changes : List LedgerChange) :
    let l := empty.run changes
    (∀ (s : SubjectCode) courses, l.bySubject[s]? = some courses →
      courses ≠ [] ∧ courses.Nodup ∧ ∀ id ∈ courses, id.subject = s) ∧
    (∀ id, l.contains id = true ↔ last? changes id = some (.record id)) ∧
    (∀ s, (∀ id, id ∈ l.ofSubject s ↔ id.subject = s ∧ l.contains id = true) ∧
      (l.ofSubject s).Pairwise (Before changes)) ∧
    {id | l.contains id = true}.encard = l.size ∧
    (l.isEmpty = true ↔ l.size = 0) ∧
    ∀ id, ((l.record id).1 = true ↔ (l.record id).2 ≠ l) ∧
      ((l.forget id).1 = true ↔ (l.forget id).2 ≠ l) := by
  intro l
  have hfiled : l.Filed := filed_run changes
  have htidy : l.Tidy := tidy_run changes
  refine ⟨fun s courses hlist => ?_, fun id => contains_run, fun s => ?_,
    encard_contains_run changes, htidy.isEmpty_iff, fun id => ?_⟩
  · have hcourses : l.ofSubject s = courses := by rw [ofSubject, hlist, Option.getD_some]
    have hnodup : (l.ofSubject s).Nodup := nodup_ofSubject_run changes s
    subst hcourses
    refine ⟨fun hnone => ?_, hnodup, hfiled s⟩
    rw [hnone] at hlist
    exact htidy s hlist
  · exact ⟨fun id => hfiled.mem_ofSubject, ofSubject_run_pairwise changes s⟩
  · exact ⟨l.record_fst_iff id, htidy.forget_fst_iff id⟩

end Ledger

end Curriculum
