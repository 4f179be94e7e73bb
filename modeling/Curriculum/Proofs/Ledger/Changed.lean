import Curriculum.Planner
import Curriculum.Proofs.Ledger.History

/-!
# What the changed courses account for

Outside the courses for which recording or forgetting made a difference, the ledger is the same as
before.
-/

namespace Curriculum

namespace Ledger

variable {l l' l'' : Ledger} {changed changed' : List CourseId}

/-- The ledgers agree on all courses but some, and on the subjects that none of these is of. -/
structure AgreeOff (changed : List CourseId) (l l' : Ledger) : Prop where
  contains : ∀ x, x ∉ changed → l'.contains x = l.contains x
  ofSubject : ∀ s, s ∉ changed.map CourseId.subject → l'.ofSubject s = l.ofSubject s

theorem AgreeOff.refl (l : Ledger) : AgreeOff [] l l where
  contains _ _ := rfl
  ofSubject _ _ := rfl

theorem AgreeOff.trans (h : AgreeOff changed l l') (h' : AgreeOff changed' l' l'') :
    AgreeOff (changed ++ changed') l l'' where
  contains x hx := by
    rw [List.mem_append, not_or] at hx
    rw [h'.contains x hx.2, h.contains x hx.1]
  ofSubject s hs := by
    rw [List.map_append, List.mem_append, not_or] at hs
    rw [h'.ofSubject s hs.2, h.ofSubject s hs.1]

theorem contains_eq_of_ofSubject {x : CourseId}
    (h : x ∈ l'.ofSubject x.subject ↔ x ∈ l.ofSubject x.subject) :
    l'.contains x = l.contains x := by
  rw [Bool.eq_iff_iff, contains, contains, List.contains_iff_mem, List.contains_iff_mem, h]

theorem record_agreeOff (l : Ledger) (id : CourseId) :
    AgreeOff (if (l.record id).1 then [id] else []) l (l.record id).2 := by
  by_cases hknown : l.contains id = true
  · have hsame : l.record id = (false, l) := by rw [record, if_pos hknown]
    rw [hsame]
    exact AgreeOff.refl l
  · have hnew : (l.record id).1 = true := by rw [record, if_neg hknown]
    rw [if_pos hnew]
    refine ⟨fun x hx => contains_eq_of_ofSubject ?_, fun s hs => ?_⟩
    · have hne : x ≠ id := by simpa using hx
      rw [ofSubject_record]
      split
      · simp [hne]
      · rfl
    · have hne : id.subject ≠ s := by simpa [eq_comm] using hs
      rw [ofSubject_record, if_neg fun h => hne h.1]

/-- There is nothing to forget about a course that is not there. -/
theorem ofSubject_forget_of_not_contains {id : CourseId} (h : l.contains id = false)
    (s : SubjectCode) : (l.forget id).2.ofSubject s = l.ofSubject s := by
  rw [ofSubject_forget]
  split
  next hs =>
    subst hs
    apply List.filter_eq_self.2
    intro x hx
    rw [bne_iff_ne]
    rintro rfl
    rw [contains, List.contains_iff_mem.2 hx] at h
    cases h
  next => rfl

theorem forget_agreeOff (l : Ledger) (id : CourseId) :
    AgreeOff (if (l.forget id).1 then [id] else []) l (l.forget id).2 := by
  by_cases hknown : l.contains id = true
  · have hgone : (l.forget id).1 = true := hknown
    rw [if_pos hgone]
    refine ⟨fun x hx => contains_eq_of_ofSubject ?_, fun s hs => ?_⟩
    · have hne : x ≠ id := by simpa using hx
      rw [ofSubject_forget]
      split
      · simp [hne]
      · rfl
    · have hne : id.subject ≠ s := by simpa [eq_comm] using hs
      rw [ofSubject_forget, if_neg hne]
  · have hsame := ofSubject_forget_of_not_contains (Bool.eq_false_iff.2 hknown)
    exact ⟨fun x _ => contains_eq_of_ofSubject (by rw [hsame]), fun s _ => hsame s⟩

theorem contains_record (l : Ledger) (id x : CourseId) :
    (l.record id).2.contains x = true ↔ l.contains x = true ∨ x = id := by
  by_cases heq : x = id
  · subst heq
    rw [or_iff_right_of_imp fun _ => rfl, contains, List.contains_iff_mem, ofSubject_record]
    split
    next => simp
    next hknown => simpa [contains] using hknown
  · have hsame := (record_agreeOff l id).contains x (by split <;> simp [heq])
    rw [hsame, or_iff_left heq]

theorem contains_forget (l : Ledger) (id x : CourseId) :
    (l.forget id).2.contains x = true ↔ l.contains x = true ∧ x ≠ id := by
  by_cases heq : x = id
  · subst heq
    rw [contains, List.contains_iff_mem, ofSubject_forget, if_pos rfl]
    simp
  · have hsame := (forget_agreeOff l id).contains x (by split <;> simp [heq])
    rw [hsame, and_iff_left heq]

theorem record_fst (l : Ledger) (id : CourseId) : (l.record id).1 = !l.contains id := by
  unfold record
  split
  next h => simp [h]
  next h => simp [h]

/-- Recording courses adds to the list of a subject none but them. -/
theorem filter_ofSubject_run_record {ids known : List CourseId} (h : ∀ id ∈ ids, id ∈ known)
    (s : SubjectCode) :
    ((l.run (ids.map .record)).ofSubject s).filter (fun x => !known.contains x) =
      (l.ofSubject s).filter fun x => !known.contains x := by
  induction ids generalizing l with
  | nil => rfl
  | cons id rest ih =>
      rw [List.forall_mem_cons] at h
      refine (ih h.2).trans ?_
      rw [change, ofSubject_record]
      split
      · simp [List.filter_append, h.1]
      · rfl

theorem ofSubject_run_forget (h : l.Filed) (ids : List CourseId) (s : SubjectCode) :
    (l.run (ids.map .forget)).ofSubject s = (l.ofSubject s).filter fun x => !ids.contains x := by
  induction ids generalizing l with
  | nil => exact (List.filter_eq_self.2 fun _ _ => rfl).symm
  | cons id rest ih =>
      have hfirst : (l.forget id).2.ofSubject s = (l.ofSubject s).filter (· != id) := by
        rw [ofSubject_forget]
        split
        next => rfl
        next hs =>
          -- A list of another subject does not hold the course.
          refine (List.filter_eq_self.2 fun x hx => bne_iff_ne.2 ?_).symm
          rintro rfl
          exact hs (h s x hx)
      refine (ih (h.change (.forget id))).trans ?_
      rw [change, hfirst, List.filter_filter]
      apply List.filter_congr
      intro x _
      by_cases heq : x = id
      · simp [heq]
      · simp [heq]

/-- Forgetting courses that were new when they were recorded leaves no trace of them. -/
theorem forget_run_record (hfiled : l.Filed) (htidy : l.Tidy) {ids : List CourseId}
    (hnew : ∀ id ∈ ids, l.contains id = false) :
    (l.run (ids.map .record)).run (ids.map .forget) = l := by
  refine ((htidy.run _).run _).eq_of_ofSubject htidy fun s => ?_
  rw [ofSubject_run_forget (hfiled.run _), filter_ofSubject_run_record fun _ hid => hid]
  refine List.filter_eq_self.2 fun x hx => ?_
  have hknown : l.contains x = true := (hfiled.mem_ofSubject.1 hx).2
  have hout : x ∉ ids := by
    intro hmem
    rw [hnew x hmem] at hknown
    cases hknown
  simpa using hout

end Ledger

/-- Each course is looked at in the ledger that the ones before it left. -/
theorem Planner.changeLedger_cons (change : Ledger → CourseId → Bool × Ledger) (l : Ledger)
    (id : CourseId) (rest : List CourseId) :
    changeLedger change l (id :: rest) =
      ((changeLedger change (change l id).2 rest).1,
        (if (change l id).1 then [id] else []) ++ (changeLedger change (change l id).2 rest).2) := by
  have hfold (before : List CourseId) (l : Ledger)
      (f : Ledger × List CourseId → CourseId → Ledger × List CourseId)
      (hf : ∀ p id, f p id =
        ((change p.1 id).2, if (change p.1 id).1 then p.2 ++ [id] else p.2)) :
      rest.foldl f (l, before) = ((rest.foldl f (l, [])).1, before ++ (rest.foldl f (l, [])).2) := by
    induction rest generalizing l before with
    | nil => rw [List.foldl_nil, List.foldl_nil, List.append_nil]
    | cons id rest ih =>
        simp only [List.foldl_cons, hf]
        rw [ih (if (change l id).1 then before ++ [id] else before),
          ih (if (change l id).1 then [] ++ [id] else [])]
        split
        · simp
        · simp
  unfold changeLedger
  rw [List.foldl_cons, hfold _ _ _ fun _ _ => rfl]
  rfl

theorem Planner.changeLedger_agreeOff {change : Ledger → CourseId → Bool × Ledger}
    (h : ∀ l id, Ledger.AgreeOff (if (change l id).1 then [id] else []) l (change l id).2)
    (l : Ledger) (ids : List CourseId) :
    Ledger.AgreeOff (changeLedger change l ids).2 l (changeLedger change l ids).1 := by
  induction ids generalizing l with
  | nil => exact Ledger.AgreeOff.refl l
  | cons id rest ih =>
      rw [changeLedger_cons]
      exact (h l id).trans (ih _)

theorem Planner.changeLedger_fst (change : Ledger → CourseId → Bool × Ledger) (l : Ledger)
    (ids : List CourseId) :
    (changeLedger change l ids).1 = ids.foldl (fun l id => (change l id).2) l := by
  refine (List.foldl_hom Prod.fst ?_).symm
  exact fun _ _ => rfl

theorem Planner.contains_changeLedger_record (l : Ledger) (ids : List CourseId) (x : CourseId) :
    (changeLedger Ledger.record l ids).1.contains x = true ↔ l.contains x = true ∨ x ∈ ids := by
  rw [changeLedger_fst]
  induction ids generalizing l with
  | nil => simp
  | cons id rest ih => rw [List.foldl_cons, ih, Ledger.contains_record, List.mem_cons, or_assoc]

theorem Planner.contains_changeLedger_forget (l : Ledger) (ids : List CourseId) (x : CourseId) :
    (changeLedger Ledger.forget l ids).1.contains x = true ↔ l.contains x = true ∧ x ∉ ids := by
  rw [changeLedger_fst]
  induction ids generalizing l with
  | nil => simp
  | cons id rest ih =>
      rw [List.foldl_cons, ih, Ledger.contains_forget, List.mem_cons, not_or, and_assoc]

theorem Planner.changeLedger_record (l : Ledger) (ids : List CourseId) :
    (changeLedger Ledger.record l ids).1 = l.run (ids.map .record) := by
  rw [changeLedger_fst, Ledger.run, List.foldl_map]
  rfl

theorem Planner.changeLedger_forget (l : Ledger) (ids : List CourseId) :
    (changeLedger Ledger.forget l ids).1 = l.run (ids.map .forget) := by
  rw [changeLedger_fst, Ledger.run, List.foldl_map]
  rfl

theorem Planner.mem_changed_record (l : Ledger) (ids : List CourseId) (x : CourseId) :
    x ∈ (changeLedger Ledger.record l ids).2 ↔ x ∈ ids ∧ l.contains x = false := by
  induction ids generalizing l with
  | nil => simp [changeLedger]
  | cons id rest ih =>
      rw [changeLedger_cons, List.mem_append, ih, Ledger.record_fst, ← Bool.not_eq_true,
        Ledger.contains_record]
      by_cases heq : x = id
      · subst heq
        by_cases hknown : l.contains x = true <;> simp [hknown]
      · split <;> simp [heq]

theorem Planner.mem_changed_forget (l : Ledger) (ids : List CourseId) (x : CourseId) :
    x ∈ (changeLedger Ledger.forget l ids).2 ↔ x ∈ ids ∧ l.contains x = true := by
  induction ids generalizing l with
  | nil => simp [changeLedger]
  | cons id rest ih =>
      have hgone : (l.forget id).1 = l.contains id := rfl
      rw [changeLedger_cons, List.mem_append, ih, hgone, Ledger.contains_forget]
      by_cases heq : x = id
      · subst heq
        by_cases hknown : l.contains x = true <;> simp [hknown]
      · split <;> simp [heq]

end Curriculum
