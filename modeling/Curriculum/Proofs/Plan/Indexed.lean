import Curriculum.Proofs.Plan.Change

/-!
# Exact indexes

The graph of a plan keeps three things beside the placements: who depends on a course, who is of
a subject, and who holds a credit rule over a subject. All three are maintained piece by piece,
and after any history of changes they say exactly what the catalog says about the planned courses.
-/

namespace Curriculum

/-- A change to the courses of a plan. -/
inductive PlanChange where
  | add (term : TermId) (ids : List CourseId)
  | delete (ids : List CourseId)
  | move (ids : List CourseId) (term : TermId)

namespace DependencyGraph

variable {W : Type} {g : DependencyGraph} {catalog : Catalog W} {term : TermId}
  {id x d : CourseId} {ids : List CourseId} {s : SubjectCode}

/-- The graph after a change, which is the same one if the change is refused. -/
def change (catalog : Catalog W) (g : DependencyGraph) : PlanChange → DependencyGraph
  | .add term ids => (g.add catalog term ids).1
  | .delete ids => (g.delete ids).1
  | .move ids term =>
    match g.move ids term with
    | .ok (next, _) => next
    | .error _ => g

/-- The graph after a history of changes. -/
def run (catalog : Catalog W) (g : DependencyGraph) (changes : List PlanChange) :
    DependencyGraph :=
  changes.foldl (change catalog) g

/-- Both indexes list the planned courses that they are about, and no others. -/
structure IndexesExact (catalog : Catalog W) (g : DependencyGraph) : Prop where
  mem_bySubject : ∀ {s x},
    x ∈ g.bySubject.coursesOf s ↔ g.contains x = true ∧ x.subject = s
  mem_creditHolders : ∀ {s x},
    x ∈ g.creditHolders.coursesOf s ↔ g.contains x = true ∧ catalog.asksCreditIn x s
  bySubject_tidy : g.bySubject.Tidy
  creditHolders_tidy : g.creditHolders.Tidy

/-- The indexes are exact, and so are the dependents of every planned course. -/
structure Exact (catalog : Catalog W) (g : DependencyGraph) : Prop
    extends IndexesExact catalog g where
  mem_dependents : ∀ {x node d}, g.get? x = some node →
    (d ∈ node.dependents ↔ g.contains d = true ∧ d ≠ x ∧ catalog.references d x = true)

theorem exact_empty (catalog : Catalog W) : Exact catalog .empty where
  mem_bySubject := by simp [DependencyGraph.empty, contains]
  mem_creditHolders := by simp [DependencyGraph.empty, contains]
  bySubject_tidy := SubjectIndex.tidy_empty
  creditHolders_tidy := SubjectIndex.tidy_empty
  mem_dependents h := by simp at h

theorem IndexesExact.mem_creditDependents (h : IndexesExact catalog g)
    {subjects : List SubjectCode} :
    d ∈ g.creditDependents subjects ↔
      g.contains d = true ∧ ∃ s ∈ subjects, catalog.asksCreditIn d s := by
  rw [DependencyGraph.mem_creditDependents]
  simp only [h.mem_creditHolders]
  constructor
  · rintro ⟨s, hs, hd, hasks⟩
    exact ⟨hd, s, hs, hasks⟩
  · rintro ⟨hd, s, hs, hasks⟩
    exact ⟨s, hs, hd, hasks⟩

/-- A planned course that holds no credit rule over some subjects asks for credits in others. -/
theorem IndexesExact.not_mem_of_asksCreditIn (h : IndexesExact catalog g)
    {subjects : List SubjectCode} (hd : g.contains d = true)
    (hout : d ∉ g.creditDependents subjects) (hasks : catalog.asksCreditIn d s) :
    s ∉ subjects := by
  intro hmem
  exact hout (h.mem_creditDependents.2 ⟨hd, s, hmem, hasks⟩)

/-- Exactness looks at the planned courses, their dependents and the indexes only. -/
theorem IndexesExact.congr {g' : DependencyGraph} (h : IndexesExact catalog g)
    (hplanned : ∀ x, g'.contains x = true ↔ g.contains x = true)
    (hsubject : g'.bySubject = g.bySubject) (hholders : g'.creditHolders = g.creditHolders) :
    IndexesExact catalog g' where
  mem_bySubject {s x} := by rw [hsubject, h.mem_bySubject, hplanned]
  mem_creditHolders {s x} := by rw [hholders, h.mem_creditHolders, hplanned]
  bySubject_tidy := hsubject ▸ h.bySubject_tidy
  creditHolders_tidy := hholders ▸ h.creditHolders_tidy

theorem Exact.congr {g' : DependencyGraph} (h : Exact catalog g)
    (hnodes : ∀ x, (g'.get? x).map PlannedCourse.dependents =
      (g.get? x).map PlannedCourse.dependents)
    (hsubject : g'.bySubject = g.bySubject) (hholders : g'.creditHolders = g.creditHolders) :
    Exact catalog g' := by
  have hplanned (x : CourseId) : g'.contains x = true ↔ g.contains x = true := by
    have hsome := congrArg Option.isSome (hnodes x)
    rw [Option.isSome_map, Option.isSome_map] at hsome
    rw [contains_eq_isSome, contains_eq_isSome, hsome]
  refine { h.toIndexesExact.congr hplanned hsubject hholders with mem_dependents := ?_ }
  intro x node d hnode
  have hmap := hnodes x
  rw [hnode, Option.map_some, eq_comm, Option.map_eq_some_iff] at hmap
  obtain ⟨old, hold, hdependents⟩ := hmap
  rw [← hdependents, h.mem_dependents hold, hplanned]

/-! ## Placing -/

theorem bySubject_place :
    (g.place catalog term id).bySubject = g.bySubject.add id.subject id := by
  unfold place
  cases catalog.requisites? id <;> rfl

theorem mem_ofSubject_add :
    x ∈ (g.add catalog term ids).1.ofSubject s ↔ x ∈ ids ∧ x.subject = s ∨ x ∈ g.ofSubject s := by
  rw [add_fst]
  induction ids generalizing g with
  | nil => simp
  | cons id rest ih =>
      have hplaced : id.subject = s ∧ id = x ↔ x = id ∧ x.subject = s := by
        constructor
        · rintro ⟨hs, rfl⟩
          exact ⟨rfl, hs⟩
        · rintro ⟨rfl, hs⟩
          exact ⟨hs, rfl⟩
      rw [List.foldl_cons, ih, ofSubject, bySubject_place, SubjectIndex.mem_coursesOf_add, hplaced,
        List.mem_cons, or_and_right, ofSubject, or_left_comm, or_assoc]

theorem creditHolders_place_of_some {r : Requisites} (h : catalog.requisites? id = some r) :
    (g.place catalog term id).creditHolders =
      g.creditHolders.addAll (r.creditRules.flatMap CreditRule.subjects) id := by
  rw [place, h]
  rfl

theorem creditHolders_place_of_none (h : catalog.requisites? id = none) :
    (g.place catalog term id).creditHolders = g.creditHolders := by
  rw [place, h]

theorem mem_creditHolders_place :
    x ∈ (g.place catalog term id).creditHolders.coursesOf s ↔
      id = x ∧ catalog.asksCreditIn x s ∨ x ∈ g.creditHolders.coursesOf s := by
  cases hreq : catalog.requisites? id with
  | none =>
      rw [creditHolders_place_of_none hreq]
      have hnone : ¬(id = x ∧ catalog.asksCreditIn x s) := by
        rintro ⟨rfl, r, hr, _⟩
        rw [hreq] at hr
        cases hr
      rw [or_iff_right hnone]
  | some r =>
      rw [creditHolders_place_of_some hreq, SubjectIndex.mem_coursesOf_addAll,
        r.mem_creditSubjects]
      refine or_congr_left ?_
      constructor
      · rintro ⟨hasks, rfl⟩
        exact ⟨rfl, r, hreq, hasks⟩
      · rintro ⟨rfl, r', hreq', hasks⟩
        cases hreq.symm.trans hreq'
        exact ⟨hasks, rfl⟩

theorem creditHolders_place_tidy (h : g.creditHolders.Tidy) :
    (g.place catalog term id).creditHolders.Tidy := by
  cases hreq : catalog.requisites? id with
  | none => rwa [creditHolders_place_of_none hreq]
  | some r =>
      rw [creditHolders_place_of_some hreq]
      exact h.addAll

theorem Exact.place (h : Exact catalog g) (term : TermId) (id : CourseId) :
    Exact catalog (g.place catalog term id) where
  mem_bySubject {s x} := by
    rw [bySubject_place, SubjectIndex.mem_coursesOf_add, h.mem_bySubject, contains_place]
    constructor
    · rintro (⟨hs, rfl⟩ | ⟨hx, hs⟩)
      · exact ⟨Or.inl rfl, hs⟩
      · exact ⟨Or.inr hx, hs⟩
    · rintro ⟨rfl | hx, hs⟩
      · exact Or.inl ⟨hs, rfl⟩
      · exact Or.inr ⟨hx, hs⟩
  mem_creditHolders {s x} := by
    rw [mem_creditHolders_place, h.mem_creditHolders, contains_place, or_and_right]
  bySubject_tidy := by
    rw [bySubject_place]
    exact h.bySubject_tidy.add
  creditHolders_tidy := creditHolders_place_tidy h.creditHolders_tidy
  mem_dependents {x node d} hnode := by
    rw [get?_place] at hnode
    rw [contains_place]
    split at hnode
    next heq =>
      -- The placed course keeps the dependents it had and gets those that name it.
      subst heq
      cases hnode
      have hknown : d ∈ ((g.get? id).map PlannedCourse.dependents).getD ∅ →
          g.contains d = true ∧ d ≠ id ∧ catalog.references d id = true := by
        cases hold : g.get? id with
        | none => simp
        | some old => exact (h.mem_dependents hold).1
      rw [Std.ExtTreeSet.mem_union_iff, mem_referencing_singleton, or_iff_right_of_imp hknown]
      have hne : d ≠ id → ¬id = d := Ne.symm
      constructor
      · exact fun hd => ⟨Or.inr hd.1, hd.2⟩
      · exact fun hd => ⟨hd.1.resolve_left (hne hd.2.1), hd.2⟩
    next hne =>
      obtain ⟨old, hold, rfl⟩ := Option.map_eq_some_iff.1 hnode
      have holdmem : d ∈ old.dependents ↔ _ := h.mem_dependents hold
      -- Another course gets the placed one as a dependent, if that names it.
      by_cases heq : id = d
      · subst heq
        by_cases href : catalog.references id x = true
        · simp [href, hne]
        · simp [href, holdmem]
      · split
        · simp [holdmem, heq]
        · simp [holdmem, heq]

/-! ## Withdrawing and deleting -/

theorem IndexesExact.withdraw (h : IndexesExact catalog g) (id : CourseId) :
    IndexesExact catalog (g.withdraw id).1 := by
  cases hnode : g.get? id with
  | none => rwa [withdraw_of_none hnode]
  | some node =>
      have hplanned (x : CourseId) :
          (g.withdraw id).1.contains x = true ↔ id ≠ x ∧ g.contains x = true :=
        contains_withdraw
      rw [withdraw_of_some hnode] at hplanned ⊢
      exact {
        mem_bySubject := by
          intro s x
          rw [hplanned, SubjectIndex.mem_coursesOf_remove, h.mem_bySubject, and_assoc]
        mem_creditHolders := by
          intro s x
          rw [hplanned, SubjectIndex.mem_coursesOf_remove, h.mem_creditHolders, and_assoc]
        bySubject_tidy := h.bySubject_tidy.remove
        creditHolders_tidy := h.creditHolders_tidy.remove }

theorem IndexesExact.foldl_withdraw (h : IndexesExact catalog g) (ids : List CourseId) :
    IndexesExact catalog (ids.foldl (fun g id => (g.withdraw id).1) g) := by
  induction ids generalizing g with
  | nil => exact h
  | cons id rest ih => exact ih (h.withdraw id)

theorem IndexesExact.delete (h : IndexesExact catalog g) (ids : List CourseId) :
    IndexesExact catalog (g.delete ids).1 := by
  rw [delete_fst]
  refine (h.foldl_withdraw ids).congr (fun x => ?_) rfl rfl
  rw [contains_eq_isSome, get?_forgetDependents, Option.isSome_map, contains_eq_isSome]

theorem Exact.delete (h : Exact catalog g) (ids : List CourseId) :
    Exact catalog (g.delete ids).1 := by
  -- While courses are withdrawn the dependents are out of date, so only the indexes go step by step.
  refine { h.toIndexesExact.delete ids with mem_dependents := ?_ }
  intro x node d hnode
  rw [get?_delete] at hnode
  split at hnode
  next => cases hnode
  next =>
    obtain ⟨old, hold, rfl⟩ := Option.map_eq_some_iff.1 hnode
    have hkept : d ∈ old.dependents.filter (fun id => !ids.contains id) ↔
        d ∈ old.dependents ∧ d ∉ ids := by
      simp
    rw [contains_delete, hkept, h.mem_dependents hold, and_comm, and_assoc]

/-! ## Histories -/

theorem Exact.add (h : Exact catalog g) (term : TermId) (ids : List CourseId) :
    Exact catalog (g.add catalog term ids).1 := by
  rw [add_fst]
  induction ids generalizing g with
  | nil => exact h
  | cons id rest ih => exact ih (h.place term id)

theorem Exact.relocate (h : Exact catalog g) (term : TermId) (id : CourseId) :
    Exact catalog (g.relocate term id) := by
  refine h.congr (fun x => ?_) rfl rfl
  rw [get?_relocate]
  split
  · rw [Option.map_map]
    rfl
  · rfl

theorem Exact.foldl_relocate (h : Exact catalog g) (term : TermId) (ids : List CourseId) :
    Exact catalog (ids.foldl (fun g id => g.relocate term id) g) := by
  induction ids generalizing g with
  | nil => exact h
  | cons id rest ih => exact ih (h.relocate term id)

theorem Exact.move {next : DependencyGraph} {affected : CourseSet} (h : Exact catalog g)
    (hmove : g.move ids term = .ok (next, affected)) : Exact catalog next := by
  rw [(move_eq_ok hmove).2]
  exact h.foldl_relocate term ids

theorem Exact.change (h : Exact catalog g) (c : PlanChange) :
    Exact catalog (g.change catalog c) := by
  cases c with
  | add term ids => exact h.add term ids
  | delete ids => exact h.delete ids
  | move ids term =>
      simp only [DependencyGraph.change]
      split
      next hmove => exact h.move hmove
      next => exact h

theorem Exact.run (h : Exact catalog g) (changes : List PlanChange) :
    Exact catalog (g.run catalog changes) := by
  induction changes generalizing g with
  | nil => exact h
  | cons c rest ih => exact ih (h.change c)

/-- After any history of changes from the empty plan, the dependents of a planned course are the
other planned courses whose requisites name it, a subject lists its planned courses, a subject
lists the planned courses with a credit rule over it, and no list is empty. -/
theorem run_empty_exact (catalog : Catalog W) (changes : List PlanChange) :
    let g := DependencyGraph.empty.run catalog changes
    (∀ x node d, g.get? x = some node →
      (d ∈ node.dependents ↔ g.contains d = true ∧ d ≠ x ∧ catalog.references d x = true)) ∧
    (∀ s x, x ∈ g.bySubject.coursesOf s ↔ g.contains x = true ∧ x.subject = s) ∧
    (∀ s x, x ∈ g.creditHolders.coursesOf s ↔
      g.contains x = true ∧ ∃ r, catalog.requisites? x = some r ∧
        ∃ rule ∈ r.creditRules, s ∈ rule.subjects) ∧
    (∀ s : SubjectCode, g.bySubject[s]? ≠ some ∅) ∧
    (∀ s : SubjectCode, g.creditHolders[s]? ≠ some ∅) := by
  intro g
  have h : Exact catalog g := (exact_empty catalog).run changes
  refine ⟨?_, ?_, ?_, h.bySubject_tidy, h.creditHolders_tidy⟩
  · intro x node d hnode
    exact h.mem_dependents hnode
  · intro s x
    exact h.mem_bySubject
  · intro s x
    exact h.mem_creditHolders

end DependencyGraph

end Curriculum
