import Curriculum.Proofs.Plan.Affected

/-!
# Exactly the affected courses

A course that comes, goes or moves concerns itself, the courses that name it and the part after it.
The affected set of a change holds the courses planned afterwards that are so concerned, and no
others. A deleted course that was not planned does not count.
-/

namespace Curriculum

/-- The second course is the first one, names it, or is the part after it. -/
def Catalog.Concerns {W : Type} (catalog : Catalog W) (id d : CourseId) : Prop :=
  d = id ∨ catalog.references d id = true ∨ id.successorPart? = some d

theorem Catalog.concerns_self {W : Type} (catalog : Catalog W) (id : CourseId) :
    catalog.Concerns id id :=
  Or.inl rfl

namespace DependencyGraph

variable {W : Type} {catalog : Catalog W} {g next : DependencyGraph} {c : PlanChange}
  {term : TermId} {ids : List CourseId} {d : CourseId} {affected : CourseSet}

/-- What is collected course by course was found at one of them, in the graph that the courses
before it left. -/
theorem mem_collected_iff
    {f : DependencyGraph × CourseSet → CourseId → DependencyGraph × CourseSet}
    {n : DependencyGraph → CourseId → DependencyGraph} {P : DependencyGraph → CourseId → Prop}
    (hnext : ∀ g s id, (f (g, s) id).1 = n g id)
    (hfound : ∀ g s id, d ∈ (f (g, s) id).2 ↔ d ∈ s ∨ P g id) (ids : List CourseId)
    (g : DependencyGraph) (s : CourseSet) :
    d ∈ (ids.foldl f (g, s)).2 ↔
      d ∈ s ∨ ∃ before id after, ids = before ++ id :: after ∧ P (before.foldl n g) id := by
  induction ids generalizing g s with
  | nil => simp
  | cons id rest ih =>
      have hstep : f (g, s) id = (n g id, (f (g, s) id).2) := by rw [← hnext g s id]
      rw [List.foldl_cons, hstep, ih, hfound, or_assoc]
      refine or_congr_right ?_
      constructor
      · rintro (hfirst | ⟨before, x, after, rfl, hx⟩)
        · exact ⟨[], id, rest, rfl, hfirst⟩
        · exact ⟨id :: before, x, after, rfl, hx⟩
      · rintro ⟨_ | ⟨y, before⟩, x, after, heq, hx⟩
        · cases heq
          exact Or.inl hx
        · cases heq
          exact Or.inr ⟨before, x, after, rfl, hx⟩

/-! ## Adding -/

theorem mem_add : d ∈ (g.add catalog term ids).2 ↔
    (g.add catalog term ids).1.contains d = true ∧ ∃ id ∈ ids, catalog.Concerns id d := by
  have hcollected := mem_collected_iff (d := d)
    (n := fun g id => g.place catalog term id)
    (f := fun p id => (p.1.place catalog term id,
      (p.2 ∪ p.1.referencing catalog [id]).insert id ∪
        (p.1.place catalog term id).plannedSuccessor id))
    (P := fun g id => id = d ∨ d ∈ g.referencing catalog [id] ∨
      d ∈ (g.place catalog term id).plannedSuccessor id)
    (fun _ _ _ => rfl) (fun g s id => by simp [or_assoc, or_left_comm]) ids g ∅
  have hbefore (before : List CourseId) :
      (before.foldl (fun g id => g.place catalog term id) g).contains d = true ↔
        d ∈ before ∨ g.contains d = true := by
    rw [← add_fst, contains_add]
  rw [contains_add]
  refine hcollected.trans ?_
  simp only [Std.ExtTreeSet.not_mem_empty, false_or, mem_referencing_singleton,
    mem_plannedSuccessor, contains_place, hbefore]
  constructor
  · rintro ⟨before, id, after, rfl, heq | ⟨hplanned, _, href⟩ | ⟨hpart, hplanned⟩⟩
    · subst heq
      exact ⟨Or.inl (by simp), id, by simp, catalog.concerns_self id⟩
    · refine ⟨?_, id, by simp, Or.inr (Or.inl href)⟩
      exact hplanned.imp_left (List.mem_append_left _)
    · refine ⟨?_, id, by simp, Or.inr (Or.inr hpart)⟩
      rcases hplanned with rfl | hmem | hplanned
      · exact Or.inl (by simp)
      · exact Or.inl (List.mem_append_left _ hmem)
      · exact Or.inr hplanned
  · rintro ⟨hplanned, id, hid, hconcerns⟩
    by_cases hmem : d ∈ ids
    · obtain ⟨before, after, rfl⟩ := List.append_of_mem hmem
      exact ⟨before, d, after, rfl, Or.inl rfl⟩
    · have hplanned' := hplanned.resolve_left hmem
      obtain ⟨before, after, rfl⟩ := List.append_of_mem hid
      have hne : d ≠ id := by
        rintro rfl
        exact hmem hid
      refine ⟨before, id, after, rfl, Or.inr ?_⟩
      rcases hconcerns with rfl | href | hpart
      · exact absurd rfl hne
      · exact Or.inl ⟨Or.inr hplanned', hne, href⟩
      · exact Or.inr ⟨hpart, Or.inr (Or.inr hplanned')⟩

/-! ## Moving -/

theorem contains_foldl_relocate :
    (ids.foldl (fun g id => g.relocate term id) g).contains d = g.contains d := by
  induction ids generalizing g with
  | nil => rfl
  | cons id rest ih => rw [List.foldl_cons, ih, contains_relocate]

theorem Exact.mem_dependents_getD (h : g.Exact catalog) {id : CourseId}
    (hid : g.contains id = true) :
    d ∈ ((g.get? id).map PlannedCourse.dependents).getD ∅ ↔
      g.contains d = true ∧ d ≠ id ∧ catalog.references d id = true := by
  obtain ⟨node, hnode⟩ := exists_get?_of_contains hid
  rw [hnode]
  exact h.mem_dependents hnode

theorem mem_move (h : g.Exact catalog) (hmove : g.move ids term = .ok (next, affected)) :
    d ∈ affected ↔ next.contains d = true ∧ ∃ id ∈ ids, catalog.Concerns id d := by
  obtain ⟨hplanned, hnext⟩ := move_eq_ok hmove
  have hcollected := mem_collected_iff (d := d)
    (n := fun g id => g.relocate term id)
    (f := fun p id => (p.1.relocate term id,
      (p.2 ∪ ((p.1.get? id).map PlannedCourse.dependents).getD ∅).insert id ∪
        p.1.plannedSuccessor id))
    (P := fun g id => id = d ∨ d ∈ ((g.get? id).map PlannedCourse.dependents).getD ∅ ∨
      d ∈ g.plannedSuccessor id)
    (fun _ _ _ => rfl) (fun g s id => by simp [or_assoc, or_left_comm]) ids g ∅
  have hdependents (before : List CourseId) {id : CourseId} (hid : id ∈ ids) :=
    (h.foldl_relocate term before).mem_dependents_getD (d := d)
      (contains_foldl_relocate.trans (hplanned id hid))
  unfold move at hmove
  split at hmove
  next => cases hmove
  rw [← show _ = affected from congrArg Prod.snd (Except.ok.inj hmove), hnext,
    contains_foldl_relocate]
  refine hcollected.trans ?_
  simp only [Std.ExtTreeSet.not_mem_empty, false_or, mem_plannedSuccessor,
    contains_foldl_relocate] at hdependents ⊢
  constructor
  · rintro ⟨before, id, after, hids, hfound⟩
    have hid : id ∈ ids := by simp [hids]
    rw [hdependents before hid] at hfound
    rcases hfound with rfl | ⟨hd, _, href⟩ | ⟨hpart, hd⟩
    · exact ⟨hplanned id hid, id, hid, catalog.concerns_self id⟩
    · exact ⟨hd, id, hid, Or.inr (Or.inl href)⟩
    · exact ⟨hd, id, hid, Or.inr (Or.inr hpart)⟩
  · rintro ⟨hd, id, hid, hconcerns⟩
    obtain ⟨before, after, hids⟩ := List.append_of_mem hid
    refine ⟨before, id, after, hids, ?_⟩
    rw [hdependents before hid]
    by_cases heq : d = id
    · exact Or.inl heq.symm
    · rcases hconcerns with hself | href | hpart
      · exact absurd hself heq
      · exact Or.inr (Or.inl ⟨hd, heq, href⟩)
      · exact Or.inr (Or.inr ⟨hpart, hd⟩)

/-! ## Deleting -/

theorem mem_withdraw {id : CourseId} : d ∈ (g.withdraw id).2 ↔
    ∃ node, g.get? id = some node ∧ (d ∈ node.dependents ∨ id.successorPart? = some d) := by
  cases hnode : g.get? id with
  | none =>
      rw [withdraw_of_none hnode]
      simp
  | some node =>
      rw [withdraw_of_some hnode]
      cases id.successorPart? with
      | none => simp
      | some part => simp [or_comm]

theorem mem_delete (h : g.Exact catalog) : d ∈ (g.delete ids).2 ↔
    (g.delete ids).1.contains d = true ∧
      ∃ id ∈ ids, g.contains id = true ∧ catalog.Concerns id d := by
  have hcollected := mem_collected_iff (d := d)
    (n := fun g id => (g.withdraw id).1)
    (f := fun p id => ((p.1.withdraw id).1, p.2 ∪ (p.1.withdraw id).2))
    (P := fun g id => d ∈ (g.withdraw id).2)
    (fun _ _ _ => rfl) (fun g s id => Std.ExtTreeSet.mem_union_iff) ids g ∅
  have hfilter : d ∈ (g.delete ids).2 ↔
      d ∈ (ids.foldl (fun p id => ((p.1.withdraw id).1, p.2 ∪ (p.1.withdraw id).2))
        (g, (∅ : CourseSet))).2 ∧ (g.delete ids).1.contains d = true := by
    simp [delete]
  rw [hfilter, and_comm, hcollected]
  refine and_congr_right fun hd => ?_
  simp only [Std.ExtTreeSet.not_mem_empty, false_or, mem_withdraw, get?_foldl_withdraw]
  constructor
  · rintro ⟨before, id, after, rfl, node, hnode, hfound⟩
    split at hnode
    next => cases hnode
    refine ⟨id, by simp, contains_of_get? hnode, ?_⟩
    rcases hfound with hmem | hpart
    · exact Or.inr (Or.inl ((h.mem_dependents hnode).1 hmem).2.2)
    · exact Or.inr (Or.inr hpart)
  · rintro ⟨id, hid, hplanned, hconcerns⟩
    -- What depends on a course is collected where the course is met first.
    obtain ⟨before, after, hids, hfirst⟩ := List.eq_append_cons_of_mem hid
    obtain ⟨node, hnode⟩ := exists_get?_of_contains hplanned
    refine ⟨before, id, after, hids, node, by rw [if_neg hfirst, hnode], ?_⟩
    rw [contains_delete] at hd
    have hne : d ≠ id := by
      rintro rfl
      exact hd.1 hid
    rcases hconcerns with hself | href | hpart
    · exact absurd hself hne
    · exact Or.inl ((h.mem_dependents hnode).2 ⟨hd.2, hne, href⟩)
    · exact Or.inr hpart

/-! ## Any change -/

/-- A change affects the courses planned afterwards that one of its courses concerns, provided that
this one is planned before or afterwards. -/
theorem mem_affected (h : g.Exact catalog) (happly : g.apply catalog c = .ok (next, affected)) :
    d ∈ affected ↔ next.contains d = true ∧
      ∃ id ∈ c.ids, (g.contains id = true ∨ next.contains id = true) ∧ catalog.Concerns id d := by
  cases c with
  | add term ids =>
      rw [← show _ = next from congrArg Prod.fst (Except.ok.inj happly),
        ← show _ = affected from congrArg Prod.snd (Except.ok.inj happly), mem_add]
      refine and_congr_right fun _ => exists_congr fun id => and_congr_right fun hid => ?_
      have hplanned : (g.add catalog term ids).1.contains id = true :=
        contains_add.2 (Or.inl hid)
      rw [or_iff_right_of_imp fun _ => hplanned, and_iff_right hplanned]
  | delete ids =>
      rw [← show _ = next from congrArg Prod.fst (Except.ok.inj happly),
        ← show _ = affected from congrArg Prod.snd (Except.ok.inj happly), mem_delete h]
      refine and_congr_right fun _ => exists_congr fun id => and_congr_right fun hid => ?_
      have hgone : ¬(g.delete ids).1.contains id = true := fun hplanned =>
        (contains_delete.1 hplanned).1 hid
      rw [or_iff_left hgone]
  | move ids term =>
      rw [mem_move h happly]
      refine and_congr_right fun _ => exists_congr fun id => and_congr_right fun hid => ?_
      rw [and_iff_right (Or.inl ((move_eq_ok happly).1 id hid))]

end DependencyGraph

end Curriculum
