import Curriculum.Proofs.Plan.Concerned
import Curriculum.Proofs.Verdict.Declarative

/-!
# Affected sets in terms of plan and catalog

A change collects its affected set course by course, partly from the dependents in store. After any
history of changes, the set is the one that the planned courses and their requisites determine.
-/

namespace Curriculum

namespace DependencyGraph

variable {W : Type} {catalog : Catalog W} {g : DependencyGraph} {ids : List CourseId}
  {d : CourseId}

/-- The planned courses whose requisites name one of the given ones. -/
def dependentsOf (g : DependencyGraph) (catalog : Catalog W) (ids : List CourseId) : CourseSet :=
  g.courses.filter fun planned => ids.any fun id => catalog.references planned id

/-- The planned parts that follow the given ones. -/
def successorsOf (g : DependencyGraph) (ids : List CourseId) : CourseSet :=
  .ofList ((ids.filterMap CourseId.successorPart?).filter g.contains)

theorem mem_dependentsOf : d ∈ g.dependentsOf catalog ids ↔
    g.contains d = true ∧ ∃ id ∈ ids, catalog.references d id = true := by
  simp [dependentsOf, mem_courses]

theorem mem_successorsOf : d ∈ g.successorsOf ids ↔
    g.contains d = true ∧ ∃ id ∈ ids, id.successorPart? = some d := by
  simp [successorsOf, and_comm]

/-- A planned course that one of the given ones concerns is among them, depends on them or follows
them. -/
theorem exists_concerns_iff : (g.contains d = true ∧ ∃ id ∈ ids, catalog.Concerns id d) ↔
    g.contains d = true ∧ d ∈ ids ∨ d ∈ g.dependentsOf catalog ids ∨ d ∈ g.successorsOf ids := by
  rw [mem_dependentsOf, mem_successorsOf, ← and_or_left, ← and_or_left]
  refine and_congr_right fun _ => ?_
  simp only [Catalog.Concerns, and_or_left, exists_or, exists_eq_right']

theorem add_affected_eq (g : DependencyGraph) (catalog : Catalog W) (term : TermId)
    (ids : List CourseId) : (g.add catalog term ids).2 =
    .ofList ids ∪ (g.dependentsOf catalog ids ∪ (g.add catalog term ids).1.successorsOf ids) := by
  ext d
  rw [mem_add, exists_concerns_iff, Std.ExtTreeSet.mem_union_iff, Std.ExtTreeSet.mem_union_iff,
    Std.ExtTreeSet.mem_ofList, List.contains_iff_mem, mem_dependentsOf, mem_dependentsOf,
    contains_add]
  by_cases hd : d ∈ ids <;> simp [hd]

theorem Exact.delete_affected_eq (h : g.Exact catalog) (ids : List CourseId) :
    (g.delete ids).2 = (g.delete ids).1.dependentsOf catalog (ids.filter g.contains) ∪
      (g.delete ids).1.successorsOf (ids.filter g.contains) := by
  ext d
  have hgone : ¬((g.delete ids).1.contains d = true ∧ d ∈ ids.filter g.contains) := fun hd =>
    (contains_delete.1 hd.1).1 (List.mem_filter.1 hd.2).1
  have hconcerned : d ∈ (g.delete ids).2 ↔ (g.delete ids).1.contains d = true ∧
      ∃ id ∈ ids.filter g.contains, catalog.Concerns id d := by
    simp only [mem_delete h, List.mem_filter, and_assoc]
  rw [hconcerned, exists_concerns_iff, or_iff_right hgone, Std.ExtTreeSet.mem_union_iff]

theorem Exact.move_eq (h : g.Exact catalog) (term : TermId)
    (hplanned : ∀ id ∈ ids, g.contains id = true) :
    ∃ next, g.move ids term = .ok
      (next, .ofList ids ∪ (g.dependentsOf catalog ids ∪ g.successorsOf ids)) := by
  obtain ⟨⟨next, affected⟩, hmove⟩ := move_ok term hplanned
  have hnext (d : CourseId) : next.contains d = g.contains d := by
    rw [(move_eq_ok hmove).2, contains_foldl_relocate]
  refine ⟨next, ?_⟩
  rw [hmove]
  congr 2
  ext d
  rw [mem_move h hmove, hnext, exists_concerns_iff, Std.ExtTreeSet.mem_union_iff,
    Std.ExtTreeSet.mem_union_iff, Std.ExtTreeSet.mem_ofList, List.contains_iff_mem]
  exact or_congr_left (and_iff_right_of_imp (hplanned d))

/-- After any history of changes from the empty plan, adding courses affects them, the courses
planned before that name one of them, and the parts after them that are planned now. Deleting
courses affects what is still planned and names, or follows, one that was planned. Moving planned
courses affects them, the planned courses that name one of them, and the planned parts after
them. -/
theorem run_empty_affected (catalog : Catalog W) (changes : List PlanChange)
    (ids : List CourseId) (term : TermId) :
    let g := DependencyGraph.empty.run catalog changes
    let (withAdded, affectedByAdding) := g.add catalog term ids
    let (withoutDeleted, affectedByDeleting) := g.delete ids
    affectedByAdding =
      .ofList ids ∪ (g.dependentsOf catalog ids ∪ withAdded.successorsOf ids) ∧
    affectedByDeleting = withoutDeleted.dependentsOf catalog (ids.filter g.contains) ∪
      withoutDeleted.successorsOf (ids.filter g.contains) ∧
    ((∀ id ∈ ids, g.contains id = true) → ∃ next, g.move ids term = .ok
      (next, .ofList ids ∪ (g.dependentsOf catalog ids ∪ g.successorsOf ids))) := by
  intro g
  have h : g.Exact catalog := (exact_empty catalog).run changes
  exact ⟨add_affected_eq g catalog term ids, h.delete_affected_eq ids, h.move_eq term⟩

end DependencyGraph

open Sample in
/-- `COMP 250` is moved, and `COMP 251` after it is affected. -/
theorem DependencyGraph.affected_twoCourses :
    let g := DependencyGraph.empty.run twoCourses
      [.add ⟨"first"⟩ [comp 250], .add ⟨"second"⟩ [comp 251]]
    (∀ id ∈ [comp 250], g.contains id = true) ∧ ∃ next affected,
      g.move [comp 250] ⟨"first"⟩ = .ok (next, affected) ∧
        affected.toList = [comp 250, comp 251] := by
  intro g
  have hplanned : ∀ id ∈ [comp 250], g.contains id = true := by decide +kernel
  obtain ⟨next, hmove⟩ := (run_empty_affected twoCourses
    [.add ⟨"first"⟩ [comp 250], .add ⟨"second"⟩ [comp 251]] [comp 250] ⟨"first"⟩).2.2 hplanned
  exact ⟨hplanned, next, _, hmove, by decide +kernel⟩

end Curriculum
