import Curriculum.Proofs.Plan.Concerned
import Curriculum.Proofs.Verdict.Declarative

/-!
# Courses placed in any order

A course that is placed looks for the planned courses that name it, and tells the planned courses
that it names. What it misses when it comes first is supplied by those that come later, so it does
not matter in which order courses are placed, nor how often, whatever the graph kept before.
-/

namespace Curriculum

/-- The subjects over which some field of a course has a credit rule. -/
def Catalog.creditSubjects {W : Type} (catalog : Catalog W) (id : CourseId) : List SubjectCode :=
  ((catalog.requisites? id).map fun r => r.creditRules.flatMap CreditRule.subjects).getD []

namespace DependencyGraph

variable {W : Type} {catalog : Catalog W} {g : DependencyGraph} {term other : TermId}
  {a b x d : CourseId} {xs ys : List CourseId}

/-! ## Two placements -/

theorem creditHolders_place :
    (g.place catalog term a).creditHolders =
      g.creditHolders.addAll (catalog.creditSubjects a) a := by
  cases hreq : catalog.requisites? a with
  | none =>
      rw [creditHolders_place_of_none hreq, Catalog.creditSubjects, hreq]
      rfl
  | some r =>
      rw [creditHolders_place_of_some hreq, Catalog.creditSubjects, hreq]
      rfl

/-- The dependents that a course has so far. -/
def known (g : DependencyGraph) (id : CourseId) : CourseSet :=
  ((g.get? id).map PlannedCourse.dependents).getD ∅

theorem get?_place_self :
    (g.place catalog term a).get? a =
      some ⟨term, false, g.known a ∪ g.referencing catalog [a]⟩ := by
  rw [get?_place, if_pos rfl, known]

theorem get?_place_of_ne (h : a ≠ x) :
    (g.place catalog term a).get? x = (g.get? x).map fun node =>
      if catalog.references a x = true then { node with dependents := node.dependents.insert a }
      else node := by
  rw [get?_place, if_neg h]

theorem known_place_self :
    (g.place catalog term a).known a = g.known a ∪ g.referencing catalog [a] := by
  rw [known, get?_place_self, Option.map_some, Option.getD_some]

/-- A planned course learns of one that is placed and names it. -/
theorem mem_known_place (h : b ≠ a) :
    d ∈ (g.place catalog term b).known a ↔
      d ∈ g.known a ∨ g.contains a = true ∧ b = d ∧ catalog.references b a = true := by
  rw [known, get?_place_of_ne h, known, contains_eq_isSome]
  cases g.get? a with
  | none => simp
  | some node =>
      by_cases href : catalog.references b a = true
      · simp [href, or_comm]
      · simp [href]

theorem mem_referencing_place (h : b ≠ a) :
    d ∈ (g.place catalog term b).referencing catalog [a] ↔
      d ∈ g.referencing catalog [a] ∨ b = d ∧ catalog.references b a = true := by
  rw [mem_referencing_singleton, mem_referencing_singleton, contains_place]
  by_cases heq : b = d
  · subst heq
    simp [h]
  · simp [heq]

/-- The first of two courses that are placed ends up as it would if it came second. -/
theorem get?_place_place (h : a ≠ b) :
    ((g.place catalog term a).place catalog other b).get? a =
      ((g.place catalog other b).place catalog term a).get? a := by
  have hdependents :
      (if catalog.references b a = true then (g.known a ∪ g.referencing catalog [a]).insert b
        else g.known a ∪ g.referencing catalog [a]) =
        (g.place catalog other b).known a ∪
          (g.place catalog other b).referencing catalog [a] := by
    ext d
    rw [Std.ExtTreeSet.mem_union_iff, mem_known_place h.symm, mem_referencing_place h.symm]
    by_cases href : catalog.references b a = true
    · simp [href]
      tauto
    · simp [href]
  rw [get?_place_of_ne h.symm, get?_place_self, get?_place_self, Option.map_some, ← hdependents]
  split <;> rfl

/-- Two courses may be placed in either order. -/
theorem place_comm (catalog : Catalog W) (g : DependencyGraph) (h : a = b → term = other) :
    (g.place catalog term a).place catalog other b =
      (g.place catalog other b).place catalog term a := by
  by_cases heq : a = b
  · rw [heq, h heq]
  refine eq_of_get? ?_ ?_ fun x => ?_
  · rw [bySubject_place, bySubject_place, bySubject_place, bySubject_place]
    exact SubjectIndex.addAll_comm [a.subject] [b.subject] a b
  · rw [creditHolders_place, creditHolders_place, creditHolders_place, creditHolders_place]
    exact SubjectIndex.addAll_comm _ _ a b
  · by_cases ha : a = x
    · rw [← ha]
      exact get?_place_place heq
    by_cases hb : b = x
    · rw [← hb]
      exact (get?_place_place (Ne.symm heq)).symm
    -- A third course learns of both, if they name it.
    rw [get?_place_of_ne hb, get?_place_of_ne ha, get?_place_of_ne ha, get?_place_of_ne hb]
    cases g.get? x with
    | none => simp only [Option.map_none]
    | some node =>
        simp only [Option.map_some, Option.some.injEq]
        by_cases hrefa : catalog.references a x = true <;>
          by_cases hrefb : catalog.references b x = true <;>
            simp [hrefa, hrefb, CourseSet.insert_comm _ a b]

/-- A course that is placed once more finds itself as it was placed. -/
theorem place_place (catalog : Catalog W) (g : DependencyGraph) (term : TermId) (a : CourseId) :
    (g.place catalog term a).place catalog term a = g.place catalog term a := by
  refine eq_of_get? ?_ ?_ fun x => ?_
  · rw [bySubject_place, bySubject_place]
    exact SubjectIndex.addAll_addAll [a.subject] a
  · rw [creditHolders_place, creditHolders_place]
    exact SubjectIndex.addAll_addAll _ a
  · by_cases ha : a = x
    · have hdependents : (g.place catalog term a).known a ∪
          (g.place catalog term a).referencing catalog [a] =
            g.known a ∪ g.referencing catalog [a] := by
        ext d
        rw [known_place_self, Std.ExtTreeSet.mem_union_iff, Std.ExtTreeSet.mem_union_iff,
          mem_referencing_singleton, mem_referencing_singleton, contains_place]
        tauto
      rw [← ha, get?_place_self, hdependents, get?_place_self]
    · rw [get?_place_of_ne ha, get?_place_of_ne ha]
      cases g.get? x with
      | none => simp only [Option.map_none]
      | some node => by_cases href : catalog.references a x = true <;> simp [href]

/-! ## Any number of placements -/

/-- A course that is placed later anyway need not be placed first. -/
theorem foldl_place_of_mem (h : a ∈ xs) :
    xs.foldl (fun g id => g.place catalog term id) (g.place catalog term a) =
      xs.foldl (fun g id => g.place catalog term id) g := by
  induction xs generalizing g with
  | nil => cases h
  | cons x rest ih =>
      rw [List.foldl_cons, List.foldl_cons]
      rcases List.mem_cons.1 h with rfl | hrest
      · rw [place_place]
      · rw [place_comm catalog g fun _ => rfl, ih hrest]

theorem add_of_subset (catalog : Catalog W) (g : DependencyGraph) (term : TermId) (h : ys ⊆ xs) :
    ((g.add catalog term ys).1.add catalog term xs).1 = (g.add catalog term xs).1 := by
  simp only [add_fst]
  induction ys generalizing g with
  | nil => rfl
  | cons y rest ih =>
      rw [List.cons_subset] at h
      rw [List.foldl_cons, ih _ h.2, foldl_place_of_mem h.1]

theorem foldl_place_comm (h : ∀ a ∈ xs, a = b → term = other) :
    xs.foldl (fun g id => g.place catalog term id) (g.place catalog other b) =
      (xs.foldl (fun g id => g.place catalog term id) g).place catalog other b := by
  induction xs generalizing g with
  | nil => rfl
  | cons x rest ih =>
      rw [List.forall_mem_cons] at h
      rw [List.foldl_cons, List.foldl_cons, ← place_comm catalog g h.1, ih h.2]

/-- Courses may be added to two terms in either order, if each of them goes to one term only. -/
theorem add_comm (catalog : Catalog W) (g : DependencyGraph)
    (h : ∀ a ∈ xs, ∀ b ∈ ys, a = b → term = other) :
    ((g.add catalog term xs).1.add catalog other ys).1 =
      ((g.add catalog other ys).1.add catalog term xs).1 := by
  simp only [add_fst]
  induction ys generalizing g with
  | nil => rfl
  | cons y rest ih =>
      have hy : ∀ a ∈ xs, a = y → term = other := fun a ha => h a ha y List.mem_cons_self
      have hrest : ∀ a ∈ xs, ∀ b ∈ rest, a = b → term = other := fun a ha b hb =>
        h a ha b (List.mem_cons_of_mem y hb)
      rw [List.foldl_cons, List.foldl_cons, ← foldl_place_comm hy, ih _ hrest]

theorem add_eq_of_mem_iff (catalog : Catalog W) (g : DependencyGraph) (term : TermId)
    (h : ∀ id, id ∈ xs ↔ id ∈ ys) : g.add catalog term xs = g.add catalog term ys := by
  have hgraph : (g.add catalog term xs).1 = (g.add catalog term ys).1 := by
    rw [← add_of_subset catalog g term fun id => (h id).1, add_comm catalog g fun _ _ _ _ _ => rfl,
      add_of_subset catalog g term fun id => (h id).2]
  refine Prod.ext hgraph ?_
  ext d
  rw [mem_add, mem_add, hgraph]
  simp only [h]

/-- The graph after an addition, and the courses that it affects, depend on which courses are added
and not on the order of the list or its repetitions. Courses may be added to two terms in either
order, if none is added to both. -/
theorem add_any_order (catalog : Catalog W) (g : DependencyGraph) (first second : TermId)
    (xs ys : List CourseId) :
    ((∀ id, id ∈ xs ↔ id ∈ ys) → g.add catalog first xs = g.add catalog first ys) ∧
    ((∀ id ∈ xs, id ∉ ys) →
      ((g.add catalog first xs).1.add catalog second ys).1 =
        ((g.add catalog second ys).1.add catalog first xs).1) := by
  refine ⟨add_eq_of_mem_iff catalog g first, fun hapart => add_comm catalog g ?_⟩
  rintro a hxs b hys rfl
  exact absurd hys (hapart a hxs)

end DependencyGraph

namespace Sample

/-- A graph as a document may have it, in which `COMP 250` keeps a dependent that is not planned and
is missing from the index. -/
def outOfStep : DependencyGraph :=
  ⟨Std.ExtTreeMap.insert ∅ (comp 250) ⟨⟨"first"⟩, true, {comp 400}⟩, ∅,
    Std.ExtTreeMap.insert ∅ (comp 250).subject ∅⟩

end Sample

open Sample in
/-- `COMP 251` and the course that it names. -/
theorem DependencyGraph.add_any_order_outOfStep :
    let xs := [comp 251, comp 250, comp 251]
    let ys := [comp 250, comp 251]
    ((∀ id, id ∈ xs ↔ id ∈ ys) ∧
      outOfStep.add twoCourses ⟨"first"⟩ xs = outOfStep.add twoCourses ⟨"first"⟩ ys) ∧
    ((∀ id ∈ [comp 251], id ∉ [comp 250]) ∧
      ((outOfStep.add twoCourses ⟨"second"⟩ [comp 251]).1.add twoCourses ⟨"first"⟩ [comp 250]).1 =
        ((outOfStep.add twoCourses ⟨"first"⟩ [comp 250]).1.add twoCourses ⟨"second"⟩
          [comp 251]).1) := by
  intro xs ys
  have hsame : ∀ id, id ∈ xs ↔ id ∈ ys := by
    intro id
    simpa [xs, ys] using Or.inr
  have hapart : ∀ id ∈ [comp 251], id ∉ [comp 250] := by decide
  exact ⟨⟨hsame, (add_any_order twoCourses outOfStep ⟨"first"⟩ ⟨"second"⟩ xs ys).1 hsame⟩, hapart,
    (add_any_order twoCourses outOfStep ⟨"second"⟩ ⟨"first"⟩ [comp 251] [comp 250]).2 hapart⟩

end Curriculum
