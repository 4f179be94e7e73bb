import Curriculum.Catalog
import Curriculum.Proofs.Course.Set

/-!
# Courses and credit rules that requisites name

A course is referenced exactly if it is one of the leaves, over trees, over the three fields of a
course, and over a catalog. Simplifying a tree leaves its leaves as they are.
-/

namespace Curriculum

mutual

theorem Node.references_iff (id : CourseId) (n : Node) :
    n.references id = true ↔ id ∈ n.courses := by
  cases n with
  | course c => simpa [Node.references, Node.courses] using eq_comm
  | group g => simpa only [Node.references, Node.courses] using g.references_iff id

theorem Group.references_iff (id : CourseId) (g : Group) :
    g.references id = true ↔ id ∈ g.courses := by
  cases g with
  | empty => simp [Group.references, Group.courses]
  | credit rule => simp [Group.references, Group.courses]
  | join c nodes =>
      simpa only [Group.references, Group.courses] using Node.referencesAny_iff id nodes

theorem Node.referencesAny_iff (id : CourseId) (nodes : List Node) :
    Node.referencesAny id nodes = true ↔ id ∈ Node.coursesAll nodes := by
  cases nodes with
  | nil => simp [Node.referencesAny, Node.coursesAll]
  | cons n rest =>
      simp only [Node.referencesAny, Node.coursesAll, Bool.or_eq_true, List.mem_append,
        n.references_iff id, Node.referencesAny_iff id rest]

end

/-! ## Simplified trees -/

/-- The list of a join is that of its children, one after another. -/
def Node.InOrder {α : Type} (leaves : Node → List α) : Prop :=
  ∀ c nodes, leaves (.group (.join c nodes)) = nodes.flatMap leaves

variable {α : Type} {leaves : Node → List α}

mutual

theorem Node.InOrder.splice (h : InOrder leaves) (parent : Connective) :
    (n : Node) → (n.splice parent).flatMap leaves = leaves n
  | .course _ => by rw [Node.splice, List.flatMap_singleton]
  | .group g => by rw [Node.splice, h.splice_group parent g]

theorem Node.InOrder.splice_group (h : InOrder leaves) (parent : Connective) :
    (g : Group) → (g.splice parent).flatMap leaves = leaves (.group g)
  | .empty => by rw [Group.splice, List.flatMap_singleton]
  | .credit _ => by rw [Group.splice, List.flatMap_singleton]
  | .join c nodes => by
      rw [Group.splice]
      split
      next => rw [h.spliceAll parent nodes, h]
      next => rw [List.flatMap_singleton]

theorem Node.InOrder.spliceAll (h : InOrder leaves) (parent : Connective) :
    (nodes : List Node) → (Node.spliceAll parent nodes).flatMap leaves = nodes.flatMap leaves
  | [] => rfl
  | n :: rest => by
      rw [Node.spliceAll, List.flatMap_append, h.splice parent n, h.spliceAll parent rest,
        List.flatMap_cons]

end

theorem Node.InOrder.collapse (h : InOrder leaves) (c : Connective) (nodes : List Node) :
    leaves (.group (Group.collapse c nodes)) = nodes.flatMap leaves := by
  unfold Group.collapse
  split
  next => rw [List.flatMap_singleton]
  next => exact h c _

mutual

theorem Node.InOrder.simplify (h : InOrder leaves) : (n : Node) → leaves n.simplify = leaves n
  | .course _ => rfl
  | .group g => h.simplify_group g

theorem Node.InOrder.simplify_group (h : InOrder leaves) :
    (g : Group) → leaves (.group g.simplify) = leaves (.group g)
  | .empty => rfl
  | .credit _ => rfl
  | .join c nodes => by
      rw [Group.simplify, h.collapse, h.spliceAll, h.simplifyAll nodes, h]

theorem Node.InOrder.simplifyAll (h : InOrder leaves) :
    (nodes : List Node) → (Node.simplifyAll nodes).flatMap leaves = nodes.flatMap leaves
  | [] => rfl
  | n :: rest => by
      rw [Node.simplifyAll, List.flatMap_cons, h.simplify n, h.simplifyAll rest, List.flatMap_cons]

end

theorem Node.coursesAll_eq_flatMap (nodes : List Node) :
    coursesAll nodes = nodes.flatMap courses := by
  induction nodes with
  | nil => rfl
  | cons n rest ih => rw [coursesAll, ih, List.flatMap_cons]

theorem Node.creditRulesAll_eq_flatMap (nodes : List Node) :
    creditRulesAll nodes = nodes.flatMap creditRules := by
  induction nodes with
  | nil => rfl
  | cons n rest ih => rw [creditRulesAll, ih, List.flatMap_cons]

theorem Node.inOrder_courses : InOrder courses := fun _ => coursesAll_eq_flatMap

theorem Node.inOrder_creditRules : InOrder creditRules := fun _ => creditRulesAll_eq_flatMap

theorem Group.courses_simplify (g : Group) : g.simplify.courses = g.courses :=
  Node.inOrder_courses.simplify_group g

theorem Group.creditRules_simplify (g : Group) : g.simplify.creditRules = g.creditRules :=
  Node.inOrder_creditRules.simplify_group g

namespace Requisites

theorem references_iff (r : Requisites) (id : CourseId) :
    r.references id = true ↔ id ∈ r.referencedCourses := by
  simp [references, referencedCourses, Group.references_iff]

/-- Simplifying keeps the leaves of a group in their order, repeats included, and a course is
referenced exactly if it is one of them, be it in a group or over the fields of a course. -/
theorem leaves_agree (g : Group) (r : Requisites) (id : CourseId) :
    g.simplify.courses = g.courses ∧ g.simplify.creditRules = g.creditRules ∧
    (g.references id = true ↔ id ∈ g.courses) ∧
    (r.references id = true ↔ id ∈ r.referencedCourses) :=
  ⟨g.courses_simplify, g.creditRules_simplify, g.references_iff id, r.references_iff id⟩

/-- Some field of the course has a credit rule over the subject. -/
def asksCreditIn (r : Requisites) (subject : SubjectCode) : Prop :=
  ∃ rule ∈ r.creditRules, subject ∈ rule.subjects

theorem mem_creditSubjects (r : Requisites) (subject : SubjectCode) :
    subject ∈ r.creditRules.flatMap CreditRule.subjects ↔ r.asksCreditIn subject := by
  simp [asksCreditIn]

end Requisites

namespace Catalog

variable {W : Type} {catalog : Catalog W} {id target : CourseId} {r : Requisites}

theorem references_of_requisites (h : catalog.requisites? id = some r) :
    catalog.references id target = r.references target := by
  simp [references, h]

theorem references_of_no_requisites (h : catalog.requisites? id = none) :
    catalog.references id target = false := by
  simp [references, h]

/-- Some requisite field of the course has a credit rule over the subject. -/
def asksCreditIn (catalog : Catalog W) (id : CourseId) (subject : SubjectCode) : Prop :=
  ∃ r, catalog.requisites? id = some r ∧ r.asksCreditIn subject

end Catalog

end Curriculum
