import Curriculum.Plan.Change
import Curriculum.Proofs.Group.Leaves
import Curriculum.Proofs.Plan.SubjectIndex

/-!
# Planned courses after a change

What each change leaves at a course: its node, or none. Everything later about a changed graph is
read off these equations.
-/

namespace Curriculum.DependencyGraph

variable {W : Type} {g : DependencyGraph} {catalog : Catalog W} {term : TermId}
  {id x d : CourseId} {ids targets : List CourseId} {r : Requisites}

theorem contains_eq_isSome : g.contains x = (g.get? x).isSome := by
  simp [contains, get?]

theorem contains_of_get? {node : PlannedCourse} (h : g.get? x = some node) :
    g.contains x = true := by
  simp [contains_eq_isSome, h]

theorem exists_get?_of_contains (h : g.contains x = true) : ∃ node, g.get? x = some node := by
  rwa [contains_eq_isSome, Option.isSome_iff_exists] at h

theorem term?_isSome : (g.term? x).isSome = g.contains x := by
  simp [term?, contains_eq_isSome]

theorem term?_eq_none_iff : g.term? x = none ↔ g.contains x = false := by
  rw [← term?_isSome, Option.isSome_eq_false_iff, Option.isNone_iff_eq_none]

theorem eq_of_get? {g' : DependencyGraph} (hbySubject : g'.bySubject = g.bySubject)
    (hcreditHolders : g'.creditHolders = g.creditHolders)
    (hget : ∀ x, g'.get? x = g.get? x) : g' = g := by
  have hnodes : g'.nodes = g.nodes := Std.ExtTreeMap.ext_getElem? fun x => hget x
  cases g
  cases g'
  simp_all

@[simp]
theorem get?_empty : DependencyGraph.empty.get? x = none := by
  simp [DependencyGraph.empty, get?]

@[simp]
theorem contains_empty : DependencyGraph.empty.contains x = false := by
  simp [contains_eq_isSome]

theorem mem_courses : x ∈ g.courses ↔ g.contains x = true := by
  simp [courses, contains]

theorem mem_referencing :
    d ∈ g.referencing catalog targets ↔
      g.contains d = true ∧ d ∉ targets ∧ ∃ t ∈ targets, catalog.references d t = true := by
  simp [referencing, mem_courses, and_left_comm]

theorem mem_referencing_singleton :
    d ∈ g.referencing catalog [x] ↔
      g.contains d = true ∧ d ≠ x ∧ catalog.references d x = true := by
  simp [mem_referencing]

theorem mem_creditDependents {subjects : List SubjectCode} :
    d ∈ g.creditDependents subjects ↔ ∃ s ∈ subjects, d ∈ g.creditHolders.coursesOf s := by
  simp [creditDependents]

theorem mem_plannedSuccessor :
    d ∈ g.plannedSuccessor id ↔ id.successorPart? = some d ∧ g.contains d = true := by
  unfold plannedSuccessor
  cases id.successorPart? with
  | none => simp
  | some part =>
      by_cases hplanned : g.contains part = true
      · have hd : part = d → g.contains d = true := fun heq => heq ▸ hplanned
        simpa [hplanned] using hd
      · have hd : part = d → g.contains d = false := fun heq => by simpa [← heq] using hplanned
        simpa [hplanned] using hd

/-! ## Modified nodes -/

/-- Modifying the nodes of a list once or more often is the same if the change is made for good. -/
theorem getElem?_foldl_modify {nodes : Std.ExtTreeMap CourseId PlannedCourse}
    {f : PlannedCourse → PlannedCourse} (hf : ∀ node, f (f node) = f node) :
    (targets.foldl (fun nodes target => nodes.modify target f) nodes)[x]? =
      if x ∈ targets then nodes[x]?.map f else nodes[x]? := by
  induction targets generalizing nodes with
  | nil => simp
  | cons target rest ih =>
      simp only [List.foldl_cons, ih, Std.ExtTreeMap.getElem?_modify, Std.compare_eq_iff_eq]
      by_cases heq : target = x
      · subst heq
        simp [Function.comp_def, hf]
      · simp [heq, Ne.symm heq]

theorem get?_setSatisfied {verdict : Bool} :
    (g.setSatisfied id verdict).get? x =
      if id = x then (g.get? x).map fun node => { node with isSatisfied := verdict }
      else g.get? x := by
  simp only [setSatisfied, get?, Std.ExtTreeMap.getElem?_modify, Std.compare_eq_iff_eq]
  split
  next heq => rw [heq]
  next => rfl

/-! ## Placing -/

theorem get?_linkForward :
    (g.linkForward id r).get? x =
      (g.get? x).map fun node =>
        if x ≠ id ∧ r.references x = true then
          { node with dependents := node.dependents.insert id }
        else node := by
  have hinsert (s : CourseSet) : (s.insert id).insert id = s.insert id := by
    ext y
    simp
  have hmem : x ∈ (r.referencedCourses.erase id).toList ↔ x ≠ id ∧ r.references x = true := by
    rw [Std.ExtTreeSet.mem_toList, Std.ExtTreeSet.mem_erase, ne_eq, Std.compare_eq_iff_eq,
      eq_comm, r.references_iff]
  simp only [linkForward, get?, Std.ExtTreeSet.foldl_eq_foldl_toList]
  rw [getElem?_foldl_modify (fun node => by rw [hinsert])]
  by_cases htarget : x ≠ id ∧ r.references x = true
  · simp [hmem.2 htarget, htarget]
  · simp [mt hmem.1 htarget, htarget]

/-- The course that is placed keeps its dependents and gets those that name it; each course that
it names learns about it. -/
theorem get?_place :
    (g.place catalog term id).get? x =
      if id = x then
        some ⟨term, false,
          ((g.get? id).map PlannedCourse.dependents).getD ∅ ∪ g.referencing catalog [id]⟩
      else (g.get? x).map fun node =>
        if catalog.references id x = true then
          { node with dependents := node.dependents.insert id }
        else node := by
  unfold place
  cases hreq : catalog.requisites? id with
  | none =>
      have href : catalog.references id x = false := Catalog.references_of_no_requisites hreq
      simp only [get?, Std.ExtTreeMap.getElem?_insert, Std.compare_eq_iff_eq, href]
      split <;> simp
  | some r =>
      have href : catalog.references id x = r.references x := Catalog.references_of_requisites hreq
      simp only [get?_linkForward, href]
      simp only [get?, Std.ExtTreeMap.getElem?_insert, Std.compare_eq_iff_eq]
      by_cases heq : id = x
      · simp [heq]
      · simp [heq, Ne.symm heq]

theorem contains_place :
    (g.place catalog term id).contains x = true ↔ id = x ∨ g.contains x = true := by
  rw [contains_eq_isSome, get?_place, contains_eq_isSome]
  split <;> simp [*]

theorem term?_place :
    (g.place catalog term id).term? x = if id = x then some term else g.term? x := by
  rw [term?, get?_place]
  split
  · rfl
  · rw [Option.map_map, term?]
    congr 1
    funext node
    dsimp only [Function.comp_apply]
    split <;> rfl

/-! ## Withdrawing -/

theorem withdraw_of_none (h : g.get? id = none) : g.withdraw id = (g, ∅) := by
  rw [withdraw, h]

theorem withdraw_of_some {node : PlannedCourse} (h : g.get? id = some node) :
    g.withdraw id =
      (⟨g.nodes.erase id, g.bySubject.remove id, g.creditHolders.remove id⟩,
        id.successorPart?.elim node.dependents node.dependents.insert) := by
  rw [withdraw, h]
  cases id.successorPart? <;> rfl

theorem get?_withdraw :
    (g.withdraw id).1.get? x = if id = x then none else g.get? x := by
  cases hnode : g.get? id with
  | none =>
      rw [withdraw_of_none hnode]
      split
      next heq => rw [← heq, hnode]
      next => rfl
  | some node =>
      rw [withdraw_of_some hnode]
      simp only [get?, Std.ExtTreeMap.getElem?_erase, Std.compare_eq_iff_eq]

theorem contains_withdraw :
    (g.withdraw id).1.contains x = true ↔ id ≠ x ∧ g.contains x = true := by
  rw [contains_eq_isSome, get?_withdraw, contains_eq_isSome]
  split <;> simp [*]

theorem get?_foldl_withdraw :
    (ids.foldl (fun g id => (g.withdraw id).1) g).get? x =
      if x ∈ ids then none else g.get? x := by
  induction ids generalizing g with
  | nil => simp
  | cons id rest ih =>
      rw [List.foldl_cons, ih, get?_withdraw]
      by_cases heq : id = x
      · simp [heq]
      · simp [heq, Ne.symm heq]

theorem get?_forgetDependents :
    (g.forgetDependents ids).get? x =
      (g.get? x).map fun node =>
        { node with dependents := node.dependents.filter fun id => !ids.contains id } := by
  simp only [forgetDependents, get?, Std.ExtTreeMap.getElem?_map]

/-- The graph that is left once courses have been deleted. -/
theorem delete_fst :
    (g.delete ids).1 =
      (ids.foldl (fun g id => (g.withdraw id).1) g).forgetDependents ids := by
  -- The affected set is built up beside the graph and has no influence on it.
  have hfold :
      (ids.foldl (fun p id => ((p.1.withdraw id).1, p.2 ∪ (p.1.withdraw id).2))
        (g, (∅ : CourseSet))).1 = ids.foldl (fun g id => (g.withdraw id).1) g :=
    (List.foldl_hom Prod.fst fun _ _ => rfl).symm
  rw [← hfold]
  rfl

theorem get?_delete :
    (g.delete ids).1.get? x =
      if x ∈ ids then none
      else (g.get? x).map fun node =>
        { node with dependents := node.dependents.filter fun id => !ids.contains id } := by
  rw [delete_fst, get?_forgetDependents, get?_foldl_withdraw]
  split <;> rfl

theorem contains_delete :
    (g.delete ids).1.contains x = true ↔ x ∉ ids ∧ g.contains x = true := by
  rw [contains_eq_isSome, get?_delete, contains_eq_isSome]
  split <;> simp [*]

/-! ## Adding and moving -/

/-- Adding courses places them one after the other. -/
theorem add_fst :
    (g.add catalog term ids).1 = ids.foldl (fun g id => g.place catalog term id) g := by
  rw [add]
  exact (List.foldl_hom Prod.fst fun _ _ => rfl).symm

theorem contains_add :
    (g.add catalog term ids).1.contains x = true ↔ x ∈ ids ∨ g.contains x = true := by
  rw [add_fst]
  induction ids generalizing g with
  | nil => simp
  | cons id rest ih =>
      rw [List.foldl_cons, ih, contains_place, List.mem_cons, eq_comm (a := x), or_left_comm,
        or_assoc]

theorem get?_relocate :
    (g.relocate term id).get? x =
      if id = x then (g.get? x).map fun node => { node with term } else g.get? x := by
  simp only [relocate, get?, Std.ExtTreeMap.getElem?_modify, Std.compare_eq_iff_eq]
  split
  next heq => rw [heq]
  next => rfl

theorem foldl_relocate_nodes :
    (ids.foldl (fun g id => g.relocate term id) g).nodes =
      ids.foldl (fun nodes id => nodes.modify id fun node => { node with term }) g.nodes := by
  induction ids generalizing g with
  | nil => rfl
  | cons id rest ih => exact ih

theorem get?_foldl_relocate :
    (ids.foldl (fun g id => g.relocate term id) g).get? x =
      if x ∈ ids then (g.get? x).map fun node => { node with term } else g.get? x := by
  rw [get?, foldl_relocate_nodes,
    getElem?_foldl_modify (f := fun node => { node with term }) (fun _ => rfl)]
  rfl

/-- A move that succeeds finds all courses planned and relocates them one after the other. -/
theorem move_eq_ok {next : DependencyGraph} {affected : CourseSet}
    (h : g.move ids term = .ok (next, affected)) :
    (∀ id ∈ ids, g.contains id = true) ∧
      next = ids.foldl (fun g id => g.relocate term id) g := by
  unfold move at h
  split at h
  next => cases h
  next hfind =>
    refine ⟨?_, ?_⟩
    · simpa using hfind
    · refine (congrArg Prod.fst (Except.ok.inj h)).symm.trans ?_
      exact (List.foldl_hom Prod.fst fun _ _ => rfl).symm

theorem move_ok (term : TermId) (h : ∀ id ∈ ids, g.contains id = true) :
    ∃ change, g.move ids term = .ok change := by
  have hfind : ids.find? (fun id => !g.contains id) = none := by simpa using h
  rw [move, hfind]
  exact ⟨_, rfl⟩

theorem get?_move {next : DependencyGraph} {affected : CourseSet}
    (h : g.move ids term = .ok (next, affected)) :
    next.get? x =
      if x ∈ ids then (g.get? x).map fun node => { node with term } else g.get? x := by
  rw [(move_eq_ok h).2, get?_foldl_relocate]

/-! ## Terms after a change -/

theorem term?_add :
    (g.add catalog term ids).1.term? x = if x ∈ ids then some term else g.term? x := by
  rw [add_fst]
  induction ids generalizing g with
  | nil => simp
  | cons id rest ih =>
      rw [List.foldl_cons, ih, term?_place]
      by_cases heq : id = x
      · simp [heq]
      · simp [heq, Ne.symm heq]

theorem term?_delete : (g.delete ids).1.term? x = if x ∈ ids then none else g.term? x := by
  rw [term?, get?_delete]
  split
  · rfl
  · rw [Option.map_map]
    rfl

theorem term?_move {next : DependencyGraph} {affected : CourseSet}
    (h : g.move ids term = .ok (next, affected)) :
    next.term? x = if x ∈ ids then some term else g.term? x := by
  rw [term?, get?_move h]
  split
  next hx =>
    obtain ⟨node, hnode⟩ := exists_get?_of_contains ((move_eq_ok h).1 x hx)
    rw [hnode]
    rfl
  next => rfl

end Curriculum.DependencyGraph
