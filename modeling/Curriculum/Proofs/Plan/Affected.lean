import Curriculum.Proofs.Course.Parts
import Curriculum.Proofs.Plan.Indexed

/-!
# What an affected set covers

Every change of a plan gives a set of affected courses. A planned course outside of it stands where
it stood, and so do the courses that its requisites name and the part before it.
-/

namespace Curriculum

def PlanChange.ids : PlanChange → List CourseId
  | .add _ ids | .delete ids | .move ids _ => ids

/-- What a graph says about a course apart from its dependents. -/
def PlannedCourse.standing (node : PlannedCourse) : TermId × Bool := (node.term, node.isSatisfied)

namespace DependencyGraph

variable {W : Type} {catalog : Catalog W} {g next : DependencyGraph} {term : TermId}
  {ids : List CourseId} {id d x : CourseId} {affected : CourseSet}

theorem term?_of_standing (h : (next.get? x).map PlannedCourse.standing =
    (g.get? x).map PlannedCourse.standing) : next.term? x = g.term? x := by
  have hterm := congrArg (Option.map Prod.fst) h
  rw [Option.map_map, Option.map_map] at hterm
  exact hterm

/-- A change of some courses leaves the standing of all others, and nothing that bears on a planned
course outside the affected set changes its term. -/
structure Covers (catalog : Catalog W) (g next : DependencyGraph) (ids : List CourseId)
    (affected : CourseSet) : Prop where
  elsewhere : ∀ x, x ∉ ids → next.term? x = g.term? x
  kept : ∀ d, next.contains d = true → d ∉ affected →
    (next.get? d).map PlannedCourse.standing = (g.get? d).map PlannedCourse.standing
  named : ∀ d x, next.contains d = true → d ∉ affected → catalog.references d x = true →
    next.term? x = g.term? x
  part : ∀ d x, next.contains d = true → d ∉ affected → d.predecessorPart? = some x →
    next.term? x = g.term? x

namespace Covers

theorem of_same (h : ∀ x, (next.get? x).map PlannedCourse.standing =
    (g.get? x).map PlannedCourse.standing) : Covers catalog g next ids affected where
  elsewhere x _ := term?_of_standing (h x)
  kept d _ _ := h d
  named _ x _ _ _ := term?_of_standing (h x)
  part _ x _ _ _ := term?_of_standing (h x)

theorem contains (h : Covers catalog g next ids affected) (hd : next.contains d = true)
    (hout : d ∉ affected) : g.contains d = true := by
  have hsome := congrArg Option.isSome (h.kept d hd hout)
  rw [Option.isSome_map, Option.isSome_map, ← contains_eq_isSome, ← contains_eq_isSome, hd] at hsome
  exact hsome.symm

theorem trans {last : DependencyGraph} {ids' : List CourseId} {affected' : CourseSet}
    (h : Covers catalog g next ids affected) (h' : Covers catalog next last ids' affected')
    (hsub : ∀ x, x ∈ affected → x ∈ affected') : Covers catalog g last (ids ++ ids') affected' where
  elsewhere x hx := by
    rw [List.mem_append, not_or] at hx
    rw [h'.elsewhere x hx.2, h.elsewhere x hx.1]
  kept d hd hout := by
    rw [h'.kept d hd hout, h.kept d (h'.contains hd hout) (mt (hsub d) hout)]
  named d x hd hout href := by
    rw [h'.named d x hd hout href, h.named d x (h'.contains hd hout) (mt (hsub d) hout) href]
  part d x hd hout hpart := by
    rw [h'.part d x hd hout hpart, h.part d x (h'.contains hd hout) (mt (hsub d) hout) hpart]

theorem of_same_after {last : DependencyGraph} (h : Covers catalog g next ids affected)
    (hsame : ∀ x, (last.get? x).map PlannedCourse.standing =
      (next.get? x).map PlannedCourse.standing) : Covers catalog g last ids affected := by
  rw [← List.append_nil ids]
  exact h.trans (of_same hsame) fun _ hx => hx

/-- Courses that are not planned afterwards need not be in the affected set. -/
theorem filter (h : Covers catalog g next ids affected) :
    Covers catalog g next ids (affected.filter next.contains) := by
  have hout {d : CourseId} (hd : next.contains d = true)
      (hfilter : d ∉ affected.filter next.contains) : d ∉ affected := by
    intro hmem
    exact hfilter (by simp [hmem, hd])
  exact {
    elsewhere := h.elsewhere
    kept := fun d hd hfilter => h.kept d hd (hout hd hfilter)
    named := fun d x hd hfilter => h.named d x hd (hout hd hfilter)
    part := fun d x hd hfilter => h.part d x hd (hout hd hfilter) }

/-- A change of one course has to cover the course itself, those that name it and the part after
it. -/
theorem of_single
    (hsame : ∀ x, id ≠ x →
      (next.get? x).map PlannedCourse.standing = (g.get? x).map PlannedCourse.standing)
    (hself : next.contains id = true → id ∈ affected)
    (hnamed : ∀ d, next.contains d = true → id ≠ d → catalog.references d id = true →
      d ∈ affected)
    (hpart : ∀ d, next.contains d = true → id.successorPart? = some d → d ∈ affected) :
    Covers catalog g next [id] affected where
  elsewhere x hx := term?_of_standing (hsame x (by simpa [eq_comm] using hx))
  kept d hd hout := by
    apply hsame
    rintro rfl
    exact hout (hself hd)
  named d x hd hout href := by
    apply term?_of_standing
    apply hsame
    rintro rfl
    by_cases heq : id = d
    · subst heq
      exact hout (hself hd)
    · exact hout (hnamed d hd heq href)
  part d x hd hout hpred := by
    apply term?_of_standing
    apply hsame
    rintro rfl
    exact hout (hpart d hd (CourseId.predecessorPart?_eq_some.1 hpred))

/-- Changes of one course after the other, each of which adds to the affected set. -/
theorem foldl {f : DependencyGraph × CourseSet → CourseId → DependencyGraph × CourseSet}
    {I : DependencyGraph → Prop} (hinv : ∀ g s id, I g → I (f (g, s) id).1)
    (hstep : ∀ g s id, I g → Covers catalog g (f (g, s) id).1 [id] (f (g, s) id).2)
    (hgrow : ∀ g s id x, x ∈ s → x ∈ (f (g, s) id).2) (ids : List CourseId)
    (g : DependencyGraph) (s : CourseSet) (h : I g) :
    Covers catalog g (ids.foldl f (g, s)).1 ids (ids.foldl f (g, s)).2 := by
  have hsub (ids : List CourseId) (g : DependencyGraph) (s : CourseSet) (x : CourseId)
      (hx : x ∈ s) : x ∈ (ids.foldl f (g, s)).2 := by
    induction ids generalizing g s with
    | nil => exact hx
    | cons id rest ih => exact ih _ _ (hgrow g s id x hx)
  induction ids generalizing g s with
  | nil => exact of_same fun _ => rfl
  | cons id rest ih =>
      have hrest := ih (f (g, s) id).1 (f (g, s) id).2 (hinv g s id h)
      exact (hstep g s id h).trans hrest (hsub rest _ _)

end Covers

/-! ## Adding -/

theorem standing_place (h : id ≠ x) :
    ((g.place catalog term id).get? x).map PlannedCourse.standing =
      (g.get? x).map PlannedCourse.standing := by
  rw [get?_place, if_neg h, Option.map_map]
  congr 1
  funext node
  dsimp only [Function.comp_apply]
  split <;> rfl

theorem add_covers (catalog : Catalog W) (g : DependencyGraph) (term : TermId)
    (ids : List CourseId) :
    Covers catalog g (g.add catalog term ids).1 ids (g.add catalog term ids).2 := by
  refine Covers.foldl (I := fun _ => True) (fun _ _ _ _ => trivial) ?_ ?_ ids g ∅ trivial
  · intro g s id _
    refine Covers.of_single (fun x => standing_place) ?_ ?_ ?_
    · simp
    · intro d hd hne href
      have hplanned : g.contains d = true := (contains_place.1 hd).resolve_left hne
      have hmem : d ∈ g.referencing catalog [id] :=
        mem_referencing_singleton.2 ⟨hplanned, Ne.symm hne, href⟩
      simp [hmem]
    · intro d hd hpart
      have hmem : d ∈ (g.place catalog term id).plannedSuccessor id :=
        mem_plannedSuccessor.2 ⟨hpart, hd⟩
      simp [hmem]
  · intro g s id x hx
    simp [hx]

/-! ## Moving -/

theorem standing_relocate (h : id ≠ x) :
    ((g.relocate term id).get? x).map PlannedCourse.standing =
      (g.get? x).map PlannedCourse.standing := by
  rw [get?_relocate, if_neg h]

theorem contains_relocate : (g.relocate term id).contains x = g.contains x := by
  rw [contains_eq_isSome, contains_eq_isSome, get?_relocate]
  split
  · rw [Option.isSome_map]
  · rfl

theorem move_covers (h : Exact catalog g) (hmove : g.move ids term = .ok (next, affected)) :
    Covers catalog g next ids affected := by
  unfold move at hmove
  split at hmove
  next => cases hmove
  have hpair := Except.ok.inj hmove
  rw [← show _ = next from congrArg Prod.fst hpair,
    ← show _ = affected from congrArg Prod.snd hpair]
  refine Covers.foldl (fun g s id h => h.relocate term id) ?_ ?_ ids g ∅ h
  · intro g s id h
    dsimp only
    cases hnode : g.get? id with
    | none =>
        refine Covers.of_same fun x => ?_
        by_cases heq : id = x
        · subst heq
          rw [get?_relocate, if_pos rfl, hnode]
          rfl
        · exact standing_relocate heq
    | some node =>
        refine Covers.of_single (fun x => standing_relocate) ?_ ?_ ?_
        · simp
        · intro d hd hne href
          rw [contains_relocate] at hd
          have hmem : d ∈ node.dependents := (h.mem_dependents hnode).2 ⟨hd, Ne.symm hne, href⟩
          simp [hmem]
        · intro d hd hpart
          rw [contains_relocate] at hd
          have hmem : d ∈ g.plannedSuccessor id := mem_plannedSuccessor.2 ⟨hpart, hd⟩
          simp [hmem]
  · intro g s id x hx
    simp [hx]

/-! ## Deleting -/

/-- Planned courses know at least the planned courses that name them. In the midst of a deletion
they may know of deleted courses too. -/
def Informed (catalog : Catalog W) (g : DependencyGraph) : Prop :=
  ∀ x node d, g.get? x = some node → g.contains d = true → x ≠ d →
    catalog.references d x = true → d ∈ node.dependents

theorem Exact.informed (h : Exact catalog g) : Informed catalog g :=
  fun _ _ _ hnode hd hne href => (h.mem_dependents hnode).2 ⟨hd, Ne.symm hne, href⟩

theorem Informed.withdraw (h : Informed catalog g) (id : CourseId) :
    Informed catalog (g.withdraw id).1 := by
  intro x node d hnode hd hne href
  rw [get?_withdraw] at hnode
  split at hnode
  next => cases hnode
  next => exact h x node d hnode (contains_withdraw.1 hd).2 hne href

theorem standing_withdraw (h : id ≠ x) :
    ((g.withdraw id).1.get? x).map PlannedCourse.standing =
      (g.get? x).map PlannedCourse.standing := by
  rw [get?_withdraw, if_neg h]

theorem withdraw_covers (h : Informed catalog g) (s : CourseSet) (id : CourseId) :
    Covers catalog g (g.withdraw id).1 [id] (s ∪ (g.withdraw id).2) := by
  cases hnode : g.get? id with
  | none =>
      rw [withdraw_of_none hnode]
      exact Covers.of_same fun _ => rfl
  | some node =>
      refine Covers.of_single (fun x => standing_withdraw) ?_ ?_ ?_
      · intro hid
        exact absurd rfl (contains_withdraw.1 hid).1
      · intro d hd hne href
        have hmem : d ∈ node.dependents :=
          h id node d hnode (contains_withdraw.1 hd).2 hne href
        rw [withdraw_of_some hnode]
        cases id.successorPart? <;> simp [hmem]
      · intro d hd hpart
        rw [withdraw_of_some hnode, hpart]
        simp

theorem standing_forgetDependents :
    ((g.forgetDependents ids).get? x).map PlannedCourse.standing =
      (g.get? x).map PlannedCourse.standing := by
  rw [get?_forgetDependents, Option.map_map]
  rfl

theorem delete_covers (h : Exact catalog g) (ids : List CourseId) :
    Covers catalog g (g.delete ids).1 ids (g.delete ids).2 := by
  have hfold := Covers.foldl (I := Informed catalog)
    (f := fun p id => ((p.1.withdraw id).1, p.2 ∪ (p.1.withdraw id).2))
    (fun _ _ id hinformed => hinformed.withdraw id)
    (fun _ s id hinformed => withdraw_covers hinformed s id)
    (fun _ _ _ _ hx => by simp [hx]) ids g ∅ h.informed
  exact (hfold.of_same_after fun _ => standing_forgetDependents).filter

/-! ## Any change -/

/-- What a change gives: the next graph, and the courses that it affects. -/
def apply (catalog : Catalog W) (g : DependencyGraph) :
    PlanChange → Except ConsistencyError (DependencyGraph × CourseSet)
  | .add term ids => .ok (g.add catalog term ids)
  | .delete ids => .ok (g.delete ids)
  | .move ids term => g.move ids term

variable {c : PlanChange}

theorem change_of_apply (h : g.apply catalog c = .ok (next, affected)) :
    g.change catalog c = next := by
  cases c with
  | add term ids => exact congrArg Prod.fst (Except.ok.inj h)
  | delete ids => exact congrArg Prod.fst (Except.ok.inj h)
  | move ids term =>
      replace h : g.move ids term = .ok (next, affected) := h
      rw [change, h]

theorem apply_covers (hg : g.Exact catalog) (h : g.apply catalog c = .ok (next, affected)) :
    g.Covers catalog next c.ids affected := by
  cases c with
  | add term ids =>
      have hcovers := add_covers catalog g term ids
      rw [Except.ok.inj h] at hcovers
      exact hcovers
  | delete ids =>
      have hcovers := delete_covers hg ids
      rw [Except.ok.inj h] at hcovers
      exact hcovers
  | move ids term => exact move_covers hg h

theorem Exact.apply (hg : g.Exact catalog) (h : g.apply catalog c = .ok (next, affected)) :
    next.Exact catalog := by
  rw [← change_of_apply h]
  exact hg.change c

end DependencyGraph

end Curriculum
