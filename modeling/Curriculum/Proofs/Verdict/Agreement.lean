import Curriculum.Proofs.Verdict.Declarative

/-!
# Agreeing situations

What a verdict means looks only at where courses are planned, at which courses are completed and at
which are equivalent. The order in which courses were recorded is seen by the evaluator, but it does
not show in the verdict.
-/

namespace Curriculum

theorem Decides.unique {v v' : Verdict} {P : Prop} (h : Decides v P) (h' : Decides v' P) :
    v = v' := by
  obtain ⟨b, rfl, hb⟩ := h
  obtain ⟨b', rfl, hb'⟩ := h'
  rw [Bool.eq_iff_iff.2 (hb.trans hb'.symm)]

namespace Context

variable {W : Type} {ctx ctx' : Context W} {g g' : DependencyGraph} {scope : Scope}
  {id : CourseId} {position : Int32}

/-- Courses are planned, completed and equivalent alike in two situations. -/
structure Agrees (ctx ctx' : Context W) (g g' : DependencyGraph) : Prop where
  catalog : ctx.catalog = ctx'.catalog
  planned : ∀ id position, ctx.PlannedAt g id position ↔ ctx'.PlannedAt g' id position
  completed : ∀ id, ctx.ledger.contains id = ctx'.ledger.contains id
  equivalents : ∀ id, ctx.equivalences.equivalents id = ctx'.equivalences.equivalents id

namespace Agrees

theorem symm (h : Agrees ctx ctx' g g') : Agrees ctx' ctx g' g where
  catalog := h.catalog.symm
  planned id position := (h.planned id position).symm
  completed id := (h.completed id).symm
  equivalents id := (h.equivalents id).symm

theorem standsDirectlyBefore_iff (h : Agrees ctx ctx' g g') :
    ctx.StandsDirectlyBefore g position id ↔ ctx'.StandsDirectlyBefore g' position id :=
  exists_congr fun k => and_congr_left fun _ => h.planned id k

theorem done_iff (h : Agrees ctx ctx' g g') : ctx.Done g scope id ↔ ctx'.Done g' scope id := by
  rw [Done, Done, h.completed]
  exact or_congr_right (exists_congr fun k => and_congr_left fun _ => h.planned id k)

theorem answers_iff (h : Agrees ctx ctx' g g') :
    ctx.Answers g scope id ↔ ctx'.Answers g' scope id := by
  unfold Answers
  split
  · exact h.standsDirectlyBefore_iff
  · exact h.done_iff

theorem leafHolds (h : Agrees ctx ctx' g g') (hleaf : ctx.LeafHolds g scope id) :
    ctx'.LeafHolds g' scope id := by
  rcases hleaf with hself | ⟨e, he, hother⟩
  · exact Or.inl (h.answers_iff.1 hself)
  · rw [h.equivalents] at he
    exact Or.inr ⟨e, he, h.answers_iff.1 hother⟩

theorem creditCourses_eq (h : Agrees ctx ctx' g g') (rule : CreditRule) :
    ctx.creditCourses g scope rule = ctx'.creditCourses g' scope rule := by
  ext id
  exact and_congr_right fun _ => and_congr_right fun _ => and_congr_right fun _ => h.done_iff

end Agrees

/-! ## Groups -/

section

variable {ctx ctx' : Context ℚ} {group : Group} {node : Node} {course : CourseId}

theorem Agrees.creditHolds (h : Agrees ctx ctx' g g') {rule : CreditRule}
    (hrule : ctx.CreditHolds g scope rule) : ctx'.CreditHolds g' scope rule := by
  rw [CreditHolds, h.creditCourses_eq, h.catalog] at hrule
  exact hrule

mutual

/-- A derivation carries over leaf by leaf. -/
theorem NodeHolds.of_agrees (h : Agrees ctx ctx' g g') :
    {node : Node} → ctx.NodeHolds g scope node → ctx'.NodeHolds g' scope node
  | _, .course hleaf => .course (h.leafHolds hleaf)
  | _, .group hgroup => .group (hgroup.of_agrees h)

theorem GroupHolds.of_agrees (h : Agrees ctx ctx' g g') :
    {group : Group} → ctx.GroupHolds g scope group → ctx'.GroupHolds g' scope group
  | _, .empty => .empty
  | _, .credit hrule => .credit (h.creditHolds hrule)
  | _, .single hmem hnode => .single hmem (hnode.of_agrees h)
  | _, .or hmem hnode => .or hmem (hnode.of_agrees h)
  | _, .and hall => .and fun n hmem => (hall n hmem).of_agrees h
  | _, .pair hlt hi hj hm hn => .pair hlt hi hj (hm.of_agrees h) (hn.of_agrees h)

end

/-! ## Verdicts -/

theorem Agrees.groupHolds_iff (h : Agrees ctx ctx' g g') :
    ctx.GroupHolds g scope group ↔ ctx'.GroupHolds g' scope group :=
  ⟨fun hgroup => hgroup.of_agrees h, fun hgroup => hgroup.of_agrees h.symm⟩

theorem Agrees.demands_iff (h : Agrees ctx ctx' g g') (r : Requirement) :
    ctx.Demands g course position r.kind r.group ↔
      ctx'.Demands g' course position r.kind r.group := by
  obtain ⟨kind, group⟩ := r
  cases kind with
  | restriction => exact or_congr_right (not_congr h.groupHolds_iff)
  | prerequisite => exact h.groupHolds_iff
  | corequisite => exact h.groupHolds_iff

theorem Agrees.satisfied_iff (h : Agrees ctx ctx' g g') :
    ctx.Satisfied g course ↔ ctx'.Satisfied g' course := by
  refine exists_congr fun k => and_congr (h.planned course k) (and_congr ?_ ?_)
  · rw [h.catalog]
    exact forall_congr' fun requisites => imp_congr_right fun _ => forall_congr' fun r =>
      imp_congr_right fun _ => h.demands_iff r
  · exact forall_congr' fun part => imp_congr_right fun _ => h.standsDirectlyBefore_iff

end

end Context

end Curriculum
