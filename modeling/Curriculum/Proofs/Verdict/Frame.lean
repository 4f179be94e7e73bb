import Std.Data.ExtTreeSet.Lemmas
import Curriculum.Proofs.Group.Leaves
import Curriculum.Verdict

/-!
# What a verdict depends on

The verdict on a course depends on its own position, on what its leaves and their equivalents are
doing, on the courses of the subjects in its credit rules, and on the part before it. Two situations
that are alike in these give the same verdict, or the same error.
-/

namespace Curriculum

/-- Each course of a set is met, in whatever order. -/
theorem Walk.mem_list (w : Walk) {subject : SubjectCode} {courses : CourseSet} {id : CourseId} :
    id ∈ w.list subject courses ↔ id ∈ courses := by
  rw [(w.perm subject courses).mem_iff, Std.ExtTreeSet.mem_toList]

namespace Context

variable {W : Type} {ctx ctx' : Context W} {g g' : DependencyGraph} {scope scope' : Scope}

/-- The course stands alike in two situations. -/
structure AlikeAt (ctx ctx' : Context W) (g g' : DependencyGraph) (id : CourseId) : Prop where
  planned : ctx.plannedPosition g id = ctx'.plannedPosition g' id
  completed : ctx.ledger.contains id = ctx'.ledger.contains id

/-- So does every course that could answer a leaf. -/
structure LeafAlike (ctx ctx' : Context W) (g g' : DependencyGraph) (id : CourseId) : Prop where
  self : AlikeAt ctx ctx' g g' id
  equivalents : ctx.equivalences.equivalents id = ctx'.equivalences.equivalents id
  stand_in : ∀ x ∈ ctx.equivalences.equivalents id, AlikeAt ctx ctx' g g' x

/-- So does every course of a subject, and the lists of the subject are the same. -/
structure SubjectAlike (ctx ctx' : Context W) (g g' : DependencyGraph) (s : SubjectCode) :
    Prop where
  completed : ctx.ledger.ofSubject s = ctx'.ledger.ofSubject s
  planned : ctx.walk.list s (g.ofSubject s) = ctx'.walk.list s (g'.ofSubject s)
  alike : ∀ x, x.subject = s → AlikeAt ctx ctx' g g' x

/-- All that the verdict on a course depends on is alike. -/
structure VerdictAlike (ctx ctx' : Context W) (g g' : DependencyGraph) (d : CourseId) : Prop where
  catalog : ctx.catalog = ctx'.catalog
  self : ctx.plannedPosition g d = ctx'.plannedPosition g' d
  leaf : ∀ x, ctx.catalog.references d x = true → LeafAlike ctx ctx' g g' x
  credit : ∀ s, ctx.catalog.asksCreditIn d s → SubjectAlike ctx ctx' g g' s
  part : ∀ x, d.predecessorPart? = some x → ctx.plannedPosition g x = ctx'.plannedPosition g' x

theorem plannedWithin_congr (scope : Scope) {id : CourseId}
    (h : ctx.plannedPosition g id = ctx'.plannedPosition g' id) :
    ctx.plannedWithin g scope id = ctx'.plannedWithin g' scope id := by
  rw [plannedWithin, plannedWithin, h]

theorem predecessorInPlace_congr {d : CourseId} (h : VerdictAlike ctx ctx' g g' d)
    (position : Int32) :
    ctx.predecessorInPlace g d position = ctx'.predecessorInPlace g' d position := by
  unfold predecessorInPlace
  cases hpart : d.predecessorPart? with
  | none => rfl
  | some x =>
      dsimp only
      rw [h.part x hpart]

/-! ## Leaves -/

theorem leafHoldsBy_congr {id : CourseId} (h : AlikeAt ctx ctx' g g' id) :
    ctx.leafHoldsBy g scope id = ctx'.leafHoldsBy g' scope id := by
  unfold leafHoldsBy
  rw [h.planned, h.completed, plannedWithin_congr scope h.planned]

theorem leafHoldsByAny_congr {ids : List CourseId}
    (h : ∀ id ∈ ids, ctx.leafHoldsBy g scope id = ctx'.leafHoldsBy g' scope' id) :
    ctx.leafHoldsByAny g scope ids = ctx'.leafHoldsByAny g' scope' ids := by
  induction ids with
  | nil => rfl
  | cons id rest ih =>
      rw [List.forall_mem_cons] at h
      rw [leafHoldsByAny, leafHoldsByAny, h.1, ih h.2]

theorem leafHolds_congr {id : CourseId} (h : LeafAlike ctx ctx' g g' id) :
    ctx.leafHolds g scope id = ctx'.leafHolds g' scope id := by
  rw [leafHolds, leafHolds, ← h.equivalents]
  apply leafHoldsByAny_congr
  rw [List.forall_mem_cons]
  refine ⟨leafHoldsBy_congr h.self, fun x hx => leafHoldsBy_congr (h.stand_in x ?_)⟩
  rwa [Std.ExtTreeSet.mem_toList] at hx

/-! ## Credits -/

theorem creditCandidates_congr {rule : CreditRule}
    (h : ∀ s ∈ rule.subjects, SubjectAlike ctx ctx' g g' s) :
    ctx.creditCandidates g scope rule = ctx'.creditCandidates g' scope rule := by
  have hlists : (rule.subjects.flatMap fun subject =>
        ctx.ledger.ofSubject subject ++ ctx.walk.list subject (g.ofSubject subject)) =
      rule.subjects.flatMap fun subject =>
        ctx'.ledger.ofSubject subject ++ ctx'.walk.list subject (g'.ofSubject subject) := by
    rw [List.flatMap_def, List.flatMap_def]
    congr 1
    apply List.map_congr_left
    intro s hs
    rw [(h s hs).completed, (h s hs).planned]
  rw [creditCandidates, creditCandidates, hlists]

theorem subject_of_mem_creditCandidates {rule : CreditRule} {id : CourseId}
    (h : id ∈ ctx.creditCandidates g scope rule) : id.subject ∈ rule.subjects := by
  rw [creditCandidates, List.mem_eraseDups, List.mem_filter] at h
  have hcounts := (Bool.and_eq_true_iff.1 h.2).2
  rw [CreditRule.counts, Bool.and_eq_true] at hcounts
  exact List.contains_iff_mem.1 hcounts.1

theorem creditsReach_congr [CreditWeight W] (hcatalog : ctx.catalog = ctx'.catalog)
    (required : UInt32) (sum : W) {ids : List CourseId}
    (hcompleted : ∀ id ∈ ids, ctx.ledger.contains id = ctx'.ledger.contains id)
    (hplanned : ∀ id ∈ ids, ctx.plannedWithin g scope id = ctx'.plannedWithin g' scope' id) :
    ctx.creditsReach g scope required sum ids = ctx'.creditsReach g' scope' required sum ids := by
  induction ids generalizing sum with
  | nil => rfl
  | cons id rest ih =>
      rw [List.forall_mem_cons] at hcompleted hplanned
      simp only [creditsReach, hcompleted.1, hplanned.1, ih _ hcompleted.2 hplanned.2, hcatalog]

theorem creditHolds_congr [CreditWeight W] (hcatalog : ctx.catalog = ctx'.catalog)
    {rule : CreditRule} (h : ∀ s ∈ rule.subjects, SubjectAlike ctx ctx' g g' s) :
    ctx.creditHolds g scope rule = ctx'.creditHolds g' scope rule := by
  rw [creditHolds, creditHolds, creditCandidates_congr h]
  split
  next => rfl
  next =>
    have halike (id : CourseId) (hid : id ∈ ctx'.creditCandidates g' scope rule) :
        AlikeAt ctx ctx' g g' id :=
      (h id.subject (subject_of_mem_creditCandidates hid)).alike id rfl
    exact creditsReach_congr hcatalog _ _ (fun id hid => (halike id hid).completed)
      fun id hid => plannedWithin_congr scope (halike id hid).planned

/-! ## Groups -/

section

variable [CreditWeight W]

mutual

theorem nodeHolds_congr :
    (n : Node) →
    (∀ id ∈ n.courses, ctx.leafHolds g scope id = ctx'.leafHolds g' scope' id) →
    (∀ rule ∈ n.creditRules, ctx.creditHolds g scope rule = ctx'.creditHolds g' scope' rule) →
    ctx.nodeHolds g scope n = ctx'.nodeHolds g' scope' n
  | .course id, hleaf, _ => by
      rw [nodeHolds, nodeHolds]
      exact hleaf id List.mem_cons_self
  | .group group, hleaf, hcredit => by
      rw [nodeHolds, nodeHolds]
      exact groupHolds_congr group hleaf hcredit

theorem groupHolds_congr :
    (group : Group) →
    (∀ id ∈ group.courses, ctx.leafHolds g scope id = ctx'.leafHolds g' scope' id) →
    (∀ rule ∈ group.creditRules,
      ctx.creditHolds g scope rule = ctx'.creditHolds g' scope' rule) →
    ctx.groupHolds g scope group = ctx'.groupHolds g' scope' group
  | .empty, _, _ => by rw [groupHolds, groupHolds]
  | .credit rule, _, hcredit => by
      rw [groupHolds, groupHolds]
      exact hcredit rule List.mem_cons_self
  | .join .and nodes, hleaf, hcredit => by
      rw [groupHolds, groupHolds]
      exact (childrenHold_congr nodes hleaf hcredit).1
  | .join .pair nodes, hleaf, hcredit => by
      rw [groupHolds, groupHolds]
      exact (childrenHold_congr nodes hleaf hcredit).2 2
  | .join .or nodes, hleaf, hcredit => by
      rw [groupHolds, groupHolds]
      exact (childrenHold_congr nodes hleaf hcredit).2 1
  | .join .single nodes, hleaf, hcredit => by
      rw [groupHolds, groupHolds]
      exact (childrenHold_congr nodes hleaf hcredit).2 1

theorem childrenHold_congr :
    (nodes : List Node) →
    (∀ id ∈ Node.coursesAll nodes, ctx.leafHolds g scope id = ctx'.leafHolds g' scope' id) →
    (∀ rule ∈ Node.creditRulesAll nodes,
      ctx.creditHolds g scope rule = ctx'.creditHolds g' scope' rule) →
    ctx.allHold g scope nodes = ctx'.allHold g' scope' nodes ∧
      ∀ wanted, ctx.enoughHold g scope wanted nodes = ctx'.enoughHold g' scope' wanted nodes
  | [], _, _ => by simp only [allHold, enoughHold, implies_true, and_self]
  | n :: rest, hleaf, hcredit => by
      simp only [Node.coursesAll, List.forall_mem_append] at hleaf
      simp only [Node.creditRulesAll, List.forall_mem_append] at hcredit
      have hn := nodeHolds_congr n hleaf.1 hcredit.1
      have hrest := childrenHold_congr rest hleaf.2 hcredit.2
      simp only [allHold, enoughHold, hn, hrest.1, hrest.2, implies_true, and_self]

end

/-! ## Requirements -/

theorem allMet_congr {course : CourseId} {position position' : Int32}
    {requirements : List Requirement}
    (h : ∀ r ∈ requirements,
      ctx.groupHolds g ⟨course, position, r.kind.includesCurrentTerm⟩ r.group =
        ctx'.groupHolds g' ⟨course, position', r.kind.includesCurrentTerm⟩ r.group) :
    ctx.allMet g course position requirements = ctx'.allMet g' course position' requirements := by
  induction requirements with
  | nil => rfl
  | cons r rest ih =>
      rw [List.forall_mem_cons] at h
      simp only [allMet, Requirement.isMetBy, h.1, ih h.2]

/-- The leaves and the credit rules of a course decide its requisites. -/
theorem requisitesHold_congr {d : CourseId} {position position' : Int32}
    (hcatalog : ctx.catalog = ctx'.catalog)
    (hleaf : ∀ x, ctx.catalog.references d x = true → ∀ includesCurrent,
      ctx.leafHolds g ⟨d, position, includesCurrent⟩ x =
        ctx'.leafHolds g' ⟨d, position', includesCurrent⟩ x)
    (hcredit : ∀ requisites, ctx.catalog.requisites? d = some requisites →
      ∀ rule ∈ requisites.creditRules, ∀ includesCurrent,
        ctx.creditHolds g ⟨d, position, includesCurrent⟩ rule =
          ctx'.creditHolds g' ⟨d, position', includesCurrent⟩ rule) :
    ctx.requisitesHold g d position = ctx'.requisitesHold g' d position' := by
  rw [requisitesHold, requisitesHold, ← hcatalog]
  apply allMet_congr
  intro r hr
  cases hreq : ctx.catalog.requisites? d with
  | none =>
      rw [hreq] at hr
      cases hr
  | some requisites =>
      rw [hreq] at hr
      replace hr : r ∈ requisites.toList := hr
      -- The leaves and rules of one group are among those of the course.
      apply groupHolds_congr
      · intro x hx
        apply hleaf
        rw [Catalog.references_of_requisites hreq]
        exact List.any_eq_true.2 ⟨r, hr, (r.group.references_iff x).2 hx⟩
      · intro rule hrule
        exact hcredit requisites hreq rule (List.mem_flatMap.2 ⟨r, hr, hrule⟩) _

theorem requisitesHold_of_alike {d : CourseId} (h : VerdictAlike ctx ctx' g g' d)
    (position : Int32) :
    ctx.requisitesHold g d position = ctx'.requisitesHold g' d position := by
  apply requisitesHold_congr h.catalog
  · intro x hx _
    exact leafHolds_congr (h.leaf x hx)
  · intro requisites hreq rule hrule _
    exact creditHolds_congr h.catalog fun s hs => h.credit s ⟨requisites, hreq, rule, hrule, hs⟩

theorem isSatisfied_congr {d : CourseId} (h : VerdictAlike ctx ctx' g g' d) :
    ctx.isSatisfied g d = ctx'.isSatisfied g' d := by
  unfold isSatisfied
  simp only [h.self, requisitesHold_of_alike h, predecessorInPlace_congr h]

/-- Of a graph, a verdict looks at the terms and at the lists of subjects only. -/
theorem isSatisfied_of_term? (hterm : ∀ x, g'.term? x = g.term? x)
    (hsubject : ∀ s, g'.ofSubject s = g.ofSubject s) (d : CourseId) :
    ctx.isSatisfied g' d = ctx.isSatisfied g d := by
  have hplanned (x : CourseId) : ctx.plannedPosition g' x = ctx.plannedPosition g x := by
    rw [plannedPosition, plannedPosition, hterm]
  have halike (x : CourseId) : AlikeAt ctx ctx g' g x := ⟨hplanned x, rfl⟩
  apply isSatisfied_congr
  exact {
    catalog := rfl
    self := hplanned d
    leaf := fun x _ => ⟨halike x, rfl, fun y _ => halike y⟩
    credit := fun s _ => ⟨rfl, by rw [hsubject s], fun x _ => halike x⟩
    part := fun x _ => hplanned x }

end

end Context

end Curriculum
