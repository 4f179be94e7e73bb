import Curriculum.Proofs.Equivalence
import Curriculum.Proofs.TermOrder
import Curriculum.Proofs.Verdict.Declarative
import Curriculum.Proofs.Verdict.Frame

/-!
# Only the relative order of terms matters

The numbers that stand for the positions of terms are of no account, as long as the same terms have
positions and any two of them compare the same way. The one thing that looks at the numbers is
whether a part of a multi-term course stands directly before a position. A course that is no later
part, and whose leaves no part can answer, is never asked about that.
-/

namespace Curriculum

/-- Two orders give positions to the same terms, and any two terms compare the same way. -/
structure TermOrder.Alike (o o' : TermOrder) : Prop where
  ordered : ∀ t, (o.position? t).isSome = (o'.position? t).isSome
  compared : ∀ t u p q p' q', o.position? t = some p → o.position? u = some q →
    o'.position? t = some p' → o'.position? u = some q' → compare p q = compare p' q'

/-- Positions of one term in two orders. -/
def TermOrder.Matches (o o' : TermOrder) (p p' : Int32) : Prop :=
  ∃ t, o.position? t = some p ∧ o'.position? t = some p'

namespace TermOrder.Alike

variable {o o' : TermOrder} {p p' q q' : Int32}

theorem compare_eq (h : o.Alike o') (hp : o.Matches o' p p') (hq : o.Matches o' q q') :
    compare p q = compare p' q' := by
  obtain ⟨t, hp, hp'⟩ := hp
  obtain ⟨u, hq, hq'⟩ := hq
  exact h.compared t u p q p' q' hp hq hp' hq'

/-- Scopes at the positions of one term admit the same terms. -/
theorem admits_eq (h : o.Alike o') (hp : o.Matches o' p p') (hq : o.Matches o' q q')
    (c : CourseId) (includesCurrent : Bool) :
    Scope.admits ⟨c, p, includesCurrent⟩ q = Scope.admits ⟨c, p', includesCurrent⟩ q' := by
  have hlt : q < p ↔ q' < p' := by
    rw [← Std.compare_eq_lt, ← Std.compare_eq_lt, h.compare_eq hq hp]
  have heq : q = p ↔ q' = p' := by
    rw [← Std.compare_eq_iff_eq, ← Std.compare_eq_iff_eq (a := q'), h.compare_eq hq hp]
  have hbeq : (q == p) = (q' == p') := by
    rw [Bool.eq_iff_iff, beq_iff_eq, beq_iff_eq, heq]
  simp only [Scope.admits, hlt, hbeq]

end TermOrder.Alike

namespace Context

variable {W : Type} {o o' : TermOrder} {ledger : Ledger} {catalog : Catalog W}
  {rules : EquivalenceRules} {walk : Walk} {g : DependencyGraph} {p p' : Int32}

/-- Where a course stands in two orders: nowhere, as there is no position or no term, or in the same
term. -/
inductive SamePlace (o o' : TermOrder) :
    Except ConsistencyError (Option Int32) → Except ConsistencyError (Option Int32) → Prop
  | error (e : ConsistencyError) : SamePlace o o' (.error e) (.error e)
  | unplanned : SamePlace o o' (.ok none) (.ok none)
  | planned {p p' : Int32} (h : o.Matches o' p p') : SamePlace o o' (.ok (some p)) (.ok (some p'))

/-- What goes on alike from the positions of one term ends alike. -/
theorem SamePlace.bind {place place' : Except ConsistencyError (Option Int32)}
    (h : SamePlace o o' place place') {next next' : Option Int32 → Verdict}
    (hnone : next none = next' none)
    (hsome : ∀ p p', o.Matches o' p p' → next (some p) = next' (some p')) :
    (place >>= next) = (place' >>= next') := by
  cases h with
  | error e => rfl
  | unplanned => exact hnone
  | planned hp => exact hsome _ _ hp

theorem samePlace (h : o.Alike o') (id : CourseId) :
    SamePlace o o' (plannedPosition ⟨o, ledger, catalog, rules, walk⟩ g id)
      (plannedPosition ⟨o', ledger, catalog, rules, walk⟩ g id) := by
  unfold plannedPosition
  cases g.term? id with
  | none => exact .unplanned
  | some term =>
      have hordered := h.ordered term
      dsimp only
      cases hp : o.position? term with
      | none =>
          have hp' : o'.position? term = none := by simpa [hp] using hordered
          rw [hp']
          exact .error _
      | some p =>
          rw [hp] at hordered
          obtain ⟨p', hp'⟩ := Option.isSome_iff_exists.1 hordered.symm
          rw [hp']
          exact .planned ⟨term, hp, hp'⟩

theorem plannedWithin_of_alike (h : o.Alike o') (hp : o.Matches o' p p') (c : CourseId)
    (includesCurrent : Bool) (id : CourseId) :
    plannedWithin ⟨o, ledger, catalog, rules, walk⟩ g ⟨c, p, includesCurrent⟩ id =
      plannedWithin ⟨o', ledger, catalog, rules, walk⟩ g ⟨c, p', includesCurrent⟩ id := by
  unfold plannedWithin
  apply (samePlace h id).bind
  · rfl
  · intro q q' hq
    exact congrArg Except.ok (h.admits_eq hp hq c includesCurrent)

/-- A leaf that no part of a multi-term course can answer asks what is done, and nothing else. -/
theorem leafHolds_of_alike (h : o.Alike o') (hp : o.Matches o' p p') (c : CourseId)
    (includesCurrent : Bool) {x : CourseId} (hx : x.isMultiTerm = false)
    (hequivalents : ∀ e ∈ rules.equivalents x, e.isMultiTerm = false) :
    leafHolds ⟨o, ledger, catalog, rules, walk⟩ g ⟨c, p, includesCurrent⟩ x =
      leafHolds ⟨o', ledger, catalog, rules, walk⟩ g ⟨c, p', includesCurrent⟩ x := by
  have hsingle (id : CourseId) (hid : id.isMultiTerm = false) :
      leafHoldsBy ⟨o, ledger, catalog, rules, walk⟩ g ⟨c, p, includesCurrent⟩ id =
        leafHoldsBy ⟨o', ledger, catalog, rules, walk⟩ g ⟨c, p', includesCurrent⟩ id := by
    unfold leafHoldsBy
    rw [if_neg (ne_true_of_eq_false hid), if_neg (ne_true_of_eq_false hid),
      plannedWithin_of_alike h hp]
  rw [leafHolds, leafHolds]
  apply leafHoldsByAny_congr
  rw [List.forall_mem_cons]
  exact ⟨hsingle x hx, fun e he =>
    hsingle e (hequivalents e (Std.ExtTreeSet.mem_toList.1 he))⟩

/-- Which courses are candidates does not depend on the terms. Parts of multi-term courses may be
among them, and count like any other. -/
theorem creditHolds_of_alike [CreditWeight W] (h : o.Alike o') (hp : o.Matches o' p p')
    (c : CourseId) (includesCurrent : Bool) (rule : CreditRule) :
    creditHolds ⟨o, ledger, catalog, rules, walk⟩ g ⟨c, p, includesCurrent⟩ rule =
      creditHolds ⟨o', ledger, catalog, rules, walk⟩ g ⟨c, p', includesCurrent⟩ rule := by
  unfold creditHolds
  split
  next => rfl
  next =>
    apply creditsReach_congr
    · rfl
    · intro id _
      rfl
    · intro id _
      exact plannedWithin_of_alike h hp c includesCurrent id

/-- A course that is no later part, and whose leaves no part of a multi-term course can answer, gets
the same verdict, or the same error, in any two orders that are alike. -/
theorem isSatisfied_of_alike [CreditWeight W] (h : o.Alike o') (ledger : Ledger)
    (catalog : Catalog W) (rules : EquivalenceRules) (walk : Walk) (g : DependencyGraph)
    (c : CourseId) (hpart : c.predecessorPart? = none)
    (hleaf : ∀ x, catalog.references c x = true →
      x.isMultiTerm = false ∧ ∀ e ∈ rules.equivalents x, e.isMultiTerm = false) :
    isSatisfied ⟨o, ledger, catalog, rules, walk⟩ g c =
      isSatisfied ⟨o', ledger, catalog, rules, walk⟩ g c := by
  unfold isSatisfied predecessorInPlace
  rw [hpart]
  apply (samePlace h c).bind
  · rfl
  · intro p p' hp
    have hrequisites : requisitesHold ⟨o, ledger, catalog, rules, walk⟩ g c p =
        requisitesHold ⟨o', ledger, catalog, rules, walk⟩ g c p' := by
      apply requisitesHold_congr
      · rfl
      · intro x hx includesCurrent
        exact leafHolds_of_alike h hp c includesCurrent (hleaf x hx).1 (hleaf x hx).2
      · intro _ _ rule _ includesCurrent
        exact creditHolds_of_alike h hp c includesCurrent rule
    simp only [hrequisites]

open Sample in
/-- The terms stand at the least position and at zero, or at ten and at thirty. In the second term a
course asks for a leaf, and for the credits of a part of a multi-term course. -/
theorem isSatisfied_sparse :
    let o : TermOrder :=
      (TermOrder.empty.withPosition ⟨"first"⟩ 10).withPosition ⟨"second"⟩ 30
    let part : CourseId := { comp 361 with suffix := TermSuffix.ofParts? 'D' 1 }
    let prerequisites : Requirement := ⟨.prerequisite, .join .and
      [.course (comp 250), .group (.credit ⟨3, "3", [(comp 361).subject]⟩)]⟩
    let catalog : Catalog ℚ := (Catalog.empty.insert ⟨part, 3, .empty⟩).insert
      ⟨comp 251, 3, ⟨some prerequisites, none, none⟩⟩
    let g := DependencyGraph.empty.run catalog
      [.add ⟨"first"⟩ [comp 250, part], .add ⟨"second"⟩ [comp 251]]
    twoTerms.Alike o ∧ (comp 251).predecessorPart? = none ∧
      (∀ x, catalog.references (comp 251) x = true → x.isMultiTerm = false ∧
        ∀ e ∈ EquivalenceRules.empty.equivalents x, e.isMultiTerm = false) ∧
      part.isMultiTerm = true ∧
      isSatisfied ⟨twoTerms, .empty, catalog, .empty, .byId⟩ g (comp 251) = .ok true ∧
      isSatisfied ⟨o, .empty, catalog, .empty, .byId⟩ g (comp 251) = .ok true := by
  intro o part prerequisites catalog g
  have halike : twoTerms.Alike o := by
    constructor
    · intro t
      simp only [twoTerms, o, TermOrder.position?_withPosition, TermOrder.position?_empty]
      split
      next => rfl
      next => split <;> rfl
    · have hcases (t : TermId) (p p' : Int32) (hp : twoTerms.position? t = some p)
          (hp' : o.position? t = some p') :
          (p = 0 ∧ p' = 30) ∨ (p = Int32.minValue ∧ p' = 10) := by
        simp only [twoTerms, o, TermOrder.position?_withPosition,
          TermOrder.position?_empty] at hp hp'
        grind
      intro t u p q p' q' hp hq hp' hq'
      rcases hcases t p p' hp hp' with ⟨rfl, rfl⟩ | ⟨rfl, rfl⟩ <;>
        rcases hcases u q q' hq hq' with ⟨rfl, rfl⟩ | ⟨rfl, rfl⟩ <;> decide
  have hpart : (comp 251).predecessorPart? = none := rfl
  have hleaf (x : CourseId) (hx : catalog.references (comp 251) x = true) :
      x.isMultiTerm = false ∧
        ∀ e ∈ EquivalenceRules.empty.equivalents x, e.isMultiTerm = false := by
    have hrequisites :
        catalog.requisites? (comp 251) = some ⟨some prerequisites, none, none⟩ := by
      rw [Catalog.requisites?, Catalog.get?_insert, if_pos rfl]
      rfl
    rw [Catalog.references_of_requisites hrequisites] at hx
    have hcourse : x = comp 250 := by
      simpa [Requisites.references, Requisites.toList, RequirementKind.all, Requisites.get?,
        Group.references_iff, prerequisites, Group.courses, Node.coursesAll, Node.courses] using hx
    rw [hcourse]
    exact ⟨rfl, fun e he => absurd he EquivalenceRules.not_mem_equivalents_empty⟩
  have hverdict :
      isSatisfied ⟨twoTerms, .empty, catalog, .empty, .byId⟩ g (comp 251) = .ok true := by
    decide +kernel
  refine ⟨halike, hpart, hleaf, rfl, hverdict, ?_⟩
  rw [← hverdict]
  exact (isSatisfied_of_alike halike .empty catalog .empty .byId g (comp 251) hpart hleaf).symm

end Context

end Curriculum
