import Curriculum.Proofs.Planner.Effect
import Curriculum.Proofs.Planner.Transition
import Curriculum.Proofs.TermOrder
import Curriculum.Proofs.Verdict.Declarative
import Curriculum.Proofs.Verdict.Total

/-!
# When actions fail

In every state that a planner reaches, all planned courses stand in terms with positions. An action
on a plan therefore fails only by what it is asked for: a term without a position, or a course that
is not planned. The actions that are given neither do not fail.
-/

namespace Curriculum

variable {W : Type} [CreditWeight W]

namespace PlanState

variable {catalog : Catalog W} {s s' next : PlanState} {ledger : Ledger} {walk : Walk}
  {affected : CourseSet} {ids : List CourseId} {term : TermId} {terms : List TermId}

/-- Every planned course stands in a term with a position. -/
def TermsOrdered (s : PlanState) : Prop :=
  ∀ id term, s.graph.term? id = some term → ∃ position, s.terms.position? term = some position

structure Consistent (s : PlanState) (catalog : Catalog W) : Prop where
  sound : s.Sound catalog
  ordered : s.TermsOrdered

/-- A changed plan that is yet to be settled. A term without a position is come upon, since only
courses that are recomputed may stand in one. -/
structure Unsettled (s : PlanState) (catalog : Catalog W) (affected : CourseSet) : Prop where
  sound : s.Sound catalog
  ordered : ∀ id term, s.graph.term? id = some term → id ∉ affected →
    ∃ position, s.terms.position? term = some position

namespace Unsettled

theorem settle_ok_iff (h : next.Unsettled catalog affected) (ledger : Ledger) (walk : Walk) :
    (∃ s', next.settle ledger catalog walk affected = .ok s') ↔ next.TermsOrdered := by
  have hgraph : (∃ g, next.graph.recompute (next.context ledger catalog walk) affected = .ok g) ↔
      next.TermsOrdered :=
    DependencyGraph.recompute_ok_iff h.ordered
  rw [← hgraph]
  constructor
  · rintro ⟨s', hsettle⟩
    exact ⟨_, (settle_eq_ok hsettle).1⟩
  · rintro ⟨g, hg⟩
    exact ⟨{ next with graph := g }, bind_eq_ok.2 ⟨g, hg, rfl⟩⟩

theorem consistent (h : next.Unsettled catalog affected)
    (hsettle : next.settle ledger catalog walk affected = .ok s') : s'.Consistent catalog := by
  have hordered : next.TermsOrdered := (h.settle_ok_iff ledger walk).1 ⟨s', hsettle⟩
  obtain ⟨hgraph, hs'⟩ := settle_eq_ok hsettle
  have hrecomputed := DependencyGraph.recompute_eq_ok hgraph
  have hterms : s'.terms = next.terms := by rw [hs']
  have hequivalences : s'.equivalences = next.equivalences := by rw [hs']
  refine ⟨⟨hrecomputed.exact h.sound.exact, hequivalences ▸ h.sound.symmetric⟩, ?_⟩
  intro id term hterm
  rw [hrecomputed.term?] at hterm
  rw [hterms]
  exact hordered id term hterm

omit [CreditWeight W] in
/-- A plan as it stands, whatever is recomputed in it. -/
theorem of_consistent (h : s.Consistent catalog) : s.Unsettled catalog affected :=
  ⟨h.sound, fun id term hterm _ => h.ordered id term hterm⟩

end Unsettled

omit [CreditWeight W] in
theorem consistent_ofTerms (terms : TermOrder) (catalog : Catalog W) :
    (ofTerms terms).Consistent catalog := by
  refine ⟨sound_ofTerms terms catalog, fun id term hterm => ?_⟩
  simp [ofTerms, DependencyGraph.term?] at hterm

/-! ## Changes of a plan -/

omit [CreditWeight W] in
theorem unsettled_reorder (h : s.Consistent catalog) (terms : TermOrder) :
    { s with terms }.Unsettled catalog s.graph.courses where
  sound := ⟨h.sound.exact, h.sound.symmetric⟩
  ordered id term hterm hout := by
    refine absurd (DependencyGraph.mem_courses.2 ?_) hout
    rw [← DependencyGraph.term?_isSome, hterm]
    rfl

omit [CreditWeight W] in
theorem unsettled_rules {rules : EquivalenceRules} (h : s.Consistent catalog)
    (hsymmetric : rules.Symmetric) :
    { s with equivalences := rules }.Unsettled catalog affected where
  sound := ⟨h.sound.exact, hsymmetric⟩
  ordered id term hterm _ := h.ordered id term hterm

/-- The terms of a plan in which some courses have come to one term. -/
theorem termsOrdered_placed {g : DependencyGraph} (h : s.TermsOrdered)
    (hterm : ∀ x, g.term? x = if x ∈ ids then some term else s.graph.term? x) :
    { s with graph := g }.TermsOrdered ↔ ¬(ids ≠ [] ∧ s.terms.position? term = none) := by
  constructor
  · rintro hordered ⟨hne, hnone⟩
    obtain ⟨id, hid⟩ := List.exists_mem_of_ne_nil ids hne
    obtain ⟨position, hposition⟩ := hordered id term (by rw [hterm, if_pos hid])
    cases hnone.symm.trans hposition
  · intro hnot id term' hplanned
    replace hplanned : g.term? id = some term' := hplanned
    rw [hterm] at hplanned
    split at hplanned
    next hid =>
      cases hplanned
      have hne : ids ≠ [] := List.ne_nil_of_mem hid
      exact Option.ne_none_iff_exists'.1 fun hnone => hnot ⟨hne, hnone⟩
    next => exact h id term' hplanned

theorem termsOrdered_delete (h : s.TermsOrdered) (ids : List CourseId) :
    { s with graph := (s.graph.delete ids).1 }.TermsOrdered := by
  intro id term hterm
  replace hterm : (s.graph.delete ids).1.term? id = some term := hterm
  rw [DependencyGraph.term?_delete] at hterm
  split at hterm
  next => cases hterm
  next => exact h id term hterm

theorem termsOrdered_reorder (s : PlanState) (terms : List TermId) :
    { s with terms := .ofTerms terms }.TermsOrdered ↔
      ¬∃ id term, s.graph.term? id = some term ∧ term ∉ terms := by
  have hlisted (term : TermId) :
      (∃ position, (TermOrder.ofTerms terms).position? term = some position) ↔ term ∈ terms := by
    rw [← Option.isSome_iff_exists, TermOrder.position?_ofTerms_isSome]
  constructor
  · rintro hordered ⟨id, term, hterm, hout⟩
    exact hout ((hlisted term).1 (hordered id term hterm))
  · intro hnone id term hterm
    exact (hlisted term).2 (Classical.byContradiction fun hout => hnone ⟨id, term, hterm, hout⟩)

end PlanState

namespace Planner

variable {p p' : Planner W} {action : PlannerAction} {plan target : PlanId} {s next : PlanState}
  {affected : CourseSet} {ids changed : List CourseId} {ledger : Ledger} {condition : Prop}
  {change : PlanState → Except ConsistencyError (PlanState × CourseSet)}

/-- Every plan is consistent. -/
def Consistent (p : Planner W) : Prop :=
  ∀ (plan : PlanId) (s : PlanState), p.plans[plan]? = some s → s.Consistent p.catalog

omit [CreditWeight W] in
theorem unsettled_withGraph {c : PlanChange} {result : DependencyGraph × CourseSet}
    (h : s.Consistent p.catalog) (happly : s.graph.apply p.catalog c = .ok result) :
    (p.withGraph s c.ids result).1.Unsettled p.catalog (p.withGraph s c.ids result).2 where
  sound := ⟨h.sound.exact.apply happly, h.sound.symmetric⟩
  ordered id term hterm hout := by
    have hcovers := DependencyGraph.apply_covers h.sound.exact happly
    have hcovered : id ∉ result.2 := fun hmem => hout (Std.ExtTreeSet.mem_union_iff.2 (Or.inl hmem))
    replace hterm : result.1.term? id = some term := hterm
    have hplanned : result.1.contains id = true := by
      rw [← DependencyGraph.term?_isSome, hterm]
      rfl
    rw [DependencyGraph.term?_of_standing (hcovers.kept id hplanned hcovered)] at hterm
    exact h.ordered id term hterm

omit [CreditWeight W] in
theorem Effect.unsettled (h : p.Effect s action next ledger affected)
    (hs : s.Consistent p.catalog) : next.Unsettled p.catalog affected := by
  cases h with
  | add plan term ids => exact unsettled_withGraph (c := .add term ids) hs rfl
  | delete plan ids => exact unsettled_withGraph (c := .delete ids) hs rfl
  | @move plan ids term change hmove => exact unsettled_withGraph (c := .move ids term) hs hmove
  | reorder plan terms => exact PlanState.unsettled_reorder hs _
  | addRule plan rule => exact PlanState.unsettled_rules hs (hs.sound.symmetric.insert rule)
  | removeRule plan rule => exact PlanState.unsettled_rules hs (hs.sound.symmetric.erase rule)
  | record ids => exact PlanState.Unsettled.of_consistent hs
  | forget ids => exact PlanState.Unsettled.of_consistent hs

/-! ## Reachable states -/

theorem Settles.consistent {s' : PlanState} {walk : Walk}
    (h : p.Settles action ledger walk affected s s') (hs : s.Consistent p.catalog) :
    s'.Consistent p.catalog := by
  obtain ⟨next, heffect, hsettle⟩ := h
  exact (heffect.unsettled hs).consistent hsettle

theorem Consistent.step (hp : p.Consistent) (action : PlannerAction) :
    (p.step action).Consistent := by
  intro plan s' hs'
  rw [(step_frame p action).2.1]
  exact forall_plans_step (fun terms => PlanState.consistent_ofTerms terms p.catalog)
    Settles.consistent hp hs'

omit [CreditWeight W] in
theorem consistent_new (settings : Settings) (catalog : Catalog W) (walks : PlanId → Walk) :
    (new settings catalog walks).Consistent := by
  intro plan s hs
  simp [new] at hs

theorem Consistent.run (hp : p.Consistent) (actions : List PlannerAction) :
    (p.run actions).Consistent :=
  run_induction (fun _ action _ h => h.step action) hp

/-! ## Failures -/

/-- The action ends in an inconsistency if the condition holds, and in success if it does not. -/
structure FailsExactlyIf {α : Type} (result : Except PlannerError α) (condition : Prop) :
    Prop where
  fails : condition → ∃ cause, result = .error (.consistency cause)
  succeeds : ¬condition → ∃ value, result = .ok value

theorem commit_of_missing (h : p.plans[plan]? = none) :
    p.commit plan change = .error (.planNotFound plan) := by
  rw [commit, Planner.plan, h]
  rfl

theorem commit_of_change (hs : p.plans[plan]? = some s)
    (hchange : change s = .ok (next, affected)) :
    p.commit plan change =
      ((next.settle p.ledger p.catalog (p.walks plan) affected).mapError .consistency).map
        fun settled => ({ p with plans := p.plans.insert plan settled }, affected) := by
  simp only [commit, plan_eq_ok.2 hs, hchange, bind, Except.bind, Except.mapError]
  cases next.settle p.ledger p.catalog (p.walks plan) affected <;> rfl

theorem commit_of_refused (hs : p.plans[plan]? = some s) {cause : ConsistencyError}
    (hchange : change s = .error cause) :
    p.commit plan change = .error (.consistency cause) := by
  simp only [commit, plan_eq_ok.2 hs, hchange, bind, Except.bind, Except.mapError]

theorem commit_failsExactlyIf (hs : p.plans[plan]? = some s)
    (hchange : change s = .ok (next, affected)) (h : next.Unsettled p.catalog affected)
    (hordered : next.TermsOrdered ↔ ¬condition) :
    FailsExactlyIf (p.commit plan change) condition := by
  rw [commit_of_change hs hchange]
  rw [← h.settle_ok_iff p.ledger (p.walks plan)] at hordered
  cases hsettle : next.settle p.ledger p.catalog (p.walks plan) affected with
  | error cause =>
      refine ⟨fun _ => ⟨cause, rfl⟩, fun hnot => ?_⟩
      obtain ⟨s', hs'⟩ := hordered.2 hnot
      cases hsettle.symm.trans hs'
  | ok settled =>
      exact ⟨fun hcondition => absurd hcondition (hordered.1 ⟨settled, hsettle⟩),
        fun _ => ⟨_, rfl⟩⟩

theorem addCourses_failsExactlyIf (hp : p.Consistent) (hs : p.plans[plan]? = some s)
    (term : TermId) (ids : List CourseId) :
    FailsExactlyIf (p.addCourses plan term ids)
      (ids ≠ [] ∧ s.terms.position? term = none) := by
  have hplan := hp plan s hs
  refine commit_failsExactlyIf hs rfl
    (unsettled_withGraph (c := .add term ids) hplan rfl) ?_
  exact PlanState.termsOrdered_placed hplan.ordered fun _ => DependencyGraph.term?_add

theorem deleteCourses_ok (hp : p.Consistent) (hs : p.plans[plan]? = some s)
    (ids : List CourseId) : ∃ result, p.deleteCourses plan ids = .ok result := by
  have hplan := hp plan s hs
  have hordered := PlanState.termsOrdered_delete hplan.ordered ids
  refine (commit_failsExactlyIf hs rfl
    (unsettled_withGraph (c := .delete ids) hplan rfl) ?_).succeeds not_false
  exact ⟨fun _ => not_false, fun _ => hordered⟩

theorem moveCourses_failsExactlyIf (hp : p.Consistent) (hs : p.plans[plan]? = some s)
    (ids : List CourseId) (term : TermId) :
    FailsExactlyIf (p.moveCourses plan ids term)
      ((∃ id ∈ ids, s.graph.contains id = false) ∨
        ids ≠ [] ∧ s.terms.position? term = none) := by
  have hplan := hp plan s hs
  cases hmove : s.graph.move ids term with
  | error cause =>
      have hmissing : ∃ id ∈ ids, s.graph.contains id = false := by
        refine Classical.byContradiction fun hnone => ?_
        have hplanned (id : CourseId) (hid : id ∈ ids) : s.graph.contains id = true := by
          rw [← Bool.not_eq_false]
          exact fun hmissing => hnone ⟨id, hid, hmissing⟩
        obtain ⟨change, hok⟩ := DependencyGraph.move_ok term hplanned
        cases hmove.symm.trans hok
      have hrefused : p.moveCourses plan ids term = .error (.consistency cause) :=
        commit_of_refused hs (congrArg (Except.map (p.withGraph s ids)) hmove)
      exact ⟨fun _ => ⟨cause, hrefused⟩, fun hnot => absurd (Or.inl hmissing) hnot⟩
  | ok result =>
      have hplanned : ¬∃ id ∈ ids, s.graph.contains id = false := by
        rintro ⟨id, hid, hmissing⟩
        rw [(DependencyGraph.move_eq_ok hmove).1 id hid] at hmissing
        cases hmissing
      rw [or_iff_right hplanned]
      refine commit_failsExactlyIf hs (congrArg (Except.map (p.withGraph s ids)) hmove)
        (unsettled_withGraph (c := .move ids term) hplan hmove) ?_
      exact PlanState.termsOrdered_placed hplan.ordered fun _ => DependencyGraph.term?_move hmove

theorem reorderTerms_failsExactlyIf (hp : p.Consistent) (hs : p.plans[plan]? = some s)
    (terms : List TermId) :
    FailsExactlyIf (p.reorderTerms plan terms)
      (∃ id term, s.graph.term? id = some term ∧ term ∉ terms) :=
  commit_failsExactlyIf hs rfl (PlanState.unsettled_reorder (hp plan s hs) _)
    (s.termsOrdered_reorder terms)

/-- A change of the rules leaves every course in its term. -/
theorem commit_rules_ok {rules : EquivalenceRules} (hp : p.Consistent)
    (hs : p.plans[plan]? = some s) (hsymmetric : rules.Symmetric)
    (hchange : change s = .ok ({ s with equivalences := rules }, affected)) :
    ∃ result, p.commit plan change = .ok result := by
  have hplan := hp plan s hs
  refine (commit_failsExactlyIf hs hchange (PlanState.unsettled_rules hplan hsymmetric)
    ?_).succeeds not_false
  exact ⟨fun _ => not_false, fun _ => hplan.ordered⟩

theorem settleAll_ok {catalog : Catalog W} (walks : PlanId → Walk)
    (entries : List (PlanId × PlanState))
    (h : ∀ entry ∈ entries, entry.2.Consistent catalog) :
    ∃ settled, settleAll catalog ledger walks changed entries = .ok settled := by
  induction entries with
  | nil => exact ⟨[], rfl⟩
  | cons first rest ih =>
      obtain ⟨plan, s⟩ := first
      rw [List.forall_mem_cons] at h
      obtain ⟨settled, hsettle⟩ :=
        ((PlanState.Unsettled.of_consistent h.1).settle_ok_iff ledger (walks plan)).2 h.1.ordered
      obtain ⟨others, hrest⟩ := ih h.2
      refine ⟨(plan, settled) :: others, ?_⟩
      simp only [settleAll, bind_eq_ok, pure_eq_ok]
      exact ⟨settled, hsettle, others, hrest, rfl⟩

theorem commitLedger_ok (hp : p.Consistent) (ledger : Ledger) (changed : List CourseId) :
    ∃ p', p.commitLedger ledger changed = .ok p' := by
  obtain ⟨settled, hsettled⟩ := settleAll_ok p.walks p.plans.toList fun entry hentry =>
    hp entry.1 entry.2 (Std.ExtTreeMap.mem_toList_iff_getElem?_eq_some.1 hentry)
  refine ⟨_, bind_eq_ok.2 ⟨settled, mapError_eq_ok.2 hsettled, rfl⟩⟩

/-- After any history, every planned course of every plan stands in a term with a position. Courses
can be added to a term exactly if there are none or the term has a position, moved exactly if they
are planned besides, and terms can be put in another order exactly if it lists those in use. No
other action on a plan, or on the ledger, fails. -/
theorem run_failsExactlyIf (settings : Settings) (catalog : Catalog W) (walks : PlanId → Walk)
    (actions : List PlannerAction) :
    let p := (new settings catalog walks).run actions
    (∀ (plan : PlanId) (s : PlanState), p.plans[plan]? = some s →
      (∀ id node, s.graph.get? id = some node →
        ∃ position, s.terms.position? node.term = some position) ∧
      (∀ term ids, FailsExactlyIf (p.addCourses plan term ids)
        (ids ≠ [] ∧ s.terms.position? term = none)) ∧
      (∀ ids term, FailsExactlyIf (p.moveCourses plan ids term)
        ((∃ id ∈ ids, s.graph.contains id = false) ∨
          ids ≠ [] ∧ s.terms.position? term = none)) ∧
      (∀ terms, FailsExactlyIf (p.reorderTerms plan terms)
        (∃ id node, s.graph.get? id = some node ∧ node.term ∉ terms)) ∧
      (∀ ids, ∃ result, p.deleteCourses plan ids = .ok result) ∧
      (∀ rule, ∃ result, p.addEquivalence plan rule = .ok result) ∧
      (∀ rule, ∃ result, p.removeEquivalence plan rule = .ok result)) ∧
    (∀ ids, ∃ p', p.recordTaken ids = .ok p') ∧
    (∀ ids, ∃ p', p.forgetTaken ids = .ok p') := by
  intro p
  have hp : p.Consistent := (consistent_new settings catalog walks).run actions
  refine ⟨fun plan s hs => ?_, fun ids => commitLedger_ok hp _ _, fun ids => commitLedger_ok hp _ _⟩
  have hplan := hp plan s hs
  refine ⟨?_, addCourses_failsExactlyIf hp hs, moveCourses_failsExactlyIf hp hs, ?_,
    deleteCourses_ok hp hs, fun rule => ?_, fun rule => ?_⟩
  · intro id node hnode
    exact hplan.ordered id node.term (by rw [DependencyGraph.term?, hnode]; rfl)
  · intro terms
    have hreorder := reorderTerms_failsExactlyIf hp hs terms
    simp only [DependencyGraph.term?, Option.map_eq_some_iff] at hreorder
    simpa using hreorder
  · exact commit_rules_ok hp hs (hplan.sound.symmetric.insert rule) rfl
  · exact commit_rules_ok hp hs (hplan.sound.symmetric.erase rule) rfl

end Planner

namespace Sample

/-- One course in the first of two terms. -/
def firstOfTwo : List PlannerAction :=
  [.createPlan [⟨"first"⟩, ⟨"second"⟩], .addCourses ⟨1⟩ ⟨"first"⟩ [comp 250]]

end Sample

open Sample in
/-- What is refused after that: another term, a course that is not planned, and to leave out the
first term. -/
theorem Planner.refusals_firstOfTwo :
    let p := (new {} twoCourses).run firstOfTwo
    (∃ cause, p.addCourses ⟨1⟩ ⟨"third"⟩ [comp 251] = .error (.consistency cause)) ∧
    (∃ result, p.addCourses ⟨1⟩ ⟨"third"⟩ [] = .ok result) ∧
    (∃ cause, p.moveCourses ⟨1⟩ [comp 251] ⟨"second"⟩ = .error (.consistency cause)) ∧
    (∃ cause, p.reorderTerms ⟨1⟩ [⟨"second"⟩] = .error (.consistency cause)) ∧
    ∃ result, p.deleteCourses ⟨1⟩ [comp 250] = .ok result := by
  intro p
  have hplan : (p.plans[(⟨1⟩ : PlanId)]?).map (fun s => (s.terms.position? ⟨"third"⟩,
      s.graph.contains (comp 251), (s.graph.get? (comp 250)).map PlannedCourse.term)) =
        some (none, false, some ⟨"first"⟩) := by
    decide +kernel
  obtain ⟨s, hs, hstate⟩ := Option.map_eq_some_iff.1 hplan
  obtain ⟨hthird, hrest⟩ := Prod.mk.inj hstate
  obtain ⟨hmissing, hfirst⟩ := Prod.mk.inj hrest
  obtain ⟨node, hnode, hterm⟩ := Option.map_eq_some_iff.1 hfirst
  obtain ⟨_, hadd, hmove, hreorder, hdelete, _⟩ :=
    (run_failsExactlyIf {} twoCourses _ firstOfTwo).1 ⟨1⟩ s hs
  refine ⟨(hadd _ _).fails ⟨by simp, hthird⟩, (hadd _ _).succeeds fun h => h.1 rfl,
    (hmove _ _).fails (Or.inl ⟨comp 251, by simp, hmissing⟩),
    (hreorder _).fails ⟨comp 250, node, hnode, ?_⟩, hdelete _⟩
  rw [hterm]
  decide

end Curriculum
