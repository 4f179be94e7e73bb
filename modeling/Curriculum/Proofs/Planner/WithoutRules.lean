import Curriculum.Proofs.Planner.Consistency
import Curriculum.Proofs.Planner.UpToDate

/-!
# Planners without equivalence rules

If no rule is ever added and no course names itself, an action loses sight of nothing. Whatever the
settings, only a course with a credit rule can then have a stale verdict, and with widening none
can.
-/

namespace Curriculum

/-- The action adds or removes an equivalence rule. -/
def PlannerAction.changesRules : PlannerAction → Bool
  | .addEquivalence _ _ | .removeEquivalence _ _ => true
  | .createPlan _ | .deletePlan _ | .addCourses _ _ _ | .deleteCourses _ _ | .moveCourses _ _ _
  | .reorderTerms _ _ | .recordTaken _ | .forgetTaken _ => false

namespace Planner

variable {W : Type} {p : Planner W} {action : PlannerAction} {plan : PlanId}
  {s next s' : PlanState} {ledger : Ledger} {walk : Walk} {affected : CourseSet} {d : CourseId}

/-- The settings have the planner look for the course whenever its verdict may have changed. -/
def Follows (p : Planner W) (d : CourseId) : Prop :=
  p.settings.widenCreditDependents = true ∨ ∀ subject, ¬p.catalog.asksCreditIn d subject

theorem not_neglected (haction : action.changesRules = false) (hrules : s.equivalences = .empty)
    (hself : p.catalog.references d d = false) (hfollows : p.Follows d) :
    ¬p.Neglected s d action := by
  have hnone (id : CourseId) : d ∉ s.equivalences.equivalents id := by
    rw [hrules]
    exact EquivalenceRules.not_mem_equivalents_empty
  rintro (hshadowed | ⟨hoff, subject, hasks⟩)
  · cases action with
    | createPlan terms => exact hshadowed
    | deletePlan plan => exact hshadowed
    | reorderTerms plan terms => exact hshadowed
    | addCourses plan term ids =>
        obtain ⟨⟨id, _, hd⟩, _⟩ := hshadowed
        exact hnone id hd
    | deleteCourses plan ids =>
        obtain ⟨⟨id, _, hd⟩, _⟩ := hshadowed
        exact hnone id hd
    | moveCourses plan ids term =>
        obtain ⟨⟨id, _, hd⟩, _⟩ := hshadowed
        exact hnone id hd
    | addEquivalence plan rule => cases haction
    | removeEquivalence plan rule => cases haction
    | recordTaken ids => cases hself.symm.trans hshadowed.2
    | forgetTaken ids => cases hself.symm.trans hshadowed.2
  · rcases hfollows with hon | hnot
    · cases hoff.symm.trans hon
    · exact hnot subject hasks

theorem Effect.equivalences_eq (h : p.Effect s action next ledger affected)
    (haction : action.changesRules = false) : next.equivalences = s.equivalences := by
  cases h with
  | addRule plan rule => cases haction
  | removeRule plan rule => cases haction
  | _ => rfl

variable [CreditWeight W]

theorem Settles.ruleless (h : p.Settles action ledger walk affected s s')
    (haction : action.changesRules = false) (hrules : s.equivalences = .empty) :
    s'.equivalences = .empty := by
  obtain ⟨next, heffect, hsettle⟩ := h
  obtain ⟨_, hequivalences, _⟩ := PlanState.settle_recomputed hsettle
  rw [hequivalences, heffect.equivalences_eq haction, hrules]

/-- No plan has equivalence rules, no course names itself, and the verdicts in store are those from
scratch on every course that the planner follows. -/
structure RuleFree (p : Planner W) : Prop where
  consistent : p.Consistent
  selfless : ∀ d, p.catalog.references d d = false
  ruleless : ∀ (plan : PlanId) (s : PlanState), p.plans[plan]? = some s → s.equivalences = .empty
  verdict : ∀ (plan : PlanId) (s : PlanState), p.plans[plan]? = some s →
    ∀ d node, s.graph.get? d = some node → p.Follows d →
      s.verdict p.ledger p.catalog (p.walks plan) d = .ok node.isSatisfied

namespace RuleFree

theorem settled_verdict (hp : p.RuleFree) (haction : action.changesRules = false)
    (hs : p.plans[plan]? = some s)
    (hsettles : p.Settles action ledger (p.walks plan) affected s s')
    {node : PlannedCourse} (hnode : s'.graph.get? d = some node) (hfollows : p.Follows d) :
    s'.verdict ledger p.catalog (p.walks plan) d = .ok node.isSatisfied := by
  obtain ⟨next, heffect, hsettle⟩ := hsettles
  have htransition := heffect.transition (hp.consistent plan s hs).sound
  apply htransition.verdict_of_not_lost hsettle hnode
  · exact not_neglected haction (hp.ruleless plan s hs) (hp.selfless d) hfollows
  · intro old hold
    exact hp.verdict plan s hs d old hold hfollows

theorem step (hp : p.RuleFree) (haction : action.changesRules = false) :
    (p.step action).RuleFree where
  consistent := hp.consistent.step action
  selfless := by
    rw [(step_frame p action).2.1]
    exact hp.selfless
  ruleless _ _ hs' :=
    forall_plans_step (fun _ => rfl) (fun h => h.ruleless haction) hp.ruleless hs'
  verdict plan s' hs' d node hnode hfollows := by
    rw [Follows, (step_frame p action).1, (step_frame p action).2.1] at hfollows
    rw [(step_frame p action).2.1, (step_frame p action).2.2]
    rcases effect_of_step hs' with ⟨hs, hledger⟩ | ⟨terms, hcreated⟩ | ⟨s, affected, hs, hsettles⟩
    · rw [hledger]
      exact hp.verdict plan s' hs d node hnode hfollows
    · rw [hcreated] at hnode
      simp [PlanState.ofTerms] at hnode
    · exact hp.settled_verdict haction hs hsettles hnode hfollows

theorem run (hp : p.RuleFree) {actions : List PlannerAction}
    (hactions : ∀ action ∈ actions, action.changesRules = false) : (p.run actions).RuleFree :=
  run_induction (fun _ action hmem h => h.step (hactions action hmem)) hp

theorem upToDate (hp : p.RuleFree) (hwiden : p.settings.widenCreditDependents = true) :
    p.UpToDate :=
  fun plan s hs d node hnode => hp.verdict plan s hs d node hnode (Or.inl hwiden)

end RuleFree

theorem ruleFree_new (settings : Settings) {catalog : Catalog W}
    (hself : ∀ d, catalog.references d d = false) (walks : PlanId → Walk) :
    (new settings catalog walks).RuleFree where
  consistent := consistent_new settings catalog walks
  selfless := hself
  ruleless plan s hs := by simp [new] at hs
  verdict plan s hs := by simp [new] at hs

/-- If no course names itself and no action changes an equivalence rule, then whatever the settings,
a planned course without credit rules always has the verdict from scratch in store. -/
theorem run_verdict_of_no_credit_rules (settings : Settings) (catalog : Catalog W)
    (walks : PlanId → Walk) (hself : ∀ d, catalog.references d d = false)
    (actions : List PlannerAction) (hactions : ∀ action ∈ actions, action.changesRules = false)
    (plan : PlanId) (s : PlanState)
    (hs : ((new settings catalog walks).run actions).plans[plan]? = some s) (d : CourseId)
    (node : PlannedCourse) (hnode : s.graph.get? d = some node)
    (hrules : ∀ r, catalog.requisites? d = some r → r.creditRules = []) :
    s.verdict ((new settings catalog walks).run actions).ledger catalog
      (((new settings catalog walks).run actions).walks plan) d = .ok node.isSatisfied := by
  have hp : ((new settings catalog walks).run actions).RuleFree :=
    (ruleFree_new settings hself walks).run hactions
  have hcatalog : ((new settings catalog walks).run actions).catalog = catalog :=
    run_catalog _ actions
  have hfollows : ((new settings catalog walks).run actions).Follows d := by
    refine Or.inr fun subject hasks => ?_
    rw [hcatalog] at hasks
    obtain ⟨r, hr, rule, hrule, _⟩ := hasks
    rw [hrules r hr] at hrule
    cases hrule
  have hverdict := hp.verdict plan s hs d node hnode hfollows
  rwa [hcatalog] at hverdict

end Planner

namespace Sample

/-- `COMP 251` names `COMP 250`, and `COMP 350` asks for three credits in their subject. -/
def leafAndCredits : Catalog ℚ :=
  oneLeaf.insert
    ⟨comp 350, 3, ⟨some ⟨.prerequisite, .credit ⟨3, "2", [(comp 250).subject]⟩⟩, none, none⟩⟩

theorem leafAndCredits_selfless (d : CourseId) : leafAndCredits.references d d = false := by
  refine Catalog.references_self_insert (Catalog.references_self_insert ?_ (by decide)) (by decide) d
  intro d
  simp [Catalog.references, Catalog.requisites?]

/-- The courses are planned from the last term to the first. -/
def lastToFirst : List PlannerAction :=
  [.createPlan [⟨"first"⟩, ⟨"second"⟩, ⟨"third"⟩],
    .addCourses ⟨1⟩ ⟨"third"⟩ [comp 350],
    .addCourses ⟨1⟩ ⟨"second"⟩ [comp 251],
    .addCourses ⟨1⟩ ⟨"first"⟩ [comp 250]]

end Sample

open Sample in
/-- Without widening, `COMP 251` has the right verdict in store and `COMP 350` has not. -/
theorem Planner.verdict_lastToFirst :
    let p := (new { widenCreditDependents := false } leafAndCredits).run lastToFirst
    p.isSatisfied ⟨1⟩ (comp 251) = .ok true ∧ p.isSatisfied ⟨1⟩ (comp 350) = .ok false ∧
      ∃ s, p.plans[(⟨1⟩ : PlanId)]? = some s ∧
        s.verdict p.ledger leafAndCredits (p.walks ⟨1⟩) (comp 251) = .ok true ∧
        s.verdict p.ledger leafAndCredits (p.walks ⟨1⟩) (comp 350) = .ok true := by
  intro p
  have hplan : (p.plans[(⟨1⟩ : PlanId)]?).map (fun s =>
      ((s.graph.get? (comp 251)).map PlannedCourse.isSatisfied,
        s.verdict p.ledger leafAndCredits (p.walks ⟨1⟩) (comp 350))) =
          some (some true, .ok true) := by
    decide +kernel
  obtain ⟨s, hs, hstate⟩ := Option.map_eq_some_iff.1 hplan
  obtain ⟨hleaf, hcredits⟩ := Prod.mk.inj hstate
  obtain ⟨node, hnode, htrue⟩ := Option.map_eq_some_iff.1 hleaf
  refine ⟨by decide +kernel, by decide +kernel, s, hs, ?_, hcredits⟩
  rw [← htrue]
  refine run_verdict_of_no_credit_rules _ leafAndCredits _ leafAndCredits_selfless lastToFirst
    (by decide) ⟨1⟩ s hs (comp 251) node hnode fun r hr => ?_
  have hrequisites : leafAndCredits.requisites? (comp 251) =
      some ⟨some ⟨.prerequisite, .join .single [.course (comp 250)]⟩, none, none⟩ := by
    rw [Catalog.requisites?, leafAndCredits, Catalog.get?_insert, if_neg (by decide), oneLeaf,
      Catalog.get?_insert, if_pos rfl]
    rfl
  cases hrequisites.symm.trans hr
  rfl

end Curriculum
