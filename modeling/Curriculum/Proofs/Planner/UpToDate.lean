import Mathlib.Data.List.Induction
import Curriculum.Proofs.Planner.Effect
import Curriculum.Proofs.Planner.Transition
import Curriculum.Proofs.Verdict.Declarative

/-!
# Stored verdicts that are up to date

A planner recomputes after each action what the action may have changed. Its stored verdicts stay
those from scratch for as long as no action overlooks a course that it loses sight of, and then no
longer.
-/

namespace Curriculum

variable {W : Type} [CreditWeight W]

namespace PlanState

variable {catalog : Catalog W} {s next s' : PlanState} {ledger ledger' : Ledger} {walk : Walk}
  {affected : CourseSet} {lost : CourseId → Prop}

/-- The verdict on a course, from scratch. -/
def verdict (s : PlanState) (ledger : Ledger) (catalog : Catalog W) (walk : Walk)
    (d : CourseId) : Verdict :=
  (s.context ledger catalog walk).isSatisfied s.graph d

/-- Every stored verdict is the one from scratch. -/
def UpToDate (s : PlanState) (ledger : Ledger) (catalog : Catalog W) (walk : Walk) : Prop :=
  ∀ d node, s.graph.get? d = some node → s.verdict ledger catalog walk d = .ok node.isSatisfied

instance : Decidable (s.UpToDate ledger catalog walk) :=
  decidable_of_iff
    (∀ entry ∈ s.graph.nodes.toList,
      s.verdict ledger catalog walk entry.1 = .ok entry.2.isSatisfied)
    ⟨fun h d node hnode => h (d, node) (Std.ExtTreeMap.mem_toList_iff_getElem?_eq_some.2 hnode),
      fun h entry hentry =>
        h entry.1 entry.2 (Std.ExtTreeMap.mem_toList_iff_getElem?_eq_some.1 hentry)⟩

theorem settle_recomputed (h : next.settle ledger catalog walk affected = .ok s') :
    DependencyGraph.Recomputed (next.context ledger catalog walk) affected next.graph s'.graph ∧
      s'.equivalences = next.equivalences ∧
      ∀ d, s'.verdict ledger catalog walk d = next.verdict ledger catalog walk d := by
  obtain ⟨hgraph, hs'⟩ := settle_eq_ok h
  have hrecomputed := DependencyGraph.recompute_eq_ok hgraph
  refine ⟨hrecomputed, by rw [hs'], fun d => ?_⟩
  have hcontext : s'.context ledger catalog walk = next.context ledger catalog walk := by
    rw [hs']
    rfl
  rw [verdict, hcontext]
  exact hrecomputed.isSatisfied d

/-- A course that was recomputed has its verdict in store. -/
theorem verdict_of_mem (h : next.settle ledger catalog walk affected = .ok s') {d : CourseId}
    {node : PlannedCourse} (hnode : s'.graph.get? d = some node) (hmem : d ∈ affected) :
    s'.verdict ledger catalog walk d = .ok node.isSatisfied := by
  obtain ⟨hrecomputed, _, hverdict⟩ := settle_recomputed h
  rw [hverdict]
  exact hrecomputed.verdict_of_mem hmem hnode

namespace Transition

theorem sound_settle (h : Transition catalog s next ledger ledger' affected lost)
    (hsettle : next.settle ledger' catalog walk affected = .ok s') : s'.Sound catalog := by
  obtain ⟨hrecomputed, hequivalences, _⟩ := settle_recomputed hsettle
  exact ⟨hrecomputed.exact h.sound.exact, hequivalences ▸ h.sound.symmetric⟩

/-- A course outside the affected set has its old verdict in store. -/
theorem exists_kept (h : Transition catalog s next ledger ledger' affected lost)
    (hsettle : next.settle ledger' catalog walk affected = .ok s') {d : CourseId}
    {node : PlannedCourse} (hnode : s'.graph.get? d = some node) (hout : d ∉ affected) :
    ∃ old, s.graph.get? d = some old ∧ old.isSatisfied = node.isSatisfied := by
  obtain ⟨hrecomputed, _, _⟩ := settle_recomputed hsettle
  rw [hrecomputed.get?_of_not_mem d hout] at hnode
  have hkept := h.kept d (DependencyGraph.contains_of_get? hnode) hout
  rw [hnode, Option.map_some, eq_comm, Option.map_eq_some_iff] at hkept
  exact hkept

/-- A course that is not lost has its verdict in store if it had before. -/
theorem verdict_of_not_lost (h : Transition catalog s next ledger ledger' affected lost)
    (hsettle : next.settle ledger' catalog walk affected = .ok s') {d : CourseId}
    {node : PlannedCourse} (hnode : s'.graph.get? d = some node) (hlost : ¬lost d)
    (hbefore : ∀ old, s.graph.get? d = some old →
      s.verdict ledger catalog walk d = .ok old.isSatisfied) :
    s'.verdict ledger' catalog walk d = .ok node.isSatisfied := by
  by_cases haffected : d ∈ affected
  · exact verdict_of_mem hsettle hnode haffected
  · obtain ⟨hrecomputed, _, hverdict⟩ := settle_recomputed hsettle
    obtain ⟨old, hold, hsame⟩ := h.exists_kept hsettle hnode haffected
    have hplanned : next.graph.contains d = true := by
      rw [← hrecomputed.contains]
      exact DependencyGraph.contains_of_get? hnode
    rw [hverdict, ← hsame, ← hbefore old hold]
    exact (Context.isSatisfied_congr (h.alike d hplanned haffected hlost walk)).symm

/-- If a plan was up to date, it is up to date again exactly if the lost courses that are not
recomputed keep their verdicts. -/
theorem upToDate_iff (h : Transition catalog s next ledger ledger' affected lost)
    (hsettle : next.settle ledger' catalog walk affected = .ok s')
    (hbefore : s.UpToDate ledger catalog walk) :
    s'.UpToDate ledger' catalog walk ↔
      ∀ d, s'.graph.contains d = true → lost d → d ∉ affected →
        s.verdict ledger catalog walk d = s'.verdict ledger' catalog walk d := by
  constructor
  · intro hafter d hd _ hout
    obtain ⟨node, hnode⟩ := DependencyGraph.exists_get?_of_contains hd
    obtain ⟨old, hold, hsame⟩ := h.exists_kept hsettle hnode hout
    rw [hbefore d old hold, hafter d node hnode, hsame]
  · -- A course has its new verdict in store if it was recomputed, and its old one if not.
    intro hlost d node hnode
    by_cases haffected : d ∈ affected
    · exact verdict_of_mem hsettle hnode haffected
    by_cases hl : lost d
    · obtain ⟨old, hold, hsame⟩ := h.exists_kept hsettle hnode haffected
      rw [← hsame, ← hbefore d old hold]
      exact (hlost d (DependencyGraph.contains_of_get? hnode) hl haffected).symm
    · exact h.verdict_of_not_lost hsettle hnode hl (hbefore d)

end Transition

end PlanState

namespace Planner

variable {p : Planner W} {action : PlannerAction}

/-- In every plan, every stored verdict is the one from scratch. -/
def UpToDate (p : Planner W) : Prop :=
  ∀ (plan : PlanId) (s : PlanState), p.plans[plan]? = some s →
    s.UpToDate p.ledger p.catalog (p.walks plan)

instance : Decidable p.UpToDate :=
  decidable_of_iff
    (∀ entry ∈ p.plans.toList, entry.2.UpToDate p.ledger p.catalog (p.walks entry.1))
    ⟨fun h plan s hs => h (plan, s) (Std.ExtTreeMap.mem_toList_iff_getElem?_eq_some.2 hs),
      fun h entry hentry =>
        h entry.1 entry.2 (Std.ExtTreeMap.mem_toList_iff_getElem?_eq_some.1 hentry)⟩

/-- The courses of a plan whose verdicts an action recomputes. -/
def recomputed (p : Planner W) (s : PlanState) : PlannerAction → CourseSet
  | .createPlan _ | .deletePlan _ => ∅
  | .addCourses _ term ids => (p.withGraph s ids (s.graph.add p.catalog term ids)).2
  | .deleteCourses _ ids => (p.withGraph s ids (s.graph.delete ids)).2
  | .moveCourses _ ids term =>
    match s.graph.move ids term with
    | .ok change => (p.withGraph s ids change).2
    | .error _ => ∅
  | .reorderTerms _ _ => s.graph.courses
  | .addEquivalence _ rule | .removeEquivalence _ rule => s.graph.ruleDependents p.catalog rule
  | .recordTaken ids => s.ledgerDependents p.catalog (changeLedger Ledger.record p.ledger ids).2
  | .forgetTaken ids => s.ledgerDependents p.catalog (changeLedger Ledger.forget p.ledger ids).2

/-- The courses of a plan that an action loses sight of. -/
def Shadowed (p : Planner W) (s : PlanState) (d : CourseId) : PlannerAction → Prop
  | .createPlan _ | .deletePlan _ | .reorderTerms _ _ => False
  | .addCourses _ _ ids | .deleteCourses _ ids | .moveCourses _ ids _ =>
    s.ShadowedByCourses p.catalog ids d
  | .addEquivalence _ rule | .removeEquivalence _ rule =>
    PlanState.ShadowedByRule p.catalog rule d
  | .recordTaken ids =>
    s.ShadowedByLedger p.catalog (changeLedger Ledger.record p.ledger ids).2 d
  | .forgetTaken ids =>
    s.ShadowedByLedger p.catalog (changeLedger Ledger.forget p.ledger ids).2 d

/-- The courses of a plan that an action may leave with a stale verdict: those that it loses sight
of, and without widening those with credit rules. -/
def Neglected (p : Planner W) (s : PlanState) (d : CourseId) (action : PlannerAction) : Prop :=
  p.Shadowed s d action ∨
    p.settings.widenCreditDependents = false ∧ ∃ subject, p.catalog.asksCreditIn d subject

/-- The action changes the verdict on a planned course that it loses sight of, and does not
recompute it. -/
def Overlooks (p : Planner W) (action : PlannerAction) : Prop :=
  ∃ (plan : PlanId) (s s' : PlanState) (d : CourseId),
    p.plans[plan]? = some s ∧ (p.step action).plans[plan]? = some s' ∧
    s'.graph.contains d = true ∧ p.Shadowed s d action ∧ d ∉ p.recomputed s action ∧
    s.verdict p.ledger p.catalog (p.walks plan) d ≠
      s'.verdict (p.step action).ledger p.catalog (p.walks plan) d

/-- Every plan is sound, and plan changes recompute the holders of credit rules. -/
structure Sound (p : Planner W) : Prop where
  widens : p.settings.widenCreditDependents = true
  plans : ∀ (plan : PlanId) (s : PlanState), p.plans[plan]? = some s → s.Sound p.catalog

/-- What a step leaves in the place of a plan. -/
inductive SlotStep (p : Planner W) (action : PlannerAction) (plan : PlanId) (s' : PlanState) :
    Prop
  | same (hs : p.plans[plan]? = some s') (hledger : (p.step action).ledger = p.ledger)
  | created (terms : TermOrder) (hs' : s' = .ofTerms terms)
  | settled {s next : PlanState} (hs : p.plans[plan]? = some s)
    (htransition : PlanState.Transition p.catalog s next p.ledger (p.step action).ledger
      (p.recomputed s action) (p.Shadowed s · action))
    (hsettle : next.settle (p.step action).ledger p.catalog (p.walks plan)
      (p.recomputed s action) = .ok s')

section

variable {plan target : PlanId} {s' : PlanState} {changed : List CourseId} {ledger : Ledger}

omit [CreditWeight W] in
theorem Effect.recomputed_eq {s next : PlanState} {affected : CourseSet}
    (h : p.Effect s action next ledger affected) : affected = p.recomputed s action := by
  cases h with
  | move plan hmove => simp only [recomputed, hmove]
  | _ => rfl

omit [CreditWeight W] in
theorem transition_withGraph {s : PlanState} {c : PlanChange}
    {change : DependencyGraph × CourseSet} (hs : s.Sound p.catalog)
    (happly : s.graph.apply p.catalog c = .ok change) :
    PlanState.Transition p.catalog s (p.withGraph s c.ids change).1 p.ledger p.ledger
      (p.withGraph s c.ids change).2 fun d => s.ShadowedByCourses p.catalog c.ids d ∨
        p.settings.widenCreditDependents = false ∧ ∃ subject, p.catalog.asksCreditIn d subject :=
  PlanState.transition_of_covers_widening hs (hs.exact.apply happly)
    (DependencyGraph.apply_covers hs.exact happly) _

omit [CreditWeight W] in
/-- What each action does to a plan accounts for all but the neglected courses. -/
theorem Effect.transition {s next : PlanState} {affected : CourseSet}
    (h : p.Effect s action next ledger affected) (hs : s.Sound p.catalog) :
    PlanState.Transition p.catalog s next p.ledger ledger affected (p.Neglected s · action) := by
  cases h with
  | add plan term ids => exact transition_withGraph (c := .add term ids) hs rfl
  | delete plan ids => exact transition_withGraph (c := .delete ids) hs rfl
  | @move plan ids term change hmove =>
      exact transition_withGraph (c := .move ids term) hs hmove
  | reorder plan terms => exact PlanState.transition_reorder hs _ _
  | addRule plan rule =>
      exact (PlanState.transition_rules hs (hs.symmetric.insert rule)
        fun x => EquivalenceRules.equivalents_insert_of_ne).mono fun d => Or.inl
  | removeRule plan rule =>
      exact (PlanState.transition_rules hs (hs.symmetric.erase rule)
        fun x => EquivalenceRules.equivalents_erase_of_ne).mono fun d => Or.inl
  | record ids =>
      exact (PlanState.transition_ledger hs
        (changeLedger_agreeOff Ledger.record_agreeOff p.ledger ids)).mono fun d => Or.inl
  | forget ids =>
      exact (PlanState.transition_ledger hs
        (changeLedger_agreeOff Ledger.forget_agreeOff p.ledger ids)).mono fun d => Or.inl

/-- What each action does to a plan that is there afterwards. -/
theorem slotStep (hsound : p.Sound) (h : (p.step action).plans[plan]? = some s') :
    SlotStep p action plan s' := by
  rcases effect_of_step h with
    ⟨hs, hledger⟩ | ⟨terms, hs'⟩ | ⟨s, affected, hs, next, heffect, hsettle⟩
  · exact .same hs hledger
  · exact .created terms hs'
  · cases heffect.recomputed_eq
    refine .settled hs ?_ hsettle
    refine (heffect.transition (hsound.plans plan s hs)).mono fun d hlost => ?_
    -- With widening nothing is neglected but what the action loses sight of.
    rcases hlost with hshadowed | ⟨hoff, _⟩
    · exact hshadowed
    · rw [hsound.widens] at hoff
      cases hoff

theorem Sound.step (hsound : p.Sound) (action : PlannerAction) : (p.step action).Sound where
  widens := by rw [(step_frame p action).1, hsound.widens]
  plans plan s' h := by
    rw [(step_frame p action).2.1]
    cases slotStep hsound h with
    | same hs hledger => exact hsound.plans plan s' hs
    | created terms hs' =>
        rw [hs']
        exact PlanState.sound_ofTerms terms p.catalog
    | settled hs htransition hsettle => exact htransition.sound_settle hsettle

/-- A planner that was up to date is so after an action exactly if the action overlooks nothing. -/
theorem upToDate_step_iff (hsound : p.Sound) (hbefore : p.UpToDate) :
    (p.step action).UpToDate ↔ ¬p.Overlooks action := by
  constructor
  · rintro hafter ⟨plan, s, s', d, hs, hs', hd, hshadowed, hout, hne⟩
    have hafter' := hafter plan s' hs'
    rw [(step_frame p action).2.1, (step_frame p action).2.2] at hafter'
    apply hne
    cases slotStep hsound hs' with
    | same hsame hledger =>
        cases hs.symm.trans hsame
        rw [hledger]
    | created terms hcreated =>
        rw [hcreated, PlanState.ofTerms, DependencyGraph.contains_empty] at hd
        cases hd
    | settled hsettled htransition hsettle =>
        cases hs.symm.trans hsettled
        exact (htransition.upToDate_iff hsettle (hbefore plan s hs)).1 hafter' d hd hshadowed hout
  · intro hnot plan s' hs'
    rw [(step_frame p action).2.1, (step_frame p action).2.2]
    cases slotStep hsound hs' with
    | same hs hledger =>
        rw [hledger]
        exact hbefore plan s' hs
    | created terms hs' =>
        rw [hs']
        intro d node hnode
        simp [PlanState.ofTerms] at hnode
    | settled hs htransition hsettle =>
        refine (htransition.upToDate_iff hsettle (hbefore plan _ hs)).2 ?_
        intro d hd hlost hout
        refine Classical.byContradiction fun hne => ?_
        exact hnot ⟨plan, _, s', d, hs, hs', hd, hlost, hout, hne⟩

end

/-! ## Runs -/

omit [CreditWeight W] in
theorem sound_new {settings : Settings} (h : settings.widenCreditDependents = true)
    (catalog : Catalog W) (walks : PlanId → Walk) : (new settings catalog walks).Sound where
  widens := h
  plans plan s hs := by simp [new] at hs

theorem Sound.run (hsound : p.Sound) (actions : List PlannerAction) : (p.run actions).Sound :=
  run_induction (fun _ action _ h => h.step action) hsound

theorem run_append (p : Planner W) (done : List PlannerAction) (action : PlannerAction) :
    p.run (done ++ [action]) = (p.run done).step action := by
  simp [run]

theorem upToDate_new (settings : Settings) (catalog : Catalog W) (walks : PlanId → Walk) :
    (new settings catalog walks).UpToDate := by
  intro plan s hs
  simp [new] at hs

/-- With widening, all stored verdicts stay up to date throughout a run exactly if no action of the
run overlooks a course. -/
theorem run_upToDate_iff (settings : Settings) (hwiden : settings.widenCreditDependents = true)
    (catalog : Catalog W) (walks : PlanId → Walk) (actions : List PlannerAction) :
    (∀ done, done <+: actions → ((new settings catalog walks).run done).UpToDate) ↔
      ∀ done action, done ++ [action] <+: actions →
        ¬((new settings catalog walks).run done).Overlooks action := by
  have hsound (done : List PlannerAction) : ((new settings catalog walks).run done).Sound :=
    (sound_new hwiden catalog walks).run done
  constructor
  · intro hall done action hprefix
    rw [← upToDate_step_iff (hsound done)
      (hall done ((List.prefix_append done [action]).trans hprefix)), ← run_append]
    exact hall _ hprefix
  · intro hnone done
    induction done using List.reverseRecOn with
    | nil =>
        intro _
        exact upToDate_new settings catalog walks
    | append_singleton done action ih =>
        intro hprefix
        rw [run_append, upToDate_step_iff (hsound done)
          (ih ((List.prefix_append done [action]).trans hprefix))]
        exact hnone done action hprefix

theorem not_upToDate_of_stale (plan : PlanId) (d : CourseId)
    (h : (p.plans[plan]?).map (fun s => ((s.graph.get? d).map PlannedCourse.isSatisfied,
      s.verdict p.ledger p.catalog (p.walks plan) d)) = some (some false, .ok true)) :
    ¬p.UpToDate := by
  intro hup
  obtain ⟨s, hs, hpair⟩ := Option.map_eq_some_iff.1 h
  obtain ⟨hstored, hverdict⟩ := Prod.mk.inj hpair
  obtain ⟨node, hnode, hfalse⟩ := Option.map_eq_some_iff.1 hstored
  have hsame := hup plan s hs d node hnode
  rw [hverdict, hfalse] at hsame
  cases hsame

end Planner

namespace Sample

/-- `COMP 251` names `COMP 250`. -/
def oneLeaf : Catalog ℚ :=
  Catalog.empty.insert
    ⟨comp 251, 3, ⟨some ⟨.prerequisite, .join .single [.course (comp 250)]⟩, none, none⟩⟩

/-- `COMP 202` may stand in for the course named and for the course that names it. -/
def shadowing : List PlannerAction :=
  [.createPlan [⟨"first"⟩, ⟨"second"⟩],
    .addEquivalence ⟨1⟩ ⟨comp 202, comp 250⟩,
    .addEquivalence ⟨1⟩ ⟨comp 202, comp 251⟩,
    .addCourses ⟨1⟩ ⟨"second"⟩ [comp 251],
    .addCourses ⟨1⟩ ⟨"first"⟩ [comp 202]]

end Sample

namespace Planner

open Sample

theorem exists_overlooks_shadowing :
    ∃ done action, done ++ [action] <+: shadowing ∧
      ((new {} oneLeaf).run done).Overlooks action := by
  refine Classical.byContradiction fun hnone => ?_
  have hall := (run_upToDate_iff {} rfl oneLeaf _ shadowing).2
    fun done action hprefix hoverlooks => hnone ⟨done, action, hprefix, hoverlooks⟩
  exact not_upToDate_of_stale ⟨1⟩ (comp 251) (by decide +kernel)
    (hall shadowing List.prefix_rfl)

/-- The course added last makes `COMP 251` satisfied, which the stored verdict does not tell. -/
theorem not_upToDate_shadowing : ¬((new {} oneLeaf).run shadowing).UpToDate :=
  not_upToDate_of_stale ⟨1⟩ (comp 251) (by decide +kernel)

end Planner

end Curriculum
