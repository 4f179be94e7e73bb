import Curriculum.Proofs.Plan.Determined
import Curriculum.Proofs.Planner.Returned

/-!
# Actions that take back others

A plan is determined by its courses, their terms, its rules and the verdicts in store. So an action
is taken back by one that brings these back and recomputes what the first recomputed, provided that
the stored verdicts were right before.
-/

namespace Curriculum

variable {W : Type} [CreditWeight W]

namespace PlanState

variable {catalog : Catalog W} {s next s' back : PlanState} {ledger ledger' : Ledger}
  {walk : Walk} {affected affected' : CourseSet} {lost lost' : CourseId → Prop}

/-- Plans with the same courses in the same terms, in the same order, and with the same rules have
the same verdicts. -/
theorem verdict_of_term? (h : s.graph.Exact catalog) (h' : s'.graph.Exact catalog)
    (hterms : s'.terms = s.terms) (hrules : s'.equivalences = s.equivalences)
    (hterm : ∀ x, s'.graph.term? x = s.graph.term? x) (d : CourseId) :
    s'.verdict ledger catalog walk d = s.verdict ledger catalog walk d := by
  have hcontext : s'.context ledger catalog walk = s.context ledger catalog walk := by
    rw [context, context, hterms, hrules]
  rw [verdict, verdict, hcontext]
  exact Context.isSatisfied_of_term? hterm
    (h.toIndexesExact.ofSubject_eq h'.toIndexesExact hterm) d

/-- A plan that was up to date is as it was after a second change that brings all courses back to
their terms and recomputes what the first change recomputed. -/
theorem settle_undone (hs : s.Consistent catalog) (hup : s.UpToDate ledger catalog walk)
    (hfirst : Transition catalog s next ledger ledger' affected lost)
    (hsettle : next.settle ledger' catalog walk affected = .ok s')
    (hsecond : Transition catalog s' back ledger' ledger affected' lost')
    (hunsettled : back.Unsettled catalog affected') (hterms : back.terms = s.terms)
    (hrules : back.equivalences = s.equivalences)
    (hterm : ∀ x, back.graph.term? x = s.graph.term? x)
    (hcovered : ∀ d, s.graph.contains d = true → d ∈ affected → d ∈ affected') :
    back.settle ledger catalog walk affected' = .ok s := by
  have hordered : back.TermsOrdered := by
    intro id term hid
    rw [hterm] at hid
    rw [hterms]
    exact hs.ordered id term hid
  obtain ⟨last, hlast⟩ := (hunsettled.settle_ok_iff ledger walk).2 hordered
  obtain ⟨_, heq⟩ := settle_eq_ok hlast
  have hexact : last.graph.Exact catalog := (hsecond.sound_settle hlast).exact
  have hterm' (x : CourseId) : last.graph.term? x = s.graph.term? x := by
    rw [(settle_recomputed hlast).1.term?, hterm]
  have hterms' : last.terms = s.terms := by rw [heq, ← hterms]
  have hrules' : last.equivalences = s.equivalences := by rw [heq, ← hrules]
  have hgraph : last.graph = s.graph := by
    refine hs.sound.exact.eq_of_verdicts hexact hterm' fun d node node' hnode hnode' => ?_
    by_cases hmem : d ∈ affected'
    · have hverdict := verdict_of_mem hlast hnode' hmem
      rw [verdict_of_term? hs.sound.exact hexact hterms' hrules' hterm', hup d node hnode] at hverdict
      exact (Except.ok.inj hverdict).symm
    · -- Neither change recomputed the course, so it has the verdict that it had at first.
      obtain ⟨between, hbetween, hsame'⟩ := hsecond.exists_kept hlast hnode' hmem
      have hout := mt (hcovered d (DependencyGraph.contains_of_get? hnode)) hmem
      obtain ⟨old, hold, hsame⟩ := hfirst.exists_kept hsettle hbetween hout
      cases hnode.symm.trans hold
      rw [← hsame', hsame]
  rw [hlast]
  cases s
  cases last
  simp_all

/-- A rule that was not there comes and goes. -/
theorem settle_rule_undone {rule : EquivalenceRule} (hs : s.Consistent catalog)
    (hup : s.UpToDate ledger catalog walk) (htidy : s.equivalences.Tidy)
    (habsent : s.equivalences.contains rule = false)
    (hsettle : settle { s with equivalences := s.equivalences.insert rule } ledger catalog walk
      (s.graph.ruleDependents catalog rule) = .ok s') :
    settle { s' with equivalences := s'.equivalences.erase rule } ledger catalog walk
      (s'.graph.ruleDependents catalog rule) = .ok s := by
  have hinsert := hs.sound.symmetric.insert rule
  have hs' : s'.Consistent catalog := (unsettled_rules hs hinsert).consistent hsettle
  have herase := hs'.sound.symmetric.erase rule
  obtain ⟨hrecomputed, hrules, _⟩ := settle_recomputed hsettle
  obtain ⟨_, heq⟩ := settle_eq_ok hsettle
  refine settle_undone hs hup
    (transition_rules hs.sound hinsert fun x => EquivalenceRules.equivalents_insert_of_ne) hsettle
    (transition_rules hs'.sound herase fun x => EquivalenceRules.equivalents_erase_of_ne)
    (unsettled_rules hs' herase) ?_ ?_ hrecomputed.term? fun d _ hmem => ?_
  · rw [heq]
  · dsimp only
    rw [hrules]
    exact EquivalenceRules.erase_insert hs.sound.symmetric htidy habsent
  · rw [DependencyGraph.mem_ruleDependents_iff, DependencyGraph.mem_dependentsOf] at hmem ⊢
    rwa [hrecomputed.contains]

/-- The ledger changes, and changes back. -/
theorem settle_ledger_undone {changed changed' : List CourseId} (hs : s.Consistent catalog)
    (hup : s.UpToDate ledger catalog walk) (hagree : Ledger.AgreeOff changed ledger ledger')
    (hagree' : Ledger.AgreeOff changed' ledger' ledger) (hsame : ∀ x, x ∈ changed' ↔ x ∈ changed)
    (hsettle : s.settle ledger' catalog walk (s.ledgerDependents catalog changed) = .ok s') :
    s'.settle ledger catalog walk (s'.ledgerDependents catalog changed') = .ok s := by
  have hs' : s'.Consistent catalog := (Unsettled.of_consistent hs).consistent hsettle
  obtain ⟨hrecomputed, hrules, _⟩ := settle_recomputed hsettle
  obtain ⟨_, heq⟩ := settle_eq_ok hsettle
  refine settle_undone hs hup (transition_ledger hs.sound hagree) hsettle
    (transition_ledger hs'.sound hagree') (Unsettled.of_consistent hs') (by rw [heq]) hrules
    hrecomputed.term? fun d _ hmem => ?_
  rw [mem_ledgerDependents, hs.sound.exact.mem_creditDependents] at hmem
  rw [mem_ledgerDependents, hs'.sound.exact.mem_creditDependents, hrecomputed.contains, hrules]
  simpa [hsame, DependencyGraph.mem_referencing_singleton, hrecomputed.contains] using hmem

end PlanState

namespace Planner

variable {p p' : Planner W} {action : PlannerAction} {plan : PlanId} {s next s' : PlanState}
  {ledger : Ledger} {walk : Walk} {affected : CourseSet} {ids : List CourseId}
  {rule : EquivalenceRule} {reply : PlannerReply}

/-! ## Tidy rules -/

/-- No plan keeps empty entries among its rules. -/
def TidyRules (p : Planner W) : Prop :=
  ∀ (plan : PlanId) (s : PlanState), p.plans[plan]? = some s → s.equivalences.Tidy

omit [CreditWeight W] in
theorem Effect.tidy (h : p.Effect s action next ledger affected) (hs : s.equivalences.Tidy) :
    next.equivalences.Tidy := by
  cases h with
  | addRule plan rule => exact hs.insert rule
  | removeRule plan rule => exact hs.erase rule
  | _ => exact hs

theorem Settles.tidy (h : p.Settles action ledger walk affected s s') (hs : s.equivalences.Tidy) :
    s'.equivalences.Tidy := by
  obtain ⟨next, heffect, hsettle⟩ := h
  obtain ⟨_, hequivalences, _⟩ := PlanState.settle_recomputed hsettle
  rw [hequivalences]
  exact heffect.tidy hs

theorem TidyRules.step (hp : p.TidyRules) (action : PlannerAction) : (p.step action).TidyRules :=
  fun _ _ hs' => forall_plans_step (fun _ => EquivalenceRules.tidy_empty) Settles.tidy hp hs'

theorem TidyRules.run (hp : p.TidyRules) (actions : List PlannerAction) :
    (p.run actions).TidyRules :=
  run_induction (fun _ action _ h => h.step action) hp

omit [CreditWeight W] in
theorem tidyRules_new (settings : Settings) (catalog : Catalog W) (walks : PlanId → Walk) :
    (new settings catalog walks).TidyRules := by
  intro plan s hs
  simp [new] at hs

/-! ## Courses -/

/-- A change of courses, and a second one of the same courses that brings them back. -/
theorem settle_withGraph_undone (c c' : PlanChange) {change change' : DependencyGraph × CourseSet}
    (hs : s.Consistent p.catalog) (hup : s.UpToDate p.ledger p.catalog walk)
    (hids : c'.ids = c.ids) (happly : s.graph.apply p.catalog c = .ok change)
    (hsettle : (p.withGraph s c.ids change).1.settle p.ledger p.catalog walk
      (p.withGraph s c.ids change).2 = .ok s')
    (happly' : s'.graph.apply p.catalog c' = .ok change')
    (hplanned : ∀ id ∈ c.ids, s'.graph.contains id = true)
    (hterm : ∀ x, change'.1.term? x = s.graph.term? x) :
    (p.withGraph s' c'.ids change').1.settle p.ledger p.catalog walk
      (p.withGraph s' c'.ids change').2 = .ok s := by
  have hs' : s'.Consistent p.catalog := (unsettled_withGraph hs happly).consistent hsettle
  have hfirst := transition_withGraph hs.sound happly
  have hsecond := transition_withGraph hs'.sound happly'
  obtain ⟨_, heq⟩ := PlanState.settle_eq_ok hsettle
  refine PlanState.settle_undone hs hup hfirst hsettle hsecond (unsettled_withGraph hs' happly')
    (by rw [heq]; rfl) (by rw [heq]; rfl) hterm fun d hd hmem => ?_
  have hrules : s'.equivalences = s.equivalences := by rw [heq]; rfl
  rw [mem_withGraph hs.sound happly] at hmem
  rw [mem_withGraph hs'.sound happly', DependencyGraph.contains_of_term? hterm, hids, hrules]
  refine ⟨hd, hmem.2.imp_left ?_⟩
  rintro ⟨id, hid, _, hconcerns⟩
  exact ⟨id, hid, Or.inl (hplanned id hid), hconcerns⟩

/-! ## Transactions -/

/-- A change of one plan that brings back what it was restores the planner. -/
theorem commit_restores
    {change : PlanState → Except ConsistencyError (PlanState × CourseSet)}
    (hs : p.plans[plan]? = some s) (hchange : change s' = .ok (next, affected))
    (hsettle : next.settle p.ledger p.catalog (p.walks plan) affected = .ok s) :
    commit { p with plans := p.plans.insert plan s' } plan change = .ok (p, affected) := by
  have hplans : (p.plans.insert plan s').insert plan s = p.plans := by
    apply Std.ExtTreeMap.ext_getElem?
    intro x
    simp only [Std.ExtTreeMap.getElem?_insert, Std.compare_eq_iff_eq]
    split
    next heq => rw [← heq, hs]
    next => rfl
  rw [commit_of_change Std.ExtTreeMap.getElem?_insert_self hchange, hsettle]
  simp only [Except.mapError, Except.map, hplans]

/-- A change of the ledger back to what it was restores the planner. -/
theorem commitLedger_restores {changed changed' : List CourseId} (hp : p.Consistent)
    (hup : p.UpToDate) (hagree : Ledger.AgreeOff changed p.ledger ledger)
    (hagree' : Ledger.AgreeOff changed' ledger p.ledger) (hsame : ∀ x, x ∈ changed' ↔ x ∈ changed)
    (hcommit : p.commitLedger ledger changed = .ok p') :
    p'.commitLedger p.ledger changed' = .ok p := by
  obtain ⟨plans, rfl, hkept, hplans⟩ := commitLedger_eq_ok hcommit
  have hp' : Consistent { p with ledger, plans } := by
    intro plan s' hs'
    obtain ⟨s, hs, hsettle⟩ := hplans plan s' hs'
    exact (PlanState.Unsettled.of_consistent (hp plan s hs)).consistent hsettle
  obtain ⟨last, hlast⟩ := commitLedger_ok hp' p.ledger changed'
  obtain ⟨plans', rfl, hkept', hplans'⟩ := commitLedger_eq_ok hlast
  have hsameplans : plans' = p.plans := by
    apply Std.ExtTreeMap.ext_getElem?
    intro plan
    cases hs'' : plans'[plan]? with
    | none =>
        exact (getElem?_eq_none_of_kept hkept (getElem?_eq_none_of_kept hkept' hs'')).symm
    | some s'' =>
        obtain ⟨s', hs', hsettle'⟩ := hplans' plan s'' hs''
        obtain ⟨s, hs, hsettle⟩ := hplans plan s' hs'
        have hback := PlanState.settle_ledger_undone (hp plan s hs) (hup plan s hs) hagree hagree'
          hsame hsettle
        cases hsettle'.symm.trans hback
        exact hs.symm
  rw [hlast, hsameplans]

/-! ## Pairs of actions -/

/-- The second action takes back the first. -/
inductive Undoes (p : Planner W) : PlannerAction → PlannerAction → Prop
  /-- Courses of which none was planned are added and deleted. -/
  | add {plan : PlanId} {s : PlanState} (term : TermId) {ids : List CourseId}
    (hs : p.plans[plan]? = some s) (hnew : ∀ id ∈ ids, s.graph.contains id = false) :
    Undoes p (.addCourses plan term ids) (.deleteCourses plan ids)
  /-- Courses that are planned in one term are moved to a term and back. -/
  | move {plan : PlanId} {s : PlanState} {home : TermId} (term : TermId) {ids : List CourseId}
    (hs : p.plans[plan]? = some s) (hhome : ∀ id ∈ ids, s.graph.term? id = some home) :
    Undoes p (.moveCourses plan ids term) (.moveCourses plan ids home)
  /-- A rule that was not there is added and removed. -/
  | rule {plan : PlanId} {s : PlanState} {rule : EquivalenceRule}
    (hs : p.plans[plan]? = some s) (habsent : s.equivalences.contains rule = false) :
    Undoes p (.addEquivalence plan rule) (.removeEquivalence plan rule)
  /-- Courses of which none was completed are recorded and forgotten. -/
  | record {ids : List CourseId} (hnew : ∀ id ∈ ids, p.ledger.contains id = false) :
    Undoes p (.recordTaken ids) (.forgetTaken ids)

theorem delete_restores (hs : p.plans[plan]? = some s) (hplan : s.Consistent p.catalog)
    (hup : s.UpToDate p.ledger p.catalog (p.walks plan)) {term : TermId}
    (hnew : ∀ id ∈ ids, s.graph.contains id = false)
    (hperform : p.perform (.addCourses plan term ids) = .ok (p', reply)) :
    ∃ affected, p'.deleteCourses plan ids = .ok (p, affected) := by
  obtain ⟨s, s', affected, hs', ⟨next, heffect, hsettle⟩, rfl, rfl⟩ :=
    (performed hperform).of_target rfl
  cases hs.symm.trans hs'
  cases heffect
  have hadded (x : CourseId) :
      s'.graph.term? x = if x ∈ ids then some term else s.graph.term? x := by
    rw [(PlanState.settle_recomputed hsettle).1.term?]
    exact DependencyGraph.term?_add
  have hplanned (id : CourseId) (hid : id ∈ ids) : s'.graph.contains id = true := by
    rw [← DependencyGraph.term?_isSome, hadded, if_pos hid]
    rfl
  refine ⟨_, commit_restores hs rfl (settle_withGraph_undone (.add term ids) (.delete ids) hplan hup
    rfl rfl hsettle rfl hplanned fun x => ?_)⟩
  rw [DependencyGraph.term?_delete, hadded]
  split
  next hx => exact (DependencyGraph.term?_eq_none_iff.2 (hnew x hx)).symm
  next => rfl

theorem move_restores (hs : p.plans[plan]? = some s) (hplan : s.Consistent p.catalog)
    (hup : s.UpToDate p.ledger p.catalog (p.walks plan)) {term home : TermId}
    (hhome : ∀ id ∈ ids, s.graph.term? id = some home)
    (hperform : p.perform (.moveCourses plan ids term) = .ok (p', reply)) :
    ∃ affected, p'.moveCourses plan ids home = .ok (p, affected) := by
  obtain ⟨s, s', affected, hs', ⟨next, heffect, hsettle⟩, rfl, rfl⟩ :=
    (performed hperform).of_target rfl
  cases hs.symm.trans hs'
  cases heffect with
  | @move plan ids term change hmove =>
      have hmoved (x : CourseId) :
          s'.graph.term? x = if x ∈ ids then some term else s.graph.term? x := by
        rw [(PlanState.settle_recomputed hsettle).1.term?]
        exact DependencyGraph.term?_move hmove
      have hplanned (id : CourseId) (hid : id ∈ ids) : s'.graph.contains id = true := by
        rw [← DependencyGraph.term?_isSome, hmoved, if_pos hid]
        rfl
      obtain ⟨change', hmove'⟩ := DependencyGraph.move_ok home hplanned
      refine ⟨_, commit_restores hs (congrArg (Except.map _) hmove') (settle_withGraph_undone
        (.move ids term) (.move ids home) hplan hup rfl hmove hsettle hmove' hplanned
        fun x => ?_)⟩
      rw [DependencyGraph.term?_move hmove', hmoved]
      split
      next hx => exact (hhome x hx).symm
      next => rfl

theorem removeRule_restores (hs : p.plans[plan]? = some s) (hplan : s.Consistent p.catalog)
    (hup : s.UpToDate p.ledger p.catalog (p.walks plan)) (htidy : s.equivalences.Tidy)
    (habsent : s.equivalences.contains rule = false)
    (hperform : p.perform (.addEquivalence plan rule) = .ok (p', reply)) :
    ∃ affected, p'.removeEquivalence plan rule = .ok (p, affected) := by
  obtain ⟨s, s', affected, hs', ⟨next, heffect, hsettle⟩, rfl, rfl⟩ :=
    (performed hperform).of_target rfl
  cases hs.symm.trans hs'
  cases heffect
  exact ⟨_, commit_restores hs rfl (PlanState.settle_rule_undone hplan hup htidy habsent hsettle)⟩

theorem forget_restores (hp : p.Consistent) (hup : p.UpToDate) (hfiled : p.ledger.Filed)
    (htidy : p.ledger.Tidy) (hnew : ∀ id ∈ ids, p.ledger.contains id = false)
    (hperform : p.perform (.recordTaken ids) = .ok (p', reply)) : p'.forgetTaken ids = .ok p := by
  obtain ⟨_, hcommit, hreply⟩ := map_eq_ok.1 hperform
  cases hreply
  have hledger : p'.ledger = (changeLedger Ledger.record p.ledger ids).1 := by
    obtain ⟨plans, rfl, _⟩ := commitLedger_eq_ok hcommit
    rfl
  have hback :
      (changeLedger Ledger.forget (changeLedger Ledger.record p.ledger ids).1 ids).1 = p.ledger := by
    rw [changeLedger_forget, changeLedger_record, Ledger.forget_run_record hfiled htidy hnew]
  have hagree' := changeLedger_agreeOff Ledger.forget_agreeOff
    (changeLedger Ledger.record p.ledger ids).1 ids
  rw [hback] at hagree'
  change p'.commitLedger (changeLedger Ledger.forget p'.ledger ids).1
    (changeLedger Ledger.forget p'.ledger ids).2 = .ok p
  rw [hledger, hback]
  refine commitLedger_restores hp hup
    (changeLedger_agreeOff Ledger.record_agreeOff p.ledger ids) hagree' (fun x => ?_) hcommit
  -- What is forgotten is what was recorded, since none of it was known before.
  rw [mem_changed_forget, mem_changed_record, contains_changeLedger_record]
  refine and_congr_right fun hx => ?_
  simp [hx, hnew x hx]

/-- After any history that leaves all stored verdicts right, whatever the settings and the rules, an
action that undoes the one before it succeeds and restores the planner. -/
theorem run_undoes (settings : Settings) (catalog : Catalog W) (walks : PlanId → Walk)
    (actions : List PlannerAction) (hup : ((new settings catalog walks).run actions).UpToDate)
    (action undo : PlannerAction)
    (hundoes : ((new settings catalog walks).run actions).Undoes action undo) (p' : Planner W)
    (reply : PlannerReply)
    (hperform : ((new settings catalog walks).run actions).perform action = .ok (p', reply)) :
    ∃ reply', p'.perform undo = .ok ((new settings catalog walks).run actions, reply') := by
  have hp : ((new settings catalog walks).run actions).Consistent :=
    (consistent_new settings catalog walks).run actions
  have htidy : ((new settings catalog walks).run actions).TidyRules :=
    (tidyRules_new settings catalog walks).run actions
  obtain ⟨changes, hledger⟩ := exists_ledger_run (new settings catalog walks) actions
  generalize (new settings catalog walks).run actions = p at *
  cases hundoes with
  | @add plan s term ids hs hnew =>
      obtain ⟨affected, hdelete⟩ := delete_restores hs (hp plan s hs) (hup plan s hs) hnew hperform
      exact ⟨_, map_eq_ok.2 ⟨_, hdelete, rfl⟩⟩
  | @move plan s home term ids hs hhome =>
      obtain ⟨affected, hmove⟩ := move_restores hs (hp plan s hs) (hup plan s hs) hhome hperform
      exact ⟨_, map_eq_ok.2 ⟨_, hmove, rfl⟩⟩
  | @rule plan s rule hs habsent =>
      obtain ⟨affected, hremove⟩ := removeRule_restores hs (hp plan s hs) (hup plan s hs)
        (htidy plan s hs) habsent hperform
      exact ⟨_, map_eq_ok.2 ⟨_, hremove, rfl⟩⟩
  | record hnew =>
      have hforget := forget_restores hp hup (hledger ▸ Ledger.filed_run changes)
        (hledger ▸ Ledger.tidy_run changes) hnew hperform
      exact ⟨_, map_eq_ok.2 ⟨_, hforget, rfl⟩⟩

end Planner

open Sample in
/-- `COMP 250` is moved out of the way of `COMP 251` and back. -/
theorem Planner.undoes_leafInPlace :
    let p := (new {} oneLeaf).run leafInPlace
    p.isSatisfied ⟨1⟩ (comp 251) = .ok true ∧
      ∃ p' reply reply', p.perform (.moveCourses ⟨1⟩ [comp 250] ⟨"second"⟩) = .ok (p', reply) ∧
        p'.isSatisfied ⟨1⟩ (comp 251) = .ok false ∧
        p'.perform (.moveCourses ⟨1⟩ [comp 250] ⟨"first"⟩) = .ok (p, reply') := by
  intro p
  have hmoved : (p.perform (.moveCourses ⟨1⟩ [comp 250] ⟨"second"⟩)).map (fun result =>
      result.1.isSatisfied ⟨1⟩ (comp 251)) = .ok (.ok false) := by
    decide +kernel
  obtain ⟨⟨p', reply⟩, hperform, hstored⟩ := map_eq_ok.1 hmoved
  have hplan : (p.plans[(⟨1⟩ : PlanId)]?).map (fun s => s.graph.term? (comp 250)) =
      some (some ⟨"first"⟩) := by
    decide +kernel
  obtain ⟨s, hs, hhome⟩ := Option.map_eq_some_iff.1 hplan
  obtain ⟨reply', hback⟩ := run_undoes {} oneLeaf (fun _ => .byId) leafInPlace (by decide +kernel)
    (.moveCourses ⟨1⟩ [comp 250] ⟨"second"⟩) (.moveCourses ⟨1⟩ [comp 250] ⟨"first"⟩)
    (.move _ hs (by simpa using hhome)) p' reply hperform
  exact ⟨by decide +kernel, p', reply, reply', hperform, hstored, hback⟩

end Curriculum
