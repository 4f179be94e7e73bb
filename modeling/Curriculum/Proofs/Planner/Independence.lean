import Curriculum.Proofs.Plan.Determined
import Curriculum.Proofs.Planner.WithoutRules
import Curriculum.Proofs.Verdict.Agreement

/-!
# Plans do not remember how they came about

Without equivalence rules and with widening, everything that a plan has in store follows from where
its courses stand and from which courses are completed. Two histories that agree in these leave the
same graph.
-/

namespace Curriculum

namespace PlanState

variable {catalog : Catalog ℚ} {s s' : PlanState} {ledger ledger' : Ledger} {walk walk' : Walk}

/-- Over exact credits that are not negative, the order in which courses were recorded is of no
consequence for a verdict. -/
theorem verdict_eq_of_agrees (hs : s.Consistent catalog) (hs' : s'.Consistent catalog)
    (hcredits : ∀ id, 0 ≤ catalog.credits id) (hfiled : ledger.Filed) (hfiled' : ledger'.Filed)
    (h : Context.Agrees (s.context ledger catalog walk) (s'.context ledger' catalog walk') s.graph
      s'.graph)
    (d : CourseId) : s.verdict ledger catalog walk d = s'.verdict ledger' catalog walk' d := by
  have hordered : (s.context ledger catalog walk).TermsOrdered s.graph := hs.ordered
  have hordered' : (s'.context ledger' catalog walk').TermsOrdered s'.graph := hs'.ordered
  have hdecides := Context.isSatisfied_decides hordered hcredits hfiled hs.sound.exact d
  have hdecides' := Context.isSatisfied_decides hordered' hcredits hfiled' hs'.sound.exact d
  exact (hdecides.congr h.satisfied_iff).unique hdecides'

/-- Two plans that are up to date and have their courses in the same terms, in the same order, with
the same rules and the same completed courses, have the same graph. -/
theorem graph_eq_of_upToDate (hs : s.Consistent catalog) (hs' : s'.Consistent catalog)
    (hcredits : ∀ id, 0 ≤ catalog.credits id) (hfiled : ledger.Filed) (hfiled' : ledger'.Filed)
    (hup : s.UpToDate ledger catalog walk) (hup' : s'.UpToDate ledger' catalog walk')
    (hterm : ∀ id, s.graph.term? id = s'.graph.term? id) (hterms : s.terms = s'.terms)
    (hrules : s.equivalences = s'.equivalences)
    (hledger : ∀ id, ledger.contains id = ledger'.contains id) : s.graph = s'.graph := by
  have hagrees : Context.Agrees (s.context ledger catalog walk) (s'.context ledger' catalog walk')
      s.graph s'.graph := by
    refine ⟨rfl, fun id position => ?_, hledger, fun id => ?_⟩
    · simp only [Context.PlannedAt, context, hterm, hterms]
    · simp only [context, hrules]
  refine hs'.sound.exact.eq_of_verdicts hs.sound.exact hterm fun d node node' hnode hnode' => ?_
  have hverdict := verdict_eq_of_agrees hs hs' hcredits hfiled hfiled' hagrees d
  rw [hup d node' hnode', hup' d node hnode] at hverdict
  exact Except.ok.inj hverdict

end PlanState

namespace Planner

/-- The ledger of a planner that started with none has every course under its subject. -/
theorem filed_ledger_run {W : Type} [CreditWeight W] (settings : Settings) (catalog : Catalog W)
    (walks : PlanId → Walk) (actions : List PlannerAction) :
    ((new settings catalog walks).run actions).ledger.Filed := by
  obtain ⟨changes, hledger⟩ := exists_ledger_run (new settings catalog walks) actions
  rw [hledger]
  exact Ledger.filed_run changes

/-- Two histories without changes of equivalence rules, both with widening, over one catalog in
which no course names itself or weighs less than nothing: plans with the same courses in the same
terms, in the same order, and ledgers of the same courses, whatever their order, have the same
graph, however planned courses are walked. -/
theorem run_graph_eq (catalog : Catalog ℚ)
    (hcredits : ∀ id entry, catalog.get? id = some entry → 0 ≤ entry.credits)
    (hself : ∀ d, catalog.references d d = false) (settings settings' : Settings)
    (walks walks' : PlanId → Walk) (hwiden : settings.widenCreditDependents = true)
    (hwiden' : settings'.widenCreditDependents = true) (actions actions' : List PlannerAction)
    (hactions : ∀ action ∈ actions, action.changesRules = false)
    (hactions' : ∀ action ∈ actions', action.changesRules = false)
    (plan plan' : PlanId) (s s' : PlanState)
    (hs : ((new settings catalog walks).run actions).plans[plan]? = some s)
    (hs' : ((new settings' catalog walks').run actions').plans[plan']? = some s')
    (hterm : ∀ id, s.graph.term? id = s'.graph.term? id) (hterms : s.terms = s'.terms)
    (hledger : ∀ id, ((new settings catalog walks).run actions).ledger.contains id =
      ((new settings' catalog walks').run actions').ledger.contains id) : s.graph = s'.graph := by
  have hp := (ruleFree_new settings hself walks).run hactions
  have hp' := (ruleFree_new settings' hself walks').run hactions'
  have hplan := hp.consistent plan s hs
  have hplan' := hp'.consistent plan' s' hs'
  have hup := hp.upToDate (by rwa [run_settings]) plan s hs
  have hup' := hp'.upToDate (by rwa [run_settings]) plan' s' hs'
  rw [run_catalog] at hplan hplan' hup hup'
  have hrules := (hp.ruleless plan s hs).trans (hp'.ruleless plan' s' hs').symm
  exact PlanState.graph_eq_of_upToDate hplan hplan' (Catalog.credits_nonneg hcredits)
    (filed_ledger_run settings catalog walks actions)
    (filed_ledger_run settings' catalog walks' actions') hup hup' hterm hterms hrules hledger

end Planner

namespace Sample

/-- Two courses are recorded before any course is planned. -/
def recordedFirst : List PlannerAction :=
  .recordTaken [comp 202, comp 203] :: lastToFirst

/-- The planned courses start out from one term, and the same courses are recorded in the end, the
other way round. -/
def recordedLast : List PlannerAction :=
  [.createPlan [⟨"first"⟩, ⟨"second"⟩, ⟨"third"⟩],
    .addCourses ⟨1⟩ ⟨"first"⟩ [comp 350, comp 251, comp 250],
    .moveCourses ⟨1⟩ [comp 251] ⟨"second"⟩,
    .moveCourses ⟨1⟩ [comp 350] ⟨"third"⟩,
    .recordTaken [comp 203],
    .recordTaken [comp 202]]

end Sample

open Sample in
/-- The two ledgers differ, and the graphs do not. -/
theorem Planner.graph_eq_recorded :
    let p := (new {} leafAndCredits).run recordedFirst
    let p' := (new {} leafAndCredits).run recordedLast
    p.ledger ≠ p'.ledger ∧ ∃ s s', p.plans[(⟨1⟩ : PlanId)]? = some s ∧
      p'.plans[(⟨1⟩ : PlanId)]? = some s' ∧ s.graph = s'.graph := by
  intro p p'
  have hcredits (id : CourseId) (entry : CourseEntry ℚ) (h : leafAndCredits.get? id = some entry) :
      0 ≤ entry.credits := by
    simp only [leafAndCredits, oneLeaf, Catalog.get?_insert] at h
    split at h
    · cases h
      decide
    · split at h
      · cases h
        decide
      · simp at h
  have hledger : p.ledger = Ledger.empty.run [.record (comp 202), .record (comp 203)] ∧
      p'.ledger = Ledger.empty.run [.record (comp 203), .record (comp 202)] := by
    decide +kernel
  have hplans : (p.plans[(⟨1⟩ : PlanId)]?).isSome = true ∧
      (p.plans[(⟨1⟩ : PlanId)]?).map (fun s =>
        (s.terms, s.graph.nodes.map fun _ node => node.term)) =
      (p'.plans[(⟨1⟩ : PlanId)]?).map (fun s =>
        (s.terms, s.graph.nodes.map fun _ node => node.term)) := by
    decide +kernel
  obtain ⟨hsome, hsame⟩ := hplans
  obtain ⟨s, hs⟩ := Option.isSome_iff_exists.1 hsome
  rw [hs, Option.map_some, eq_comm, Option.map_eq_some_iff] at hsame
  obtain ⟨s', hs', hpair⟩ := hsame
  obtain ⟨hterms, hnodes⟩ := Prod.mk.inj hpair
  refine ⟨by decide +kernel, s, s', hs, hs', ?_⟩
  refine run_graph_eq leafAndCredits hcredits leafAndCredits_selfless {} {} _ _ rfl rfl
    recordedFirst recordedLast (by decide) (by decide) ⟨1⟩ ⟨1⟩ s s' hs hs' (fun id => ?_)
    hterms.symm fun id => ?_
  · have hid := congrArg (fun nodes => nodes[id]?) hnodes
    simp only [Std.ExtTreeMap.getElem?_map] at hid
    exact hid.symm
  · change p.ledger.contains id = p'.ledger.contains id
    rw [hledger.1, hledger.2, Bool.eq_iff_iff]
    simp only [Ledger.run, List.foldl_cons, List.foldl_nil, Ledger.change, Ledger.contains_record,
      or_right_comm]

end Curriculum
