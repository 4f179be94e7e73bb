import Curriculum.Proofs.Plan.Concerned
import Curriculum.Proofs.Planner.Consistency
import Curriculum.Proofs.Planner.UpToDate

/-!
# What an action on a plan returns

An action on a plan returns the courses that it recomputed, no more and no less: they are all
planned, their verdicts in store are those from scratch, and the other courses were planned before
and keep the verdicts that they had in store.
-/

namespace Curriculum

variable {W : Type} {catalog : Catalog W} {d : CourseId}

/-! ## Recomputed courses are planned -/

theorem PlanState.planned_of_mem_ledgerDependents {s : PlanState} (hs : s.Sound catalog)
    {changed : List CourseId} (h : d ∈ s.ledgerDependents catalog changed) :
    s.graph.contains d = true := by
  rw [mem_ledgerDependents] at h
  rcases h with hholder | ⟨target, _, href⟩
  · exact (hs.exact.mem_creditDependents.1 hholder).1
  · exact (DependencyGraph.mem_referencing_singleton.1 href).1

theorem DependencyGraph.planned_of_mem_ruleDependents {g : DependencyGraph}
    {rule : EquivalenceRule} (h : d ∈ g.ruleDependents catalog rule) : g.contains d = true :=
  (mem_dependentsOf.1 (mem_ruleDependents_iff.1 h).1).1

namespace Planner

variable {p p' : Planner W} {action : PlannerAction} {plan : PlanId} {s s' next : PlanState}
  {ledger : Ledger} {walk : Walk} {affected : CourseSet} {reply : PlannerReply}

/-- A change of courses recomputes the courses planned afterwards that one of its courses concerns,
that hold a credit rule over a subject involved, if those are wanted, or that name an equivalent
and are none. -/
theorem mem_withGraph {c : PlanChange} {change : DependencyGraph × CourseSet}
    (hs : s.Sound p.catalog) (happly : s.graph.apply p.catalog c = .ok change) :
    d ∈ (p.withGraph s c.ids change).2 ↔ change.1.contains d = true ∧
      ((∃ id ∈ c.ids, (s.graph.contains id = true ∨ change.1.contains id = true) ∧
          p.catalog.Concerns id d) ∨
        p.settings.widenCreditDependents = true ∧
          (∃ id ∈ c.ids, p.catalog.asksCreditIn d id.subject) ∨
        (¬∃ id ∈ c.ids, d ∈ s.equivalences.equivalents id) ∧
          ∃ id ∈ c.ids, ∃ x ∈ s.equivalences.equivalents id,
            p.catalog.references d x = true) := by
  have hnext : (p.withGraph s c.ids change).1.Sound p.catalog :=
    ⟨hs.exact.apply happly, hs.symmetric⟩
  rw [and_or_left, ← DependencyGraph.mem_affected hs.exact happly]
  refine Std.ExtTreeSet.mem_union_iff.trans (or_congr_right ?_)
  exact PlanState.mem_changeDependents hnext

theorem Effect.planned (h : p.Effect s action next ledger affected) (hs : s.Sound p.catalog)
    (hd : d ∈ affected) : next.graph.contains d = true := by
  cases h with
  | add plan term ids => exact ((mem_withGraph (c := .add term ids) hs rfl).1 hd).1
  | delete plan ids => exact ((mem_withGraph (c := .delete ids) hs rfl).1 hd).1
  | @move plan ids term change hmove =>
      exact ((mem_withGraph (c := .move ids term) hs hmove).1 hd).1
  | reorder plan terms => exact DependencyGraph.mem_courses.1 hd
  | addRule plan rule => exact DependencyGraph.planned_of_mem_ruleDependents hd
  | removeRule plan rule => exact DependencyGraph.planned_of_mem_ruleDependents hd
  | record ids => exact PlanState.planned_of_mem_ledgerDependents hs hd
  | forget ids => exact PlanState.planned_of_mem_ledgerDependents hs hd

/-! ## Returned sets -/

variable [CreditWeight W]

theorem Settles.of_mem (h : p.Settles action ledger walk affected s s')
    (hs : s.Sound p.catalog) (hd : d ∈ affected) :
    ∃ node, s'.graph.get? d = some node ∧
      s'.verdict ledger p.catalog walk d = .ok node.isSatisfied := by
  obtain ⟨next, heffect, hsettle⟩ := h
  obtain ⟨hrecomputed, _, _⟩ := PlanState.settle_recomputed hsettle
  have hplanned := heffect.planned hs hd
  rw [← hrecomputed.contains] at hplanned
  obtain ⟨node, hnode⟩ := DependencyGraph.exists_get?_of_contains hplanned
  exact ⟨node, hnode, PlanState.verdict_of_mem hsettle hnode hd⟩

theorem Settles.of_not_mem (h : p.Settles action ledger walk affected s s')
    (hs : s.Sound p.catalog) {node : PlannedCourse} (hnode : s'.graph.get? d = some node)
    (hd : d ∉ affected) :
    ∃ old, s.graph.get? d = some old ∧ old.isSatisfied = node.isSatisfied := by
  obtain ⟨next, heffect, hsettle⟩ := h
  exact (heffect.transition hs).exists_kept hsettle hnode hd

/-- After any history, an action on a plan that succeeds returns a set of courses. Those in the set
are planned afterwards and have the verdict from scratch in store; those that are planned afterwards
and not in the set were planned before, with the same verdict in store. -/
theorem run_recomputed (settings : Settings) (catalog : Catalog W) (walks : PlanId → Walk)
    (actions : List PlannerAction) (action : PlannerAction) (plan : PlanId)
    (htarget : action.target? = some plan) (p' : Planner W) (reply : PlannerReply)
    (h : ((new settings catalog walks).run actions).perform action = .ok (p', reply)) :
    ∃ affected s s', reply = .recomputed affected ∧
      ((new settings catalog walks).run actions).plans[plan]? = some s ∧ p'.plans[plan]? = some s' ∧
      (∀ d ∈ affected, ∃ node, s'.graph.get? d = some node ∧
        s'.verdict p'.ledger catalog (p'.walks plan) d = .ok node.isSatisfied) ∧
      ∀ d node, s'.graph.get? d = some node → d ∉ affected →
        ∃ old, s.graph.get? d = some old ∧ old.isSatisfied = node.isSatisfied := by
  have hp : ((new settings catalog walks).run actions).Consistent :=
    (consistent_new settings catalog walks).run actions
  have hcatalog : ((new settings catalog walks).run actions).catalog = catalog :=
    run_catalog _ actions
  generalize (new settings catalog walks).run actions = p at h hp hcatalog ⊢
  subst hcatalog
  obtain ⟨s, s', affected, hs, hsettles, rfl, rfl⟩ := (performed h).of_target htarget
  have hsound := (hp plan s hs).sound
  exact ⟨affected, s, s', rfl, hs, Std.ExtTreeMap.getElem?_insert_self,
    fun d hd => hsettles.of_mem hsound hd,
    fun d node hnode hd => hsettles.of_not_mem hsound hnode hd⟩

end Planner

namespace Sample

/-- `COMP 251` after the course that it names. -/
def leafInPlace : List PlannerAction :=
  [.createPlan [⟨"first"⟩, ⟨"second"⟩],
    .addCourses ⟨1⟩ ⟨"first"⟩ [comp 250],
    .addCourses ⟨1⟩ ⟨"second"⟩ [comp 251]]

end Sample

open Sample in
/-- When `COMP 250` is deleted, `COMP 251` is returned and `COMP 250` is not. -/
theorem Planner.recomputed_leafInPlace :
    let p := (new {} oneLeaf).run leafInPlace
    p.isSatisfied ⟨1⟩ (comp 251) = .ok true ∧
      ∃ p' affected s', p.perform (.deleteCourses ⟨1⟩ [comp 250]) = .ok (p', .recomputed affected) ∧
        affected.toList = [comp 251] ∧ p'.plans[(⟨1⟩ : PlanId)]? = some s' ∧
        p'.isSatisfied ⟨1⟩ (comp 251) = .ok false ∧
        s'.verdict p'.ledger oneLeaf (p'.walks ⟨1⟩) (comp 251) = .ok false := by
  intro p
  have hreply : (p.perform (.deleteCourses ⟨1⟩ [comp 250])).map (fun result =>
      (result.2, result.1.isSatisfied ⟨1⟩ (comp 251))) =
        .ok (.recomputed (.ofList [comp 251]), .ok false) := by
    decide +kernel
  obtain ⟨⟨p', reply⟩, hperform, hresult⟩ := map_eq_ok.1 hreply
  obtain ⟨hset, hstored⟩ := Prod.mk.inj hresult
  dsimp only at hset hstored
  obtain ⟨affected, s, s', hsame, _, hs', hfresh, _⟩ :=
    run_recomputed {} oneLeaf _ leafInPlace (.deleteCourses ⟨1⟩ [comp 250]) ⟨1⟩ rfl p' reply
      hperform
  rw [hsame, PlannerReply.recomputed.injEq] at hset
  obtain ⟨node, hnode, hverdict⟩ := hfresh (comp 251) (by rw [hset]; decide)
  have hfalse : node.isSatisfied = false := by
    rw [isSatisfied, plan_eq_ok.2 hs'] at hstored
    simpa [Except.map, DependencyGraph.isSatisfied, hnode] using hstored
  rw [hfalse] at hverdict
  exact ⟨by decide +kernel, p', affected, s', hsame ▸ hperform, by rw [hset]; decide +kernel, hs',
    hstored, hverdict⟩

end Curriculum
