import Std.Data.ExtTreeMap.Lemmas
import Curriculum.Planner.Action
import Curriculum.Proofs.Outcome

/-!
# Steps of a planner

A step that does not fail commits either a change of one plan or a change of the ledger. The first
leaves all other plans alone, and the second settles every plan.
-/

namespace Curriculum

namespace PlanState

variable {W : Type} [CreditWeight W] {catalog : Catalog W} {s s' : PlanState} {ledger : Ledger}
  {walk : Walk} {affected : CourseSet}

/-- Settling replaces the graph. -/
theorem settle_eq_ok (h : s.settle ledger catalog walk affected = .ok s') :
    s.graph.recompute (s.context ledger catalog walk) affected = .ok s'.graph ∧
      s' = { s with graph := s'.graph } := by
  obtain ⟨g, hgraph, hs'⟩ := bind_eq_ok.1 h
  cases hs'
  exact ⟨hgraph, rfl⟩

end PlanState

namespace Planner

variable {W : Type} [CreditWeight W] {p p' : Planner W} {action : PlannerAction} {plan : PlanId}
  {affected : CourseSet} {ledger : Ledger} {changed : List CourseId}
  {change : PlanState → Except ConsistencyError (PlanState × CourseSet)}

omit [CreditWeight W] in
theorem plan_eq_ok {s : PlanState} : p.plan plan = .ok s ↔ p.plans[plan]? = some s := by
  unfold Planner.plan
  cases p.plans[plan]? <;> simp

theorem commit_eq_ok (h : p.commit plan change = .ok (p', affected)) :
    ∃ s next settled, p.plans[plan]? = some s ∧ change s = .ok (next, affected) ∧
      next.settle p.ledger p.catalog (p.walks plan) affected = .ok settled ∧
      p' = { p with plans := p.plans.insert plan settled } := by
  simp only [commit, bind_eq_ok, mapError_eq_ok, pure_eq_ok, plan_eq_ok] at h
  obtain ⟨s, hs, ⟨next, affected'⟩, hchange, settled, hsettle, hp'⟩ := h
  cases hp'
  exact ⟨s, next, settled, hs, hchange, hsettle, rfl⟩

theorem settleAll_eq_ok {catalog : Catalog W} {walks : PlanId → Walk}
    {entries settled : List (PlanId × PlanState)}
    (h : settleAll catalog ledger walks changed entries = .ok settled) :
    settled.map Prod.fst = entries.map Prod.fst ∧
      ∀ entry ∈ settled, ∃ s, (entry.1, s) ∈ entries ∧
        s.settle ledger catalog (walks entry.1) (s.ledgerDependents catalog changed) =
          .ok entry.2 := by
  induction entries generalizing settled with
  | nil =>
      cases h
      exact ⟨rfl, nofun⟩
  | cons first rest ih =>
      obtain ⟨plan, s⟩ := first
      simp only [settleAll, bind_eq_ok, pure_eq_ok] at h
      obtain ⟨s', hsettle, others, hrest, rfl⟩ := h
      obtain ⟨hplans, hentries⟩ := ih hrest
      refine ⟨congrArg (plan :: ·) hplans, ?_⟩
      rw [List.forall_mem_cons]
      refine ⟨⟨s, List.mem_cons_self, hsettle⟩, fun entry hentry => ?_⟩
      obtain ⟨old, hold, hsettled⟩ := hentries entry hentry
      exact ⟨old, List.mem_cons_of_mem _ hold, hsettled⟩

/-- An entry of a map after several insertions is one of those inserted, or was not touched. -/
theorem getElem?_foldl_insert {plans : Std.ExtTreeMap PlanId PlanState}
    {entries : List (PlanId × PlanState)} {s : PlanState}
    (h : (entries.foldl (fun plans entry => plans.insert entry.1 entry.2) plans)[plan]? = some s) :
    (plan, s) ∈ entries ∨ plan ∉ entries.map Prod.fst ∧ plans[plan]? = some s := by
  induction entries generalizing plans with
  | nil => exact Or.inr ⟨List.not_mem_nil, h⟩
  | cons entry rest ih =>
      rcases ih h with hrest | ⟨hrest, hplans⟩
      · exact Or.inl (List.mem_cons_of_mem _ hrest)
      · simp only [Std.ExtTreeMap.getElem?_insert, Std.compare_eq_iff_eq] at hplans
        split at hplans
        next heq =>
          cases hplans
          subst heq
          exact Or.inl List.mem_cons_self
        next hne =>
          refine Or.inr ⟨?_, hplans⟩
          rw [List.map_cons, List.mem_cons, not_or]
          exact ⟨Ne.symm hne, hrest⟩

/-- Insertions remove no entry. -/
theorem mem_foldl_insert {plans : Std.ExtTreeMap PlanId PlanState}
    {entries : List (PlanId × PlanState)} (h : plan ∈ plans) :
    plan ∈ entries.foldl (fun plans entry => plans.insert entry.1 entry.2) plans := by
  induction entries generalizing plans with
  | nil => exact h
  | cons entry rest ih =>
      apply ih
      rw [Std.ExtTreeMap.mem_insert]
      exact Or.inr h

/-- A change of the ledger settles every plan, and no plan comes or goes. -/
theorem commitLedger_eq_ok (h : p.commitLedger ledger changed = .ok p') :
    ∃ plans, p' = { p with ledger, plans } ∧ (∀ plan, plan ∈ p.plans → plan ∈ plans) ∧
      ∀ (plan : PlanId) (s' : PlanState), plans[plan]? = some s' →
        ∃ s, p.plans[plan]? = some s ∧
          s.settle ledger p.catalog (p.walks plan) (s.ledgerDependents p.catalog changed) =
            .ok s' := by
  simp only [commitLedger, bind_eq_ok, mapError_eq_ok, pure_eq_ok] at h
  obtain ⟨settled, hsettled, rfl⟩ := h
  obtain ⟨hplans, hentries⟩ := settleAll_eq_ok hsettled
  refine ⟨_, rfl, fun plan hplan => mem_foldl_insert hplan, fun plan s' hs' => ?_⟩
  rcases getElem?_foldl_insert hs' with hmem | ⟨hnot, hold⟩
  · obtain ⟨s, hs, hsettle⟩ := hentries _ hmem
    exact ⟨s, Std.ExtTreeMap.mem_toList_iff_getElem?_eq_some.1 hs, hsettle⟩
  · -- Every plan is settled, so none is left over.
    rw [hplans] at hnot
    refine absurd ?_ hnot
    exact List.mem_map.2
      ⟨(plan, s'), Std.ExtTreeMap.mem_toList_iff_getElem?_eq_some.2 hold, rfl⟩

omit [CreditWeight W] in
/-- A plan that is gone where every plan was kept was not there. -/
theorem getElem?_eq_none_of_kept {plans plans' : Std.ExtTreeMap PlanId PlanState}
    (hkept : ∀ plan, plan ∈ plans → plan ∈ plans') (h : plans'[plan]? = none) :
    plans[plan]? = none := by
  refine Std.ExtTreeMap.getElem?_eq_none fun hmem => ?_
  simpa [Std.ExtTreeMap.mem_iff_isSome_getElem?, h] using hkept plan hmem

/-! ## Steps -/

theorem step_of_error {e : PlannerError} (h : p.perform action = .error e) :
    p.step action = p := by
  rw [step, h]

theorem step_of_ok {reply : PlannerReply} (h : p.perform action = .ok (p', reply)) :
    p.step action = p' := by
  rw [step, h]

/-- What all actions of a history preserve holds at its end. -/
theorem run_induction {I : Planner W → Prop} {actions : List PlannerAction}
    (hstep : ∀ q, ∀ action ∈ actions, I q → I (q.step action)) (hp : I p) : I (p.run actions) := by
  induction actions generalizing p with
  | nil => exact hp
  | cons action rest ih =>
      apply ih
      · intro q action hmem
        exact hstep q action (List.mem_cons_of_mem _ hmem)
      · exact hstep p action List.mem_cons_self hp

end Planner

end Curriculum
