import Curriculum.Proofs.Planner.InPlace
import Curriculum.Proofs.Planner.Returned

/-!
# What actions leave alone

An action that fails changes nothing. One that succeeds changes what it is about: one plan, and in
it the courses, the order of terms or the rules; or the ledger. Everywhere else only verdicts in
store may be other than before. Plans are numbered in turn, so no number comes twice.
-/

namespace Curriculum

/-- What an action is about. -/
inductive ActionPart where
  | plans
  | courses
  | terms
  | rules
  | ledger
deriving DecidableEq

def PlannerAction.part : PlannerAction → ActionPart
  | .createPlan _ | .deletePlan _ => .plans
  | .addCourses _ _ _ | .deleteCourses _ _ | .moveCourses _ _ _ => .courses
  | .reorderTerms _ _ => .terms
  | .addEquivalence _ _ | .removeEquivalence _ _ => .rules
  | .recordTaken _ | .forgetTaken _ => .ledger

variable {W : Type}

/-- The graphs differ in verdicts in store at most. -/
structure DependencyGraph.SameButVerdicts (g g' : DependencyGraph) : Prop where
  bySubject : g'.bySubject = g.bySubject
  creditHolders : g'.creditHolders = g.creditHolders
  node : ∀ x, (g'.get? x).map (fun node => (node.term, node.dependents)) =
    (g.get? x).map fun node => (node.term, node.dependents)

/-- The plans differ in one part and in verdicts in store at most. -/
structure PlanState.KeptBut (part : ActionPart) (s s' : PlanState) : Prop where
  graph : part ≠ .courses → s.graph.SameButVerdicts s'.graph
  terms : part ≠ .terms → s'.terms = s.terms
  equivalences : part ≠ .rules → s'.equivalences = s.equivalences

namespace Planner

/-- The plan that an action starts, removes or changes, unless it is about the ledger. -/
def own (p : Planner W) : PlannerAction → Option PlanId
  | .createPlan _ => some ⟨p.nextPlan⟩
  | .deletePlan plan => some plan
  | action => action.target?

/-- Nothing differs but what an action is about, and verdicts in store. -/
structure Confined (p : Planner W) (action : PlannerAction) (p' : Planner W) : Prop where
  settings : p'.settings = p.settings
  catalog : p'.catalog = p.catalog
  walks : p'.walks = p.walks
  nextPlan : (∀ terms, action ≠ .createPlan terms) → p'.nextPlan = p.nextPlan
  ledger : action.part ≠ .ledger → p'.ledger = p.ledger
  elsewhere : action.part ≠ .ledger → ∀ plan, p.own action ≠ some plan →
    p'.plans[plan]? = p.plans[plan]?
  within : action.part ≠ .plans → ∀ plan : PlanId,
    Option.Rel (PlanState.KeptBut action.part) p.plans[plan]? p'.plans[plan]?

end Planner

/-! ## Success -/

theorem DependencyGraph.SameButVerdicts.refl (g : DependencyGraph) : g.SameButVerdicts g :=
  ⟨rfl, rfl, fun _ => rfl⟩

theorem PlanState.KeptBut.refl (part : ActionPart) (s : PlanState) : s.KeptBut part s :=
  ⟨fun _ => .refl s.graph, fun _ => rfl, fun _ => rfl⟩

variable {p p' : Planner W} {action : PlannerAction} {plan : PlanId} {s s' next next' : PlanState}
  {ledger ledger' : Ledger} {walk : Walk} {affected affected' : CourseSet} {reply : PlannerReply}

namespace Planner

theorem Effect.keptBut (h : p.Effect s action next ledger affected) :
    s.KeptBut action.part next := by
  cases h with
  | add | delete | move => exact ⟨fun hpart => absurd rfl hpart, fun _ => rfl, fun _ => rfl⟩
  | reorder => exact ⟨fun _ => .refl s.graph, fun hpart => absurd rfl hpart, fun _ => rfl⟩
  | addRule | removeRule =>
      exact ⟨fun _ => .refl s.graph, fun _ => rfl, fun hpart => absurd rfl hpart⟩
  | record | forget => exact .refl _ s

theorem Effect.unique (h : p.Effect s action next ledger affected)
    (h' : p.Effect s action next' ledger' affected') :
    next' = next ∧ ledger' = ledger ∧ affected' = affected := by
  cases h with
  | move plan hmove =>
      cases h' with
      | move plan hmove' =>
          cases hmove.symm.trans hmove'
          exact ⟨rfl, rfl, rfl⟩
  | _ =>
      cases h'
      exact ⟨rfl, rfl, rfl⟩

theorem own_of_target (h : action.target? = some plan) : p.own action = some plan := by
  cases action with
  | createPlan | deletePlan | recordTaken | forgetTaken => cases h
  | _ => exact h

variable [CreditWeight W]

theorem Settles.keptBut (h : p.Settles action ledger walk affected s s') :
    s.KeptBut action.part s' := by
  obtain ⟨next, heffect, hsettle⟩ := h
  obtain ⟨hgraph, hs'⟩ := PlanState.settle_eq_ok hsettle
  have hrecomputed := DependencyGraph.recompute_eq_ok hgraph
  have hkept := heffect.keptBut
  refine ⟨fun hpart => ?_, fun hpart => ?_, fun hpart => ?_⟩
  · have hbefore := hkept.graph hpart
    exact ⟨hrecomputed.bySubject.trans hbefore.bySubject,
      hrecomputed.creditHolders.trans hbefore.creditHolders,
      fun x => (hrecomputed.get?_congr (fun _ _ => rfl) x).trans (hbefore.node x)⟩
  · rw [hs']
    exact hkept.terms hpart
  · rw [hs']
    exact hkept.equivalences hpart

theorem part_of_done (h : p.perform action = .ok (p', .done)) : action.part = .ledger := by
  cases action with
  | createPlan => cases h
  | recordTaken | forgetTaken => rfl
  | _ =>
      obtain ⟨_, _, hreply⟩ := map_eq_ok.1 h
      cases hreply

/-- A successful action changes what it is about. -/
theorem confined (h : p.perform action = .ok (p', reply)) : p.Confined action p' := by
  cases performed h with
  | created terms =>
      refine ⟨rfl, rfl, rfl, fun hnot => absurd rfl (hnot terms), fun _ => rfl,
        fun _ plan hown => ?_, fun hpart => absurd rfl hpart⟩
      rw [createPlan, Std.ExtTreeMap.getElem?_insert, if_neg]
      rw [Std.compare_eq_iff_eq]
      exact fun heq => hown (congrArg some heq)
  | deleted hs =>
      refine ⟨rfl, rfl, rfl, fun _ => rfl, fun _ => rfl, fun _ plan hown => ?_,
        fun hpart => absurd rfl hpart⟩
      rw [Std.ExtTreeMap.getElem?_erase, if_neg]
      rw [Std.compare_eq_iff_eq]
      exact fun heq => hown (congrArg some heq)
  | @changed _ target s s' _ htarget hs hsettles =>
      have hown : p.own action = some target := own_of_target htarget
      refine ⟨rfl, rfl, rfl, fun _ => rfl, fun _ => rfl, fun _ plan hother => ?_, fun _ plan => ?_⟩
      · rw [Std.ExtTreeMap.getElem?_insert, if_neg]
        rw [Std.compare_eq_iff_eq]
        rintro rfl
        exact hother hown
      · rw [Std.ExtTreeMap.getElem?_insert]
        split
        next heq =>
          rw [Std.compare_eq_iff_eq] at heq
          rw [← heq, hs]
          exact .some hsettles.keptBut
        next =>
          cases p.plans[plan]? with
          | none => exact .none
          | some s => exact .some (.refl _ s)
  | @booked _ ledger plans htarget hledger hkept hplans =>
      have hpart := part_of_done h
      refine ⟨rfl, rfl, rfl, fun _ => rfl, fun hother => absurd hpart hother,
        fun hother => absurd hpart hother, fun _ plan => ?_⟩
      dsimp only
      cases hs' : plans[plan]? with
      | none =>
          rw [getElem?_eq_none_of_kept hkept hs']
          exact .none
      | some s' =>
          obtain ⟨s, affected, hs, hsettles⟩ := hplans plan s' hs'
          rw [hs]
          exact .some hsettles.keptBut

/-! ## Failure -/

/-- An action fails if a plan that it has to settle cannot be settled, be it one of several. -/
theorem fails_of_settle (hs : p.plans[plan]? = some s)
    (htarget : ∀ target, action.target? = some target → target = plan)
    (heffect : p.Effect s action next ledger affected) {cause : ConsistencyError}
    (hfail : next.settle ledger p.catalog (p.walks plan) affected = .error cause) :
    ∃ e, p.perform action = .error e := by
  -- Otherwise the plan would have been settled, by the only effect that the action can have on it.
  have hnot {s' : PlanState} {ledger' : Ledger} {affected' : CourseSet}
      (hsettles : p.Settles action ledger' (p.walks plan) affected' s s') : False := by
    obtain ⟨next', heffect', hsettle⟩ := hsettles
    obtain ⟨rfl, rfl, rfl⟩ := heffect.unique heffect'
    cases hfail.symm.trans hsettle
  cases hperform : p.perform action with
  | error e => exact ⟨e, rfl⟩
  | ok result =>
      obtain ⟨p', reply⟩ := result
      exfalso
      cases performed hperform with
      | created => cases heffect
      | deleted => cases heffect
      | changed hchanged hs' hsettles =>
          cases htarget _ hchanged
          cases hs.symm.trans hs'
          exact hnot hsettles
      | @booked _ _ plans _ _ hkept hplans =>
          cases hs' : plans[plan]? with
          | none => cases hs.symm.trans (getElem?_eq_none_of_kept hkept hs')
          | some s' =>
              obtain ⟨s₀, affected', hs₀, hsettles⟩ := hplans plan s' hs'
              cases hs.symm.trans hs₀
              exact hnot hsettles

/-! ## Numbers of plans -/

/-- The plans that a history of actions returns as created, in order. -/
def created (p : Planner W) : List PlannerAction → List PlanId
  | [] => []
  | action :: rest =>
    let next := (p.transact action).2
    match (p.transact action).1 with
    | .ok (.created plan) => plan :: next.created rest
    | _ => next.created rest

theorem number_of_created (h : (p.transact action).1 = .ok (.created plan)) :
    plan = ⟨p.nextPlan⟩ ∧ (p.transact action).2.nextPlan = p.nextPlan + 1 := by
  have hperformed := performed (transact_of_ok h)
  generalize (p.transact action).2 = next at hperformed ⊢
  cases hperformed with
  | created terms => exact ⟨rfl, rfl⟩

theorem number_of_not_created (h : ∀ plan, (p.transact action).1 ≠ .ok (.created plan)) :
    (p.transact action).2.nextPlan = p.nextPlan := by
  cases hreply : (p.transact action).1 with
  | error e => rw [(transact_of_error hreply).2]
  | ok reply =>
      have hperform := transact_of_ok hreply
      refine (confined hperform).nextPlan ?_
      rintro terms rfl
      cases hperform
      exact h _ hreply

/-- Plans are numbered in turn from the next number on. -/
theorem created_eq (p : Planner W) (actions : List PlannerAction) :
    p.created actions =
      (List.range (p.created actions).length).map fun i => ⟨p.nextPlan + UInt64.ofNat i⟩ := by
  induction actions generalizing p with
  | nil => rfl
  | cons action rest ih =>
      rw [created]
      split
      next plan hcreated =>
        obtain ⟨rfl, hnext⟩ := number_of_created hcreated
        rw [List.length_cons, List.range_succ_eq_map, List.map_cons, List.map_map, List.cons.injEq]
        refine ⟨by simp, (ih _).trans (List.map_congr_left fun i _ => ?_)⟩
        rw [hnext, Function.comp_apply, Nat.succ_eq_one_add, UInt64.ofNat_add, ← UInt64.add_assoc]
        rfl
      next hother =>
        have hnext := number_of_not_created fun plan h => hother plan h
        rw [← hnext]
        exact ih _

/-- No plan is returned twice, as long as the numbers last. -/
theorem created_nodup {actions : List PlannerAction}
    (h : (p.created actions).length ≤ UInt64.size) : (p.created actions).Nodup := by
  rw [created_eq]
  refine List.Nodup.map_on (fun i hi j hj heq => ?_) List.nodup_range
  rw [List.mem_range] at hi hj
  have hsame : UInt64.ofNat i = UInt64.ofNat j :=
    (UInt64.add_right_inj p.nextPlan).1 (PlanId.mk.inj heq)
  rw [← UInt64.toNat_ofNat_of_lt' (show i < UInt64.size by omega), hsame,
    UInt64.toNat_ofNat_of_lt' (show j < UInt64.size by omega)]

theorem mem_plans_step (h : plan ∈ (p.transact action).2.plans) :
    plan ∈ p.plans ∨ (p.transact action).1 = .ok (.created plan) := by
  cases hreply : (p.transact action).1 with
  | error e =>
      rw [(transact_of_error hreply).2] at h
      exact Or.inl h
  | ok reply =>
      have hperformed := performed (transact_of_ok hreply)
      generalize (p.transact action).2 = next at h hperformed
      cases hperformed with
      | created terms =>
          rw [createPlan, Std.ExtTreeMap.mem_insert, Std.compare_eq_iff_eq] at h
          exact h.symm.imp_right fun heq => by rw [← heq]; rfl
      | deleted hs => exact Or.inl (Std.ExtTreeMap.mem_of_mem_erase h)
      | changed htarget hs hsettles =>
          rw [Std.ExtTreeMap.mem_insert, Std.compare_eq_iff_eq] at h
          rcases h with rfl | h
          · exact Or.inl (Std.ExtTreeMap.mem_iff_isSome_getElem?.2 (by rw [hs]; rfl))
          · exact Or.inl h
      | booked htarget hledger hkept hplans =>
          obtain ⟨s', hs'⟩ := Option.isSome_iff_exists.1 (Std.ExtTreeMap.mem_iff_isSome_getElem?.1 h)
          obtain ⟨s, _, hs, _⟩ := hplans plan s' hs'
          exact Or.inl (Std.ExtTreeMap.mem_iff_isSome_getElem?.2 (by rw [hs]; rfl))

/-- A plan that is there after a history was there before, or was created. -/
theorem mem_plans_run {actions : List PlannerAction} (h : plan ∈ (p.run actions).plans) :
    plan ∈ p.plans ∨ plan ∈ p.created actions := by
  induction actions generalizing p with
  | nil => exact Or.inl h
  | cons action rest ih =>
      have hrest : plan ∈ ((p.transact action).2.run rest).plans := by
        rwa [transact_snd]
      rw [created]
      rcases ih hrest with hstep | hcreated
      · rcases mem_plans_step hstep with hbefore | hreply
        · exact Or.inl hbefore
        · rw [hreply]
          exact Or.inr List.mem_cons_self
      · split
        · exact Or.inr (List.mem_cons_of_mem _ hcreated)
        · exact Or.inr hcreated

theorem created_append (p : Planner W) (done rest : List PlannerAction) :
    p.created (done ++ rest) = p.created done ++ (p.run done).created rest := by
  induction done generalizing p with
  | nil => rfl
  | cons action done ih =>
      have hrun : p.run (action :: done) = (p.transact action).2.run done := by
        rw [transact_snd]
        rfl
      rw [List.cons_append, created, created, hrun, ih]
      split <;> rfl

/-- As long as the numbers last, a plan that is created takes the place of none. -/
theorem number_unused {settings : Settings} {catalog : Catalog W} {walks : PlanId → Walk}
    {actions : List PlannerAction}
    (h : ((new settings catalog walks).created actions).length < UInt64.size) :
    (⟨((new settings catalog walks).run actions).nextPlan⟩ : PlanId) ∉
      ((new settings catalog walks).run actions).plans := by
  intro hmem
  have hcreated := (mem_plans_run hmem).resolve_left (by simp [new])
  have happend := created_append (new settings catalog walks) actions [.createPlan []]
  have hnodup : ((new settings catalog walks).created (actions ++ [.createPlan []])).Nodup := by
    apply created_nodup
    rw [happend, List.length_append]
    exact h
  rw [happend, List.nodup_append] at hnodup
  exact hnodup.2.2 _ hcreated _ List.mem_cons_self rfl

/-- In place, an action that fails changes nothing, and it fails if one of the plans that it settles
cannot be settled. One that succeeds changes what it is about. The plans that a history creates, up
to the number of numbers, are different ones. -/
theorem transact_local (p : Planner W) :
    (∀ action e, (p.transact action).1 = .error e → (p.transact action).2 = p) ∧
    (∀ (action : PlannerAction) (plan : PlanId) (s next : PlanState) (ledger : Ledger)
      (affected : CourseSet) (cause : ConsistencyError), p.plans[plan]? = some s →
      (∀ target, action.target? = some target → target = plan) →
      p.Effect s action next ledger affected →
      next.settle ledger p.catalog (p.walks plan) affected = .error cause →
      ∃ e, p.transact action = (.error e, p)) ∧
    (∀ action reply, (p.transact action).1 = .ok reply →
      p.Confined action (p.transact action).2) ∧
    ∀ actions, (p.created actions).length ≤ UInt64.size → (p.created actions).Nodup := by
  refine ⟨fun action e h => (transact_of_error h).2, ?_,
    fun action reply h => confined (transact_of_ok h), fun actions => created_nodup⟩
  intro action plan s next ledger affected cause hs htarget heffect hfail
  obtain ⟨e, hperform⟩ := fails_of_settle hs htarget heffect hfail
  exact ⟨e, by rw [transact_eq, hperform]; rfl⟩

end Planner

namespace Sample

/-- A plan in which `COMP 251` stands in a term without a position. -/
def outOfTerms : PlanState :=
  ⟨(DependencyGraph.empty.add oneLeaf ⟨"gone"⟩ [comp 251]).1, .empty, .empty⟩

/-- A second plan beside one that is well. -/
def besideOutOfTerms : Planner ℚ :=
  let p := (Planner.new {} oneLeaf).run leafInPlace
  { p with plans := p.plans.insert ⟨2⟩ outOfTerms, nextPlan := 3 }

end Sample

open Sample in
/-- `COMP 250` cannot be recorded for the sake of the second plan, but deleted from the first. -/
theorem Planner.local_besideOutOfTerms :
    let p := besideOutOfTerms
    (∃ e, p.transact (.recordTaken [comp 250]) = (.error e, p)) ∧
    p.isSatisfied ⟨1⟩ (comp 251) = .ok true ∧
    (∃ p' reply, p.transact (.deleteCourses ⟨1⟩ [comp 250]) = (.ok reply, p') ∧
      p'.isSatisfied ⟨1⟩ (comp 251) = .ok false ∧
      p'.plans[(⟨2⟩ : PlanId)]? = some outOfTerms ∧ p'.ledger = p.ledger) ∧
    (p.created [.createPlan [], .deletePlan ⟨3⟩, .createPlan []]).Nodup := by
  intro p
  obtain ⟨_, hfails, hconfined, hnodup⟩ := transact_local p
  have hs : p.plans[(⟨2⟩ : PlanId)]? = some outOfTerms := Std.ExtTreeMap.getElem?_insert_self
  have hrefused : outOfTerms.settle (changeLedger Ledger.record p.ledger [comp 250]).1 p.catalog
      (p.walks ⟨2⟩) (outOfTerms.ledgerDependents p.catalog
        (changeLedger Ledger.record p.ledger [comp 250]).2) =
      .error (.termNotOrdered (comp 251) ⟨"gone"⟩) := by
    decide +kernel
  have hdeleted : ((p.transact (.deleteCourses ⟨1⟩ [comp 250])).1.map fun _ =>
      (p.transact (.deleteCourses ⟨1⟩ [comp 250])).2.isSatisfied ⟨1⟩ (comp 251)) =
        .ok (.ok false) := by
    decide +kernel
  obtain ⟨reply, hreply, hfalse⟩ := map_eq_ok.1 hdeleted
  have hkept := hconfined _ reply hreply
  refine ⟨hfails (.recordTaken [comp 250]) ⟨2⟩ _ _ _ _ _ hs nofun (.record _) hrefused,
    by decide +kernel, ⟨_, reply, Prod.ext hreply rfl, hfalse, ?_, hkept.ledger nofun⟩,
    hnodup _ (by decide +kernel)⟩
  rw [hkept.elsewhere nofun ⟨2⟩ (by decide), hs]

end Curriculum
