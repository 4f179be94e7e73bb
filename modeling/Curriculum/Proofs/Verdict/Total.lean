import Curriculum.Proofs.Verdict.Decided
import Curriculum.Proofs.Verdict.Recompute

/-!
# When there is a verdict

The one thing that keeps an examination from a verdict is a planned course in a term without a
position. Where there is none, every examination ends with a verdict, in whatever numbers credits
are counted, and the verdict on a joined group counts its children that hold; and recomputing
succeeds exactly if there is none, provided that the courses that are not recomputed stand in
terms with positions.
-/

namespace Curriculum

/-- There is a verdict, be it true or false. -/
def HasVerdict (v : Verdict) : Prop := ∃ b, v = .ok b

namespace HasVerdict

variable {v t e : Verdict}

theorem ok (b : Bool) : HasVerdict (.ok b) := ⟨b, rfl⟩

theorem of_decides {P : Prop} (h : Decides v P) : HasVerdict v := by
  obtain ⟨b, hv, _⟩ := h
  exact ⟨b, hv⟩

theorem not (h : HasVerdict v) : HasVerdict (v >>= fun b => pure !b) := by
  obtain ⟨b, rfl⟩ := h
  exact ok !b

/-- A verdict that selects how to go on. -/
theorem ite (hv : HasVerdict v) (ht : HasVerdict t) (he : HasVerdict e) :
    HasVerdict (v >>= fun b => if b = true then t else e) := by
  obtain ⟨b, rfl⟩ := hv
  change HasVerdict (if b = true then t else e)
  split
  · exact ht
  · exact he

theorem eq_of_iff {w : Verdict} (hv : HasVerdict v) (hw : HasVerdict w)
    (h : v = .ok true ↔ w = .ok true) : v = w := by
  obtain ⟨b, rfl⟩ := hv
  obtain ⟨c, rfl⟩ := hw
  rw [Except.ok.injEq, Except.ok.injEq] at h
  rw [Bool.eq_iff_iff.2 h]

end HasVerdict

/-- How many of its children a group asks for. -/
def Connective.quota : Connective → List Node → Nat
  | .single, _ => 1
  | .and, nodes => nodes.length
  | .or, _ => 1
  | .pair, _ => 2

variable {W : Type} [CreditWeight W]

namespace Context

variable {ctx ctx' : Context W} {g g' : DependencyGraph} {scope scope' : Scope}

theorem creditsReach_hasVerdict (h : ctx.TermsOrdered g) (required : UInt32) (sum : W)
    (ids : List CourseId) : HasVerdict (ctx.creditsReach g scope required sum ids) := by
  induction ids generalizing sum with
  | nil => exact .ok false
  | cons id rest ih =>
      have hdone := HasVerdict.of_decides (ctx.done_decides h scope id)
      rw [creditsReach_cons]
      refine hdone.ite ?_ (ih sum)
      split
      · exact .ok true
      · exact ih _

theorem creditHolds_hasVerdict (h : ctx.TermsOrdered g) (scope : Scope) (rule : CreditRule) :
    HasVerdict (ctx.creditHolds g scope rule) := by
  unfold creditHolds
  split
  · exact .ok true
  · exact creditsReach_hasVerdict h _ _ _

mutual

theorem nodeHolds_hasVerdict (h : ctx.TermsOrdered g) (scope : Scope) :
    (n : Node) → HasVerdict (ctx.nodeHolds g scope n)
  | .course id => by
      rw [nodeHolds]
      exact .of_decides (ctx.leafHolds_decides h scope id)
  | .group group => by
      rw [nodeHolds]
      exact groupHolds_hasVerdict h scope group

theorem groupHolds_hasVerdict (h : ctx.TermsOrdered g) (scope : Scope) :
    (group : Group) → HasVerdict (ctx.groupHolds g scope group)
  | .empty => by
      rw [groupHolds]
      exact .ok true
  | .credit rule => by
      rw [groupHolds]
      exact creditHolds_hasVerdict h scope rule
  | .join .and nodes => by
      rw [groupHolds]
      exact allHold_hasVerdict h scope nodes
  | .join .pair nodes => by
      rw [groupHolds]
      exact enoughHold_hasVerdict h scope nodes 2
  | .join .or nodes => by
      rw [groupHolds]
      exact enoughHold_hasVerdict h scope nodes 1
  | .join .single nodes => by
      rw [groupHolds]
      exact enoughHold_hasVerdict h scope nodes 1

theorem allHold_hasVerdict (h : ctx.TermsOrdered g) (scope : Scope) :
    (nodes : List Node) → HasVerdict (ctx.allHold g scope nodes)
  | [] => by
      rw [allHold]
      exact .ok true
  | n :: rest => by
      rw [allHold]
      exact (nodeHolds_hasVerdict h scope n).ite (allHold_hasVerdict h scope rest) (.ok false)

theorem enoughHold_hasVerdict (h : ctx.TermsOrdered g) (scope : Scope) :
    (nodes : List Node) → (wanted : Nat) → HasVerdict (ctx.enoughHold g scope wanted nodes)
  | [], wanted => by
      rw [enoughHold]
      exact .ok _
  | n :: rest, wanted => by
      rw [enoughHold]
      split
      · exact .ok true
      · exact (nodeHolds_hasVerdict h scope n).ite (enoughHold_hasVerdict h scope rest _)
          (enoughHold_hasVerdict h scope rest _)

end

/-! ## Children that hold -/

/-- How many of some nodes hold. -/
def held (ctx : Context W) (g : DependencyGraph) (scope : Scope) (nodes : List Node) : Nat :=
  nodes.countP fun n => ctx.nodeHolds g scope n = .ok true

theorem held_le_length {nodes : List Node} : ctx.held g scope nodes ≤ nodes.length :=
  List.countP_le_length

theorem held_cons_of_holds {n : Node} {nodes : List Node}
    (hn : ctx.nodeHolds g scope n = .ok true) :
    ctx.held g scope (n :: nodes) = ctx.held g scope nodes + 1 :=
  List.countP_cons_of_pos (decide_eq_true hn)

theorem held_cons_of_fails {n : Node} {nodes : List Node}
    (hn : ctx.nodeHolds g scope n = .ok false) :
    ctx.held g scope (n :: nodes) = ctx.held g scope nodes := by
  apply List.countP_cons_of_neg
  rw [hn]
  decide

theorem allHold_decides_held (h : ctx.TermsOrdered g) (nodes : List Node) :
    Decides (ctx.allHold g scope nodes) (nodes.length ≤ ctx.held g scope nodes) := by
  induction nodes with
  | nil =>
      rw [allHold]
      exact Decides.ok ⟨fun _ => le_rfl, fun _ => rfl⟩
  | cons n rest ih =>
      obtain ⟨b, hn⟩ := nodeHolds_hasVerdict h scope n
      rw [allHold, hn, List.length_cons]
      cases b with
      | true =>
          rw [held_cons_of_holds hn]
          exact ih.congr Nat.succ_le_succ_iff.symm
      | false =>
          rw [held_cons_of_fails hn]
          have hle : ctx.held g scope rest ≤ rest.length := held_le_length
          exact Decides.ok ⟨nofun, fun hall => by omega⟩

theorem enoughHold_decides_held (h : ctx.TermsOrdered g) (nodes : List Node) (wanted : Nat) :
    Decides (ctx.enoughHold g scope wanted nodes) (wanted ≤ ctx.held g scope nodes) := by
  induction nodes generalizing wanted with
  | nil =>
      rw [enoughHold]
      exact Decides.ok (by simp [held])
  | cons n rest ih =>
      obtain ⟨b, hn⟩ := nodeHolds_hasVerdict h scope n
      rw [enoughHold, hn]
      split
      next hzero => exact Decides.ok ⟨fun _ => by omega, fun _ => rfl⟩
      next hzero =>
        cases b with
        | true =>
            rw [held_cons_of_holds hn]
            exact (ih (wanted - 1)).congr (by omega)
        | false =>
            rw [held_cons_of_fails hn]
            exact ih wanted

/-- A joined group asks for a number of its children, in whatever order they stand. -/
theorem join_decides (h : ctx.TermsOrdered g) (c : Connective) (nodes : List Node) :
    Decides (ctx.groupHolds g scope (.join c nodes))
      (c.quota nodes ≤ ctx.held g scope nodes) := by
  cases c with
  | single =>
      rw [groupHolds]
      exact enoughHold_decides_held h nodes 1
  | and =>
      rw [groupHolds]
      exact allHold_decides_held h nodes
  | or =>
      rw [groupHolds]
      exact enoughHold_decides_held h nodes 1
  | pair =>
      rw [groupHolds]
      exact enoughHold_decides_held h nodes 2

mutual

/-- Where leaves and credit rules that hold go on to hold, so do groups. -/
theorem groupHolds_mono (h : ctx.TermsOrdered g) (h' : ctx'.TermsOrdered g')
    (hleaf : ∀ id, ctx.leafHolds g scope id = .ok true → ctx'.leafHolds g' scope' id = .ok true)
    (hcredit : ∀ rule, ctx.creditHolds g scope rule = .ok true →
      ctx'.creditHolds g' scope' rule = .ok true) :
    (group : Group) → ctx.groupHolds g scope group = .ok true →
      ctx'.groupHolds g' scope' group = .ok true
  | .empty, _ => by
      rw [groupHolds]
  | .credit rule, hgroup => by
      rw [groupHolds] at hgroup ⊢
      exact hcredit rule hgroup
  | .join c nodes, hgroup => by
      rw [(join_decides h c nodes).eq_true_iff] at hgroup
      rw [(join_decides h' c nodes).eq_true_iff]
      -- As many children are asked for as before, and those that held are among those that hold.
      refine hgroup.trans (List.countP_mono_left fun n hn hholds => ?_)
      rw [decide_eq_true_iff] at hholds ⊢
      exact nodesHold_mono h h' hleaf hcredit nodes n hn hholds

theorem nodesHold_mono (h : ctx.TermsOrdered g) (h' : ctx'.TermsOrdered g')
    (hleaf : ∀ id, ctx.leafHolds g scope id = .ok true → ctx'.leafHolds g' scope' id = .ok true)
    (hcredit : ∀ rule, ctx.creditHolds g scope rule = .ok true →
      ctx'.creditHolds g' scope' rule = .ok true) :
    (nodes : List Node) → ∀ n ∈ nodes, ctx.nodeHolds g scope n = .ok true →
      ctx'.nodeHolds g' scope' n = .ok true
  | [] => nofun
  | .course id :: rest => by
      rw [List.forall_mem_cons, nodeHolds, nodeHolds]
      exact ⟨hleaf id, nodesHold_mono h h' hleaf hcredit rest⟩
  | .group group :: rest => by
      rw [List.forall_mem_cons, nodeHolds, nodeHolds]
      exact ⟨groupHolds_mono h h' hleaf hcredit group, nodesHold_mono h h' hleaf hcredit rest⟩

end

/-! ## Courses -/

theorem allMet_hasVerdict (h : ctx.TermsOrdered g) (course : CourseId) (position : Int32)
    (requirements : List Requirement) : HasVerdict (ctx.allMet g course position requirements) := by
  induction requirements with
  | nil => exact .ok true
  | cons r rest ih =>
      have hmet : HasVerdict (r.isMetBy fun group includesCurrent =>
          ctx.groupHolds g ⟨course, position, includesCurrent⟩ group) := by
        unfold Requirement.isMetBy
        split
        · split
          · exact .ok true
          · exact (groupHolds_hasVerdict h _ _).not
        · exact groupHolds_hasVerdict h _ _
      rw [allMet]
      exact hmet.ite ih (.ok false)

/-- Where all terms of planned courses have positions, there is a verdict on every course. -/
theorem isSatisfied_hasVerdict (h : ctx.TermsOrdered g) (course : CourseId) :
    HasVerdict (ctx.isSatisfied g course) := by
  obtain ⟨planned, heq, _⟩ := ctx.plannedPosition_ordered h course
  unfold isSatisfied
  rw [heq]
  cases planned with
  | none => exact .ok false
  | some position =>
      have hbefore : HasVerdict (ctx.predecessorInPlace g course position) := by
        unfold predecessorInPlace
        cases course.predecessorPart? with
        | none => exact .ok true
        | some part => exact .of_decides (ctx.directlyBefore_decides h position part)
      exact (allMet_hasVerdict h course position _).ite hbefore (.ok false)

/-- There is no verdict on a course whose own term has no position. -/
theorem position?_of_isSatisfied {course : CourseId} {term : TermId} {b : Bool}
    (h : ctx.isSatisfied g course = .ok b) (hterm : g.term? course = some term) :
    ∃ position, ctx.terms.position? term = some position := by
  obtain ⟨planned, hplanned, _⟩ := bind_eq_ok.1 h
  simp only [plannedPosition, hterm] at hplanned
  split at hplanned
  next position hposition => exact ⟨position, hposition⟩
  next => cases hplanned

end Context

/-! ## Recomputing -/

theorem exists_mapM_verdict {ε : Type} {v : CourseId → Except ε Bool} (ids : List CourseId)
    (h : ∀ id ∈ ids, ∃ b, v id = .ok b) :
    ∃ out, (ids.mapM fun id => do return (id, ← v id)) = .ok out := by
  induction ids with
  | nil => exact ⟨[], rfl⟩
  | cons id rest ih =>
      rw [List.forall_mem_cons] at h
      obtain ⟨b, hid⟩ := h.1
      obtain ⟨out, hrest⟩ := ih h.2
      refine ⟨(id, b) :: out, ?_⟩
      simp only [List.mapM_cons, bind_eq_ok, pure_eq_ok]
      exact ⟨(id, b), ⟨b, hid, rfl⟩, out, hrest, rfl⟩

theorem DependencyGraph.exists_recompute {ctx : Context W} {g : DependencyGraph}
    {affected : CourseSet}
    (h : ∀ id ∈ affected, g.contains id = true → ∃ b, ctx.isSatisfied g id = .ok b) :
    ∃ next, g.recompute ctx affected = .ok next := by
  obtain ⟨out, hout⟩ := exists_mapM_verdict (affected.toList.filter g.contains) fun id hid =>
    h id (Std.ExtTreeSet.mem_toList.1 (List.mem_filter.1 hid).1) (List.mem_filter.1 hid).2
  exact ⟨_, bind_eq_ok.2 ⟨out, hout, rfl⟩⟩

/-- Recomputing comes upon a term without a position exactly if there is one, unless only courses
that are left out stand in it. -/
theorem DependencyGraph.recompute_ok_iff {ctx : Context W} {g : DependencyGraph}
    {affected : CourseSet} (hout : ∀ id term, g.term? id = some term → id ∉ affected →
      ∃ position, ctx.terms.position? term = some position) :
    (∃ next, g.recompute ctx affected = .ok next) ↔ ctx.TermsOrdered g := by
  constructor
  · rintro ⟨next, hnext⟩ id term hterm
    by_cases hmem : id ∈ affected
    · have hplanned : g.contains id = true := by
        rw [← term?_isSome, hterm]
        rfl
      obtain ⟨b, hb⟩ := (recompute_eq_ok hnext).exists_verdict hmem hplanned
      exact Context.position?_of_isSatisfied hb hterm
    · exact hout id term hterm hmem
  · intro hordered
    exact exists_recompute fun id _ _ => ctx.isSatisfied_hasVerdict hordered id

end Curriculum
