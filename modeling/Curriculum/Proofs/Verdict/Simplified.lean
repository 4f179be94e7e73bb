import Curriculum.Proofs.Group.Steady
import Curriculum.Proofs.Verdict.Declarative

/-!
# Verdicts on simplified groups

Simplifying reshapes a requisite at every depth. In a steady group the same leaves are examined in
the same order up to the one that decides, so the verdict is the same, or the same error comes
first. Trees of AND and OR groups are steady.
-/

namespace Curriculum

/-- Two parts of a group examined one after the other. The first one decides, unless it says what
the group says without children. -/
def Connective.inTurn (c : Connective) (first second : Verdict) : Verdict :=
  first >>= fun b => if b = decide (c = .and) then second else .ok b

section

variable {c : Connective} {b : Bool} {u v w : Verdict}

theorem Connective.inTurn_ok :
    c.inTurn (.ok b) w = if b = decide (c = .and) then w else .ok b :=
  rfl

theorem Connective.inTurn_neutral_right : c.inTurn v (.ok (decide (c = .and))) = v := by
  cases v with
  | error e => rfl
  | ok b =>
      rw [inTurn_ok]
      split
      next h => rw [h]
      next => rfl

theorem Connective.inTurn_assoc : c.inTurn (c.inTurn u v) w = c.inTurn u (c.inTurn v w) := by
  cases u with
  | error e => rfl
  | ok b =>
      rw [inTurn_ok, inTurn_ok]
      split
      next => rfl
      next h => rw [inTurn_ok, if_neg h]

end

namespace Context

variable {W : Type} [CreditWeight W] {ctx : Context W} {g : DependencyGraph} {scope : Scope}
  {c d : Connective} {nodes nodes' : List Node} {n : Node}

/-! ## Children in turn -/

theorem nodeHolds_group {group : Group} :
    ctx.nodeHolds g scope (.group group) = ctx.groupHolds g scope group := by
  rw [nodeHolds]

theorem groupHolds_nil (hc : c ≠ .pair) :
    ctx.groupHolds g scope (.join c []) = .ok (decide (c = .and)) := by
  cases c with
  | single =>
      rw [groupHolds, enoughHold]
      rfl
  | and =>
      rw [groupHolds, allHold]
      rfl
  | or =>
      rw [groupHolds, enoughHold]
      rfl
  | pair => exact absurd rfl hc

theorem enoughHold_zero : ctx.enoughHold g scope 0 nodes = .ok true := by
  cases nodes with
  | nil =>
      rw [enoughHold]
      rfl
  | cons n rest =>
      rw [enoughHold]
      rfl

theorem enoughHold_one_cons :
    ctx.enoughHold g scope 1 (n :: nodes) =
      Connective.or.inTurn (ctx.nodeHolds g scope n) (ctx.enoughHold g scope 1 nodes) := by
  rw [enoughHold, if_neg Nat.one_ne_zero, enoughHold_zero]
  cases ctx.nodeHolds g scope n with
  | error e => rfl
  | ok b => cases b <;> rfl

theorem groupHolds_cons (hc : c ≠ .pair) :
    ctx.groupHolds g scope (.join c (n :: nodes)) =
      c.inTurn (ctx.nodeHolds g scope n) (ctx.groupHolds g scope (.join c nodes)) := by
  cases c with
  | single =>
      rw [groupHolds, groupHolds, enoughHold_one_cons]
      rfl
  | and =>
      rw [groupHolds, groupHolds, allHold]
      cases ctx.nodeHolds g scope n with
      | error e => rfl
      | ok b => cases b <;> rfl
  | or => rw [groupHolds, groupHolds, enoughHold_one_cons]
  | pair => exact absurd rfl hc

theorem groupHolds_append (hc : c ≠ .pair) :
    ctx.groupHolds g scope (.join c (nodes ++ nodes')) =
      c.inTurn (ctx.groupHolds g scope (.join c nodes))
        (ctx.groupHolds g scope (.join c nodes')) := by
  induction nodes with
  | nil => rw [List.nil_append, groupHolds_nil hc, Connective.inTurn_ok, if_pos rfl]
  | cons n rest ih =>
      rw [List.cons_append, groupHolds_cons hc, ih, groupHolds_cons hc, Connective.inTurn_assoc]

theorem groupHolds_singleton (hc : c ≠ .pair) :
    ctx.groupHolds g scope (.join c [n]) = ctx.nodeHolds g scope n := by
  rw [groupHolds_cons hc, groupHolds_nil hc, Connective.inTurn_neutral_right]

/-- A single group is examined like any group of which one child is enough. -/
theorem groupHolds_single (hand : c ≠ .and) (hpair : c ≠ .pair) :
    ctx.groupHolds g scope (.join .single nodes) = ctx.groupHolds g scope (.join c nodes) := by
  cases c with
  | single => rfl
  | and => exact absurd rfl hand
  | or => rw [groupHolds, groupHolds]
  | pair => exact absurd rfl hpair

/-- Of its children, a group looks at their verdicts only. -/
theorem childrenHold_of_verdicts
    (h : nodes.map (ctx.nodeHolds g scope) = nodes'.map (ctx.nodeHolds g scope)) :
    ctx.allHold g scope nodes = ctx.allHold g scope nodes' ∧
      ∀ wanted, ctx.enoughHold g scope wanted nodes = ctx.enoughHold g scope wanted nodes' := by
  induction nodes generalizing nodes' with
  | nil =>
      rw [List.map_nil, eq_comm, List.map_eq_nil_iff] at h
      subst h
      exact ⟨rfl, fun _ => rfl⟩
  | cons n rest ih =>
      obtain ⟨n', rest', rfl, hn, hrest⟩ := List.map_eq_cons_iff.1 h.symm
      obtain ⟨hall, henough⟩ := ih hrest.symm
      simp only [allHold, enoughHold, hn, hall, henough, implies_true, and_self]

theorem groupHolds_of_verdicts
    (h : nodes.map (ctx.nodeHolds g scope) = nodes'.map (ctx.nodeHolds g scope)) :
    ctx.groupHolds g scope (.join c nodes) = ctx.groupHolds g scope (.join c nodes') := by
  obtain ⟨hall, henough⟩ := childrenHold_of_verdicts h
  cases c with
  | single => rw [groupHolds, groupHolds, henough]
  | and => rw [groupHolds, groupHolds, hall]
  | or => rw [groupHolds, groupHolds, henough]
  | pair => rw [groupHolds, groupHolds, henough]

/-! ## Merged children -/

/-- A single group that gives way to one child is examined like any group of that child. -/
theorem groupHolds_single_of_blends (hc : c ≠ .pair)
    (hblends : (Node.group (.join .single nodes)).Blends c) :
    ctx.groupHolds g scope (.join c nodes) = ctx.groupHolds g scope (.join .single nodes) := by
  by_cases hand : c = .and
  · obtain ⟨n, rfl⟩ := List.length_eq_one_iff.1 (hblends.1 hand rfl)
    rw [groupHolds_singleton hc, groupHolds_singleton (c := .single) (by decide)]
  · exact (groupHolds_single hand hc).symm

mutual

theorem groupHolds_node_splice (hc : c ≠ .pair) : (n : Node) → n.Normal → n.Blends c →
    ctx.groupHolds g scope (.join c (n.splice c)) = ctx.nodeHolds g scope n
  | .course id, _, _ => by
      rw [Node.splice, groupHolds_singleton hc]
  | .group group, .group hnormal, hblends => by
      rw [Node.splice, nodeHolds]
      exact groupHolds_splice hc group hnormal hblends

theorem groupHolds_splice (hc : c ≠ .pair) : (group : Group) → group.Normal →
    (Node.group group).Blends c →
    ctx.groupHolds g scope (.join c (group.splice c)) = ctx.groupHolds g scope group
  | .empty, _, _ => by
      rw [Group.splice, groupHolds_singleton hc, nodeHolds]
  | .credit rule, _, _ => by
      rw [Group.splice, groupHolds_singleton hc, nodeHolds]
  | .join d nodes, .join hnormal hfits hne, hblends => by
      rw [Group.splice]
      split
      next hmerged =>
        rw [groupHolds_spliceAll hc nodes hnormal fun n hn => (hfits n hn).blends hc]
        rcases hmerged with rfl | rfl
        · rfl
        · exact groupHolds_single_of_blends hc hblends
      next => rw [groupHolds_singleton hc, nodeHolds]

theorem groupHolds_spliceAll (hc : c ≠ .pair) : (nodes : List Node) → (∀ n ∈ nodes, n.Normal) →
    (∀ n ∈ nodes, n.Blends c) →
    ctx.groupHolds g scope (.join c (Node.spliceAll c nodes)) =
      ctx.groupHolds g scope (.join c nodes)
  | [], _, _ => by rw [Node.spliceAll]
  | n :: rest, hnormal, hblends => by
      rw [List.forall_mem_cons] at hnormal hblends
      rw [Node.spliceAll, groupHolds_append hc, groupHolds_cons hc,
        groupHolds_node_splice hc n hnormal.1 hblends.1,
        groupHolds_spliceAll hc rest hnormal.2 hblends.2]

end

theorem nodeHolds_childless (hc : c ≠ .and) :
    ctx.nodeHolds g scope (.group (.join c [])) = .ok false := by
  rw [nodeHolds_group]
  cases c with
  | single => exact groupHolds_nil (by decide)
  | and => exact absurd rfl hc
  | or => exact groupHolds_nil (by decide)
  | pair =>
      rw [groupHolds, enoughHold]
      rfl

theorem enoughHold_cons_of_fails {wanted : Nat} (h : ctx.nodeHolds g scope n = .ok false) :
    ctx.enoughHold g scope wanted (n :: nodes) = ctx.enoughHold g scope wanted nodes := by
  rw [enoughHold, h]
  split
  next hzero =>
    rw [hzero, enoughHold_zero]
    rfl
  next => rfl

/-- A single group around one course counts like the course, and one around nothing does not. -/
theorem enoughHold_splice_single {wanted : Nat} {inner : List Node} (hlength : inner.length ≤ 1)
    (hne : ∀ k, inner ≠ [.group k]) :
    ctx.enoughHold g scope wanted (Node.spliceAll .pair inner ++ nodes) =
      ctx.enoughHold g scope wanted (.group (.join .single inner) :: nodes) := by
  match inner, hlength, hne with
  | [], _, _ =>
      rw [Node.spliceAll, List.nil_append,
        enoughHold_cons_of_fails (nodeHolds_childless (by decide))]
  | [.course id], _, _ =>
      have hsame : ctx.nodeHolds g scope (.group (.join .single [.course id])) =
          ctx.nodeHolds g scope (.course id) := by
        rw [nodeHolds_group, groupHolds_singleton (by decide)]
      rw [Node.spliceAll, Node.splice, Node.spliceAll, List.append_nil, List.singleton_append,
        enoughHold, enoughHold, hsame]
  | [.group k], _, hne => exact absurd rfl (hne k)

theorem enoughHold_splice_pair {wanted : Nat} (hnormal : n.Normal) (hblends : n.Blends .pair) :
    ctx.enoughHold g scope wanted (n.splice .pair ++ nodes) =
      ctx.enoughHold g scope wanted (n :: nodes) := by
  cases hnormal with
  | course => rw [Node.splice, List.singleton_append]
  | @group group hgroup =>
      rw [Node.splice]
      cases hgroup with
      | empty => rw [Group.splice, List.singleton_append]
      | credit => rw [Group.splice, List.singleton_append]
      | @join d inner _ _ hne =>
          obtain ⟨hpair, hsingle⟩ := hblends.2 rfl
          rw [Group.splice]
          split
          next hmerged =>
            rcases hmerged with rfl | rfl
            · -- A childless pair gives way to nothing, and fails.
              obtain rfl := hpair rfl
              rw [Node.spliceAll, List.nil_append,
                enoughHold_cons_of_fails (nodeHolds_childless (by decide))]
            · exact enoughHold_splice_single (hsingle rfl) hne
          next => rw [List.singleton_append]

theorem enoughHold_spliceAll_pair (hnormal : ∀ n ∈ nodes, n.Normal)
    (hblends : ∀ n ∈ nodes, n.Blends .pair) (wanted : Nat) :
    ctx.enoughHold g scope wanted (Node.spliceAll .pair nodes) =
      ctx.enoughHold g scope wanted nodes := by
  induction nodes generalizing wanted with
  | nil => rw [Node.spliceAll]
  | cons n rest ih =>
      rw [List.forall_mem_cons] at hnormal hblends
      rw [Node.spliceAll, enoughHold_splice_pair hnormal.1 hblends.1, enoughHold, enoughHold]
      simp only [ih hnormal.2 hblends.2]

/-! ## Simplified groups -/

theorem groupHolds_merged (hverdicts : (Node.simplifyAll nodes).map (ctx.nodeHolds g scope) =
      nodes.map (ctx.nodeHolds g scope))
    (hblends : ∀ n ∈ nodes, n.simplify.Blends c) :
    ctx.groupHolds g scope (.join c (Node.merged c nodes)) =
      ctx.groupHolds g scope (.join c nodes) := by
  have hnormal := Node.normal_simplifyAll nodes
  have hblends' : ∀ n ∈ Node.simplifyAll nodes, n.Blends c := by
    rw [Node.simplifyAll_eq_map]
    exact List.forall_mem_map.2 hblends
  rw [← groupHolds_of_verdicts hverdicts, Node.merged]
  by_cases hc : c = .pair
  · subst hc
    rw [groupHolds, groupHolds, enoughHold_spliceAll_pair hnormal hblends']
  · exact groupHolds_spliceAll hc _ hnormal hblends'

theorem groupHolds_collapse (h : c = .pair → ∀ k, nodes ≠ [.group k]) :
    ctx.groupHolds g scope (Group.collapse c nodes) = ctx.groupHolds g scope (.join c nodes) := by
  unfold Group.collapse
  split
  next k => rw [groupHolds_singleton fun hc => h hc k rfl, nodeHolds]
  next => rfl

mutual

theorem nodeHolds_simplify : (n : Node) → n.Steady →
    ctx.nodeHolds g scope n.simplify = ctx.nodeHolds g scope n
  | .course id, _ => by rw [Node.simplify]
  | .group group, .group h => by
      rw [Node.simplify, nodeHolds, nodeHolds, groupHolds_simplify group h]

theorem groupHolds_simplify : (group : Group) → group.Steady →
    ctx.groupHolds g scope group.simplify = ctx.groupHolds g scope group
  | .empty, _ => by rw [Group.simplify]
  | .credit rule, _ => by rw [Group.simplify]
  | .join c nodes, .join hnodes hblends hlone => by
      have hcollapse : c = .pair → ∀ k, Node.merged c nodes ≠ [.group k] := by
        rintro rfl
        exact hlone rfl
      rw [Group.simplify_join, groupHolds_collapse hcollapse,
        groupHolds_merged (verdicts_simplifyAll nodes hnodes) hblends]

theorem verdicts_simplifyAll : (nodes : List Node) → (∀ n ∈ nodes, n.Steady) →
    (Node.simplifyAll nodes).map (ctx.nodeHolds g scope) = nodes.map (ctx.nodeHolds g scope)
  | [], _ => by rw [Node.simplifyAll]
  | n :: rest, h => by
      rw [List.forall_mem_cons] at h
      rw [Node.simplifyAll, List.map_cons, List.map_cons, nodeHolds_simplify n h.1,
        verdicts_simplifyAll rest h.2]

end

/-- A tree of AND and OR groups is examined like its simplified form, whatever there is to find: the
verdict is the same, or the same planned course is met first whose term has no position. -/
theorem groupHolds_simplify_of_andOr (ctx : Context W) (g : DependencyGraph) (scope : Scope)
    (group : Group) (h : group.IsAndOr) :
    ctx.groupHolds g scope group.simplify = ctx.groupHolds g scope group :=
  groupHolds_simplify group h.steady

open Sample in
/-- Merging leaves the planned course as the first leaf that is examined, and its term has no
position. -/
theorem groupHolds_simplify_outOfTerms :
    let ctx : Context ℚ := ⟨twoTerms, .empty, twoCourses, .empty, .byId⟩
    let g := DependencyGraph.empty.run twoCourses [.add ⟨"third"⟩ [comp 250]]
    let scope : Scope := ⟨comp 251, 0, false⟩
    let anySubject : Group := .credit ⟨3, "0", []⟩
    let group : Group := .join .and
      [.group (.join .single [.group (.join .or [.group (.join .or []), .course (comp 250)])]),
        .group (.join .and [.group anySubject, .group .empty])]
    group.IsAndOr ∧
      group.simplify = .join .and
        [.group (.join .or [.course (comp 250)]), .group anySubject, .group .empty] ∧
      ctx.groupHolds g scope group.simplify = .error (.termNotOrdered (comp 250) ⟨"third"⟩) := by
  intro ctx g scope anySubject group
  have hcredit : anySubject.IsAndOr := Group.isAndOr_of_no_children nofun rfl
  have hempty : Group.empty.IsAndOr := Group.isAndOr_of_no_children nofun rfl
  have hgroup : group.IsAndOr := by
    simp [group, Group.isAndOr_join_iff, hcredit, hempty, Group.kind, Connective.kind,
      Group.children]
  refine ⟨hgroup, by decide +kernel, ?_⟩
  rw [groupHolds_simplify_of_andOr ctx g scope group hgroup]
  decide +kernel

end Context

end Curriculum
