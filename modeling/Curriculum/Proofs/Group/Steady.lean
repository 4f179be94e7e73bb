import Curriculum.Proofs.Group.NormalForm

/-!
# Steady groups

Merging does not look at what a parent makes of its children: a single group gives way to its
courses also where all of them are asked for, and the operands of a pair inside a pair are counted
one by one. A group is steady if it has nothing of the kind in it. Trees without pairs are steady
if every single group nested in them stands around one child.
-/

namespace Curriculum

variable {c d : Connective} {nodes inner : List Node} {n : Node} {g k : Group}

/-- The children of a group once they are simplified and merged. -/
def Node.merged (c : Connective) (nodes : List Node) : List Node :=
  Node.spliceAll c (Node.simplifyAll nodes)

theorem Group.simplify_join : (Group.join c nodes).simplify =
    Group.collapse c (Node.merged c nodes) := by
  rw [Group.simplify, Node.merged]

theorem Node.simplifyAll_eq_map (nodes : List Node) :
    Node.simplifyAll nodes = nodes.map Node.simplify := by
  induction nodes with
  | nil => rw [Node.simplifyAll, List.map_nil]
  | cons n rest ih => rw [Node.simplifyAll, List.map_cons, ih]

theorem Node.normal_merged : ∀ n ∈ Node.merged c nodes, n.Normal ∧ n.Fits c :=
  Node.normal_spliceAll c _ (Node.normal_simplifyAll nodes)

/-- Merged into a parent joined by `c`, the node counts as it does as a child of it. Where one child
is enough, all nodes do; a single group that gives way to one child does so anywhere. A pair and a
single group that give way to no child fail, so they may be left out where operands are counted. -/
def Node.Blends (c : Connective) : Node → Prop
  | .group (.join d inner) =>
    (c = .and → d = .single → inner.length = 1) ∧
      (c = .pair → (d = .pair → inner = []) ∧ (d = .single → inner.length ≤ 1))
  | _ => True

instance : DecidablePred (Node.Blends c)
  | .course _ => isTrue trivial
  | .group .empty => isTrue trivial
  | .group (.credit _) => isTrue trivial
  | .group (.join d inner) => inferInstanceAs (Decidable
      ((c = .and → d = .single → inner.length = 1) ∧
        (c = .pair → (d = .pair → inner = []) ∧ (d = .single → inner.length ≤ 1))))

mutual

inductive Node.Steady : Node → Prop
  | course {id : CourseId} : Node.Steady (.course id)
  | group {g : Group} (h : Group.Steady g) : Node.Steady (.group g)

inductive Group.Steady : Group → Prop
  | empty : Group.Steady .empty
  | credit {rule : CreditRule} : Group.Steady (.credit rule)
  /-- A pair must not be left with a group as its only child either, since it gives way to it. -/
  | join {c : Connective} {nodes : List Node} (hnodes : ∀ n ∈ nodes, Node.Steady n)
    (hblends : ∀ n ∈ nodes, n.simplify.Blends c)
    (hlone : c = .pair → ∀ g, Node.merged .pair nodes ≠ [.group g]) :
    Group.Steady (.join c nodes)

end

/-- Where not one child alone is left, no group takes the place of its parent. -/
theorem Group.Steady.of_length (hnodes : ∀ n ∈ nodes, n.Steady)
    (hblends : ∀ n ∈ nodes, n.simplify.Blends c) (hlength : (Node.merged c nodes).length ≠ 1) :
    (Group.join c nodes).Steady := by
  refine .join hnodes hblends ?_
  rintro rfl g hlone
  rw [hlone] at hlength
  exact hlength rfl

/-- Where no operands are counted, a child blends in unless it is a single group that gives way to
several children or to none. -/
theorem Node.blends_of_length (hc : c ≠ .pair)
    (h : ∀ inner, n = .group (.join .single inner) → inner.length = 1) : n.Blends c := by
  cases n with
  | course id => trivial
  | group g =>
      cases g with
      | empty => trivial
      | credit rule => trivial
      | join d inner =>
          refine ⟨fun _ hsingle => ?_, fun hpair => absurd hpair hc⟩
          subst hsingle
          exact h inner rfl

theorem Node.Fits.blends (hc : c ≠ .pair) (h : n.Fits d) : n.Blends c := by
  apply Node.blends_of_length hc
  rintro inner rfl
  exact absurd rfl h.2

/-! ## Trees without pairs -/

/-- No group of the tree is a pair, and a nested single group stands around exactly one child. -/
structure Group.IsAndOr (g : Group) : Prop where
  kind : ∀ h, g.Nests h → h.kind ≠ .pair
  single : ∀ h, g.Nests h → ∀ k, .group k ∈ h.children → k.kind = .single →
    k.children.length = 1

theorem Group.isAndOr_of_no_children (hkind : g.kind ≠ .pair) (hchildren : g.children = []) :
    g.IsAndOr := by
  have hself (l : Group) (hnests : g.Nests l) : l = g := by
    cases hnests with
    | self => rfl
    | inside hchild _ =>
        rw [hchildren] at hchild
        cases hchild
  constructor
  · intro l hnests
    rwa [hself l hnests]
  · intro l hnests k hk
    rw [hself l hnests, hchildren] at hk
    cases hk

theorem Group.isAndOr_join_iff : (Group.join c nodes).IsAndOr ↔
    c ≠ .pair ∧ ∀ k, .group k ∈ nodes → k.IsAndOr ∧ (k.kind = .single → k.children.length = 1) := by
  constructor
  · intro h
    refine ⟨fun hc => h.kind _ (.self _) (congrArg Connective.kind hc), fun k hk => ⟨⟨?_, ?_⟩, ?_⟩⟩
    · exact fun l hnests => h.kind l (.inside hk hnests)
    · exact fun l hnests => h.single l (.inside hk hnests)
    · exact h.single _ (.self _) k hk
  · rintro ⟨hc, hnodes⟩
    constructor
    · intro l hnests
      rcases Group.nests_join_iff.1 hnests with rfl | ⟨k, hk, hinner⟩
      · exact mt (Connective.kind_inj (d := .pair)).1 hc
      · exact (hnodes k hk).1.kind l hinner
    · intro l hnests
      rcases Group.nests_join_iff.1 hnests with rfl | ⟨k, hk, hinner⟩
      · exact fun k hk => (hnodes k hk).2
      · exact (hnodes k hk).1.single l hinner

/-- Of a single group around one child, one child is left. -/
theorem Node.length_splice_single (hnormal : n.Normal)
    (hone : ∀ inner, n = .group (.join .single inner) → inner.length = 1) :
    (n.splice .single).length = 1 := by
  cases hnormal with
  | course => rw [Node.splice, List.length_singleton]
  | @group g hg =>
      rw [Node.splice]
      cases hg with
      | empty => rw [Group.splice, List.length_singleton]
      | credit => rw [Group.splice, List.length_singleton]
      | @join d inner _ hfits _ =>
          rw [Group.splice]
          split
          next hmerged =>
            obtain rfl := or_self_iff.1 hmerged
            rw [Node.spliceAll_of_fits hfits]
            exact hone inner rfl
          next => rw [List.length_singleton]

mutual

theorem Node.length_of_simplify_single : (n : Node) →
    (∀ k, n = .group k → k.IsAndOr ∧ (k.kind = .single → k.children.length = 1)) →
    ∀ inner, n.simplify = .group (.join .single inner) → inner.length = 1
  | .course id, _, inner, heq => by
      rw [Node.simplify] at heq
      cases heq
  | .group k, h, inner, heq => by
      rw [Node.simplify, Node.group.injEq] at heq
      exact k.length_of_simplify_single (h k rfl).1 (h k rfl).2 inner heq

theorem Group.length_of_simplify_single : (g : Group) → g.IsAndOr →
    (g.kind = .single → g.children.length = 1) →
    ∀ inner, g.simplify = .join .single inner → inner.length = 1
  | .empty, _, _, inner, heq => by
      rw [Group.simplify] at heq
      cases heq
  | .credit rule, _, _, inner, heq => by
      rw [Group.simplify] at heq
      cases heq
  | .join c nodes, h, hone, inner, heq => by
      rw [Group.simplify_join] at heq
      by_cases hlone : ∃ k, Node.merged c nodes = [.group k]
      · -- The child that takes the place of its parent is not a single group.
        obtain ⟨k, hk⟩ := hlone
        rw [hk, Group.collapse] at heq
        have hfits := (Node.normal_merged (c := c) (.group k) (hk ▸ List.mem_cons_self)).2
        subst heq
        exact absurd rfl hfits.2
      · rw [Group.collapse_of_ne (not_exists.1 hlone), Group.join.injEq] at heq
        obtain ⟨rfl, rfl⟩ := heq
        obtain ⟨n, rfl⟩ := List.length_eq_one_iff.1 (hone rfl)
        rw [Node.merged, Node.simplifyAll, Node.simplifyAll, Node.spliceAll, Node.spliceAll,
          List.append_nil]
        apply Node.length_splice_single n.normal_simplify
        apply n.length_of_simplify_single
        rintro k rfl
        exact (Group.isAndOr_join_iff.1 h).2 k List.mem_cons_self

end

mutual

theorem Node.steady_of_isAndOr : (n : Node) → (∀ k, n = .group k → k.IsAndOr) → n.Steady
  | .course _, _ => .course
  | .group k, h => .group (h k rfl).steady

theorem Group.IsAndOr.steady : {g : Group} → g.IsAndOr → g.Steady
  | .empty, _ => .empty
  | .credit _, _ => .credit
  | .join c nodes, h => by
      obtain ⟨hpair, hgroups⟩ := Group.isAndOr_join_iff.1 h
      have hnodes : ∀ n ∈ nodes, ∀ k, n = .group k →
          k.IsAndOr ∧ (k.kind = .single → k.children.length = 1) := by
        rintro _ hn k rfl
        exact hgroups k hn
      refine .join (Node.steadyAll_of_isAndOr nodes fun n hn k hk => (hnodes n hn k hk).1) ?_
        fun heq => absurd heq hpair
      intro n hn
      apply Node.blends_of_length hpair
      exact n.length_of_simplify_single (hnodes n hn)

theorem Node.steadyAll_of_isAndOr :
    (nodes : List Node) → (∀ n ∈ nodes, ∀ k, n = .group k → k.IsAndOr) → ∀ n ∈ nodes, n.Steady
  | [], _ => nofun
  | n :: rest, h => by
      rw [List.forall_mem_cons] at h ⊢
      exact ⟨n.steady_of_isAndOr h.1, Node.steadyAll_of_isAndOr rest h.2⟩

end

end Curriculum
