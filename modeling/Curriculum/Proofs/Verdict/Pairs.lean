import Curriculum.Proofs.Verdict.Simplified
import Curriculum.Proofs.Verdict.Total

/-!
# Operands of a pair

A pair counts its operands, so it matters to it what they are merged into. A simplified pair asks
for two of the operands that are left, or for the group that has taken its place. If the pair is
steady, that comes to two of its operands as they stand. Otherwise it need not.
-/

namespace Curriculum

namespace Context

variable {W : Type} [CreditWeight W] {ctx : Context W} {g : DependencyGraph} {scope : Scope}

/-- A group that is left alone takes the place of its pair. There are no two operands then. -/
theorem collapse_pair_decides (h : ctx.TermsOrdered g) (nodes : List Node) :
    Decides (ctx.groupHolds g scope (Group.collapse .pair nodes))
      ((∃ only, nodes = [.group only] ∧ ctx.groupHolds g scope only = .ok true) ∨
        2 ≤ ctx.held g scope nodes) := by
  by_cases hlone : ∃ only, nodes = [.group only]
  · obtain ⟨only, rfl⟩ := hlone
    have hfew : ¬2 ≤ ctx.held g scope [.group only] := by
      have hle : ctx.held g scope [.group only] ≤ 1 := held_le_length
      omega
    obtain ⟨b, hb⟩ := groupHolds_hasVerdict h scope only
    rw [Group.collapse, hb]
    refine Decides.ok ⟨?_, ?_⟩
    · rintro rfl
      exact Or.inl ⟨only, rfl, hb⟩
    · rintro (⟨_, heq, htrue⟩ | htwo)
      · cases heq
        cases hb.symm.trans htrue
        rfl
      · exact absurd htwo hfew
  · rw [Group.collapse_of_ne (not_exists.1 hlone)]
    refine (join_decides h .pair nodes).congr (or_iff_right ?_).symm
    rintro ⟨only, heq, _⟩
    exact hlone ⟨only, heq⟩

/-- What a simplified pair asks for: that two of the operands hold that merging leaves, or the one
group that it leaves. If the pair is steady, that two of its own operands hold. -/
theorem simplify_pair_decides (ctx : Context W) (g : DependencyGraph) (scope : Scope)
    (nodes : List Node) (h : ctx.TermsOrdered g) :
    Decides (ctx.groupHolds g scope (Group.join .pair nodes).simplify)
        ((∃ only, Node.merged .pair nodes = [.group only] ∧
            ctx.groupHolds g scope only = .ok true) ∨
          2 ≤ ctx.held g scope (Node.merged .pair nodes)) ∧
      ((Group.join .pair nodes).Steady →
        Decides (ctx.groupHolds g scope (Group.join .pair nodes).simplify)
          (2 ≤ ctx.held g scope nodes)) := by
  constructor
  · rw [Group.simplify_join]
    exact collapse_pair_decides h _
  · intro hsteady
    rw [groupHolds_simplify _ hsteady]
    exact join_decides h .pair nodes

open Sample in
/-- One operand is completed and one planned before. The third one fails, although the pair in it
holds. -/
theorem simplify_pair_steady :
    let ctx : Context ℚ := ⟨twoTerms, Ledger.ofList [comp 251], twoCourses, .empty, .byId⟩
    let g := DependencyGraph.empty.run twoCourses [.add ⟨"first"⟩ [comp 250]]
    let scope : Scope := ⟨comp 361, 0, false⟩
    let inner : Group := .join .pair [.course (comp 250), .course (comp 251)]
    let nodes : List Node := [.course (comp 250), .group (.join .single [.course (comp 251)]),
      .group (.join .and [.group inner, .course (comp 302)])]
    ctx.TermsOrdered g ∧ (Group.join .pair nodes).Steady ∧ ctx.held g scope nodes = 2 ∧
      Decides (ctx.groupHolds g scope (Group.join .pair nodes).simplify)
        (2 ≤ ctx.held g scope nodes) := by
  intro ctx g scope inner nodes
  have hterms : ctx.TermsOrdered g :=
    termsOrdered_empty.add ⟨Int32.minValue, by decide +kernel⟩
  have hinner : inner.Steady :=
    .of_length (by simp [Node.Steady.course]) (by decide +kernel) (by decide +kernel)
  have hand : (Group.join .and [.group inner, .course (comp 302)]).Steady :=
    .of_length (by simp [Node.Steady.course, Node.Steady.group hinner]) (by decide +kernel)
      (by decide +kernel)
  have hsingle : (Group.join .single [.course (comp 251)]).Steady :=
    .join (by simp [Node.Steady.course]) (by decide +kernel) fun hpair => absurd hpair (by decide)
  have hsteady : (Group.join .pair nodes).Steady :=
    .of_length (by simp [nodes, Node.Steady.course, Node.Steady.group hand,
      Node.Steady.group hsingle]) (by decide +kernel) (by decide +kernel)
  refine ⟨hterms, hsteady, by decide +kernel, ?_⟩
  exact (simplify_pair_decides ctx g scope nodes hterms).2 hsteady

open Sample in
/-- The operands of a pair inside the pair count one by one, and so do the courses of a single
group; a pair gives way to the group that it stands around; and an AND group asks for both courses
of a single group inside it. -/
theorem simplify_pair_miscounts :
    let ctx : Context ℚ := ⟨.empty, Ledger.ofList [comp 250, comp 251], .empty, .empty, .byId⟩
    let g := DependencyGraph.empty
    let scope : Scope := ⟨comp 361, 0, false⟩
    let nested : List Node := [.group (.join .pair [.course (comp 250), .course (comp 302)]),
      .course (comp 251)]
    let untyped : List Node := [.group (.join .single [.course (comp 250), .course (comp 251)]),
      .course (comp 302)]
    let lone : List Node := [.group (.join .or [.course (comp 250), .course (comp 302)])]
    let deep : List Node := [.group (.join .and
      [.group (.join .single [.course (comp 250), .course (comp 302)]), .course (comp 251)]),
      .course (comp 250)]
    ctx.TermsOrdered g ∧ ∀ nodes ∈ [nested, untyped, lone, deep],
      ¬(ctx.groupHolds g scope (Group.join .pair nodes).simplify = .ok true ↔
        2 ≤ ctx.held g scope nodes) := by
  intro ctx g scope nested untyped lone deep
  exact ⟨termsOrdered_empty, by decide +kernel⟩

end Context

end Curriculum
