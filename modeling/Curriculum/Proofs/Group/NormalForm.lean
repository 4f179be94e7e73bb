import Curriculum.Proofs.Group.Normal

/-!
# Normal form

Whether a group is normal can be seen at the groups that are nested in it: none is a single group
or of the kind of its parent, and none has a group as its only child. Simplifying gives a group of
this form, and these groups are the ones that it leaves alone.
-/

namespace Curriculum

variable {g h k : Group} {c d : Connective}

theorem Connective.kind_inj : c.kind = d.kind ↔ c = d := by
  cases c <;> cases d <;> decide

/-- The second group is the first one, or is nested in it at some depth. -/
inductive Group.Nests : Group → Group → Prop
  | self (g : Group) : Group.Nests g g
  | inside {g k h : Group} (hchild : .group k ∈ g.children) (hnests : Group.Nests k h) :
    Group.Nests g h

theorem Group.nests_join_iff {nodes : List Node} :
    (Group.join c nodes).Nests h ↔ h = .join c nodes ∨ ∃ k, .group k ∈ nodes ∧ k.Nests h := by
  constructor
  · intro hnests
    cases hnests with
    | self => exact Or.inl rfl
    | inside hchild hinner => exact Or.inr ⟨_, hchild, hinner⟩
  · rintro (rfl | ⟨k, hchild, hinner⟩)
    · exact .self _
    · exact .inside hchild hinner

structure Group.InNormalForm (g : Group) : Prop where
  /-- No nested group is a single group, or joined like the group that it is a child of. -/
  kind : ∀ h, g.Nests h → ∀ k, .group k ∈ h.children → k.kind ≠ .single ∧ k.kind ≠ h.kind
  /-- No group has a group as its only child. -/
  children : ∀ h, g.Nests h → ∀ k, h.children ≠ [.group k]

namespace Group.InNormalForm

theorem child (h : g.InNormalForm) (hchild : .group k ∈ g.children) : k.InNormalForm where
  kind l hnests := h.kind l (.inside hchild hnests)
  children l hnests := h.children l (.inside hchild hnests)

theorem fits {nodes : List Node} (h : (Group.join c nodes).InNormalForm) :
    ∀ n ∈ nodes, n.Fits c := by
  intro n hn
  cases n with
  | course id => trivial
  | group k =>
      obtain ⟨hsingle, hparent⟩ := h.kind _ (.self _) k hn
      cases k with
      | empty => trivial
      | credit rule => trivial
      | join d inner => exact ⟨mt Connective.kind_inj.2 hparent, mt Connective.kind_inj.2 hsingle⟩

end Group.InNormalForm

mutual

theorem Node.normal_of_inNormalForm :
    (n : Node) → (∀ k, n = .group k → k.InNormalForm) → n.Normal
  | .course _, _ => .course
  | .group g, h => .group (g.normal_of_inNormalForm (h g rfl))

theorem Group.normal_of_inNormalForm : (g : Group) → g.InNormalForm → g.Normal
  | .empty, _ => .empty
  | .credit _, _ => .credit
  | .join _ nodes, h => by
      have hnodes : ∀ n ∈ nodes, ∀ k, n = .group k → k.InNormalForm := by
        rintro _ hn k rfl
        exact h.child hn
      exact .join (Node.normalAll_of_inNormalForm nodes hnodes) h.fits (h.children _ (.self _))

theorem Node.normalAll_of_inNormalForm :
    (nodes : List Node) → (∀ n ∈ nodes, ∀ k, n = .group k → k.InNormalForm) →
      ∀ n ∈ nodes, n.Normal
  | [], _ => nofun
  | n :: rest, h => by
      rw [List.forall_mem_cons] at h ⊢
      exact ⟨n.normal_of_inNormalForm h.1, Node.normalAll_of_inNormalForm rest h.2⟩

end

theorem Group.Normal.child (h : g.Normal) (hchild : .group k ∈ g.children) : k.Normal := by
  cases h with
  | empty => cases hchild
  | credit => cases hchild
  | join hnormal _ _ =>
      cases hnormal _ hchild with
      | group hk => exact hk

theorem Group.Normal.nested (hnests : g.Nests h) (hg : g.Normal) : h.Normal := by
  induction hnests with
  | self => exact hg
  | inside hchild _ ih => exact ih (hg.child hchild)

/-- What a normal group looks like at itself. -/
theorem Group.Normal.kind_ne (h : g.Normal) (hchild : .group k ∈ g.children) :
    k.kind ≠ .single ∧ k.kind ≠ g.kind := by
  cases h with
  | empty => cases hchild
  | credit => cases hchild
  | @join c nodes _ hfits _ =>
      cases k with
      | empty => cases c <;> exact ⟨nofun, nofun⟩
      | credit rule => cases c <;> exact ⟨nofun, nofun⟩
      | join d inner =>
          obtain ⟨hparent, hsingle⟩ := hfits _ hchild
          exact ⟨mt (Connective.kind_inj (d := .single)).1 hsingle,
            mt Connective.kind_inj.1 hparent⟩

theorem Group.Normal.children_ne (h : g.Normal) (k : Group) : g.children ≠ [.group k] := by
  cases h with
  | empty => exact nofun
  | credit => exact nofun
  | join _ _ hne => exact hne k

theorem Group.inNormalForm_iff_normal : g.InNormalForm ↔ g.Normal := by
  constructor
  · exact g.normal_of_inNormalForm
  · intro hnormal
    exact {
      kind := fun h hnests k hchild => (hnormal.nested hnests).kind_ne hchild
      children := fun h hnests => (hnormal.nested hnests).children_ne }

/-- Simplifying reaches the normal form, leaves exactly the groups in normal form alone, and so has
nothing left to do a second time. -/
theorem Group.simplify_normalForm (g : Group) :
    g.simplify.InNormalForm ∧ (g.InNormalForm ↔ g.simplify = g) ∧
      g.simplify.simplify = g.simplify := by
  have hreached : g.simplify.InNormalForm := inNormalForm_iff_normal.2 g.normal_simplify
  refine ⟨hreached, ⟨fun hform => ?_, fun hsame => ?_⟩, g.simplify_simplify⟩
  · exact g.simplify_of_normal (inNormalForm_iff_normal.1 hform)
  · rw [← hsame]
    exact hreached

end Curriculum
