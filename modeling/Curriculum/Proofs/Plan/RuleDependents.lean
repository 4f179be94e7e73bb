import Curriculum.Proofs.Equivalence
import Curriculum.Proofs.Plan.Dependents

/-!
# Dependents of a rule

When a rule comes or goes, the planned courses that name a side of it are looked for, those that
are a side themselves one by one. A side is only asked whether it names the other side, so one that
names just itself is passed over.
-/

namespace Curriculum

/-- The course is a side of the rule, and of both sides it names itself only. -/
def EquivalenceRule.NamesOnlyItself {W : Type} (rule : EquivalenceRule) (catalog : Catalog W)
    (d : CourseId) : Prop :=
  catalog.references d d = true ∧ ∃ other, rule.Links d other ∧ ¬catalog.references d other = true

theorem EquivalenceRule.NamesOnlyItself.side {W : Type} {rule : EquivalenceRule}
    {catalog : Catalog W} {d : CourseId} (h : rule.NamesOnlyItself catalog d) :
    d = rule.first ∨ d = rule.second := by
  obtain ⟨_, _, ⟨hd, _⟩ | ⟨hd, _⟩, _⟩ := h
  · exact Or.inl hd.symm
  · exact Or.inr hd.symm

theorem EquivalenceRule.Links.eq {rule : EquivalenceRule} {d a b : CourseId} (ha : rule.Links d a)
    (hb : rule.Links d b) : a = b := by
  rcases ha with ⟨hd, rfl⟩ | ⟨hd, rfl⟩ <;> rcases hb with ⟨hd', rfl⟩ | ⟨hd', rfl⟩
  · rfl
  · rw [hd, hd']
  · rw [hd, hd']
  · rfl

namespace DependencyGraph

variable {W : Type} {g : DependencyGraph} {catalog : Catalog W} {rule : EquivalenceRule}
  {d : CourseId}

theorem mem_ruleDependents : d ∈ g.ruleDependents catalog rule ↔
    d ∈ g.referencing catalog [rule.first, rule.second] ∨
      d = rule.first ∧ g.contains d = true ∧ catalog.references d rule.second = true ∨
      d = rule.second ∧ g.contains d = true ∧ catalog.references d rule.first = true := by
  have hnames (side other : CourseId) :
      d ∈ (if g.contains side && catalog.references side other then {side} else ∅ : CourseSet) ↔
        d = side ∧ g.contains d = true ∧ catalog.references d other = true := by
    by_cases heq : d = side
    · subst heq
      by_cases hplanned : g.contains d = true
      · by_cases href : catalog.references d other = true <;> simp [hplanned, href]
      · simp [hplanned]
    · split <;> simp [heq, Ne.symm heq]
  unfold ruleDependents
  rw [Std.ExtTreeSet.mem_union_iff, Std.ExtTreeSet.mem_union_iff, hnames, hnames, or_assoc]

theorem mem_dependentsOf_of_links {other : CourseId} (h : rule.Links d other) :
    d ∈ g.dependentsOf catalog [rule.first, rule.second] ↔ g.contains d = true ∧
      (catalog.references d d = true ∨ catalog.references d other = true) := by
  rw [mem_dependentsOf]
  rcases h with ⟨rfl, rfl⟩ | ⟨rfl, rfl⟩
  · simp
  · simp [or_comm]

/-- A planned side is found if it names the other one. -/
theorem mem_ruleDependents_of_links {other : CourseId} (h : rule.Links d other) :
    d ∈ g.ruleDependents catalog rule ↔
      g.contains d = true ∧ catalog.references d other = true := by
  have hnamed (x : CourseId) (hx : rule.Links d x) :
      g.contains d = true ∧ catalog.references d x = true ↔
        g.contains d = true ∧ catalog.references d other = true := by
    rw [h.eq hx]
  have hside : d ∈ [rule.first, rule.second] := by
    rcases h with ⟨rfl, _⟩ | ⟨rfl, _⟩ <;> simp
  rw [mem_ruleDependents, mem_referencing]
  constructor
  · rintro (⟨_, hnot, _⟩ | ⟨hd, hnames⟩ | ⟨hd, hnames⟩)
    · exact absurd hside hnot
    · exact (hnamed rule.second (Or.inl ⟨hd.symm, rfl⟩)).1 hnames
    · exact (hnamed rule.first (Or.inr ⟨hd.symm, rfl⟩)).1 hnames
  · intro hnames
    rcases h with ⟨rfl, rfl⟩ | ⟨rfl, rfl⟩
    · exact Or.inr (Or.inl ⟨rfl, hnames⟩)
    · exact Or.inr (Or.inr ⟨rfl, hnames⟩)

theorem mem_ruleDependents_of_not_side (h : d ∉ [rule.first, rule.second]) :
    d ∈ g.ruleDependents catalog rule ↔ d ∈ g.dependentsOf catalog [rule.first, rule.second] := by
  have hsides : d ≠ rule.first ∧ d ≠ rule.second := by simpa using h
  rw [mem_ruleDependents, mem_referencing, mem_dependentsOf, and_iff_right h,
    or_iff_left (by simp [hsides])]

theorem mem_ruleDependents_iff : d ∈ g.ruleDependents catalog rule ↔
      d ∈ g.dependentsOf catalog [rule.first, rule.second] ∧ ¬rule.NamesOnlyItself catalog d := by
  by_cases hside : ∃ other, rule.Links d other
  · obtain ⟨other, hlinks⟩ := hside
    have honly : rule.NamesOnlyItself catalog d ↔
        catalog.references d d = true ∧ ¬catalog.references d other = true := by
      refine and_congr_right fun _ => ⟨?_, fun h => ⟨other, hlinks, h⟩⟩
      rintro ⟨x, hx, h⟩
      rwa [hlinks.eq hx]
    rw [mem_ruleDependents_of_links hlinks, mem_dependentsOf_of_links hlinks, honly]
    tauto
  · have hsides : d ∉ [rule.first, rule.second] := by
      intro hmem
      rcases List.mem_pair.1 hmem with rfl | rfl
      · exact hside ⟨rule.second, Or.inl ⟨rfl, rfl⟩⟩
      · exact hside ⟨rule.first, Or.inr ⟨rfl, rfl⟩⟩
    rw [mem_ruleDependents_of_not_side hsides]
    exact (and_iff_left fun ⟨_, other, hlinks, _⟩ => hside ⟨other, hlinks⟩).symm

theorem ruleDependents_eq_iff :
    g.ruleDependents catalog rule = g.dependentsOf catalog [rule.first, rule.second] ↔
      ∀ d, rule.NamesOnlyItself catalog d → ¬g.contains d = true := by
  constructor
  · intro heq d honly hplanned
    obtain ⟨other, hlinks, _⟩ := honly.2
    have hmem := (mem_dependentsOf_of_links hlinks).2 ⟨hplanned, Or.inl honly.1⟩
    rw [← heq, mem_ruleDependents_iff] at hmem
    exact hmem.2 honly
  · intro hnone
    ext d
    rw [mem_ruleDependents_iff]
    exact and_iff_left_of_imp fun hmem honly => hnone d honly (mem_dependentsOf.1 hmem).1

/-- A rule that comes or goes affects the planned courses that name a side of it, apart from the
sides that name only themselves. These are all that name a side if no planned side is so. -/
theorem ruleDependents_apart_from_sides (g : DependencyGraph) (catalog : Catalog W)
    (rule : EquivalenceRule) :
    (∀ d, d ∈ g.ruleDependents catalog rule ↔
      (g.contains d = true ∧
        (catalog.references d rule.first = true ∨ catalog.references d rule.second = true)) ∧
      ¬rule.NamesOnlyItself catalog d) ∧
    (g.ruleDependents catalog rule = g.dependentsOf catalog [rule.first, rule.second] ↔
      ∀ d, rule.NamesOnlyItself catalog d → ¬g.contains d = true) := by
  refine ⟨fun d => ?_, ruleDependents_eq_iff⟩
  rw [mem_ruleDependents_iff, mem_dependentsOf]
  simp

end DependencyGraph

namespace Sample

/-- `COMP 250` names itself. -/
def ownLeaf : Catalog ℚ :=
  Catalog.empty.insert
    ⟨comp 250, 3, ⟨some ⟨.prerequisite, .join .single [.course (comp 250)]⟩, none, none⟩⟩

end Sample

open Sample in
/-- `COMP 250` names a side of the rule, which is the course itself, and is not affected. -/
theorem DependencyGraph.ruleDependents_ownLeaf :
    let g := DependencyGraph.empty.run ownLeaf [.add ⟨"first"⟩ [comp 250]]
    let rule := EquivalenceRule.between (comp 202) (comp 250)
    ¬∀ d, d ∈ g.ruleDependents ownLeaf rule ↔ g.contains d = true ∧
      (ownLeaf.references d rule.first = true ∨ ownLeaf.references d rule.second = true) := by
  intro g rule hall
  have hmissed : comp 250 ∉ g.ruleDependents ownLeaf rule := by decide +kernel
  exact hmissed ((hall (comp 250)).2 (by decide +kernel))

end Curriculum
