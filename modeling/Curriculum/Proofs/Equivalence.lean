import Curriculum.Equivalence
import Curriculum.Proofs.Course.Set

/-!
# Links of equivalence rules

What a rule that comes or goes does to the links of each course. Rules that were only ever added
and taken away link both ways and keep no empty entries, so they are determined by their links.
-/

namespace Curriculum

/-- The rule is between these two courses, in this or the other order. -/
def EquivalenceRule.Links (rule : EquivalenceRule) (a b : CourseId) : Prop :=
  rule.first = a ∧ rule.second = b ∨ rule.second = a ∧ rule.first = b

theorem EquivalenceRule.links_comm {rule : EquivalenceRule} {a b : CourseId} :
    rule.Links a b ↔ rule.Links b a := by
  unfold Links
  rw [or_comm, and_comm, and_comm (a := rule.first = a)]

namespace EquivalenceRules

variable {r : EquivalenceRules} {rule : EquivalenceRule} {a b id x : CourseId}
  {links : Std.ExtTreeMap CourseId CourseSet}

theorem mem_link : x ∈ (link links a b)[id]?.getD ∅ ↔ a = id ∧ b = x ∨ x ∈ links[id]?.getD ∅ := by
  simp only [link, Std.ExtTreeMap.getElem?_alter, Std.compare_eq_iff_eq]
  by_cases heq : a = id
  · subst heq
    simp
  · simp [heq]

theorem mem_unlink :
    x ∈ (unlink links a b)[id]?.getD ∅ ↔ ¬(a = id ∧ b = x) ∧ x ∈ links[id]?.getD ∅ := by
  simp only [unlink, Std.ExtTreeMap.getElem?_alter, Std.compare_eq_iff_eq]
  by_cases heq : a = id
  · subst heq
    rw [if_pos rfl]
    cases links[a]? with
    | none => simp
    | some set =>
        rw [Option.bind_some]
        split
        next hempty =>
          have hnone : x ∉ set.erase b := by
            rw [Std.ExtTreeSet.isEmpty_iff.1 hempty]
            simp
          simpa using hnone
        next => simp
  · simp [heq]

theorem mem_equivalents_insert :
    x ∈ (r.insert rule).equivalents id ↔
      rule.first ≠ rule.second ∧ rule.Links id x ∨ x ∈ r.equivalents id := by
  unfold insert equivalents
  split
  next h => simp [h]
  next h =>
    rw [mem_link, mem_link, ← or_assoc, or_comm (a := rule.second = id ∧ _)]
    simp [h, EquivalenceRule.Links]

theorem mem_equivalents_erase :
    x ∈ (r.erase rule).equivalents id ↔ ¬rule.Links id x ∧ x ∈ r.equivalents id := by
  unfold erase equivalents EquivalenceRule.Links
  rw [mem_unlink, mem_unlink, ← and_assoc, not_or, and_comm (a := ¬(rule.second = id ∧ _))]

theorem not_mem_equivalents_empty : x ∉ empty.equivalents id := by
  simp [empty, equivalents]

/-- A rule changes the links of its two sides only. -/
theorem equivalents_insert_of_ne (hfirst : id ≠ rule.first) (hsecond : id ≠ rule.second) :
    (r.insert rule).equivalents id = r.equivalents id := by
  ext x
  rw [mem_equivalents_insert]
  simp [EquivalenceRule.Links, hfirst.symm, hsecond.symm]

theorem equivalents_erase_of_ne (hfirst : id ≠ rule.first) (hsecond : id ≠ rule.second) :
    (r.erase rule).equivalents id = r.equivalents id := by
  ext x
  rw [mem_equivalents_erase]
  simp [EquivalenceRule.Links, hfirst.symm, hsecond.symm]

/-- Links go both ways. -/
def Symmetric (r : EquivalenceRules) : Prop :=
  ∀ id x, x ∈ r.equivalents id → id ∈ r.equivalents x

theorem symmetric_empty : Symmetric empty := by
  intro id x hx
  exact absurd hx not_mem_equivalents_empty

theorem Symmetric.insert (h : Symmetric r) (rule : EquivalenceRule) :
    Symmetric (r.insert rule) := by
  intro id x hx
  rw [mem_equivalents_insert] at hx ⊢
  rw [EquivalenceRule.links_comm]
  exact hx.imp_right (h id x)

theorem Symmetric.erase (h : Symmetric r) (rule : EquivalenceRule) : Symmetric (r.erase rule) := by
  intro id x hx
  rw [mem_equivalents_erase] at hx ⊢
  rw [EquivalenceRule.links_comm]
  exact hx.imp_right (h id x)

theorem Symmetric.contains_of_links (h : Symmetric r) (hlinks : rule.Links id x)
    (hx : x ∈ r.equivalents id) : r.contains rule = true := by
  unfold contains
  rw [Std.ExtTreeSet.contains_iff_mem]
  rcases hlinks with ⟨rfl, rfl⟩ | ⟨rfl, rfl⟩
  · exact hx
  · exact h _ _ hx

/-! ## No empty entries -/

theorem link_tidy (h : ∀ id : CourseId, links[id]? ≠ some ∅) (id : CourseId) :
    (link links a b)[id]? ≠ some ∅ := by
  simp only [link, Std.ExtTreeMap.getElem?_alter, Std.compare_eq_iff_eq]
  split
  · rw [ne_eq, Option.some.injEq]
    exact Std.ExtTreeSet.insert_ne_empty
  · exact h id

theorem unlink_tidy (h : ∀ id : CourseId, links[id]? ≠ some ∅) (id : CourseId) :
    (unlink links a b)[id]? ≠ some ∅ := by
  simp only [unlink, Std.ExtTreeMap.getElem?_alter, Std.compare_eq_iff_eq]
  split
  next =>
    cases links[a]? with
    | none => simp
    | some set =>
        rw [Option.bind_some]
        split
        · simp
        next hempty => simpa [Std.ExtTreeSet.isEmpty_iff] using hempty
  next => exact h id

/-- No course has an empty set of links. -/
def Tidy (r : EquivalenceRules) : Prop :=
  ∀ id : CourseId, r.links[id]? ≠ some ∅

theorem tidy_empty : Tidy empty := by
  intro id
  simp [empty]

theorem Tidy.insert (h : Tidy r) (rule : EquivalenceRule) : Tidy (r.insert rule) := by
  unfold EquivalenceRules.insert
  split
  · exact h
  · exact link_tidy (link_tidy h)

theorem Tidy.erase (h : Tidy r) (rule : EquivalenceRule) : Tidy (r.erase rule) :=
  unlink_tidy (unlink_tidy h)

/-- Tidy rules are determined by the links of each course. -/
theorem Tidy.eq_of_mem_iff {r' : EquivalenceRules} (h : Tidy r) (h' : Tidy r')
    (hmem : ∀ id x, x ∈ r.equivalents id ↔ x ∈ r'.equivalents id) : r = r' := by
  have hlinks : r.links = r'.links := by
    apply eq_of_getD_eq h h'
    intro id
    ext x
    exact hmem id x
  cases r
  cases r'
  exact congrArg EquivalenceRules.mk hlinks

/-- Taking away a rule that was not there before it was added leaves no trace of it. -/
theorem erase_insert (hsymmetric : Symmetric r) (htidy : Tidy r)
    (habsent : r.contains rule = false) : (r.insert rule).erase rule = r := by
  refine ((htidy.insert rule).erase rule).eq_of_mem_iff htidy fun id x => ?_
  rw [mem_equivalents_erase, mem_equivalents_insert]
  constructor
  · rintro ⟨hother, ⟨_, hlinks⟩ | hx⟩
    · exact absurd hlinks hother
    · exact hx
  · intro hx
    refine ⟨fun hlinks => ?_, Or.inr hx⟩
    have hpresent := hsymmetric.contains_of_links hlinks hx
    rw [habsent] at hpresent
    cases hpresent

end EquivalenceRules

end Curriculum
