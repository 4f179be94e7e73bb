import Mathlib.Data.List.Induction
import Curriculum.Proofs.Equivalence

/-!
# Histories of equivalence rules

Rules that came and went one by one are a set of unordered pairs: a rule is there exactly if it has
two sides and came last, whichever side it was told by first, and the rules that are there determine
the store.
-/

namespace Curriculum

/-! ## Rules as unordered pairs -/

namespace EquivalenceRule

variable {rule : EquivalenceRule} {a b x y : CourseId}

/-- Rules go by their smaller and then by their greater side. -/
instance : Ord EquivalenceRule := ⟨compareLex (compareOn first) (compareOn second)⟩

theorem compare_eq_lt {r s : EquivalenceRule} :
    compare r s = .lt ↔
      compare r.first s.first = .lt ∨ r.first = s.first ∧ compare r.second s.second = .lt := by
  change (compare r.first s.first).then (compare r.second s.second) = .lt ↔ _
  rw [Ordering.then_eq_lt, Std.compare_eq_iff_eq]

theorem between_cases (a b : CourseId) : between a b = ⟨a, b⟩ ∨ between a b = ⟨b, a⟩ := by
  unfold between
  split
  · exact Or.inl rfl
  · exact Or.inr rfl

theorem between_comm (a b : CourseId) : between a b = between b a := by
  unfold between
  rw [Std.OrientedOrd.eq_swap (a := b) (b := a)]
  cases h : compare a b with
  | lt => rfl
  | eq =>
      rw [Std.compare_eq_iff_eq.1 h]
      rfl
  | gt => rfl

/-- The sides of a rule stand in id order exactly if the rule is between two courses. -/
theorem eq_between_iff :
    (∃ a b, rule = between a b) ↔ (compare rule.first rule.second).isLE = true := by
  constructor
  · rintro ⟨a, b, rfl⟩
    unfold between
    split
    next h => exact h
    next h =>
      rw [Std.OrientedOrd.eq_swap (a := b) (b := a)]
      cases hab : compare a b with
      | lt =>
          rw [hab] at h
          exact absurd rfl h
      | eq => rfl
      | gt => rfl
  · intro h
    exact ⟨rule.first, rule.second, by rw [between, if_pos h]⟩

theorem between_links : (between a b).Links x y ↔ between a b = between x y := by
  constructor
  · intro h
    rcases between_cases a b with hab | hab <;> rw [hab] at h <;>
      rcases h with ⟨rfl, rfl⟩ | ⟨rfl, rfl⟩
    · rfl
    · exact between_comm _ _
    · exact between_comm _ _
    · rfl
  · intro h
    rw [h]
    rcases between_cases x y with hxy | hxy <;> rw [hxy]
    · exact Or.inl ⟨rfl, rfl⟩
    · exact Or.inr ⟨rfl, rfl⟩

/-- A rule has two sides if it is between two courses. -/
theorem between_sides_ne : (between a b).first ≠ (between a b).second ↔ a ≠ b := by
  rcases between_cases a b with h | h <;> rw [h]
  exact ne_comm

end EquivalenceRule

/-! ## Changes -/

/-- A rule between two courses comes or goes. -/
inductive RuleChange where
  | insert (a b : CourseId)
  | erase (a b : CourseId)

namespace RuleChange

def rule : RuleChange → EquivalenceRule
  | .insert a b | .erase a b => .between a b

/-- The last change that is about a rule. -/
def last? (changes : List RuleChange) (rule : EquivalenceRule) : Option RuleChange :=
  (changes.filter fun change => change.rule = rule).getLast?

theorem last?_concat (changes : List RuleChange) (change : RuleChange) (rule : EquivalenceRule) :
    last? (changes ++ [change]) rule =
      if change.rule = rule then some change else last? changes rule := by
  unfold last?
  simp only [getLast?_filter_concat, decide_eq_true_eq]

end RuleChange

namespace EquivalenceRules

variable {r : EquivalenceRules} {rule : EquivalenceRule} {a b : CourseId}
  {changes : List RuleChange}

def change (r : EquivalenceRules) : RuleChange → EquivalenceRules
  | .insert a b => r.insert (.between a b)
  | .erase a b => r.erase (.between a b)

def run (r : EquivalenceRules) (changes : List RuleChange) : EquivalenceRules :=
  changes.foldl change r

theorem run_concat (r : EquivalenceRules) (changes : List RuleChange) (c : RuleChange) :
    r.run (changes ++ [c]) = (r.run changes).change c :=
  List.foldl_append

theorem Tidy.change (h : Tidy r) (c : RuleChange) : Tidy (r.change c) := by
  cases c with
  | insert a b => exact h.insert _
  | erase a b => exact h.erase _

theorem Tidy.run (h : Tidy r) (changes : List RuleChange) : Tidy (r.run changes) := by
  induction changes generalizing r with
  | nil => exact h
  | cons c rest ih => exact ih (h.change c)

/-- Two courses are linked if they differ and the rule between them came last. -/
theorem mem_equivalents_run :
    b ∈ (empty.run changes).equivalents a ↔
      a ≠ b ∧ ∃ c d, RuleChange.last? changes (.between a b) = some (.insert c d) := by
  induction changes using List.reverseRecOn with
  | nil => exact iff_of_false not_mem_equivalents_empty (by simp [RuleChange.last?])
  | append_singleton changes change ih =>
      rw [run_concat, RuleChange.last?_concat]
      cases change with
      | insert c d =>
          rw [EquivalenceRules.change, mem_equivalents_insert, EquivalenceRule.between_links,
            RuleChange.rule]
          split
          next h =>
            rw [h, EquivalenceRule.between_sides_ne, ih]
            constructor
            · rintro (⟨hne, _⟩ | ⟨hne, _⟩) <;> exact ⟨hne, c, d, rfl⟩
            · rintro ⟨hne, _⟩
              exact Or.inl ⟨hne, rfl⟩
          next h => simp [h, ih]
      | erase c d =>
          rw [EquivalenceRules.change, mem_equivalents_erase, EquivalenceRule.between_links,
            RuleChange.rule]
          split
          next h => simp [h]
          next h => simp [h, ih]

theorem symmetric_run (changes : List RuleChange) : Symmetric (empty.run changes) := by
  intro a b h
  rw [mem_equivalents_run] at h ⊢
  rw [ne_comm, EquivalenceRule.between_comm]
  exact h

/-- No course is linked to itself. -/
def Irreflexive (r : EquivalenceRules) : Prop :=
  ∀ id, id ∉ r.equivalents id

theorem irreflexive_run (changes : List RuleChange) : Irreflexive (empty.run changes) :=
  fun _ h => (mem_equivalents_run.1 h).1 rfl

/-- Links can be looked up from either side. -/
theorem Symmetric.contains_between (h : Symmetric r) :
    r.contains (.between a b) = true ↔ b ∈ r.equivalents a := by
  rw [contains, Std.ExtTreeSet.contains_iff_mem]
  rcases EquivalenceRule.between_cases a b with hab | hab <;> rw [hab]
  exact ⟨h b a, h a b⟩

/-! ## The list of rules -/

theorem mem_toList :
    rule ∈ r.toList ↔
      rule.second ∈ r.equivalents rule.first ∧ compare rule.first rule.second = .lt := by
  simp only [toList, List.mem_flatMap, List.mem_map, List.mem_filter, Std.ExtTreeSet.mem_toList,
    Prod.exists, Std.ExtTreeMap.mem_toList_iff_getElem?_eq_some, Ordering.isLT_iff_eq_lt]
  constructor
  · rintro ⟨a, linked, hlinked, b, ⟨hb, hlt⟩, rfl⟩
    refine ⟨?_, hlt⟩
    rw [equivalents, hlinked]
    exact hb
  · rintro ⟨hlinked, hlt⟩
    unfold equivalents at hlinked
    cases hset : r.links[rule.first]? with
    | none => simp [hset] at hlinked
    | some linked =>
        rw [hset] at hlinked
        exact ⟨rule.first, linked, hset, rule.second, ⟨hlinked, hlt⟩, rfl⟩

theorem toList_pairwise (r : EquivalenceRules) :
    r.toList.Pairwise fun x y => compare x y = .lt := by
  rw [toList, List.pairwise_flatMap]
  constructor
  · rintro ⟨a, linked⟩ _
    rw [List.pairwise_map]
    refine (linked.ordered_toList.filter _).imp fun hlt => ?_
    exact EquivalenceRule.compare_eq_lt.2 (Or.inr ⟨rfl, hlt⟩)
  · refine r.links.ordered_keys_toList.imp fun hlt x hx y hy => ?_
    obtain ⟨_, _, rfl⟩ := List.mem_map.1 hx
    obtain ⟨_, _, rfl⟩ := List.mem_map.1 hy
    exact EquivalenceRule.compare_eq_lt.2 (Or.inl hlt)

/-- The rules between two courses are listed if they are there. -/
theorem Irreflexive.mem_toList (h : Irreflexive r) :
    rule ∈ r.toList ↔ (∃ a b, rule = .between a b) ∧ r.contains rule = true := by
  rw [EquivalenceRules.mem_toList, EquivalenceRule.eq_between_iff, contains,
    Std.ExtTreeSet.contains_iff_mem, and_comm]
  refine and_congr_left fun hlinked => ?_
  rw [Ordering.isLE_iff_eq_lt_or_eq_eq]
  refine ⟨Or.inl, fun hle => hle.resolve_right fun heq => ?_⟩
  rw [Std.compare_eq_iff_eq.1 heq] at hlinked
  exact h _ hlinked

/-! ## Sets of pairs -/

/-- Histories that leave the same rules leave the same store. -/
theorem run_eq_iff {others : List RuleChange} :
    empty.run others = empty.run changes ↔ ∀ a b,
      (empty.run others).contains (.between a b) = (empty.run changes).contains (.between a b) := by
  refine ⟨fun h _ _ => by rw [h], fun h => ?_⟩
  refine (tidy_empty.run others).eq_of_mem_iff (tidy_empty.run changes) fun a b => ?_
  rw [← (symmetric_run others).contains_between, ← (symmetric_run changes).contains_between, h]

/-- Whatever rules came and went, links go both ways and between different courses, and no entry is
empty. A rule is there exactly if it has two sides and the last change about it inserted it. The
equivalents of a course are those that the rules give it. The rules are listed in order, each one
once, and they determine the store. -/
theorem run_unorderedPairs (changes : List RuleChange) :
    let r := empty.run changes
    r.Symmetric ∧ r.Irreflexive ∧ r.Tidy ∧
    (∀ a b, r.contains (.between a b) = true ↔
      a ≠ b ∧ ∃ c d, RuleChange.last? changes (.between a b) = some (.insert c d)) ∧
    (∀ a b, b ∈ r.equivalents a ↔ r.contains (.between a b) = true) ∧
    r.toList.Pairwise (fun x y => compare x y = .lt) ∧
    (∀ rule, rule ∈ r.toList ↔ (∃ a b, rule = .between a b) ∧ r.contains rule = true) ∧
    ∀ others, empty.run others = r ↔
      ∀ a b, (empty.run others).contains (.between a b) = r.contains (.between a b) := by
  intro r
  have hsymmetric : r.Symmetric := symmetric_run changes
  have hirreflexive : r.Irreflexive := irreflexive_run changes
  refine ⟨hsymmetric, hirreflexive, tidy_empty.run changes, fun a b => ?_, fun a b => ?_,
    r.toList_pairwise, fun rule => hirreflexive.mem_toList, fun others => run_eq_iff⟩
  · rw [hsymmetric.contains_between]
    exact mem_equivalents_run
  · rw [hsymmetric.contains_between]

end EquivalenceRules

end Curriculum
