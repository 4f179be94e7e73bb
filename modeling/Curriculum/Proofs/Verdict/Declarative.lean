import Curriculum.Proofs.Catalog
import Curriculum.Proofs.Verdict.Decided

/-!
# Verdicts from scratch

The evaluator walks a requisite with early exits at every turn. Over exact credits, and in a plan
whose terms all have positions, it always ends with the verdict that the judgement gives.
-/

namespace Curriculum

/-- At least two members of a list have a property if it is had in two different places. -/
theorem two_le_countP_iff {α : Type} {p : α → Bool} {l : List α} :
    2 ≤ l.countP p ↔
      ∃ (i j : Nat) (m n : α),
        i < j ∧ l[i]? = some m ∧ l[j]? = some n ∧ p m = true ∧ p n = true := by
  induction l with
  | nil => simp
  | cons a rest ih =>
      constructor
      · intro h
        rw [List.countP_cons] at h
        by_cases ha : p a = true
        · have hpos : 0 < rest.countP p := by
            rw [if_pos ha] at h
            omega
          obtain ⟨n, hmem, hn⟩ := List.countP_pos_iff.1 hpos
          obtain ⟨j, hj⟩ := List.mem_iff_getElem?.1 hmem
          exact ⟨0, j + 1, a, n, Nat.succ_pos j, rfl, hj, ha, hn⟩
        · rw [if_neg ha, Nat.add_zero] at h
          obtain ⟨i, j, m, n, hlt, hi, hj, hm, hn⟩ := ih.1 h
          exact ⟨i + 1, j + 1, m, n, Nat.succ_lt_succ hlt, hi, hj, hm, hn⟩
      · -- The second place is never the head, so only the first one has to be looked at.
        rintro ⟨i, _ | j, m, n, hlt, hi, hj, hm, hn⟩
        · exact absurd hlt (Nat.not_lt_zero i)
        rw [List.countP_cons]
        rw [List.getElem?_cons_succ] at hj
        cases i with
        | zero =>
            have hpos : 0 < rest.countP p :=
              List.countP_pos_iff.2 ⟨n, List.mem_of_getElem? hj, hn⟩
            cases hi
            rw [if_pos hm]
            omega
        | succ i =>
            have htail : 2 ≤ rest.countP p :=
              ih.2 ⟨i, j, m, n, Nat.lt_of_succ_lt_succ hlt, hi, hj, hm, hn⟩
            omega

namespace Context

variable {ctx : Context ℚ} {g : DependencyGraph} {scope : Scope}

/-! ## Groups -/

theorem nodeHolds_course_iff {id : CourseId} :
    ctx.NodeHolds g scope (.course id) ↔ ctx.LeafHolds g scope id :=
  ⟨fun h => by cases h; assumption, .course⟩

theorem nodeHolds_group_iff {group : Group} :
    ctx.NodeHolds g scope (.group group) ↔ ctx.GroupHolds g scope group :=
  ⟨fun h => by cases h; assumption, .group⟩

theorem groupHolds_credit_iff {rule : CreditRule} :
    ctx.GroupHolds g scope (.credit rule) ↔ ctx.CreditHolds g scope rule :=
  ⟨fun h => by cases h; assumption, .credit⟩

theorem groupHolds_and_iff {nodes : List Node} :
    ctx.GroupHolds g scope (.join .and nodes) ↔ ∀ n ∈ nodes, ctx.NodeHolds g scope n :=
  ⟨fun h => by cases h; assumption, .and⟩

section

open Classical

theorem one_le_countP_holds_iff {nodes : List Node} :
    1 ≤ nodes.countP (ctx.NodeHolds g scope ·) ↔ ∃ n ∈ nodes, ctx.NodeHolds g scope n := by
  rw [Nat.one_le_iff_ne_zero, ← Nat.pos_iff_ne_zero, List.countP_pos_iff]
  simp only [decide_eq_true_iff]

theorem groupHolds_single_iff {nodes : List Node} :
    ctx.GroupHolds g scope (.join .single nodes) ↔
      1 ≤ nodes.countP (ctx.NodeHolds g scope ·) := by
  rw [one_le_countP_holds_iff]
  constructor
  · intro h
    cases h with
    | single hmem h => exact ⟨_, hmem, h⟩
  · rintro ⟨n, hmem, h⟩
    exact .single hmem h

theorem groupHolds_or_iff {nodes : List Node} :
    ctx.GroupHolds g scope (.join .or nodes) ↔
      1 ≤ nodes.countP (ctx.NodeHolds g scope ·) := by
  rw [one_le_countP_holds_iff]
  constructor
  · intro h
    cases h with
    | or hmem h => exact ⟨_, hmem, h⟩
  · rintro ⟨n, hmem, h⟩
    exact .or hmem h

theorem groupHolds_pair_iff {nodes : List Node} :
    ctx.GroupHolds g scope (.join .pair nodes) ↔
      2 ≤ nodes.countP (ctx.NodeHolds g scope ·) := by
  rw [two_le_countP_iff]
  simp only [decide_eq_true_iff]
  constructor
  · intro h
    cases h with
    | pair hlt hi hj hm hn => exact ⟨_, _, _, _, hlt, hi, hj, hm, hn⟩
  · rintro ⟨i, j, m, n, hlt, hi, hj, hm, hn⟩
    exact .pair hlt hi hj hm hn

mutual

theorem nodeHolds_decides (h : ctx.TermsOrdered g)
    (hcredit : ∀ rule, Decides (ctx.creditHolds g scope rule) (ctx.CreditHolds g scope rule)) :
    (n : Node) → Decides (ctx.nodeHolds g scope n) (ctx.NodeHolds g scope n)
  | .course id => by
      rw [nodeHolds, nodeHolds_course_iff]
      exact ctx.leafHolds_decides h scope id
  | .group group => by
      rw [nodeHolds, nodeHolds_group_iff]
      exact groupHolds_decides h hcredit group

theorem groupHolds_decides (h : ctx.TermsOrdered g)
    (hcredit : ∀ rule, Decides (ctx.creditHolds g scope rule) (ctx.CreditHolds g scope rule)) :
    (group : Group) → Decides (ctx.groupHolds g scope group) (ctx.GroupHolds g scope group)
  | .empty => by
      rw [groupHolds]
      exact Decides.ok ⟨fun _ => .empty, fun _ => rfl⟩
  | .credit rule => by
      rw [groupHolds, groupHolds_credit_iff]
      exact hcredit rule
  | .join .and nodes => by
      rw [groupHolds, groupHolds_and_iff]
      exact allHold_decides h hcredit nodes
  | .join .pair nodes => by
      rw [groupHolds, groupHolds_pair_iff]
      exact enoughHold_decides h hcredit nodes 2
  | .join .or nodes => by
      rw [groupHolds, groupHolds_or_iff]
      exact enoughHold_decides h hcredit nodes 1
  | .join .single nodes => by
      rw [groupHolds, groupHolds_single_iff]
      exact enoughHold_decides h hcredit nodes 1

theorem allHold_decides (h : ctx.TermsOrdered g)
    (hcredit : ∀ rule, Decides (ctx.creditHolds g scope rule) (ctx.CreditHolds g scope rule)) :
    (nodes : List Node) →
      Decides (ctx.allHold g scope nodes) (∀ n ∈ nodes, ctx.NodeHolds g scope n)
  | [] => by
      rw [allHold]
      exact Decides.ok (by simp)
  | n :: rest => by
      rw [allHold]
      refine (nodeHolds_decides h hcredit n).ite (fun hn => ?_) (fun hn => ?_)
      · refine (allHold_decides h hcredit rest).congr ?_
        rw [List.forall_mem_cons, and_iff_right hn]
      · refine Decides.ok ⟨nofun, fun hall => ?_⟩
        exact absurd (hall n List.mem_cons_self) hn

theorem enoughHold_decides (h : ctx.TermsOrdered g)
    (hcredit : ∀ rule, Decides (ctx.creditHolds g scope rule) (ctx.CreditHolds g scope rule)) :
    (nodes : List Node) → (wanted : Nat) →
      Decides (ctx.enoughHold g scope wanted nodes)
        (wanted ≤ nodes.countP (ctx.NodeHolds g scope ·))
  | [], wanted => by
      rw [enoughHold]
      exact Decides.ok (by simp)
  | n :: rest, wanted => by
      rw [enoughHold]
      split
      -- Once nothing more is wanted, the children that are left are not examined.
      next hzero => exact Decides.ok ⟨fun _ => by omega, fun _ => rfl⟩
      next hzero =>
        rw [List.countP_cons]
        refine (nodeHolds_decides h hcredit n).ite (fun hn => ?_) (fun hn => ?_)
        · refine (enoughHold_decides h hcredit rest (wanted - 1)).congr ?_
          rw [if_pos (decide_eq_true hn)]
          omega
        · refine (enoughHold_decides h hcredit rest wanted).congr ?_
          rw [if_neg (by simpa using hn), Nat.add_zero]

end

end

/-! ## Requirements -/

/-- Each kind of requirement asks the group at its own time, and a restriction turns the answer
round unless it is empty. -/
theorem isMetBy_decides {course : CourseId} {position : Int32} (r : Requirement)
    (hgroup : ∀ includesCurrent,
      Decides (ctx.groupHolds g ⟨course, position, includesCurrent⟩ r.group)
        (ctx.GroupHolds g ⟨course, position, includesCurrent⟩ r.group)) :
    Decides (r.isMetBy fun group includesCurrent =>
        ctx.groupHolds g ⟨course, position, includesCurrent⟩ group)
      (ctx.Demands g course position r.kind r.group) := by
  obtain ⟨kind, group⟩ := r
  cases kind with
  | prerequisite => exact hgroup false
  | corequisite => exact hgroup true
  | restriction =>
      by_cases hempty : group = .empty
      · subst hempty
        exact Decides.ok ⟨fun _ => Or.inl rfl, fun _ => rfl⟩
      · have hcase : group.isEmpty = false := by
          cases group with
          | empty => exact absurd rfl hempty
          | credit rule => rfl
          | join c nodes => rfl
        simp only [Requirement.isMetBy, RequirementKind.isExclusion, hcase, Demands, if_true,
          Bool.false_eq_true, if_false]
        refine ((hgroup true).not).congr ?_
        exact (or_iff_right hempty).symm

theorem allMet_decides {course : CourseId} {position : Int32}
    (hgroup : ∀ includesCurrent group,
      Decides (ctx.groupHolds g ⟨course, position, includesCurrent⟩ group)
        (ctx.GroupHolds g ⟨course, position, includesCurrent⟩ group))
    (requirements : List Requirement) :
    Decides (ctx.allMet g course position requirements)
      (∀ r ∈ requirements, ctx.Demands g course position r.kind r.group) := by
  induction requirements with
  | nil => exact Decides.ok (by simp)
  | cons r rest ih =>
      rw [allMet]
      have hmet := isMetBy_decides r fun includesCurrent => hgroup includesCurrent r.group
      refine hmet.ite (fun hr => ?_) (fun hr => ?_)
      · refine ih.congr ?_
        rw [List.forall_mem_cons, and_iff_right hr]
      · refine Decides.ok (iff_of_false Bool.false_ne_true fun hall => ?_)
        exact hr (hall r List.mem_cons_self)

theorem requisitesHold_decides {course : CourseId} {position : Int32}
    (hgroup : ∀ includesCurrent group,
      Decides (ctx.groupHolds g ⟨course, position, includesCurrent⟩ group)
        (ctx.GroupHolds g ⟨course, position, includesCurrent⟩ group)) :
    Decides (ctx.requisitesHold g course position)
      (∀ requisites, ctx.catalog.requisites? course = some requisites →
        ∀ r ∈ requisites.toList, ctx.Demands g course position r.kind r.group) := by
  refine (allMet_decides hgroup _).congr ?_
  cases ctx.catalog.requisites? course with
  | none => simp
  | some requisites => simp

theorem predecessorInPlace_decides (h : ctx.TermsOrdered g) (course : CourseId)
    (position : Int32) :
    Decides (ctx.predecessorInPlace g course position)
      (∀ part, course.predecessorPart? = some part →
        ctx.StandsDirectlyBefore g position part) := by
  unfold predecessorInPlace
  cases hpart : course.predecessorPart? with
  | none => exact Decides.ok (by simp)
  | some part =>
      refine (ctx.directlyBefore_decides h position part).congr ?_
      simp

/-! ## Planned courses -/

theorem isSatisfied_decides (h : ctx.TermsOrdered g)
    (hweights : ∀ id, 0 ≤ ctx.catalog.credits id) (hledger : ctx.ledger.Filed)
    (hexact : DependencyGraph.Exact ctx.catalog g) (course : CourseId) :
    Decides (ctx.isSatisfied g course) (ctx.Satisfied g course) := by
  have hgroup (scope : Scope) (group : Group) :
      Decides (ctx.groupHolds g scope group) (ctx.GroupHolds g scope group) :=
    groupHolds_decides h
      (fun rule => creditHolds_decides h hweights hledger hexact.mem_bySubject scope rule) group
  obtain ⟨planned, heq, hplanned⟩ := ctx.plannedPosition_ordered h course
  unfold isSatisfied
  rw [heq]
  cases planned with
  | none =>
      refine Decides.ok ⟨nofun, ?_⟩
      rintro ⟨k, hk, _⟩
      cases (hplanned k).2 hk
  | some position =>
      have hat : ctx.PlannedAt g course position := (hplanned position).1 rfl
      have hrequisites := requisitesHold_decides fun includesCurrent group =>
        hgroup ⟨course, position, includesCurrent⟩ group
      refine hrequisites.ite (fun hmet => ?_) (fun hmet => ?_)
      · refine (ctx.predecessorInPlace_decides h course position).congr ?_
        constructor
        · exact fun hbefore => ⟨position, hat, hmet, hbefore⟩
        · rintro ⟨k, hk, _, hbefore⟩
          rwa [hat.unique hk]
      · refine Decides.ok ⟨nofun, ?_⟩
        rintro ⟨k, hk, hall, _⟩
        rw [← hat.unique hk] at hall
        exact absurd hall hmet

end Context

/-- If no course names itself, that stays so with an entry that does not name itself either. -/
theorem Catalog.references_self_insert {W : Type} {catalog : Catalog W} {entry : CourseEntry W}
    (h : ∀ d, catalog.references d d = false)
    (hentry : entry.requisites.references entry.id = false) (d : CourseId) :
    (catalog.insert entry).references d d = false := by
  unfold references requisites?
  rw [get?_insert]
  split
  next heq =>
    subst heq
    exact hentry
  next => exact h d

theorem Catalog.credits_nonneg {catalog : Catalog ℚ}
    (h : ∀ id entry, catalog.get? id = some entry → 0 ≤ entry.credits) (id : CourseId) :
    0 ≤ catalog.credits id := by
  unfold credits
  cases hentry : catalog.get? id with
  | none => exact le_refl (0 : ℚ)
  | some entry => exact h id entry hentry

/-- Over exact credits that are not negative, after any history of the ledger and of the plan,
whatever positions the terms of planned courses have, and in whatever order the courses of a subject
are met, there is a verdict on every course, and it is that of the judgement. -/
theorem Context.isSatisfied_eq_ok_iff (catalog : Catalog ℚ)
    (hcredits : ∀ id entry, catalog.get? id = some entry → 0 ≤ entry.credits)
    (taken : List LedgerChange) (rules : EquivalenceRules) (terms : TermOrder) (walk : Walk)
    (changes : List PlanChange)
    (hterms : (Context.mk terms (Ledger.empty.run taken) catalog rules walk).TermsOrdered
      (DependencyGraph.empty.run catalog changes)) (course : CourseId) :
    let ctx := Context.mk terms (Ledger.empty.run taken) catalog rules walk
    let g := DependencyGraph.empty.run catalog changes
    ∃ b, ctx.isSatisfied g course = .ok b ∧ (b = true ↔ ctx.Satisfied g course) :=
  isSatisfied_decides hterms (Catalog.credits_nonneg hcredits) (Ledger.filed_run taken)
    ((DependencyGraph.exact_empty catalog).run changes) course

namespace Sample

/-- A computing course without a suffix. -/
def comp (number : Nat) : CourseId :=
  ⟨⟨['C', 'O', 'M', 'P'], by decide⟩, ⟨number % 1000, Nat.mod_lt number (by decide)⟩, none⟩

/-- `COMP 251` names `COMP 250` and asks for three credits in its subject. -/
def twoCourses : Catalog ℚ :=
  (Catalog.empty.insert ⟨comp 250, 3, .empty⟩).insert
    ⟨comp 251, 3,
      ⟨some ⟨.prerequisite, .join .and
        [.course (comp 250), .group (.credit ⟨3, "2", [(comp 250).subject]⟩)]⟩, none, none⟩⟩

/-- Two terms, one at the least position there is. -/
def twoTerms : TermOrder :=
  (TermOrder.empty.withPosition ⟨"first"⟩ Int32.minValue).withPosition ⟨"second"⟩ 0

end Sample

open Sample in
theorem Context.isSatisfied_sample :
    let ctx := Context.mk twoTerms (Ledger.empty.run []) twoCourses .empty .byId
    let g := DependencyGraph.empty.run twoCourses
      [.add ⟨"first"⟩ [comp 250], .add ⟨"second"⟩ [comp 251]]
    ctx.TermsOrdered g ∧ ctx.Satisfied g (comp 251) := by
  intro ctx g
  have hcredits (id : CourseId) (entry : CourseEntry ℚ) (h : twoCourses.get? id = some entry) :
      0 ≤ entry.credits := by
    simp only [twoCourses, Catalog.get?_insert] at h
    split at h
    · cases h
      decide
    · split at h
      · cases h
        decide
      · simp at h
  have hterms : ctx.TermsOrdered g := by
    intro id term h
    simp only [g, DependencyGraph.run, List.foldl_cons, List.foldl_nil, DependencyGraph.change,
      DependencyGraph.add_fst, DependencyGraph.term?_place] at h
    split at h
    · cases h
      exact ⟨0, by decide +kernel⟩
    · split at h
      · cases h
        exact ⟨Int32.minValue, by decide +kernel⟩
      · simp [DependencyGraph.term?] at h
  obtain ⟨b, hb, hiff⟩ := isSatisfied_eq_ok_iff twoCourses hcredits [] .empty twoTerms
    .byId [.add ⟨"first"⟩ [comp 250], .add ⟨"second"⟩ [comp 251]] hterms (comp 251)
  have htrue : ctx.isSatisfied g (comp 251) = .ok true := by decide +kernel
  cases hb.symm.trans htrue
  exact ⟨hterms, hiff.1 rfl⟩

end Curriculum
