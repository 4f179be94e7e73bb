import Mathlib.Algebra.BigOperators.Group.Finset.Basic
import Mathlib.Tactic.Linarith
import Curriculum.Proofs.Ledger.History
import Curriculum.Proofs.Plan.Indexed
import Curriculum.Proofs.Verdict.Frame
import Curriculum.Proofs.Verdict.Holds

/-!
# The evaluator decides what a verdict means

Where every planned course has a position, each examination ends with a verdict, and the verdict
is that of the judgement it examines. The order in which candidates and children are examined
shows nowhere in the result.
-/

namespace Curriculum

/-- There is a verdict, and it is true exactly if the proposition is. -/
def Decides (v : Verdict) (P : Prop) : Prop :=
  ∃ b, v = .ok b ∧ (b = true ↔ P)

namespace Decides

variable {v t e : Verdict} {P Q : Prop}

theorem ok {b : Bool} (h : b = true ↔ P) : Decides (.ok b) P :=
  ⟨b, rfl, h⟩

theorem congr (h : Decides v P) (hiff : P ↔ Q) : Decides v Q := by
  obtain ⟨b, hv, hb⟩ := h
  exact ⟨b, hv, hb.trans hiff⟩

theorem eq_true_iff (h : Decides v P) : v = .ok true ↔ P := by
  obtain ⟨b, rfl, hb⟩ := h
  rw [Except.ok.injEq, hb]

theorem not (h : Decides v P) : Decides (v >>= fun b => pure !b) (¬P) := by
  obtain ⟨b, rfl, hb⟩ := h
  refine ⟨!b, rfl, ?_⟩
  rw [← hb, Bool.not_eq_true', Bool.not_eq_true]

/-- A verdict that selects how to go on. -/
theorem ite (hv : Decides v P) (ht : P → Decides t Q) (he : ¬P → Decides e Q) :
    Decides (v >>= fun b => if b = true then t else e) Q := by
  obtain ⟨b, rfl, hb⟩ := hv
  change Decides (if b = true then t else e) Q
  split
  next h => exact ht (hb.1 h)
  next h => exact he (mt hb.2 h)

end Decides

/-! ## Positions -/

theorem previousPosition?_eq_some {position k : Int32} :
    previousPosition? position = some k ↔ k.toInt = position.toInt - 1 := by
  have hlo := k.le_toInt
  unfold previousPosition?
  split
  next hmin =>
    rw [hmin, Int32.toInt_minValue]
    refine ⟨nofun, fun h => ?_⟩
    omega
  next hmin =>
    have hne : position.toInt ≠ Int32.minValue.toInt := fun h => hmin (Int32.toInt_inj.1 h)
    have hlo' := position.le_toInt
    have hhi := position.toInt_lt
    rw [Int32.toInt_minValue] at hne
    have hsub : (position - 1).toInt = position.toInt - 1 := by
      rw [Int32.toInt_sub, Int32.toInt_one]
      exact Int.bmod_eq_of_le (by omega) (by omega)
    rw [Option.some.injEq, ← Int32.toInt_inj, hsub, eq_comm]

theorem Scope.admits_iff {s : Scope} {k : Int32} : s.admits k = true ↔ s.Admits k := by
  simp [admits, Admits, Int32.lt_iff_toInt_lt, Int32.toInt_inj]

namespace Context

section

variable {W : Type} {ctx : Context W} {g : DependencyGraph} {scope : Scope} {id : CourseId}

theorem termsOrdered_empty : ctx.TermsOrdered .empty := by
  intro id term h
  simp [DependencyGraph.term?] at h

theorem TermsOrdered.add {catalog : Catalog W} {term : TermId} {ids : List CourseId}
    (h : ctx.TermsOrdered g) (hterm : ∃ position, ctx.terms.position? term = some position) :
    ctx.TermsOrdered (g.add catalog term ids).1 := by
  intro id standing hplanned
  rw [DependencyGraph.term?_add] at hplanned
  split at hplanned
  next =>
    cases hplanned
    exact hterm
  next => exact h id standing hplanned

theorem PlannedAt.unique {k l : Int32} (hk : ctx.PlannedAt g id k) (hl : ctx.PlannedAt g id l) :
    k = l := by
  obtain ⟨term, hterm, hk⟩ := hk
  obtain ⟨term', hterm', hl⟩ := hl
  cases hterm.symm.trans hterm'
  exact Option.some.inj (hk.symm.trans hl)

theorem plannedPosition_ordered (h : ctx.TermsOrdered g) (id : CourseId) :
    ∃ planned, ctx.plannedPosition g id = .ok planned ∧
      ∀ k, planned = some k ↔ ctx.PlannedAt g id k := by
  unfold plannedPosition
  cases hterm : g.term? id with
  | none =>
      refine ⟨none, rfl, fun k => ⟨nofun, ?_⟩⟩
      rintro ⟨term, hsome, _⟩
      cases hterm.symm.trans hsome
  | some term =>
      obtain ⟨position, hposition⟩ := h id term hterm
      refine ⟨some position, by simp only [hposition], fun k => ?_⟩
      have hat : ctx.PlannedAt g id position := ⟨term, hterm, hposition⟩
      rw [Option.some.injEq]
      exact ⟨fun heq => heq ▸ hat, fun hk => hat.unique hk⟩

/-- The comparison by which a part is found directly before a position. -/
theorem directlyBefore_decides (h : ctx.TermsOrdered g) (position : Int32) (id : CourseId) :
    Decides (do
        let planned ← ctx.plannedPosition g id
        return planned.isSome && planned == previousPosition? position)
      (ctx.StandsDirectlyBefore g position id) := by
  obtain ⟨planned, heq, hplanned⟩ := ctx.plannedPosition_ordered h id
  rw [heq]
  refine Decides.ok ?_
  cases planned with
  | none =>
      have hnone (k : Int32) : ¬ctx.PlannedAt g id k := fun hk => nomatch (hplanned k).2 hk
      simp [StandsDirectlyBefore, hnone]
  | some k =>
      have hk : ctx.PlannedAt g id k := (hplanned k).1 rfl
      rw [Option.isSome_some, Bool.true_and, beq_iff_eq, eq_comm, previousPosition?_eq_some]
      constructor
      · exact fun hbefore => ⟨k, hk, hbefore⟩
      · rintro ⟨l, hl, hbefore⟩
        rwa [hk.unique hl]

theorem plannedWithin_decides (h : ctx.TermsOrdered g) (scope : Scope) (id : CourseId) :
    Decides (ctx.plannedWithin g scope id) (∃ k, ctx.PlannedAt g id k ∧ scope.Admits k) := by
  obtain ⟨planned, heq, hplanned⟩ := ctx.plannedPosition_ordered h id
  rw [plannedWithin, heq]
  refine Decides.ok ?_
  rw [Option.any_eq_true]
  refine exists_congr fun k => ?_
  rw [hplanned k, Scope.admits_iff]

theorem done_decides (h : ctx.TermsOrdered g) (scope : Scope) (id : CourseId) :
    Decides (if ctx.ledger.contains id then .ok true else ctx.plannedWithin g scope id)
      (ctx.Done g scope id) := by
  split
  next hledger => exact Decides.ok ⟨fun _ => Or.inl hledger, fun _ => rfl⟩
  next hledger =>
    refine (ctx.plannedWithin_decides h scope id).congr ?_
    exact (or_iff_right hledger).symm

/-! ## Leaves -/

theorem leafHoldsBy_decides (h : ctx.TermsOrdered g) (scope : Scope) (id : CourseId) :
    Decides (ctx.leafHoldsBy g scope id) (ctx.Answers g scope id) := by
  unfold leafHoldsBy Answers
  split
  · exact ctx.directlyBefore_decides h scope.position id
  · exact ctx.done_decides h scope id

theorem leafHoldsByAny_decides (h : ctx.TermsOrdered g) (scope : Scope) (ids : List CourseId) :
    Decides (ctx.leafHoldsByAny g scope ids) (∃ id ∈ ids, ctx.Answers g scope id) := by
  induction ids with
  | nil => exact Decides.ok (by simp)
  | cons id rest ih =>
      rw [leafHoldsByAny]
      refine (ctx.leafHoldsBy_decides h scope id).ite (fun hid => ?_) (fun hid => ?_)
      · exact Decides.ok ⟨fun _ => ⟨id, List.mem_cons_self, hid⟩, fun _ => rfl⟩
      · refine ih.congr ?_
        simp only [List.mem_cons, exists_eq_or_imp, hid, false_or]

theorem leafHolds_decides (h : ctx.TermsOrdered g) (scope : Scope) (id : CourseId) :
    Decides (ctx.leafHolds g scope id) (ctx.LeafHolds g scope id) := by
  refine (ctx.leafHoldsByAny_decides h scope _).congr ?_
  simp [LeafHolds]

/-! ## Credits -/

theorem creditsReach_cons [CreditWeight W] (required : UInt32) (sum : W) (rest : List CourseId) :
    ctx.creditsReach g scope required sum (id :: rest) =
      (if ctx.ledger.contains id then .ok true else ctx.plannedWithin g scope id) >>=
        fun done => if done = true then
          if CreditWeight.reaches (CreditWeight.add sum (ctx.catalog.credits id)) required
          then pure true
          else ctx.creditsReach g scope required
            (CreditWeight.add sum (ctx.catalog.credits id)) rest
        else ctx.creditsReach g scope required sum rest := by
  rw [creditsReach]
  split <;> rfl

/-- The candidates that are done are the courses that count. -/
theorem mem_creditCandidates (hledger : ctx.ledger.Filed)
    (hsubject : ∀ {s x}, x ∈ g.bySubject.coursesOf s ↔ g.contains x = true ∧ x.subject = s)
    (rule : CreditRule) (hdone : ctx.Done g scope id) :
    id ∈ ctx.creditCandidates g scope rule ↔ id ∈ ctx.creditCourses g scope rule := by
  have hlisted (s : SubjectCode) :
      id ∈ ctx.ledger.ofSubject s ++ ctx.walk.list s (g.ofSubject s) ↔ id.subject = s := by
    rw [List.mem_append, Walk.mem_list, DependencyGraph.ofSubject, hsubject,
      hledger.mem_ofSubject]
    constructor
    · rintro (⟨hs, _⟩ | ⟨_, hs⟩)
      · exact hs
      · exact hs
    · -- A course that is done is completed or planned, and is listed under its subject there.
      intro hs
      rcases hdone with hcompleted | ⟨k, ⟨term, hterm, _⟩, _⟩
      · exact Or.inl ⟨hs, hcompleted⟩
      · refine Or.inr ⟨?_, hs⟩
        rw [← DependencyGraph.term?_isSome, hterm]
        rfl
  have hcandidates :
      id ∈ rule.subjects.flatMap (fun subject =>
        ctx.ledger.ofSubject subject ++ ctx.walk.list subject (g.ofSubject subject)) ↔
        id.subject ∈ rule.subjects := by
    rw [List.mem_flatMap]
    simp only [hlisted, exists_eq_right']
  rw [creditCandidates, List.mem_eraseDups, List.mem_filter, hcandidates]
  simp only [CreditRule.counts, Bool.and_eq_true, bne_iff_ne, List.contains_iff_mem]
  constructor
  · rintro ⟨hsubject, hne, _, hlevel⟩
    exact ⟨hne, hsubject, hlevel, hdone⟩
  · rintro ⟨hne, hsubject, hlevel, _⟩
    exact ⟨hsubject, hne, hsubject, hlevel⟩

end

section

/-- A rule that is not vacuous asks for some credits. -/
theorem required_pos {rule : CreditRule} (h : ¬rule.isVacuous = true) :
    (0 : ℚ) < rule.required.toNat := by
  simp only [CreditRule.isVacuous, Bool.or_eq_true, beq_iff_eq, not_or] at h
  have hne : rule.required.toNat ≠ 0 := fun hz => h.2 (UInt32.toNat_inj.1 hz)
  exact_mod_cast Nat.pos_of_ne_zero hne

variable {ctx : Context ℚ} {g : DependencyGraph} {scope : Scope}

open Classical in
/-- Counting stops with the first course by which there are enough credits. -/
theorem creditsReach_decides_counted (h : ctx.TermsOrdered g) (required : UInt32) (sum : ℚ)
    (hsum : sum < required.toNat) (ids : List CourseId) :
    Decides (ctx.creditsReach g scope required sum ids)
      (∃ counted, counted <+: (ids.filter (ctx.Done g scope ·)).map ctx.catalog.credits ∧
        (required.toNat : ℚ) ≤ sum + counted.sum) := by
  induction ids generalizing sum with
  | nil =>
      refine Decides.ok ⟨nofun, ?_⟩
      rintro ⟨counted, hprefix, hle⟩
      rw [List.prefix_nil.1 hprefix, List.sum_nil, add_zero] at hle
      exact absurd hle (not_le.2 hsum)
  | cons id rest ih =>
      rw [creditsReach_cons]
      refine (ctx.done_decides h scope id).ite (fun hdone => ?_) (fun hdone => ?_)
      · rw [List.filter_cons_of_pos (by simpa using hdone), List.map_cons]
        split
        next hreaches =>
          have hle : (required.toNat : ℚ) ≤ sum + ctx.catalog.credits id :=
            of_decide_eq_true hreaches
          refine Decides.ok ⟨fun _ => ⟨[ctx.catalog.credits id], ?_, ?_⟩, fun _ => rfl⟩
          · exact List.cons_prefix_cons.2 ⟨rfl, List.nil_prefix⟩
          · rwa [List.sum_singleton]
        next hreaches =>
          have hlt : sum + ctx.catalog.credits id < required.toNat :=
            not_le.1 (mt decide_eq_true hreaches)
          refine (ih _ hlt).congr ⟨?_, ?_⟩
          · rintro ⟨counted, hprefix, hle⟩
            refine ⟨ctx.catalog.credits id :: counted, List.cons_prefix_cons.2 ⟨rfl, hprefix⟩, ?_⟩
            rwa [List.sum_cons, ← add_assoc]
          · rintro ⟨counted, hprefix, hle⟩
            rcases List.prefix_cons_iff.1 hprefix with rfl | ⟨later, rfl, hlater⟩
            · rw [List.sum_nil, add_zero] at hle
              exact absurd hle (not_le.2 hsum)
            · rw [List.sum_cons, ← add_assoc] at hle
              exact ⟨later, hlater, hle⟩
      · rw [List.filter_cons_of_neg (by simpa using hdone)]
        exact ih sum hsum

open Classical in
/-- If no credits are negative, stopping early is the same as counting them all. -/
theorem creditsReach_decides (h : ctx.TermsOrdered g) (hweights : ∀ id, 0 ≤ ctx.catalog.credits id)
    (required : UInt32) (sum : ℚ) (hsum : sum < required.toNat) (ids : List CourseId) :
    Decides (ctx.creditsReach g scope required sum ids)
      ((required.toNat : ℚ) ≤
        sum + ((ids.filter (ctx.Done g scope ·)).map ctx.catalog.credits).sum) := by
  refine (creditsReach_decides_counted h required sum hsum ids).congr ⟨?_, fun hle => ?_⟩
  · rintro ⟨counted, ⟨later, happend⟩, hle⟩
    have hlater : 0 ≤ later.sum := by
      apply List.sum_nonneg
      intro weight hweight
      have hmem : weight ∈ (ids.filter (ctx.Done g scope ·)).map ctx.catalog.credits := by
        rw [← happend]
        exact List.mem_append_right _ hweight
      obtain ⟨id, _, rfl⟩ := List.mem_map.1 hmem
      exact hweights id
    -- What is not counted any more cannot take credits away.
    rw [← happend, List.sum_append]
    linarith
  · exact ⟨_, List.prefix_rfl, hle⟩

open Classical in
/-- The credits of the courses that count, each counted once. -/
theorem finsum_creditCourses (hledger : ctx.ledger.Filed)
    (hsubject : ∀ {s x}, x ∈ g.bySubject.coursesOf s ↔ g.contains x = true ∧ x.subject = s)
    (rule : CreditRule) :
    ∑ᶠ id ∈ ctx.creditCourses g scope rule, ctx.catalog.credits id =
      (((ctx.creditCandidates g scope rule).filter (ctx.Done g scope ·)).map
        ctx.catalog.credits).sum := by
  have hset : ctx.creditCourses g scope rule =
      (((ctx.creditCandidates g scope rule).filter (ctx.Done g scope ·)).toFinset :
        Set CourseId) := by
    ext id
    rw [Finset.mem_coe, List.mem_toFinset, List.mem_filter, decide_eq_true_iff]
    constructor
    · intro hid
      exact ⟨(mem_creditCandidates hledger hsubject rule hid.2.2.2).2 hid, hid.2.2.2⟩
    · rintro ⟨hcandidate, hdone⟩
      exact (mem_creditCandidates hledger hsubject rule hdone).1 hcandidate
  rw [hset, finsum_mem_coe_finset, List.sum_toFinset]
  exact (nodup_eraseDups _).filter _

theorem creditHolds_decides (h : ctx.TermsOrdered g)
    (hweights : ∀ id, 0 ≤ ctx.catalog.credits id) (hledger : ctx.ledger.Filed)
    (hsubject : ∀ {s x}, x ∈ g.bySubject.coursesOf s ↔ g.contains x = true ∧ x.subject = s)
    (scope : Scope) (rule : CreditRule) :
    Decides (ctx.creditHolds g scope rule) (ctx.CreditHolds g scope rule) := by
  unfold creditHolds CreditHolds
  split
  next hvacuous =>
    refine Decides.ok ⟨fun _ => ?_, fun _ => rfl⟩
    simp only [CreditRule.isVacuous, Bool.or_eq_true, List.isEmpty_iff, beq_iff_eq] at hvacuous
    rcases hvacuous with hempty | hzero
    · exact Or.inl hempty
    · exact Or.inr (Or.inl hzero)
  next hvacuous =>
    have hpos := required_pos hvacuous
    simp only [CreditRule.isVacuous, Bool.or_eq_true, List.isEmpty_iff, beq_iff_eq,
      not_or] at hvacuous
    refine (creditsReach_decides h hweights rule.required 0 hpos _).congr ?_
    rw [zero_add, ← finsum_creditCourses hledger hsubject, or_iff_right hvacuous.1,
      or_iff_right hvacuous.2]

end

end Context

end Curriculum
