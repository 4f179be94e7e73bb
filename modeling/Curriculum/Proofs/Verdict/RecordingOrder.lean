import Mathlib.Algebra.Order.BigOperators.Group.List
import Curriculum.Proofs.Verdict.Declarative
import Curriculum.Proofs.Verdict.Frame
import Curriculum.Proofs.Verdict.Total

/-!
# The order of recording

The completed courses of a subject are counted toward a credit rule in the order in which they were
recorded, up to the first that makes enough. A course of negative weight is then left out of account
if it comes late, and stands in the way if it comes early, so the order can show in a verdict.

Recording all gains before all losses brings every count as far as any order does, and all losses
before all gains no further than any. What these two orders agree on, all orders agree on.
-/

namespace Curriculum

/-! ## Counting weights -/

/-- Wherever counting through the first list gets, counting through the second gets at least as far
at some point, and both come to the same in the end. -/
structure Outrun (first second : List ℚ) : Prop where
  total : first.sum = second.sum
  ahead : ∀ front, front <+: first → ∃ front', front' <+: second ∧ front.sum ≤ front'.sum

namespace Outrun

variable {first second first' second' weights gains losses : List ℚ}

theorem refl (weights : List ℚ) : Outrun weights weights where
  total := rfl
  ahead front h := ⟨front, h, le_rfl⟩

theorem append (h : Outrun first second) (h' : Outrun first' second') :
    Outrun (first ++ first') (second ++ second') where
  total := by rw [List.sum_append, List.sum_append, h.total, h'.total]
  ahead front hfront := by
    obtain ⟨back, happend⟩ := hfront
    rcases List.append_eq_append_iff.1 happend with ⟨as, rfl, _⟩ | ⟨bs, rfl, rfl⟩
    · obtain ⟨front', hfront', hle⟩ := h.ahead front (List.prefix_append _ _)
      exact ⟨front', hfront'.trans (List.prefix_append _ _), hle⟩
    · obtain ⟨front', hfront', hle⟩ := h'.ahead bs (List.prefix_append _ _)
      refine ⟨second ++ front', (List.prefix_append_right_inj second).2 hfront', ?_⟩
      rw [List.sum_append, List.sum_append, h.total]
      linarith

/-- No part of the weights comes to more than all gains together. -/
theorem gains_first (hperm : weights.Perm (gains ++ losses)) (hgains : ∀ w ∈ gains, 0 ≤ w)
    (hlosses : ∀ w ∈ losses, w ≤ 0) : Outrun weights (gains ++ losses) where
  total := hperm.sum_eq
  ahead front hfront := by
    refine ⟨gains, List.prefix_append _ _, ?_⟩
    have hkept : gains.map (max · 0) = gains :=
      (List.map_congr_left fun w hw => max_eq_left (hgains w hw)).trans (List.map_id gains)
    have hdropped : (losses.map (max · 0)).sum = 0 :=
      List.sum_eq_zero (List.forall_mem_map.2 fun w hw => max_eq_right (hlosses w hw))
    calc front.sum = (front.map id).sum := by rw [List.map_id]
      _ ≤ (front.map (max · 0)).sum := List.sum_le_sum fun w _ => le_max_left w 0
      _ ≤ (weights.map (max · 0)).sum := by
          refine (hfront.sublist.map _).sum_le_sum ?_
          exact List.forall_mem_map.2 fun w _ => le_max_right w 0
      _ = ((gains ++ losses).map (max · 0)).sum := (hperm.map _).sum_eq
      _ = gains.sum := by rw [List.map_append, List.sum_append, hkept, hdropped, add_zero]

/-- A count that starts with all losses has caught up with another one only at the end. -/
theorem losses_first (hperm : (losses ++ gains).Perm weights) (hgains : ∀ w ∈ gains, 0 ≤ w)
    (hlosses : ∀ w ∈ losses, w ≤ 0) : Outrun (losses ++ gains) weights where
  total := hperm.sum_eq
  ahead front hfront := by
    obtain ⟨back, happend⟩ := hfront
    rcases List.append_eq_append_iff.1 happend with ⟨as, rfl, _⟩ | ⟨bs, rfl, rfl⟩
    · refine ⟨[], List.nil_prefix, ?_⟩
      calc front.sum = (front.map id).sum := by rw [List.map_id]
        _ ≤ (front.map fun _ => 0).sum :=
            List.sum_le_sum fun w hw => hlosses w (List.mem_append_left _ hw)
        _ = [].sum := by simp
    · refine ⟨weights, List.prefix_rfl, ?_⟩
      have hback : 0 ≤ back.sum :=
        List.sum_nonneg fun w hw => hgains w (List.mem_append_right _ hw)
      rw [← hperm.sum_eq, List.sum_append, List.sum_append, List.sum_append]
      linarith

end Outrun

/-! ## Ledgers -/

/-- Two ledgers of the same courses, in each of which no course stands twice. In the second one,
each subject has its courses in an order by which any of those that count come at least as far. -/
structure Ledger.Behind (catalog : Catalog ℚ) (counts : CourseId → Bool) (l l' : Ledger) :
    Prop where
  same : ∀ s x, x ∈ l.ofSubject s ↔ x ∈ l'.ofSubject s
  nodup : ∀ s, (l.ofSubject s).Nodup
  nodup' : ∀ s, (l'.ofSubject s).Nodup
  outrun : ∀ s (kept : CourseId → Bool), (∀ x, kept x = true → counts x = true) →
    Outrun (((l.ofSubject s).filter kept).map catalog.credits)
      (((l'.ofSubject s).filter kept).map catalog.credits)

/-- The courses of some subjects that are kept, completed ones before planned ones, each once. -/
def listedOnce (l : Ledger) (planned : SubjectCode → List CourseId) (kept : CourseId → Bool)
    (subjects : List SubjectCode) : List CourseId :=
  ((subjects.flatMap fun s => l.ofSubject s ++ planned s).filter kept).eraseDups

/-- From the second subject on, what the first one has listed is not listed any more. -/
theorem listedOnce_cons {l : Ledger} {planned : SubjectCode → List CourseId}
    {kept : CourseId → Bool} {s : SubjectCode} {rest : List SubjectCode}
    (h : (l.ofSubject s).Nodup) :
    listedOnce l planned kept (s :: rest) =
      (l.ofSubject s).filter kept ++
        (((planned s).filter fun x => kept x && !(l.ofSubject s).contains x).eraseDups ++
          listedOnce l planned (fun x => kept x && !(l.ofSubject s ++ planned s).contains x)
            rest) := by
  unfold listedOnce
  have hsplit (xs ys seen : List CourseId) :
      (xs ++ ys).removeAll seen = xs.removeAll seen ++ ys.removeAll seen :=
    List.filter_append ..
  have hseen : (fun x => kept x && !(l.ofSubject s ++ planned s).contains x) =
      fun x => (kept x && !(l.ofSubject s).contains x) && !(planned s).contains x := by
    funext x
    rw [List.contains_append, Bool.not_or, Bool.and_assoc]
  rw [hseen, List.flatMap_cons, List.filter_append, List.filter_append, List.append_assoc,
    List.eraseDups_append, eraseDups_of_nodup (h.filter _), hsplit, removeAll_filter,
    removeAll_filter, List.eraseDups_append, removeAll_filter]

namespace Ledger.Behind

variable {catalog : Catalog ℚ} {counts counts' : CourseId → Bool} {l l' : Ledger}

theorem mono (h : l.Behind catalog counts l') (hcounts : ∀ x, counts' x = true → counts x = true) :
    l.Behind catalog counts' l' :=
  { h with outrun := fun s kept hkept => h.outrun s kept fun x hx => hcounts x (hkept x hx) }

theorem contains_eq (h : l.Behind catalog counts l') (id : CourseId) :
    l.contains id = l'.contains id := by
  rw [Bool.eq_iff_iff, contains, contains, List.contains_iff_mem, List.contains_iff_mem]
  exact h.same id.subject id

/-- Subject by subject, the candidates come at least as far. -/
theorem outrun_listedOnce (h : l.Behind catalog counts l')
    (planned : SubjectCode → List CourseId) (done kept : CourseId → Bool)
    (hkept : ∀ x, kept x = true → counts x = true) (subjects : List SubjectCode) :
    Outrun (((listedOnce l planned kept subjects).filter done).map catalog.credits)
      (((listedOnce l' planned kept subjects).filter done).map catalog.credits) := by
  induction subjects generalizing kept with
  | nil => exact .refl _
  | cons s rest ih =>
      have hsame (x : CourseId) : (l.ofSubject s).contains x = (l'.ofSubject s).contains x := by
        rw [Bool.eq_iff_iff, List.contains_iff_mem, List.contains_iff_mem, h.same s x]
      have hbefore (x : CourseId) : (l.ofSubject s ++ planned s).contains x =
          (l'.ofSubject s ++ planned s).contains x := by
        rw [List.contains_append, List.contains_append, hsame x]
      rw [listedOnce_cons (h.nodup s), listedOnce_cons (h.nodup' s)]
      simp only [hsame, hbefore, List.filter_append, List.map_append, List.filter_filter]
      -- The planned courses of a subject come in one order, and only the recorded ones in two.
      apply (h.outrun s _ _).append ((Outrun.refl _).append (ih _ _))
      · intro x hx
        exact hkept x (Bool.and_eq_true_iff.1 hx).2
      · intro x hx
        exact hkept x (Bool.and_eq_true_iff.1 hx).1

end Ledger.Behind

/-! ## Orders of recording -/

/-- The courses that add to a count before those that take away from it. -/
def gainsFirst (catalog : Catalog ℚ) (ids : List CourseId) : List CourseId :=
  ids.filter (0 ≤ catalog.credits ·) ++ ids.filter (catalog.credits · < 0)

/-- The courses that take away from a count before those that add to it. -/
def lossesFirst (catalog : Catalog ℚ) (ids : List CourseId) : List CourseId :=
  ids.filter (catalog.credits · < 0) ++ ids.filter (0 ≤ catalog.credits ·)

section

variable {catalog : Catalog ℚ} {counts : CourseId → Bool} {ids order : List CourseId} {x : CourseId}

theorem mem_gainsFirst : x ∈ gainsFirst catalog ids ↔ x ∈ ids := by
  simp only [gainsFirst, List.mem_append, List.mem_filter, decide_eq_true_iff, ← and_or_left,
    le_or_gt, and_true]

theorem mem_lossesFirst : x ∈ lossesFirst catalog ids ↔ x ∈ ids := by
  rw [lossesFirst, List.mem_append, or_comm, ← List.mem_append, ← gainsFirst, mem_gainsFirst]

namespace Ledger

theorem mem_ofSubject_ofList {s : SubjectCode} :
    x ∈ (ofList ids).ofSubject s ↔ x ∈ ids ∧ x.subject = s := by
  rw [ofSubject_ofList, List.mem_eraseDups, List.mem_filter, decide_eq_true_iff]

/-- What is recorded first stands first under each subject. -/
theorem exists_ofSubject_append (first second : List CourseId) (s : SubjectCode) :
    ∃ front back, (ofList (first ++ second)).ofSubject s = front ++ back ∧ front ⊆ first ∧
      back ⊆ second := by
  rw [ofSubject_ofList, List.filter_append, List.eraseDups_append]
  refine ⟨_, _, rfl, ?_, ?_⟩
  · intro x hx
    exact (List.mem_filter.1 (List.mem_eraseDups.1 hx)).1
  · intro x hx
    rw [List.mem_eraseDups, List.removeAll, List.mem_filter, List.mem_filter] at hx
    exact hx.1.1

theorem weight_of_subset (sign : ℚ → Prop) [DecidablePred sign] {listed : List CourseId}
    (h : listed ⊆ ids.filter (sign <| catalog.credits ·)) (kept : CourseId → Bool) :
    ∀ w ∈ (listed.filter kept).map catalog.credits, sign w := by
  refine List.forall_mem_map.2 fun x hx => ?_
  have hmem : x ∈ ids.filter (sign <| catalog.credits ·) := h (List.mem_filter.1 hx).1
  exact of_decide_eq_true (List.mem_filter.1 hmem).2

/-- Ledgers of the same courses differ in the order of each subject only. -/
theorem behind_of_outrun (hsame : ∀ x, x ∈ order ↔ x ∈ ids)
    (h : ∀ s (kept : CourseId → Bool), (∀ x, kept x = true → counts x = true) →
      (((ofList order).ofSubject s).filter kept).Perm (((ofList ids).ofSubject s).filter kept) →
      Outrun ((((ofList order).ofSubject s).filter kept).map catalog.credits)
        ((((ofList ids).ofSubject s).filter kept).map catalog.credits)) :
    (ofList order).Behind catalog counts (ofList ids) := by
  have hmem (s : SubjectCode) (x : CourseId) :
      x ∈ (ofList order).ofSubject s ↔ x ∈ (ofList ids).ofSubject s := by
    rw [mem_ofSubject_ofList, mem_ofSubject_ofList, hsame]
  have hnodup (ids : List CourseId) (s : SubjectCode) : ((ofList ids).ofSubject s).Nodup := by
    rw [ofSubject_ofList]
    exact nodup_eraseDups _
  refine ⟨hmem, hnodup order, hnodup ids, fun s kept hkept => h s kept hkept ?_⟩
  refine ((List.perm_ext_iff_of_nodup (hnodup order s) (hnodup ids s)).2 fun x => ?_).filter kept
  exact hmem s x

theorem behind_gainsFirst (hsame : ∀ x, x ∈ order ↔ x ∈ ids) :
    (ofList order).Behind catalog counts (ofList (gainsFirst catalog ids)) := by
  apply behind_of_outrun
  · intro x
    rw [hsame, mem_gainsFirst]
  intro s kept _ hperm
  obtain ⟨gains, losses, hlist, hgains, hlosses⟩ :=
    exists_ofSubject_append (ids.filter (0 ≤ catalog.credits ·))
      (ids.filter (catalog.credits · < 0)) s
  rw [gainsFirst, hlist] at hperm ⊢
  rw [List.filter_append, List.map_append]
  apply Outrun.gains_first
  · rw [← List.map_append, ← List.filter_append]
    exact hperm.map _
  · exact weight_of_subset (0 ≤ ·) hgains kept
  · intro w hw
    exact le_of_lt (weight_of_subset (· < 0) hlosses kept w hw)

theorem lossesFirst_behind (hsame : ∀ x, x ∈ order ↔ x ∈ ids) :
    (ofList (lossesFirst catalog ids)).Behind catalog counts (ofList order) := by
  apply behind_of_outrun
  · intro x
    rw [hsame, mem_lossesFirst]
  intro s kept _ hperm
  obtain ⟨losses, gains, hlist, hlosses, hgains⟩ :=
    exists_ofSubject_append (ids.filter (catalog.credits · < 0))
      (ids.filter (0 ≤ catalog.credits ·)) s
  rw [lossesFirst, hlist] at hperm ⊢
  rw [List.filter_append, List.map_append]
  apply Outrun.losses_first
  · rw [← List.map_append, ← List.filter_append]
    exact hperm.map _
  · exact weight_of_subset (0 ≤ ·) hgains kept
  · intro w hw
    exact le_of_lt (weight_of_subset (· < 0) hlosses kept w hw)

/-- If nothing that counts takes away from a count, no order comes further than another. -/
theorem behind_of_gains (hsame : ∀ x, x ∈ order ↔ x ∈ ids)
    (hgains : ∀ x ∈ ids, counts x = true → 0 ≤ catalog.credits x) :
    (ofList order).Behind catalog counts (ofList ids) := by
  apply behind_of_outrun hsame
  intro s kept hkept hperm
  rw [← List.append_nil ((((ofList ids).ofSubject s).filter kept).map catalog.credits)]
  apply Outrun.gains_first
  · rw [List.append_nil]
    exact hperm.map _
  · refine List.forall_mem_map.2 fun x hx => ?_
    obtain ⟨hlisted, hx⟩ := List.mem_filter.1 hx
    exact hgains x (mem_ofSubject_ofList.1 hlisted).1 (hkept x hx)
  · exact nofun

end Ledger

end

/-! ## Verdicts -/

namespace Context

/-- The same context after the courses have been recorded in this order. -/
def recording {W : Type} (ctx : Context W) (order : List CourseId) : Context W :=
  { ctx with ledger := .ofList order }

theorem termsOrdered_recording {W : Type} {ctx : Context W} {g : DependencyGraph}
    (h : ctx.TermsOrdered g) (order : List CourseId) : (ctx.recording order).TermsOrdered g :=
  h

variable {ctx : Context ℚ} {g : DependencyGraph} {scope : Scope} {l l' : Ledger}
  {ids order : List CourseId} {course : CourseId}

/-- A credit rule that holds goes on to hold where the courses that count come further. -/
theorem creditHolds_of_behind (hterms : ctx.TermsOrdered g) {rule : CreditRule}
    (h : l.Behind ctx.catalog (fun id => id != scope.course && rule.counts id) l')
    (hholds : creditHolds { ctx with ledger := l } g scope rule = .ok true) :
    creditHolds { ctx with ledger := l' } g scope rule = .ok true := by
  classical
  have hordered (l : Ledger) : TermsOrdered { ctx with ledger := l } g := hterms
  have hdone : Done { ctx with ledger := l } g scope = Done { ctx with ledger := l' } g scope := by
    funext id
    unfold Done
    rw [h.contains_eq id]
    rfl
  unfold creditHolds at hholds ⊢
  split
  next => rfl
  next hvacuous =>
    let kept (id : CourseId) : Bool := id != scope.course && rule.counts id
    let planned (s : SubjectCode) : List CourseId := ctx.walk.list s (g.ofSubject s)
    have hreach (l : Ledger) :
        Decides (creditsReach { ctx with ledger := l } g scope rule.required 0
            (creditCandidates { ctx with ledger := l } g scope rule))
          (∃ counted, counted <+: ((listedOnce l planned kept rule.subjects).filter
              (Done { ctx with ledger := l } g scope ·)).map ctx.catalog.credits ∧
            (rule.required.toNat : ℚ) ≤ 0 + counted.sum) :=
      creditsReach_decides_counted (hordered l) rule.required 0 (required_pos hvacuous) _
    rw [if_neg hvacuous] at hholds
    obtain ⟨counted, hprefix, hle⟩ := (hreach l).eq_true_iff.1 hholds
    obtain ⟨counted', hprefix', hle'⟩ :=
      (h.outrun_listedOnce planned (Done { ctx with ledger := l } g scope ·) kept
        (fun _ hx => hx) rule.subjects).ahead counted hprefix
    refine (hreach l').eq_true_iff.2 ⟨counted', ?_, by linarith⟩
    rw [← hdone]
    exact hprefix'

theorem leafHolds_of_behind {counts : CourseId → Bool} (h : l.Behind ctx.catalog counts l')
    (id : CourseId) : leafHolds { ctx with ledger := l } g scope id =
      leafHolds { ctx with ledger := l' } g scope id := by
  have halike (x : CourseId) :
      AlikeAt { ctx with ledger := l } { ctx with ledger := l' } g g x :=
    ⟨rfl, h.contains_eq x⟩
  exact leafHolds_congr ⟨halike id, rfl, fun x _ => halike x⟩

theorem groupHolds_of_behind (hterms : ctx.TermsOrdered g)
    (h : l.Behind ctx.catalog (fun _ => true) l') (group : Group)
    (hholds : groupHolds { ctx with ledger := l } g scope group = .ok true) :
    groupHolds { ctx with ledger := l' } g scope group = .ok true := by
  have hordered (l : Ledger) : TermsOrdered { ctx with ledger := l } g := hterms
  refine groupHolds_mono (hordered l) (hordered l') ?_ ?_ group hholds
  · intro id hid
    rwa [← leafHolds_of_behind h]
  · intro rule hrule
    exact creditHolds_of_behind hterms (h.mono fun _ _ => rfl) hrule

/-- The best and the worst order of recording agree on the group. -/
def Unswayed (ctx : Context ℚ) (g : DependencyGraph) (ids : List CourseId) (scope : Scope)
    (group : Group) : Prop :=
  (ctx.recording (gainsFirst ctx.catalog ids)).groupHolds g scope group =
    (ctx.recording (lossesFirst ctx.catalog ids)).groupHolds g scope group

/-- What the best and the worst order agree on, all orders agree on. -/
theorem groupHolds_recording (hterms : ctx.TermsOrdered g) {group : Group}
    (h : ctx.Unswayed g ids scope group) (hsame : ∀ x, x ∈ order ↔ x ∈ ids) :
    (ctx.recording order).groupHolds g scope group =
      (ctx.recording (gainsFirst ctx.catalog ids)).groupHolds g scope group := by
  have hverdict (order : List CourseId) :
      HasVerdict ((ctx.recording order).groupHolds g scope group) :=
    groupHolds_hasVerdict (termsOrdered_recording hterms order) scope group
  apply (hverdict _).eq_of_iff (hverdict _)
  constructor
  · exact groupHolds_of_behind hterms (Ledger.behind_gainsFirst hsame) group
  · intro hbest
    rw [h] at hbest
    exact groupHolds_of_behind hterms (Ledger.lossesFirst_behind hsame) group hbest

/-- A rule toward which no course of negative weight counts has one verdict in all orders. -/
theorem creditHolds_recording (hterms : ctx.TermsOrdered g) {rule : CreditRule}
    (hsame : ∀ x, x ∈ order ↔ x ∈ ids)
    (hgains : ∀ id ∈ ids, ctx.catalog.credits id < 0 → id ≠ scope.course →
      rule.counts id = false) :
    (ctx.recording order).creditHolds g scope rule =
      (ctx.recording ids).creditHolds g scope rule := by
  have hverdict (order : List CourseId) :
      HasVerdict ((ctx.recording order).creditHolds g scope rule) :=
    creditHolds_hasVerdict (termsOrdered_recording hterms order) scope rule
  have hweights (id : CourseId) (hid : id ∈ ids)
      (hcounts : (id != scope.course && rule.counts id) = true) : 0 ≤ ctx.catalog.credits id := by
    rw [Bool.and_eq_true, bne_iff_ne] at hcounts
    by_contra hneg
    have hout := hgains id hid (not_le.1 hneg) hcounts.1
    exact Bool.false_ne_true (hout.symm.trans hcounts.2)
  apply (hverdict _).eq_of_iff (hverdict _)
  constructor
  · exact creditHolds_of_behind hterms (Ledger.behind_of_gains hsame hweights)
  · apply creditHolds_of_behind hterms
    exact Ledger.behind_of_gains (fun x => (hsame x).symm) fun id hid =>
      hweights id ((hsame id).1 hid)

theorem leafHolds_recording (hsame : ∀ x, x ∈ order ↔ x ∈ ids) (id : CourseId) :
    (ctx.recording order).leafHolds g scope id = (ctx.recording ids).leafHolds g scope id := by
  have hbehind : (Ledger.ofList order).Behind ctx.catalog (fun _ => false) (Ledger.ofList ids) :=
    Ledger.behind_of_gains hsame fun _ _ => nofun
  exact leafHolds_of_behind hbehind id

/-- The rest of a verdict does not look at the ledger. -/
theorem isSatisfied_recording_congr (hterms : ctx.TermsOrdered g)
    (h : ∀ position, ctx.PlannedAt g course position →
      (ctx.recording order).requisitesHold g course position =
        (ctx.recording ids).requisitesHold g course position) :
    ∃ b, (ctx.recording order).isSatisfied g course = .ok b ∧
      (ctx.recording ids).isSatisfied g course = .ok b := by
  have hsame : (ctx.recording order).isSatisfied g course =
      (ctx.recording ids).isSatisfied g course := by
    obtain ⟨planned, hplanned, hposition⟩ := ctx.plannedPosition_ordered hterms course
    replace hplanned (order : List CourseId) :
        (ctx.recording order).plannedPosition g course = .ok planned :=
      hplanned
    unfold isSatisfied
    rw [hplanned order, hplanned ids]
    cases planned with
    | none => rfl
    | some position =>
        change ((ctx.recording order).requisitesHold g course position >>= _) = _
        rw [h position ((hposition position).1 rfl)]
        rfl
  obtain ⟨b, hb⟩ := isSatisfied_hasVerdict (termsOrdered_recording hterms ids) course
  exact ⟨b, hsame.trans hb, hb⟩

/-- Where all planned courses have positions, a group has one verdict in all orders in which the
same courses can be recorded if and only if it has one in the best and in the worst. So a course has
one verdict if these two agree on each of its groups, and also if, itself apart, no completed course
of negative weight counts toward any of its credit rules. -/
theorem isSatisfied_recording (ctx : Context ℚ) (g : DependencyGraph)
    (hterms : ctx.TermsOrdered g) (ids : List CourseId) :
    (∀ scope group, ctx.Unswayed g ids scope group ↔
      ∀ order, (∀ x, x ∈ order ↔ x ∈ ids) →
        (ctx.recording order).groupHolds g scope group =
          (ctx.recording ids).groupHolds g scope group) ∧
    ∀ course order, (∀ x, x ∈ order ↔ x ∈ ids) →
      (∀ requisites, ctx.catalog.requisites? course = some requisites →
        (∀ r ∈ requisites.toList, ∀ position, ctx.PlannedAt g course position →
          ctx.Unswayed g ids ⟨course, position, r.kind.includesCurrentTerm⟩ r.group) ∨
        ∀ id ∈ ids, ctx.catalog.credits id < 0 → id ≠ course →
          ∀ rule ∈ requisites.creditRules, rule.counts id = false) →
      ∃ b, (ctx.recording order).isSatisfied g course = .ok b ∧
        (ctx.recording ids).isSatisfied g course = .ok b := by
  constructor
  · intro scope group
    constructor
    · intro h order hsame
      rw [groupHolds_recording hterms h hsame, groupHolds_recording hterms h fun _ => Iff.rfl]
    · intro h
      exact (h _ fun _ => mem_gainsFirst).trans (h _ fun _ => mem_lossesFirst).symm
  · intro course order hsame hcourse
    apply isSatisfied_recording_congr hterms
    intro position hposition
    apply allMet_congr
    intro r hr
    replace hr : r ∈ ((ctx.catalog.requisites? course).map Requisites.toList).getD [] := hr
    cases hrequisites : ctx.catalog.requisites? course with
    | none =>
        rw [hrequisites] at hr
        cases hr
    | some requisites =>
        rw [hrequisites] at hr
        replace hr : r ∈ requisites.toList := hr
        rcases hcourse requisites hrequisites with hunswayed | hgains
        · have hgroup := hunswayed r hr position hposition
          rw [groupHolds_recording hterms hgroup hsame,
            groupHolds_recording hterms hgroup fun _ => Iff.rfl]
        · apply groupHolds_congr
          · intro id _
            exact leafHolds_recording hsame id
          · intro rule hrule
            apply creditHolds_recording hterms hsame
            intro id hid hneg hne
            exact hgains id hid hneg hne rule (List.mem_flatMap.2 ⟨r, hr, hrule⟩)

end Context

/-- A course that adds as many credits as two others each take away, one of them where the rule of
`COMP 400` does not count it. -/
def Sample.weighed : Catalog ℚ :=
  (((Catalog.empty.insert ⟨comp 250, 3, .empty⟩).insert ⟨comp 251, -3, .empty⟩).insert
    ⟨comp 351, -3, .empty⟩).insert
    ⟨comp 400, 3,
      ⟨some ⟨.prerequisite, .credit ⟨3, "2", [(comp 250).subject]⟩⟩, none, none⟩⟩

open Sample

/-- The credits suffice before the course of negative weight is counted, and not after. -/
theorem Context.isSatisfied_lossFirst :
    let ctx : Context ℚ := ⟨twoTerms, .empty, weighed, .empty, .byId⟩
    let g := DependencyGraph.empty.run weighed [.add ⟨"second"⟩ [comp 400]]
    ctx.TermsOrdered g ∧ (∀ x, x ∈ [comp 251, comp 250] ↔ x ∈ [comp 250, comp 251]) ∧
      (ctx.recording [comp 250, comp 251]).isSatisfied g (comp 400) = .ok true ∧
      (ctx.recording [comp 251, comp 250]).isSatisfied g (comp 400) = .ok false := by
  intro ctx g
  refine ⟨termsOrdered_empty.add ⟨0, by decide +kernel⟩, ?_, by decide +kernel, by decide +kernel⟩
  intro x
  rw [List.mem_cons, List.mem_singleton, or_comm, List.mem_cons, List.mem_singleton]

/-- A course of negative weight that does not count toward the rule stands in the way of nothing. -/
theorem Context.isSatisfied_recording_uncounted :
    let ctx : Context ℚ := ⟨twoTerms, .empty, weighed, .empty, .byId⟩
    let g := DependencyGraph.empty.run weighed [.add ⟨"second"⟩ [comp 400]]
    ctx.TermsOrdered g ∧ ∀ order, (∀ x, x ∈ order ↔ x ∈ [comp 250, comp 351]) →
      (ctx.recording order).isSatisfied g (comp 400) = .ok true := by
  intro ctx g
  have hterms : ctx.TermsOrdered g := termsOrdered_empty.add ⟨0, by decide +kernel⟩
  refine ⟨hterms, fun order hsame => ?_⟩
  have hverdict : (ctx.recording [comp 250, comp 351]).isSatisfied g (comp 400) = .ok true := by
    decide +kernel
  have huncounted (requisites : Requisites)
      (hrequisites : weighed.requisites? (comp 400) = some requisites) :
      ∀ id ∈ [comp 250, comp 351], weighed.credits id < 0 → id ≠ comp 400 →
        ∀ rule ∈ requisites.creditRules, rule.counts id = false := by
    rw [Catalog.requisites?, weighed, Catalog.get?_insert, if_pos rfl] at hrequisites
    cases hrequisites
    intro id hid hneg _ rule hrule
    rw [List.mem_singleton.1 hrule]
    rw [List.mem_cons, List.mem_singleton] at hid
    rcases hid with rfl | rfl
    · exact absurd hneg (by decide +kernel)
    · decide
  obtain ⟨b, hb, hids⟩ := (isSatisfied_recording ctx g hterms [comp 250, comp 351]).2 (comp 400)
    order hsame fun requisites hrequisites => Or.inr (huncounted requisites hrequisites)
  cases hids.symm.trans hverdict
  exact hb

end Curriculum
