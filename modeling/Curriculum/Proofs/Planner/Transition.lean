import Curriculum.Proofs.Equivalence
import Curriculum.Proofs.Ledger.Changed
import Curriculum.Proofs.Plan.RuleDependents
import Curriculum.Proofs.Verdict.Recompute

/-!
# Transitions of a plan

A transaction changes a plan and recomputes a set of verdicts. Outside of that set a verdict can
change for one reason only: the courses that are looked for exclude those that are asked about, so
a course that is both is lost sight of.
-/

namespace Curriculum

namespace PlanState

variable {W : Type} {catalog : Catalog W} {s next : PlanState} {ledger ledger' : Ledger}
  {ids changed : List CourseId} {rule : EquivalenceRule} {affected : CourseSet}

/-- The graph of the plan is exact, and its rules link both ways. -/
structure Sound (s : PlanState) (catalog : Catalog W) : Prop where
  exact : s.graph.Exact catalog
  symmetric : s.equivalences.Symmetric

theorem sound_ofTerms (terms : TermOrder) (catalog : Catalog W) :
    (ofTerms terms).Sound catalog :=
  ⟨DependencyGraph.exact_empty catalog, EquivalenceRules.symmetric_empty⟩

/-! ## Courses that are lost sight of -/

/-- The course is equivalent to one that comes, goes or moves, and so is a course that it names. -/
def ShadowedByCourses (s : PlanState) (catalog : Catalog W) (ids : List CourseId)
    (d : CourseId) : Prop :=
  (∃ id ∈ ids, d ∈ s.equivalences.equivalents id) ∧
    ∃ id ∈ ids, ∃ x ∈ s.equivalences.equivalents id, catalog.references d x = true

/-- The course is a side of a rule that comes or goes, and it names itself. -/
def ShadowedByRule (catalog : Catalog W) (rule : EquivalenceRule) (d : CourseId) : Prop :=
  (d = rule.first ∨ d = rule.second) ∧ catalog.references d d = true

/-- The course is recorded or forgotten, or equivalent to one that is, and it names itself. -/
def ShadowedByLedger (s : PlanState) (catalog : Catalog W) (changed : List CourseId)
    (d : CourseId) : Prop :=
  (d ∈ changed ∨ ∃ id ∈ changed, d ∈ s.equivalences.equivalents id) ∧
    catalog.references d d = true

/-! ## Transitions -/

/-- A change of a plan and perhaps of the ledger. A planned course outside the affected set keeps
its stored verdict, and unless it is lost, all that the verdict depends on. -/
structure Transition (catalog : Catalog W) (s next : PlanState) (ledger ledger' : Ledger)
    (affected : CourseSet) (lost : CourseId → Prop) : Prop where
  sound : next.Sound catalog
  kept : ∀ d, next.graph.contains d = true → d ∉ affected →
    (next.graph.get? d).map PlannedCourse.isSatisfied =
      (s.graph.get? d).map PlannedCourse.isSatisfied
  alike : ∀ d, next.graph.contains d = true → d ∉ affected → ¬lost d → ∀ walk,
    Context.VerdictAlike (s.context ledger catalog walk) (next.context ledger' catalog walk)
      s.graph next.graph d

theorem plannedPosition_congr {walk : Walk} {x : CourseId} (hterms : next.terms = s.terms)
    (h : next.graph.term? x = s.graph.term? x) :
    (s.context ledger catalog walk).plannedPosition s.graph x =
      (next.context ledger' catalog walk).plannedPosition next.graph x := by
  simp only [Context.plannedPosition, context, hterms, h]

theorem Transition.mono {lost lost' : CourseId → Prop}
    (h : Transition catalog s next ledger ledger' affected lost) (hlost : ∀ d, lost d → lost' d) :
    Transition catalog s next ledger ledger' affected lost' where
  sound := h.sound
  kept := h.kept
  alike d hd hout hnot := h.alike d hd hout (mt (hlost d) hnot)

/-- The courses that a change of plan looks for are planned. They hold a credit rule over a subject
involved, if those are wanted, or name an equivalent and are none. -/
theorem mem_changeDependents (hs : s.Sound catalog) {widen : Bool} {d : CourseId} :
    d ∈ s.changeDependents catalog widen ids ↔ s.graph.contains d = true ∧
      (widen = true ∧ (∃ id ∈ ids, catalog.asksCreditIn d id.subject) ∨
        (¬∃ id ∈ ids, d ∈ s.equivalences.equivalents id) ∧
          ∃ id ∈ ids, ∃ x ∈ s.equivalences.equivalents id, catalog.references d x = true) := by
  have hholders :
      d ∈ (if widen = true then s.graph.creditDependents (ids.map CourseId.subject) else ∅) ↔
        s.graph.contains d = true ∧
          widen = true ∧ ∃ id ∈ ids, catalog.asksCreditIn d id.subject := by
    cases widen with
    | false => simp
    | true =>
        rw [if_pos rfl, hs.exact.mem_creditDependents, and_iff_right (rfl : true = true)]
        refine and_congr_right fun _ => ?_
        constructor
        · rintro ⟨_, hsubject, hasks⟩
          obtain ⟨id, hid, rfl⟩ := List.mem_map.1 hsubject
          exact ⟨id, hid, hasks⟩
        · rintro ⟨id, hid, hasks⟩
          exact ⟨id.subject, List.mem_map_of_mem hid, hasks⟩
  have hequivalents (x : CourseId) :
      x ∈ ids.flatMap (fun id => (s.equivalences.equivalents id).toList) ↔
        ∃ id ∈ ids, x ∈ s.equivalences.equivalents id := by
    simp
  unfold changeDependents
  dsimp only
  rw [Std.ExtTreeSet.mem_union_iff, hholders, DependencyGraph.mem_referencing, ← and_or_left]
  simp only [hequivalents]
  refine and_congr_right fun _ => or_congr_right (and_congr_right fun _ => ?_)
  constructor
  · rintro ⟨x, ⟨id, hid, hx⟩, href⟩
    exact ⟨id, hid, x, hx, href⟩
  · rintro ⟨id, hid, x, hx, href⟩
    exact ⟨x, ⟨id, hid, hx⟩, href⟩

/-- A change of plan loses sight of shadowed courses, and without widening of the courses with
credit rules. -/
theorem transition_of_covers_widening {g : DependencyGraph} {covered : CourseSet}
    (hs : s.Sound catalog) (hexact : g.Exact catalog)
    (hcovers : s.graph.Covers catalog g ids covered) (widen : Bool) :
    Transition catalog s { s with graph := g } ledger ledger
      (covered ∪ changeDependents { s with graph := g } catalog widen ids)
      (fun d => s.ShadowedByCourses catalog ids d ∨
        widen = false ∧ ∃ subject, catalog.asksCreditIn d subject) where
  sound := ⟨hexact, hs.symmetric⟩
  kept d hd hout := by
    have hcovered : d ∉ covered := fun h => hout (Std.ExtTreeSet.mem_union_iff.2 (Or.inl h))
    have hstanding := congrArg (Option.map Prod.snd) (hcovers.kept d hd hcovered)
    rw [Option.map_map, Option.map_map] at hstanding
    exact hstanding
  alike d hd hout hlost walk := by
    have hnext : Sound { s with graph := g } catalog := ⟨hexact, hs.symmetric⟩
    rw [Std.ExtTreeSet.mem_union_iff, not_or, mem_changeDependents hnext, and_iff_right hd,
      not_or] at hout
    obtain ⟨hcovered, hholder, hreferencing⟩ := hout
    rw [not_or] at hlost
    obtain ⟨hshadowed, hstale⟩ := hlost
    have halike (x : CourseId) (h : g.term? x = s.graph.term? x) :
        Context.AlikeAt (s.context ledger catalog walk)
          (PlanState.context { s with graph := g } ledger catalog walk) s.graph g x :=
      ⟨plannedPosition_congr rfl h, rfl⟩
    refine ⟨rfl, ?_, ?_, ?_, ?_⟩
    · exact plannedPosition_congr rfl
        (DependencyGraph.term?_of_standing (hcovers.kept d hd hcovered))
    · intro x href
      refine ⟨halike x (hcovers.named d x hd hcovered href), rfl, fun y hy => ?_⟩
      apply halike
      apply hcovers.elsewhere
      intro hmem
      have hnames : ∃ id ∈ ids, ∃ x ∈ s.equivalences.equivalents id,
          catalog.references d x = true :=
        ⟨y, hmem, x, hs.symmetric x y hy, href⟩
      -- The course names an equivalent, so only being one keeps it from being found.
      by_cases hself : ∃ id ∈ ids, d ∈ s.equivalences.equivalents id
      · exact hshadowed ⟨hself, hnames⟩
      · exact hreferencing ⟨hself, hnames⟩
    · intro subject hasks
      have hterm (x : CourseId) (hx : x.subject = subject) : g.term? x = s.graph.term? x := by
        apply hcovers.elsewhere
        intro hmem
        cases widen with
        | false => exact hstale ⟨rfl, subject, hasks⟩
        | true => exact hholder ⟨rfl, x, hmem, hx ▸ hasks⟩
      refine ⟨rfl, congrArg (walk.list subject) ?_, fun x hx => halike x (hterm x hx)⟩
      ext x
      rw [DependencyGraph.ofSubject, DependencyGraph.ofSubject, hs.exact.mem_bySubject,
        hexact.mem_bySubject]
      refine and_congr_left fun hx => ?_
      rw [← DependencyGraph.term?_isSome, ← DependencyGraph.term?_isSome, hterm x hx]
    · intro x hpart
      exact plannedPosition_congr rfl (hcovers.part d x hd hcovered hpart)

theorem transition_of_covers {g : DependencyGraph} {covered : CourseSet} (hs : s.Sound catalog)
    (hexact : g.Exact catalog) (hcovers : s.graph.Covers catalog g ids covered) :
    Transition catalog s { s with graph := g } ledger ledger
      (covered ∪ changeDependents { s with graph := g } catalog true ids)
      (s.ShadowedByCourses catalog ids) := by
  refine (transition_of_covers_widening hs hexact hcovers true).mono fun d hlost => ?_
  exact hlost.resolve_right fun h => nomatch h.1

/-- Everything is recomputed when the terms are put in another order. -/
theorem transition_reorder (hs : s.Sound catalog) (terms : TermOrder)
    (lost : CourseId → Prop) :
    Transition catalog s { s with terms } ledger ledger s.graph.courses lost where
  sound := ⟨hs.exact, hs.symmetric⟩
  kept _ hd hout := absurd (DependencyGraph.mem_courses.2 hd) hout
  alike _ hd hout _ _ := absurd (DependencyGraph.mem_courses.2 hd) hout

/-- A rule that comes or goes concerns the leaves that name one of its sides. -/
theorem transition_rules {rules : EquivalenceRules} (hs : s.Sound catalog)
    (hsymmetric : rules.Symmetric)
    (hlinks : ∀ x, x ≠ rule.first → x ≠ rule.second →
      rules.equivalents x = s.equivalences.equivalents x) :
    Transition catalog s { s with equivalences := rules } ledger ledger
      (s.graph.ruleDependents catalog rule) (ShadowedByRule catalog rule) where
  sound := ⟨hs.exact, hsymmetric⟩
  kept d _ _ := rfl
  alike d hd hout hlost walk := by
    have halike (x : CourseId) :
        Context.AlikeAt (s.context ledger catalog walk)
          (PlanState.context { s with equivalences := rules } ledger catalog walk) s.graph
          s.graph x :=
      ⟨rfl, rfl⟩
    have hside (x : CourseId) (hx : x = rule.first ∨ x = rule.second) :
        ¬catalog.references d x = true := by
      intro href
      have hnames : d ∈ s.graph.dependentsOf catalog [rule.first, rule.second] :=
        DependencyGraph.mem_dependentsOf.2 ⟨hd, x, List.mem_pair.2 hx, href⟩
      -- A course that names a side is only missed if it names itself and is the side.
      have honly : rule.NamesOnlyItself catalog d := Classical.byContradiction fun hnot =>
        hout (DependencyGraph.mem_ruleDependents_iff.2 ⟨hnames, hnot⟩)
      exact hlost ⟨honly.side, honly.1⟩
    refine ⟨rfl, rfl, ?_, fun _ _ => ⟨rfl, rfl, fun x _ => halike x⟩, fun _ _ => rfl⟩
    intro x href
    refine ⟨halike x, ?_, fun y _ => halike y⟩
    refine (hlinks x ?_ ?_).symm
    · rintro rfl
      exact hside _ (Or.inl rfl) href
    · rintro rfl
      exact hside _ (Or.inr rfl) href

theorem mem_ledgerDependents {d : CourseId} :
    d ∈ s.ledgerDependents catalog changed ↔
      d ∈ s.graph.creditDependents (changed.map CourseId.subject) ∨
        ∃ t, (t ∈ changed ∨ ∃ id ∈ changed, t ∈ s.equivalences.equivalents id) ∧
          d ∈ s.graph.referencing catalog [t] := by
  unfold ledgerDependents
  dsimp only
  rw [CourseSet.mem_foldl_union]
  simp

/-- A course that is recorded or forgotten concerns the leaves that name it or an equivalent, and
the credit rules over its subject. -/
theorem transition_ledger (hs : s.Sound catalog) (h : Ledger.AgreeOff changed ledger ledger') :
    Transition catalog s s ledger ledger' (s.ledgerDependents catalog changed)
      (s.ShadowedByLedger catalog changed) where
  sound := hs
  kept _ _ _ := rfl
  alike d hd hout hlost walk := by
    rw [mem_ledgerDependents, not_or] at hout
    obtain ⟨hholder, htargets⟩ := hout
    have halike (x : CourseId) (hx : x ∉ changed) :
        Context.AlikeAt (s.context ledger catalog walk) (s.context ledger' catalog walk) s.graph
          s.graph x :=
      ⟨rfl, (h.contains x hx).symm⟩
    have hnamed (x : CourseId) (href : catalog.references d x = true) :
        ¬(x ∈ changed ∨ ∃ id ∈ changed, x ∈ s.equivalences.equivalents id) := by
      intro hx
      -- Each target is asked about by itself, so a course is missed only if it is the target.
      by_cases heq : d = x
      · subst heq
        exact hlost ⟨hx, href⟩
      · exact htargets ⟨x, hx, DependencyGraph.mem_referencing_singleton.2 ⟨hd, heq, href⟩⟩
    refine ⟨rfl, rfl, ?_, ?_, fun _ _ => rfl⟩
    · intro x href
      have hx := not_or.1 (hnamed x href)
      refine ⟨halike x hx.1, rfl, fun y hy => halike y fun hmem => ?_⟩
      exact hx.2 ⟨y, hmem, hs.symmetric x y hy⟩
    · intro subject hasks
      have hsubject := hs.exact.not_mem_of_asksCreditIn hd hholder hasks
      refine ⟨(h.ofSubject subject hsubject).symm, rfl, fun x hx => halike x fun hmem => ?_⟩
      exact hsubject (List.mem_map.2 ⟨x, hmem, hx⟩)

end PlanState

end Curriculum
