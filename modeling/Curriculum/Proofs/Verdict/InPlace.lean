import Curriculum.Proofs.Verdict.Batches
import Curriculum.Proofs.Verdict.Declarative

/-!
# Verdicts recomputed in place

A graph that is held in one place is written to verdict by verdict. The verdicts are all taken
before the first of them is written, so the graph is recomputed or stays as it is.
-/

namespace Curriculum

namespace DependencyGraph

/-- A result or an error, and either way the graph that is there then. -/
abbrev InPlace (α : Type) := ExceptT ConsistencyError (StateM DependencyGraph) α

namespace InPlace

variable {W : Type} {α : Type} {g : DependencyGraph}

def exec (x : InPlace α) (g : DependencyGraph) : Except ConsistencyError α × DependencyGraph :=
  x.run.run g

def attempt (result : Except ConsistencyError α) : InPlace α := ExceptT.mk (pure result)

def write (id : CourseId) (verdict : Bool) : InPlace Unit :=
  modify fun g => g.setSatisfied id verdict

/-- Writes verdicts, one after the other. -/
def writeAll : List (CourseId × Bool) → InPlace Unit
  | [] => return ()
  | (id, verdict) :: rest => do
    write id verdict
    writeAll rest

variable [CreditWeight W]

/-- Takes the verdicts on some courses, one after the other, and skips those not planned. -/
def takeVerdicts (ctx : Context W) : List CourseId → InPlace (List (CourseId × Bool))
  | [] => return []
  | id :: rest => do
    let g ← get
    if g.contains id then
      let verdict ← attempt (ctx.isSatisfied g id)
      return (id, verdict) :: (← takeVerdicts ctx rest)
    else takeVerdicts ctx rest

/-- Recomputes the verdicts of some courses in place. -/
def recompute (ctx : Context W) (courses : CourseSet) : InPlace Unit := do
  let verdicts ← takeVerdicts ctx courses.toList
  writeAll verdicts

/-- Recomputes all verdicts in place. -/
def recomputeAll (ctx : Context W) : InPlace Unit := do
  let g ← get
  recompute ctx g.courses

/-- Recomputes the verdicts of some courses, and then those of others. -/
def recomputeBoth (ctx : Context W) (first second : CourseSet) : InPlace Unit := do
  recompute ctx first
  recompute ctx second

variable {ctx : Context W} {courses first second : CourseSet} {next last : DependencyGraph}
  {e : ConsistencyError}

section

omit [CreditWeight W]

theorem exec_bind {β : Type} (x : InPlace α) (f : α → InPlace β) :
    (x >>= f).exec g = match x.exec g with
      | (.ok a, g') => (f a).exec g'
      | (.error e, g') => (.error e, g') := by
  unfold exec
  simp only [ExceptT.run_bind, StateT.run_bind]
  cases x.run.run g with
  | mk result g' => cases result <;> rfl

theorem exec_get : (get : InPlace DependencyGraph).exec g = (.ok g, g) :=
  rfl

theorem exec_attempt (result : Except ConsistencyError α) :
    (attempt result).exec g = (result, g) :=
  rfl

theorem exec_writeAll {verdicts : List (CourseId × Bool)} : (writeAll verdicts).exec g =
    (.ok (), verdicts.foldl (fun g verdict => g.setSatisfied verdict.1 verdict.2) g) := by
  induction verdicts generalizing g with
  | nil => rfl
  | cons entry rest ih =>
      rw [writeAll, exec_bind]
      exact ih

end

/-- Nothing is written while verdicts are taken. -/
theorem exec_takeVerdicts {ids : List CourseId} : (takeVerdicts ctx ids).exec g =
    ((ids.filter g.contains).mapM (fun id => do return (id, ← ctx.isSatisfied g id)), g) := by
  induction ids with
  | nil => rfl
  | cons id rest ih =>
      rw [takeVerdicts, exec_bind, exec_get]
      dsimp only
      by_cases hplanned : g.contains id = true
      · rw [if_pos hplanned, List.filter_cons_of_pos hplanned, List.mapM_cons]
        simp only [exec_bind, exec_attempt]
        cases ctx.isSatisfied g id with
        | error e => rfl
        | ok verdict =>
            simp only [ih]
            cases (rest.filter g.contains).mapM (fun id => do
              return (id, ← ctx.isSatisfied g id)) <;> rfl
      · rw [if_neg hplanned, List.filter_cons_of_neg hplanned, ih]

theorem exec_recompute : (recompute ctx courses).exec g = match g.recompute ctx courses with
    | .ok next => (.ok (), next)
    | .error e => (.error e, g) := by
  rw [recompute, exec_bind, exec_takeVerdicts, DependencyGraph.recompute, verdicts]
  cases (courses.toList.filter g.contains).mapM (fun id => do
    return (id, ← ctx.isSatisfied g id)) with
  | error e => rfl
  | ok verdicts => exact exec_writeAll

theorem exec_recompute_eq_error : (recompute ctx courses).exec g = (.error e, next) ↔
    g.recompute ctx courses = .error e ∧ next = g := by
  rw [exec_recompute]
  cases g.recompute ctx courses <;> simp [eq_comm]

theorem exec_recompute_eq_ok :
    (recompute ctx courses).exec g = (.ok (), next) ↔ Recomputed ctx courses g next := by
  rw [exec_recompute, ← recompute_eq_ok_iff]
  cases g.recompute ctx courses <;> simp

/-- Two batches come to what one batch of both comes to. -/
theorem exec_recomputeBoth_eq_ok : (recomputeBoth ctx first second).exec g = (.ok (), last) ↔
    Recomputed ctx (first ∪ second) g last := by
  rw [recomputeBoth, exec_bind, Recomputed.union_iff]
  constructor
  · intro h
    split at h
    next mid hfirst => exact ⟨mid, exec_recompute_eq_ok.1 hfirst, exec_recompute_eq_ok.1 h⟩
    next => cases h
  · rintro ⟨mid, hfirst, hsecond⟩
    rw [exec_recompute_eq_ok.2 hfirst]
    exact exec_recompute_eq_ok.2 hsecond

theorem exec_recomputeAll : (recomputeAll ctx).exec g = (recompute ctx g.courses).exec g := by
  rw [recomputeAll, exec_bind, exec_get]

/-- Recomputing fails exactly if there is no verdict on one of the planned courses, and then leaves
the graph. Otherwise it writes the verdicts on the planned courses, which are the same before and
after, and nothing else. No verdict looks at a stored one. So two batches come to what one batch of
both comes to, a second time changes nothing, and the order does not matter. Once everything is
recomputed, all stored verdicts are right. -/
theorem recompute_allOrNothing (ctx : Context W) (g : DependencyGraph)
    (first second : CourseSet) :
    ((∃ e left, (recompute ctx first).exec g = (.error e, left)) ↔
      ∃ id ∈ first, g.contains id = true ∧ ∃ e, ctx.isSatisfied g id = .error e) ∧
    (∀ e left, (recompute ctx first).exec g = (.error e, left) → left = g) ∧
    (∀ next, (recompute ctx first).exec g = (.ok (), next) →
      Recomputed ctx first g next ∧ ∀ d, ctx.isSatisfied next d = ctx.isSatisfied g d) ∧
    (∀ id verdict d, ctx.isSatisfied (g.setSatisfied id verdict) d = ctx.isSatisfied g d) ∧
    (∀ last, (recomputeBoth ctx first second).exec g = (.ok (), last) ↔
      (recompute ctx (first ∪ second)).exec g = (.ok (), last)) ∧
    (∀ last, (recomputeBoth ctx first first).exec g = (.ok (), last) ↔
      (recompute ctx first).exec g = (.ok (), last)) ∧
    (∀ last, (recomputeBoth ctx first second).exec g = (.ok (), last) ↔
      (recomputeBoth ctx second first).exec g = (.ok (), last)) ∧
    (∀ last, (recomputeAll ctx).exec g = (.ok (), last) →
      ∀ d, ctx.isSatisfied last d = .ok (last.isSatisfied d)) := by
  have hself : first ∪ first = first := by
    ext d
    simp
  have hcomm : first ∪ second = second ∪ first := by
    ext d
    simp [or_comm]
  refine ⟨?failure, ?unchanged, ?written, fun id verdict d => ?stored, fun last => ?union,
    fun last => ?again, fun last => ?order, fun last h d => ?all⟩
  case failure =>
    rw [← recompute_eq_error_iff]
    simp only [exec_recompute_eq_error, exists_and_left, exists_eq, and_true]
  case unchanged =>
    intro e left h
    exact (exec_recompute_eq_error.1 h).2
  case written =>
    intro next h
    have hnext := exec_recompute_eq_ok.1 h
    exact ⟨hnext, hnext.isSatisfied⟩
  case stored => exact isSatisfied_setSatisfied g ctx id d verdict
  case union => rw [exec_recomputeBoth_eq_ok, exec_recompute_eq_ok]
  case again => rw [exec_recomputeBoth_eq_ok, exec_recompute_eq_ok, hself]
  case order => rw [exec_recomputeBoth_eq_ok, exec_recomputeBoth_eq_ok, hcomm]
  case all =>
    rw [exec_recomputeAll, exec_recompute_eq_ok] at h
    exact h.isSatisfied_courses d

end InPlace

end DependencyGraph

open Sample DependencyGraph.InPlace in
/-- Where the terms have positions, recomputing everything makes `COMP 251` satisfied. Where they
have none, it fails and leaves the graph. -/
theorem DependencyGraph.InPlace.allOrNothing_twoCourses :
    let g := DependencyGraph.empty.run twoCourses
      [.add ⟨"first"⟩ [comp 250], .add ⟨"second"⟩ [comp 251]]
    let ctx := Context.mk twoTerms Ledger.empty twoCourses .empty .byId
    let unordered := Context.mk .empty Ledger.empty twoCourses .empty .byId
    (∃ last, (recomputeAll ctx).exec g = (.ok (), last) ∧ last.isSatisfied (comp 251) = true ∧
      ctx.isSatisfied last (comp 251) = .ok true) ∧
    ∃ e, (recompute unordered g.courses).exec g = (.error e, g) := by
  intro g ctx unordered
  constructor
  · have hok : ((recomputeAll ctx).exec g).1 = .ok () := by decide +kernel
    have hstored : ((recomputeAll ctx).exec g).2.isSatisfied (comp 251) = true := by decide +kernel
    obtain ⟨_, _, _, _, _, _, _, hall⟩ := recompute_allOrNothing ctx g g.courses g.courses
    refine ⟨_, Prod.ext hok rfl, hstored, ?_⟩
    rw [hall _ (Prod.ext hok rfl) (comp 251), hstored]
  · obtain ⟨hfails, hunchanged, _⟩ := recompute_allOrNothing unordered g g.courses g.courses
    have hcause : unordered.isSatisfied g (comp 251) =
        .error (.termNotOrdered (comp 251) ⟨"second"⟩) := by decide +kernel
    obtain ⟨e, left, hleft⟩ := hfails.2 ⟨comp 251, by decide +kernel, by decide +kernel, _, hcause⟩
    exact ⟨e, by rw [hleft, hunchanged e left hleft]⟩

end Curriculum
