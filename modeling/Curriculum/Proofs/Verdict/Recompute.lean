import Curriculum.Proofs.Outcome
import Curriculum.Proofs.Plan.Indexed
import Curriculum.Proofs.Verdict.Frame

/-!
# Recomputed verdicts

Recomputing stores the verdicts of the planned courses among those given and changes nothing else.
As no verdict looks at stored ones, all of them are verdicts on the resulting graph, too.
-/

namespace Curriculum

/-- Verdicts on the members of a list, in the order of the list. -/
theorem mapM_verdict_eq_ok {ε : Type} {v : CourseId → Except ε Bool} {ids : List CourseId}
    {out : List (CourseId × Bool)}
    (h : (ids.mapM fun id => do return (id, ← v id)) = .ok out) :
    out.map Prod.fst = ids ∧ ∀ entry ∈ out, v entry.1 = .ok entry.2 := by
  induction ids generalizing out with
  | nil =>
      cases h
      exact ⟨rfl, nofun⟩
  | cons id rest ih =>
      simp only [List.mapM_cons, bind_eq_ok, pure_eq_ok] at h
      obtain ⟨entry, ⟨b, hid, rfl⟩, others, hrest, rfl⟩ := h
      obtain ⟨hids, hverdicts⟩ := ih hrest
      refine ⟨congrArg (id :: ·) hids, ?_⟩
      rw [List.forall_mem_cons]
      exact ⟨hid, hverdicts⟩

namespace DependencyGraph

variable {W : Type} {ctx : Context W} {g next : DependencyGraph} {affected : CourseSet}
  {d : CourseId} {out : List (CourseId × Bool)}

theorem get?_storeAll_of_not_mem (h : d ∉ out.map Prod.fst) :
    (out.foldl (fun g verdict => g.setSatisfied verdict.1 verdict.2) g).get? d = g.get? d := by
  induction out generalizing g with
  | nil => rfl
  | cons entry rest ih =>
      rw [List.map_cons, List.mem_cons, not_or] at h
      rw [List.foldl_cons, ih h.2, get?_setSatisfied, if_neg (Ne.symm h.1)]

theorem get?_storeAll_of_mem {ε : Type} {v : CourseId → Except ε Bool} {b : Bool}
    (hout : ∀ entry ∈ out, v entry.1 = .ok entry.2) (hverdict : v d = .ok b)
    (h : d ∈ out.map Prod.fst) :
    (out.foldl (fun g verdict => g.setSatisfied verdict.1 verdict.2) g).get? d =
      (g.get? d).map fun node => { node with isSatisfied := b } := by
  induction out generalizing g with
  | nil => cases h
  | cons entry rest ih =>
      rw [List.forall_mem_cons] at hout
      rw [List.foldl_cons]
      -- A later entry of the same course stores the same verdict again.
      by_cases hrest : d ∈ rest.map Prod.fst
      · rw [ih hout.2 hrest, get?_setSatisfied]
        split
        · rw [Option.map_map]
          rfl
        · rfl
      · have heq : entry.1 = d := (List.mem_cons.1 h).elim Eq.symm fun hmem => absurd hmem hrest
        have hb : entry.2 = b := by
          have hentry := hout.1
          rw [heq, hverdict] at hentry
          exact (Except.ok.inj hentry).symm
        rw [get?_storeAll_of_not_mem hrest, get?_setSatisfied, if_pos heq, hb]

/-- What recomputing leaves at each course. -/
structure Recomputed [CreditWeight W] (ctx : Context W) (affected : CourseSet)
    (g next : DependencyGraph) : Prop where
  bySubject : next.bySubject = g.bySubject
  creditHolders : next.creditHolders = g.creditHolders
  get?_of_not_mem : ∀ d, d ∉ affected → next.get? d = g.get? d
  get?_of_mem : ∀ d node, d ∈ affected → g.get? d = some node →
    ∃ b, ctx.isSatisfied g d = .ok b ∧ next.get? d = some { node with isSatisfied := b }
  get?_of_none : ∀ d, g.get? d = none → next.get? d = none

theorem indexes_storeAll :
    (out.foldl (fun g verdict => g.setSatisfied verdict.1 verdict.2) g).bySubject = g.bySubject ∧
      (out.foldl (fun g verdict => g.setSatisfied verdict.1 verdict.2) g).creditHolders =
        g.creditHolders := by
  induction out generalizing g with
  | nil => exact ⟨rfl, rfl⟩
  | cons entry rest ih => exact ih

theorem recompute_eq_ok [CreditWeight W] (h : g.recompute ctx affected = .ok next) :
    Recomputed ctx affected g next := by
  obtain ⟨out, hout, hnext⟩ := bind_eq_ok.1 h
  cases hnext
  obtain ⟨hids, hverdicts⟩ := mapM_verdict_eq_ok hout
  have hmem (d : CourseId) :
      d ∈ out.map Prod.fst ↔ d ∈ affected ∧ g.contains d = true := by
    rw [hids, List.mem_filter, Std.ExtTreeSet.mem_toList]
  refine ⟨indexes_storeAll.1, indexes_storeAll.2, ?_, ?_, ?_⟩
  · intro d hd
    exact get?_storeAll_of_not_mem fun h => hd ((hmem d).1 h).1
  · intro d node hd hnode
    have hlisted := (hmem d).2 ⟨hd, contains_of_get? hnode⟩
    obtain ⟨entry, hentry, rfl⟩ := List.mem_map.1 hlisted
    refine ⟨entry.2, hverdicts entry hentry, ?_⟩
    rw [get?_storeAll_of_mem hverdicts (hverdicts entry hentry) hlisted, hnode]
    rfl
  · intro d hnone
    rw [get?_storeAll_of_not_mem, hnone]
    intro hlisted
    have hplanned := ((hmem d).1 hlisted).2
    rw [contains_eq_isSome, hnone] at hplanned
    cases hplanned

namespace Recomputed

variable [CreditWeight W]

theorem get?_congr {α : Type} {f : PlannedCourse → α} (h : Recomputed ctx affected g next)
    (hf : ∀ node b, f { node with isSatisfied := b } = f node) (d : CourseId) :
    (next.get? d).map f = (g.get? d).map f := by
  by_cases hd : d ∈ affected
  · cases hnode : g.get? d with
    | none => rw [h.get?_of_none d hnode]
    | some node =>
        obtain ⟨b, _, hnext⟩ := h.get?_of_mem d node hd hnode
        rw [hnext, Option.map_some, Option.map_some, hf]
  · rw [h.get?_of_not_mem d hd]

theorem term? (h : Recomputed ctx affected g next) (d : CourseId) : next.term? d = g.term? d :=
  h.get?_congr (fun _ _ => rfl) d

theorem contains (h : Recomputed ctx affected g next) (d : CourseId) :
    next.contains d = g.contains d := by
  rw [← term?_isSome, ← term?_isSome, h.term?]

theorem exact {catalog : Catalog W} (h : Recomputed ctx affected g next)
    (hexact : Exact catalog g) : Exact catalog next :=
  hexact.congr (h.get?_congr fun _ _ => rfl) h.bySubject h.creditHolders

theorem exists_verdict (h : Recomputed ctx affected g next) (hd : d ∈ affected)
    (hplanned : g.contains d = true) : ∃ b, ctx.isSatisfied g d = .ok b := by
  obtain ⟨node, hnode⟩ := exists_get?_of_contains hplanned
  obtain ⟨b, hb, _⟩ := h.get?_of_mem d node hd hnode
  exact ⟨b, hb⟩

/-- A course that was recomputed has its verdict in store. -/
theorem verdict_of_mem (h : Recomputed ctx affected g next) (hd : d ∈ affected)
    {node : PlannedCourse} (hnode : next.get? d = some node) :
    ctx.isSatisfied g d = .ok node.isSatisfied := by
  have hplanned := contains_of_get? hnode
  rw [h.contains] at hplanned
  obtain ⟨old, hold⟩ := exists_get?_of_contains hplanned
  obtain ⟨b, hb, hstored⟩ := h.get?_of_mem d old hd hold
  cases hnode.symm.trans hstored
  exact hb

/-- The resulting graph has the verdicts of the one before. -/
theorem isSatisfied (h : Recomputed ctx affected g next) (d : CourseId) :
    ctx.isSatisfied next d = ctx.isSatisfied g d := by
  refine Context.isSatisfied_of_term? h.term? (fun s => ?_) d
  rw [ofSubject, ofSubject, h.bySubject]

end Recomputed

end DependencyGraph

end Curriculum
