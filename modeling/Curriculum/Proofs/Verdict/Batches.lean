import Curriculum.Proofs.Verdict.Total

/-!
# Batches of recomputed verdicts

What recomputing leaves determines the resulting graph, so recomputing in batches comes to the same
as recomputing all of them at once.
-/

namespace Curriculum

namespace DependencyGraph

variable {W : Type} [CreditWeight W] {ctx : Context W} {g mid next next' last : DependencyGraph}
  {affected first second : CourseSet} {d : CourseId}

namespace Recomputed

theorem eq_of_recomputed (h : Recomputed ctx affected g next)
    (h' : Recomputed ctx affected g next') : next = next' := by
  refine eq_of_get? (h.bySubject.trans h'.bySubject.symm)
    (h.creditHolders.trans h'.creditHolders.symm) fun d => ?_
  by_cases hd : d ∈ affected
  · cases hnode : g.get? d with
    | none => rw [h.get?_of_none d hnode, h'.get?_of_none d hnode]
    | some node =>
        obtain ⟨b, hb, hnext⟩ := h.get?_of_mem d node hd hnode
        obtain ⟨b', hb', hnext'⟩ := h'.get?_of_mem d node hd hnode
        cases hb.symm.trans hb'
        rw [hnext, hnext']
  · rw [h.get?_of_not_mem d hd, h'.get?_of_not_mem d hd]

end Recomputed

/-- Recomputing comes to a graph exactly if this has the verdicts of the courses and is the same
otherwise. -/
theorem recompute_eq_ok_iff :
    g.recompute ctx affected = .ok next ↔ Recomputed ctx affected g next := by
  refine ⟨recompute_eq_ok, fun h => ?_⟩
  obtain ⟨next', hnext'⟩ := exists_recompute fun d hd hplanned => h.exists_verdict hd hplanned
  rw [hnext', h.eq_of_recomputed (recompute_eq_ok hnext')]

/-- Recomputing fails exactly if there is no verdict on one of the planned courses. -/
theorem recompute_eq_error_iff : (∃ e, g.recompute ctx affected = .error e) ↔
    ∃ d ∈ affected, g.contains d = true ∧ ∃ e, ctx.isSatisfied g d = .error e := by
  constructor
  · rintro ⟨e, he⟩
    refine Classical.byContradiction fun hnone => ?_
    have hverdict (d : CourseId) (hd : d ∈ affected) (hplanned : g.contains d = true) :
        ∃ b, ctx.isSatisfied g d = .ok b := by
      cases hresult : ctx.isSatisfied g d with
      | error cause => exact absurd ⟨d, hd, hplanned, cause, hresult⟩ hnone
      | ok b => exact ⟨b, rfl⟩
    obtain ⟨next, hnext⟩ := exists_recompute hverdict
    cases he.symm.trans hnext
  · rintro ⟨d, hd, hplanned, cause, hverdict⟩
    cases hnext : g.recompute ctx affected with
    | error e => exact ⟨e, rfl⟩
    | ok next =>
        obtain ⟨b, hb⟩ := (recompute_eq_ok hnext).exists_verdict hd hplanned
        rw [hverdict] at hb
        cases hb

namespace Recomputed

/-- No verdict looks at a stored one, so the verdicts of the second batch are those on the graph
before the first. -/
theorem trans (h : Recomputed ctx first g mid) (h' : Recomputed ctx second mid last) :
    Recomputed ctx (first ∪ second) g last where
  bySubject := h'.bySubject.trans h.bySubject
  creditHolders := h'.creditHolders.trans h.creditHolders
  get?_of_not_mem d hd := by
    rw [Std.ExtTreeSet.mem_union_iff, not_or] at hd
    rw [h'.get?_of_not_mem d hd.2, h.get?_of_not_mem d hd.1]
  get?_of_mem d node hd hnode := by
    by_cases hfirst : d ∈ first
    · obtain ⟨b, hb, hmid⟩ := h.get?_of_mem d node hfirst hnode
      by_cases hsecond : d ∈ second
      · obtain ⟨b', hb', hlast⟩ := h'.get?_of_mem d _ hsecond hmid
        exact ⟨b', (h.isSatisfied d).symm.trans hb', hlast⟩
      · exact ⟨b, hb, (h'.get?_of_not_mem d hsecond).trans hmid⟩
    · have hsecond := (Std.ExtTreeSet.mem_union_iff.1 hd).resolve_left hfirst
      have hmid := (h.get?_of_not_mem d hfirst).trans hnode
      obtain ⟨b', hb', hlast⟩ := h'.get?_of_mem d node hsecond hmid
      exact ⟨b', (h.isSatisfied d).symm.trans hb', hlast⟩
  get?_of_none d hnone := h'.get?_of_none d (h.get?_of_none d hnone)

/-- What is recomputed at once can be recomputed in two batches. -/
theorem exists_between (h : Recomputed ctx (first ∪ second) g last) :
    ∃ mid, Recomputed ctx first g mid ∧ Recomputed ctx second mid last := by
  have hverdict (d : CourseId) (hd : d ∈ first ∨ d ∈ second) (hplanned : g.contains d = true) :
      ∃ b, ctx.isSatisfied g d = .ok b :=
    h.exists_verdict (Std.ExtTreeSet.mem_union_iff.2 hd) hplanned
  obtain ⟨mid, hmid⟩ := exists_recompute fun d hd hplanned => hverdict d (Or.inl hd) hplanned
  have hfirst := recompute_eq_ok hmid
  have hverdict' (d : CourseId) (hd : d ∈ second) (hplanned : mid.contains d = true) :
      ∃ b, ctx.isSatisfied mid d = .ok b := by
    rw [hfirst.isSatisfied]
    exact hverdict d (Or.inr hd) (by rwa [← hfirst.contains])
  obtain ⟨last', hlast'⟩ := exists_recompute hverdict'
  have hsecond := recompute_eq_ok hlast'
  rw [h.eq_of_recomputed (hfirst.trans hsecond)]
  exact ⟨mid, hfirst, hsecond⟩

theorem union_iff : Recomputed ctx (first ∪ second) g last ↔
    ∃ mid, Recomputed ctx first g mid ∧ Recomputed ctx second mid last :=
  ⟨exists_between, fun ⟨_, h, h'⟩ => h.trans h'⟩

end Recomputed

theorem isSatisfied_setSatisfied (g : DependencyGraph) (ctx : Context W) (id d : CourseId)
    (verdict : Bool) : ctx.isSatisfied (g.setSatisfied id verdict) d = ctx.isSatisfied g d := by
  have hterm (x : CourseId) : (g.setSatisfied id verdict).term? x = g.term? x := by
    rw [term?, term?, get?_setSatisfied]
    split
    · rw [Option.map_map]
      rfl
    · rfl
  apply Context.isSatisfied_of_term? hterm
  intro s
  rfl

/-- A course that is not planned is not satisfied, in store and from scratch. -/
theorem isSatisfied_of_not_contains (h : ¬g.contains d = true) :
    ctx.isSatisfied g d = .ok (g.isSatisfied d) := by
  rw [contains_eq_isSome, Option.not_isSome_iff_eq_none] at h
  rw [Context.isSatisfied, Context.plannedPosition, term?, isSatisfied, h]
  rfl

/-- Once everything is recomputed, all stored verdicts are those from scratch. -/
theorem Recomputed.isSatisfied_courses (h : Recomputed ctx g.courses g next) (d : CourseId) :
    ctx.isSatisfied next d = .ok (next.isSatisfied d) := by
  by_cases hplanned : next.contains d = true
  · obtain ⟨node, hnode⟩ := exists_get?_of_contains hplanned
    have hd : d ∈ g.courses := by rwa [mem_courses, ← h.contains]
    rw [h.isSatisfied, h.verdict_of_mem hd hnode, DependencyGraph.isSatisfied, hnode]
    rfl
  · exact isSatisfied_of_not_contains hplanned

end DependencyGraph

end Curriculum
