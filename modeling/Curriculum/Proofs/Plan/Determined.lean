import Curriculum.Proofs.Plan.Affected

/-!
# What determines a graph

An exact graph keeps nothing but what its courses, their terms and their verdicts say: dependents
and indexes follow from the catalog.
-/

namespace Curriculum

namespace DependencyGraph

variable {W : Type} {catalog : Catalog W} {g g' : DependencyGraph}

theorem contains_of_term? (hterm : ∀ x, g'.term? x = g.term? x) (x : CourseId) :
    g'.contains x = g.contains x := by
  rw [← term?_isSome, ← term?_isSome, hterm]

theorem IndexesExact.ofSubject_eq (h : IndexesExact catalog g) (h' : IndexesExact catalog g')
    (hterm : ∀ x, g'.term? x = g.term? x) (s : SubjectCode) : g'.ofSubject s = g.ofSubject s := by
  ext x
  rw [ofSubject, ofSubject, h'.mem_bySubject, h.mem_bySubject, contains_of_term? hterm]

theorem IndexesExact.indexes_eq (h : IndexesExact catalog g) (h' : IndexesExact catalog g')
    (hterm : ∀ x, g'.term? x = g.term? x) :
    g'.bySubject = g.bySubject ∧ g'.creditHolders = g.creditHolders := by
  constructor
  · apply h'.bySubject_tidy.eq_of_mem_iff h.bySubject_tidy
    intro s x
    rw [h'.mem_bySubject, h.mem_bySubject, contains_of_term? hterm]
  · apply h'.creditHolders_tidy.eq_of_mem_iff h.creditHolders_tidy
    intro s x
    rw [h'.mem_creditHolders, h.mem_creditHolders, contains_of_term? hterm]

/-- Exact graphs with the same courses in the same terms, and with the same verdicts in store, are
the same. -/
theorem Exact.eq_of_verdicts (h : g.Exact catalog) (h' : g'.Exact catalog)
    (hterm : ∀ x, g'.term? x = g.term? x)
    (hverdict : ∀ x node node', g.get? x = some node → g'.get? x = some node' →
      node'.isSatisfied = node.isSatisfied) : g' = g := by
  obtain ⟨hsubject, hholders⟩ := h.toIndexesExact.indexes_eq h'.toIndexesExact hterm
  refine eq_of_get? hsubject hholders fun x => ?_
  have hx : (g'.get? x).map PlannedCourse.term = (g.get? x).map PlannedCourse.term := hterm x
  cases hnode' : g'.get? x with
  | none =>
      rw [hnode', Option.map_none, eq_comm, Option.map_eq_none_iff] at hx
      exact hx.symm
  | some node' =>
      rw [hnode', Option.map_some, eq_comm, Option.map_eq_some_iff] at hx
      obtain ⟨node, hnode, hplace⟩ := hx
      have hdependents : node'.dependents = node.dependents := by
        ext d
        rw [h'.mem_dependents hnode', h.mem_dependents hnode, contains_of_term? hterm]
      have hsame := hverdict x node node' hnode hnode'
      rw [hnode]
      cases node
      cases node'
      simp_all

end DependencyGraph

end Curriculum
