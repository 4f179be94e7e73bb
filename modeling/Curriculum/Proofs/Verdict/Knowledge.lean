import Mathlib.Algebra.Order.BigOperators.Group.List
import Mathlib.Logic.Relation
import Curriculum.Proofs.Equivalence
import Curriculum.Proofs.Verdict.Declarative
import Curriculum.Proofs.Verdict.Total

/-!
# More knowledge

What is recorded, ruled equivalent, planned besides, or let in from the current term can be held
against no requisite. A situation that extends another one has all that is done there done, and all
that counts there counted, so a group that holds goes on to hold.
-/

namespace Curriculum

/-- What a group is examined with, and where. -/
structure Situation (W : Type) where
  ctx : Context W
  graph : DependencyGraph
  scope : Scope

namespace Situation

variable {W : Type}

def groupHolds [CreditWeight W] (s : Situation W) (group : Group) : Verdict :=
  s.ctx.groupHolds s.graph s.scope group

/-- All planned courses stand in terms with positions. -/
def Ordered (s : Situation W) : Prop := s.ctx.TermsOrdered s.graph

/-- One more thing is known. Courses that are added stand in a term with a position, and were not
planned before. -/
inductive Learns : Situation W → Situation W → Prop
  | record (s : Situation W) (id : CourseId) :
    Learns s { s with ctx.ledger := (s.ctx.ledger.record id).2 }
  | equate (s : Situation W) (rule : EquivalenceRule) :
    Learns s { s with ctx.equivalences := s.ctx.equivalences.insert rule }
  | includeCurrent (s : Situation W) : Learns s { s with scope.includesCurrent := true }
  | plan (s : Situation W) (term : TermId) (ids : List CourseId)
    (hterm : ∃ position, s.ctx.terms.position? term = some position)
    (hnew : ∀ id ∈ ids, s.graph.contains id = false) :
    Learns s { s with graph := (s.graph.add s.ctx.catalog term ids).1 }

/-- The same course is examined at the same position, with at least as much to go by. -/
structure Extends (s t : Situation W) : Prop where
  catalog : t.ctx.catalog = s.ctx.catalog
  course : t.scope.course = s.scope.course
  position : t.scope.position = s.scope.position
  current : s.scope.includesCurrent = true → t.scope.includesCurrent = true
  planned : ∀ id k, s.ctx.PlannedAt s.graph id k → t.ctx.PlannedAt t.graph id k
  recorded : ∀ subject, s.ctx.ledger.ofSubject subject ⊆ t.ctx.ledger.ofSubject subject
  listed : ∀ subject, ∀ id ∈ s.graph.ofSubject subject, id ∈ t.graph.ofSubject subject
  equivalents : ∀ id, ∀ e ∈ s.ctx.equivalences.equivalents id,
    e ∈ t.ctx.equivalences.equivalents id

namespace Extends

variable {s t u : Situation W}

theorem refl (s : Situation W) : s.Extends s where
  catalog := rfl
  course := rfl
  position := rfl
  current := id
  planned _ _ := id
  recorded _ := List.Subset.refl _
  listed _ _ := id
  equivalents _ _ := id

theorem trans (h : s.Extends t) (h' : t.Extends u) : s.Extends u where
  catalog := h'.catalog.trans h.catalog
  course := h'.course.trans h.course
  position := h'.position.trans h.position
  current hs := h'.current (h.current hs)
  planned id k hk := h'.planned id k (h.planned id k hk)
  recorded subject := List.Subset.trans (h.recorded subject) (h'.recorded subject)
  listed subject id hid := h'.listed subject id (h.listed subject id hid)
  equivalents id e he := h'.equivalents id e (h.equivalents id e he)

/-! ## What is done -/

theorem admits (h : s.Extends t) {k : Int32} (hk : s.scope.Admits k) : t.scope.Admits k := by
  unfold Scope.Admits at hk ⊢
  rw [h.position]
  exact hk.imp_right (And.imp_left h.current)

theorem done (h : s.Extends t) {id : CourseId} (hid : s.ctx.Done s.graph s.scope id) :
    t.ctx.Done t.graph t.scope id := by
  rcases hid with hrecorded | ⟨k, hk, hadmits⟩
  · refine Or.inl (List.contains_iff_mem.2 ?_)
    exact h.recorded _ (List.contains_iff_mem.1 hrecorded)
  · exact Or.inr ⟨k, h.planned id k hk, h.admits hadmits⟩

theorem answers (h : s.Extends t) {id : CourseId} (hid : s.ctx.Answers s.graph s.scope id) :
    t.ctx.Answers t.graph t.scope id := by
  unfold Context.Answers at hid ⊢
  split
  next hmulti =>
    rw [if_pos hmulti] at hid
    obtain ⟨k, hk, hbefore⟩ := hid
    rw [h.position]
    exact ⟨k, h.planned id k hk, hbefore⟩
  next hmulti =>
    rw [if_neg hmulti] at hid
    exact h.done hid

theorem leafHolds (h : s.Extends t) {id : CourseId} (hid : s.ctx.LeafHolds s.graph s.scope id) :
    t.ctx.LeafHolds t.graph t.scope id := by
  rcases hid with hself | ⟨e, he, hother⟩
  · exact Or.inl (h.answers hself)
  · exact Or.inr ⟨e, h.equivalents id e he, h.answers hother⟩

theorem creditCandidates (h : s.Extends t) (rule : CreditRule) :
    s.ctx.creditCandidates s.graph s.scope rule ⊆ t.ctx.creditCandidates t.graph t.scope rule := by
  intro id hid
  simp only [Context.creditCandidates, List.mem_eraseDups, List.mem_filter, List.mem_flatMap,
    List.mem_append, Walk.mem_list, h.course] at hid ⊢
  obtain ⟨⟨subject, hsubject, hlisted⟩, hcounts⟩ := hid
  refine ⟨⟨subject, hsubject, ?_⟩, hcounts⟩
  exact hlisted.imp (fun hid => h.recorded subject hid) (h.listed subject id)

end Extends

/-! ## Groups that hold -/

section

variable {s t : Situation ℚ}

open Classical in
/-- The credits of the candidates that are done, each candidate counted once. -/
noncomputable def countedCredits (s : Situation ℚ) (rule : CreditRule) : ℚ :=
  (((s.ctx.creditCandidates s.graph s.scope rule).filter (s.ctx.Done s.graph s.scope ·)).map
    s.ctx.catalog.credits).sum

theorem creditHolds_iff (hs : s.Ordered) (hweights : ∀ id, 0 ≤ s.ctx.catalog.credits id)
    (rule : CreditRule) : s.ctx.creditHolds s.graph s.scope rule = .ok true ↔
      rule.isVacuous = true ∨ (rule.required.toNat : ℚ) ≤ s.countedCredits rule := by
  unfold Context.creditHolds
  split
  next hvacuous => exact ⟨fun _ => Or.inl hvacuous, fun _ => rfl⟩
  next hvacuous =>
    have hreach : Decides (s.ctx.creditsReach s.graph s.scope rule.required 0
        (s.ctx.creditCandidates s.graph s.scope rule))
        ((rule.required.toNat : ℚ) ≤ 0 + s.countedCredits rule) :=
      Context.creditsReach_decides hs hweights _ 0 (Context.required_pos hvacuous) _
    rw [zero_add] at hreach
    exact hreach.eq_true_iff.trans (or_iff_right hvacuous).symm

/-- Where more courses are done and listed, no fewer credits are counted. -/
theorem countedCredits_le (h : s.Extends t) (hweights : ∀ id, 0 ≤ s.ctx.catalog.credits id)
    (rule : CreditRule) : s.countedCredits rule ≤ t.countedCredits rule := by
  classical
  have hnodup : ((s.ctx.creditCandidates s.graph s.scope rule).filter
      (s.ctx.Done s.graph s.scope ·)).Nodup := (nodup_eraseDups _).filter _
  have hsubset : (s.ctx.creditCandidates s.graph s.scope rule).filter
        (s.ctx.Done s.graph s.scope ·) ⊆
      (t.ctx.creditCandidates t.graph t.scope rule).filter (t.ctx.Done t.graph t.scope ·) := by
    intro id hid
    simp only [List.mem_filter, decide_eq_true_iff] at hid ⊢
    exact ⟨h.creditCandidates rule hid.1, h.done hid.2⟩
  obtain ⟨counted, hperm, hsublist⟩ := List.subperm_of_subset hnodup hsubset
  unfold countedCredits
  rw [h.catalog, ← (hperm.map s.ctx.catalog.credits).sum_eq]
  refine (hsublist.map s.ctx.catalog.credits).sum_le_sum ?_
  exact List.forall_mem_map.2 fun id _ => hweights id

theorem creditHolds_of_extends (h : s.Extends t) (hs : s.Ordered) (ht : t.Ordered)
    (hweights : ∀ id, 0 ≤ s.ctx.catalog.credits id) (rule : CreditRule)
    (hholds : s.ctx.creditHolds s.graph s.scope rule = .ok true) :
    t.ctx.creditHolds t.graph t.scope rule = .ok true := by
  have hweights' : ∀ id, 0 ≤ t.ctx.catalog.credits id := by
    rw [h.catalog]
    exact hweights
  rw [creditHolds_iff hs hweights] at hholds
  rw [creditHolds_iff ht hweights']
  exact hholds.imp_right fun hreached => hreached.trans (countedCredits_le h hweights rule)

theorem groupHolds_of_extends (h : s.Extends t) (hs : s.Ordered) (ht : t.Ordered)
    (hweights : ∀ id, 0 ≤ s.ctx.catalog.credits id) (group : Group)
    (hgroup : s.groupHolds group = .ok true) : t.groupHolds group = .ok true := by
  refine Context.groupHolds_mono hs ht ?_ ?_ group hgroup
  · intro id hid
    rw [(Context.leafHolds_decides hs _ id).eq_true_iff] at hid
    rw [(Context.leafHolds_decides ht _ id).eq_true_iff]
    exact h.leafHolds hid
  · exact creditHolds_of_extends h hs ht hweights

end

/-! ## Learning -/

section

variable {W : Type} {s t : Situation W}

/-- What is learned is added to what is known. -/
theorem Learns.extends (h : s.Learns t) : s.Extends t := by
  cases h with
  | record id =>
      refine { Extends.refl s with
        planned := fun _ _ hk => hk
        recorded := fun subject x hx => ?_ }
      rw [Ledger.ofSubject_record]
      split
      · exact List.mem_append_left _ hx
      · exact hx
  | equate rule =>
      refine { Extends.refl s with
        planned := fun _ _ hk => hk
        equivalents := fun id e he => ?_ }
      exact EquivalenceRules.mem_equivalents_insert.2 (Or.inr he)
  | includeCurrent => exact { Extends.refl s with current := fun _ => rfl }
  | plan term ids hterm hnew =>
      refine { Extends.refl s with
        planned := fun id k hk => ?_
        listed := fun subject id hid => ?_ }
      · obtain ⟨term', hplanned, hk⟩ := hk
        refine ⟨term', ?_, hk⟩
        rw [DependencyGraph.term?_add, if_neg, hplanned]
        -- Only a course that was planned already could change its place.
        intro hid
        rw [DependencyGraph.term?_eq_none_iff.2 (hnew id hid)] at hplanned
        cases hplanned
      · rw [DependencyGraph.mem_ofSubject_add]
        exact Or.inr hid

theorem Learns.ordered (h : s.Learns t) (hs : s.Ordered) : t.Ordered := by
  cases h with
  | record id => exact hs
  | equate rule => exact hs
  | includeCurrent => exact hs
  | plan term ids hterm hnew => exact Context.TermsOrdered.add hs hterm

theorem extends_of_learns (h : Relation.ReflTransGen Learns s t) (hs : s.Ordered) :
    s.Extends t ∧ t.Ordered := by
  induction h with
  | refl => exact ⟨.refl s, hs⟩
  | tail _ hstep ih => exact ⟨ih.1.trans hstep.extends, hstep.ordered ih.2⟩

end

/-- Over exact credits that are not negative, and in a plan whose terms all have positions, a group
that holds goes on to hold whatever is learned. -/
theorem groupHolds_of_learns {s t : Situation ℚ} (h : Relation.ReflTransGen Learns s t)
    (hcredits : ∀ id entry, s.ctx.catalog.get? id = some entry → 0 ≤ entry.credits)
    (hs : s.Ordered) (group : Group) (hgroup : s.groupHolds group = .ok true) :
    t.groupHolds group = .ok true := by
  obtain ⟨hextends, ht⟩ := extends_of_learns h hs
  exact groupHolds_of_extends hextends hs ht (Catalog.credits_nonneg hcredits) group hgroup

open Sample in
/-- A completed course answers a leaf and has the credits that are asked for. Then another course is
recorded, a rule is added, the current term is included, and a course is planned. -/
theorem groupHolds_learned :
    let catalog : Catalog ℚ := Catalog.empty.insert ⟨comp 250, 3, .empty⟩
    let s : Situation ℚ :=
      ⟨⟨twoTerms, .ofList [comp 250], catalog, .empty, .byId⟩, .empty, ⟨comp 361, 0, false⟩⟩
    let t : Situation ℚ :=
      ⟨⟨twoTerms, .ofList [comp 250, comp 302], catalog,
          EquivalenceRules.empty.insert (.between (comp 202) (comp 250)), .byId⟩,
        (DependencyGraph.empty.add catalog ⟨"second"⟩ [comp 251]).1, ⟨comp 361, 0, true⟩⟩
    let group : Group :=
      .join .pair [.course (comp 250), .group (.credit ⟨3, "2", [(comp 250).subject]⟩)]
    Relation.ReflTransGen Learns s t ∧ s.Ordered ∧ s.groupHolds group = .ok true ∧
      t.groupHolds group = .ok true := by
  intro catalog s t group
  have hlearns : Relation.ReflTransGen Learns s t := by
    refine (((Relation.ReflTransGen.refl.tail (.record s (comp 302))).tail
      (.equate _ (.between (comp 202) (comp 250)))).tail (.includeCurrent _)).tail
      (.plan _ ⟨"second"⟩ [comp 251] ⟨0, by decide +kernel⟩ ?_)
    rintro id -
    simp [s]
  have hcredits (id : CourseId) (entry : CourseEntry ℚ) (h : catalog.get? id = some entry) :
      0 ≤ entry.credits := by
    simp only [catalog, Catalog.get?_insert] at h
    split at h
    · cases h
      decide
    · simp at h
  have hordered : s.Ordered := Context.termsOrdered_empty
  have hholds : s.groupHolds group = .ok true := by decide +kernel
  exact ⟨hlearns, hordered, hholds, groupHolds_of_learns hlearns hcredits hordered group hholds⟩

end Situation

end Curriculum
