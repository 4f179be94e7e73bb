import Curriculum.Proofs.Group.Accepts
import Curriculum.Proofs.Group.FoundLeaves
import Curriculum.Proofs.Group.RoundTrip
import Curriculum.Proofs.Group.Simplified

/-!
# Groups that are read

A text is read into a group that is simplified and legible, and whose own text nests parentheses no
deeper than the one it was read from. The parentheses that writing adds around courses side by side
are accounted for: without an operator, only parentheses keep two courses apart.
-/

namespace Curriculum

variable {l m : Level} {position spare depth : Nat} {g : Group}

namespace Level

/-- The children of a level whose text nests parentheses to a depth. Where it has none, and no
operator, there are no more children than courses that stand alone. -/
structure Within (l : Level) (spare depth : Nat) : Prop where
  kind : ∀ kind, l.kind = some kind →
    kind = .credit ∨ ∃ c : Connective, c ≠ .single ∧ kind = c.kind
  legible : ∀ n ∈ l.children, n.Legible
  height : ∀ n ∈ l.children, n.height ≤ depth
  flat : l.kind = none → depth = 0 → l.children.length ≤ spare

namespace Within

theorem initial : Level.initial.Within 0 0 :=
  ⟨nofun, nofun, nofun, fun _ _ => Nat.le_refl 0⟩

theorem mono {depth' : Nat} (h : l.Within spare depth) (hle : depth ≤ depth') :
    l.Within spare depth' where
  kind := h.kind
  legible := h.legible
  height n hn := Nat.le_trans (h.height n hn) hle
  flat hkind hzero := h.flat hkind (Nat.le_zero.1 (hzero ▸ hle))

theorem flush (h : l.Within spare depth) (hflush : l.flush position = .ok m) :
    m.Within (spare + 1) depth := by
  have hflat (hkind : l.kind = none) (hzero : depth = 0) : l.children.length ≤ spare + 1 :=
    Nat.le_succ_of_le (h.flat hkind hzero)
  rcases flush_eq_ok hflush with ⟨rfl, _⟩ | ⟨rfl, _⟩ | ⟨id, rfl, _, _, hfound⟩
  · exact ⟨h.kind, h.legible, h.height, hflat⟩
  · exact ⟨h.kind, h.legible, h.height, hflat⟩
  · refine ⟨h.kind, ?_, ?_, fun hkind hzero => ?_⟩
    · rw [endCourse, List.forall_mem_append, List.forall_mem_singleton]
      exact ⟨h.legible, .course (legible_of_extractFirst? hfound)⟩
    · rw [endCourse, List.forall_mem_append, List.forall_mem_singleton, Node.height]
      exact ⟨h.height, Nat.zero_le depth⟩
    · rw [endCourse, List.length_append, List.length_singleton]
      exact Nat.succ_le_succ (h.flat hkind hzero)

theorem setOperator {kind : GroupKind} {op : Char} (h : l.Within spare depth)
    (hop : GroupKind.ofOperator? op = some kind)
    (hset : l.setOperator op kind position = .ok m) : ∀ spare, m.Within spare depth := by
  obtain ⟨hkind, _, hchildren⟩ := setOperator_frame hset
  intro spare
  refine ⟨fun kind' heq => ?_, hchildren ▸ h.legible, hchildren ▸ h.height, fun hnone => ?_⟩
  · rw [hkind] at heq
    cases heq
    exact Piece.credit_or_connective hop
  · rw [hkind] at hnone
    cases hnone

theorem read {c : Char} (h : l.Within 0 depth) (hread : l.read position c = .ok m) :
    m.Within 0 depth := by
  unfold Level.read at hread
  split at hread
  next kind hop =>
    obtain ⟨typed, hset, hflush⟩ := bind_eq_ok.1 hread
    have htyped := h.setOperator hop hset 0
    obtain ⟨hkind, hlegible, hheight, _⟩ := htyped.flush hflush
    refine ⟨hkind, hlegible, hheight, fun hnone => ?_⟩
    rw [flush_kind hflush, (setOperator_frame hset).1] at hnone
    cases hnone
  next =>
    split at hread
    next =>
      cases hread
      exact h
    next =>
      cases hread
      exact ⟨h.kind, h.legible, h.height, h.flat⟩

theorem group (h : l.Within 1 depth) (hgroup : l.group = .ok g) :
    g.Legible ∧ (l.kind = none ∧ l.children = [] ∧ g = .empty ∨ g.height ≤ depth) := by
  have hheight : Node.heightAll l.children ≤ depth := Node.heightAll_le_iff.2 h.height
  unfold Level.group at hgroup
  split at hgroup
  next hkind =>
    cases hgroup
    split
    next hnil => exact ⟨.empty, Or.inl ⟨hkind, hnil, rfl⟩⟩
    next hne =>
      refine ⟨.join hne h.legible, Or.inr ?_⟩
      have hflat := h.flat hkind
      rw [Group.height, Connective.wrapping]
      split <;> omega
  next hkind =>
    obtain ⟨rule, hrule, rfl⟩ := map_eq_ok.1 hgroup
    refine ⟨.credit (CreditRule.legible_of_ofChunks hrule), Or.inr ?_⟩
    rw [Group.height]
    exact Nat.zero_le depth
  next kind hne hkind =>
    split at hgroup
    next => cases hgroup
    next hchildren =>
      obtain rfl | ⟨c, hc, rfl⟩ := h.kind kind hkind
      · exact absurd rfl hne
      · have hjoin : g = .join c l.children := by
          rw [← Except.ok.inj hgroup]
          cases c <;> rfl
        rw [hjoin]
        refine ⟨.join hchildren h.legible, Or.inr ?_⟩
        rw [Group.height, Connective.wrapping, if_neg fun hsingle => hc hsingle.1]
        omega

/-- A level ends as a legible group of its depth, unless nothing has been read in it. -/
theorem finish (h : l.Within 1 depth) (hfinish : l.finish = .ok g) :
    g.Legible ∧ g.simplify = g ∧
      (l.kind = none ∧ l.children = [] ∧ g = .empty ∨ g.height ≤ depth) := by
  obtain ⟨source, hsource, rfl⟩ := map_eq_ok.1 hfinish
  obtain ⟨hlegible, hheight⟩ := h.group hsource
  refine ⟨hlegible.simplify, source.simplify_simplify, ?_⟩
  refine hheight.imp (fun hnothing => ?_) fun hle => Nat.le_trans source.height_simplify hle
  obtain ⟨hkind, hchildren, rfl⟩ := hnothing
  exact ⟨hkind, hchildren, by rw [Group.simplify]⟩

theorem push (h : l.Within 1 depth) (hlegible : g.Legible)
    (hheight : (Node.group g).height ≤ depth) : (l.push (.group g)).Within 0 depth where
  kind := h.kind
  legible := by
    rw [Level.push, List.forall_mem_append, List.forall_mem_singleton]
    exact ⟨h.legible, .group hlegible⟩
  height := by
    rw [Level.push, List.forall_mem_append, List.forall_mem_singleton]
    exact ⟨h.height, hheight⟩
  flat _ hzero := by
    have hpos := Node.height_group_pos g
    omega

end Within

end Level

/-! ## Reading pieces -/

mutual

theorem Piece.descend_within : (p : Piece) → {position : Nat} → {l m : Level} → {depth : Nat} →
    l.Within 0 depth → p.descend position l = .ok m → m.Within 0 (max depth p.depth)
  | .plain c h, position, l, m, depth, hl, hm => by
      rw [Piece.descend] at hm
      exact (hl.read hm).mono (Nat.le_max_left _ _)
  | .paren inside, position, l, m, depth, hl, hm => by
      obtain ⟨around, level, closed, group, hflush, _, hlevel, hclosed, hgroup, rfl⟩ :=
        Piece.descend_paren_eq_ok.1 hm
      have hinside := Piece.descendAll_within inside Level.Within.initial hlevel
      rw [Nat.zero_max] at hinside
      obtain ⟨hlegible, _, hheight⟩ := (hinside.flush hclosed).finish hgroup
      rw [Piece.depth]
      refine ((hl.flush hflush).mono (Nat.le_max_left _ _)).push hlegible ?_
      have hnode : (Node.group group).height ≤ Piece.depthAll inside + 1 := by
        by_cases hempty : group = .empty
        · rw [hempty, Node.height]
          exact Nat.le_add_left 1 _
        · rw [Node.height_group hempty]
          exact Nat.succ_le_succ (hheight.resolve_left fun hnothing => hempty hnothing.2.2)
      exact Nat.le_trans hnode (Nat.le_max_right _ _)

/-- Read piece by piece, a level holds legible nodes no higher than its text is deep. -/
theorem Piece.descendAll_within : (ps : List Piece) → {position : Nat} → {l m : Level} →
    {depth : Nat} → l.Within 0 depth → Piece.descendAll position ps l = .ok m →
    m.Within 0 (max depth (Piece.depthAll ps))
  | [], position, l, m, depth, hl, hm => by
      rw [Piece.descendAll] at hm
      cases hm
      exact hl.mono (Nat.le_max_left _ _)
  | p :: rest, position, l, m, depth, hl, hm => by
      rw [Piece.descendAll] at hm
      obtain ⟨next, hnext, hrest⟩ := bind_eq_ok.1 hm
      rw [Piece.depthAll, ← Nat.max_assoc]
      exact Piece.descendAll_within rest (p.descend_within hl hnext) hrest

end

/-! ## Levels in which nothing is read -/

/-- No operator, no child and no chunk has been met. -/
def Level.Untouched (l : Level) : Prop := l.kind = none ∧ l.children = [] ∧ l.pending = []

theorem Level.Untouched.of_flush (h : l.flush position = .ok m) (hkind : m.kind = none)
    (hchildren : m.children = []) : l.Untouched := by
  rcases Level.flush_eq_ok h with ⟨rfl, hpending⟩ | ⟨rfl, _, hcredit⟩ | ⟨id, rfl, _⟩
  · exact ⟨hkind, hchildren, hpending⟩
  · cases hcredit.symm.trans hkind
  · exact absurd hchildren (List.append_ne_nil_of_right_ne_nil _ (List.cons_ne_nil _ _))

/-- Only a skipped character leaves no trace. -/
theorem Piece.skipped_of_untouched {p : Piece} (h : p.descend position l = .ok m)
    (hm : m.Untouched) : l.Untouched ∧ ∀ c ∈ p.chars, isSkipped c = true := by
  obtain ⟨hkind, hchildren, hpending⟩ := hm
  cases p with
  | paren inside =>
      obtain ⟨_, _, _, _, _, _, _, _, _, rfl⟩ := Piece.descend_paren_eq_ok.1 h
      exact absurd hchildren (List.append_ne_nil_of_right_ne_nil _ (List.cons_ne_nil _ _))
  | plain c hplain =>
      rw [descend, Level.read] at h
      split at h
      next kind _ =>
        obtain ⟨typed, hset, hflush⟩ := bind_eq_ok.1 h
        rw [Level.flush_kind hflush, (Level.setOperator_frame hset).1] at hkind
        cases hkind
      next =>
        split at h
        next hskipped =>
          cases h
          rw [chars, List.forall_mem_singleton]
          exact ⟨⟨hkind, hchildren, hpending⟩, hskipped⟩
        next =>
          cases h
          exact absurd hpending (List.append_ne_nil_of_right_ne_nil _ (List.cons_ne_nil _ _))

theorem Piece.skippedAll_of_untouched {ps : List Piece} (h : descendAll position ps l = .ok m)
    (hm : m.Untouched) : l.Untouched ∧ ∀ c ∈ charsAll ps, isSkipped c = true := by
  induction ps generalizing position l with
  | nil =>
      rw [descendAll] at h
      cases h
      exact ⟨hm, nofun⟩
  | cons p rest ih =>
      rw [descendAll] at h
      obtain ⟨next, hnext, hrest⟩ := bind_eq_ok.1 h
      obtain ⟨huntouched, hskipped⟩ := ih hrest
      obtain ⟨hl, hp⟩ := p.skipped_of_untouched hnext huntouched
      rw [charsAll, List.forall_mem_append]
      exact ⟨hl, hp, hskipped⟩

/-! ## Whole texts -/

namespace Group

variable {limit : Nat} {text : String}

theorem height_of_parse (h : parse limit text = .ok g) :
    g.Legible ∧ g.simplify = g ∧ g.height ≤ limit := by
  obtain ⟨ps, hps⟩ := (balanced_of_parse h).exists_pieces
  obtain ⟨⟨c, hc, hread⟩, hlimit, m, closed, hm, hclosed, hfinish⟩ :=
    (parse_pieces_eq_ok hps).1 h
  have hwithin := Piece.descendAll_within ps Level.Within.initial hm
  rw [Nat.zero_max] at hwithin
  obtain ⟨hlegible, hsimplify, hheight⟩ := (hwithin.flush hclosed).finish hfinish
  refine ⟨hlegible, hsimplify, ?_⟩
  rcases hheight with ⟨hkind, hchildren, _⟩ | hheight
  · -- The text has a character that is not skipped, so something has been read.
    have huntouched := Level.Untouched.of_flush hclosed hkind hchildren
    have hskipped := (Piece.skippedAll_of_untouched hm huntouched).2 c (hps ▸ hc)
    cases hread.symm.trans hskipped
  · exact Nat.le_trans hheight hlimit

/-- Whatever is read is legible and simplified, and its text reads back to it under the same limit. -/
theorem parse_canonical (limit : Nat) (text : String) (g : Group)
    (h : parse limit text = .ok g) :
    g.Legible ∧ g.Normal ∧ parse limit g.text = .ok g := by
  obtain ⟨hlegible, hsimplify, hheight⟩ := height_of_parse h
  have hdepth : parenDepth g.chars ≤ limit :=
    Int.le_trans (g.parenDepth_chars hlegible) (Int.ofNat_le.2 hheight)
  refine ⟨hlegible, ?_, ?_⟩
  · rw [← hsimplify]
    exact g.normal_simplify
  · rw [parse_text_of_legible hlegible hdepth, hsimplify]

end Group

open Sample in
/-- Writing puts parentheses around the first course, too. -/
theorem Group.parse_canonical_twice :
    ∃ g, parse 1 "math 240 (math240)" = .ok g ∧ g.Legible ∧ g.Normal ∧
      g.text = "(MATH 240)(MATH 240)" ∧ parse 1 "(MATH 240)(MATH 240)" = .ok g := by
  have hread : (parse 1 "math 240 (math240)").toOption =
      some (.join .single [.course math, .course math]) := by
    decide +kernel
  have htext : (Group.join .single [.course math, .course math]).text = "(MATH 240)(MATH 240)" := by
    decide +kernel
  cases hparse : parse 1 "math 240 (math240)" with
  | error e =>
      rw [hparse] at hread
      cases hread
  | ok g =>
      rw [hparse] at hread
      cases hread
      obtain ⟨hlegible, hnormal, hagain⟩ := parse_canonical 1 _ _ hparse
      rw [htext] at hagain
      exact ⟨_, rfl, hlegible, hnormal, htext, hagain⟩

end Curriculum
