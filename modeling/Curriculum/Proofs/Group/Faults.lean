import Mathlib.Data.List.DropRight
import Curriculum.Proofs.Group.Descent

/-!
# Where faults are found

A fault that comes with a position is found there in the text: the operator that does not go with
the one before it, the end of a chunk that names no course, the credit group among other nodes, the
parenthesis that closes nothing, or the end of a text with a parenthesis that is never closed.

At each character the reader knows the innermost level that is open there, as far as it has been
read, and the chunk that has not ended.
-/

namespace Curriculum

/-! ## What a fault says of the text -/

/-- Operators and parentheses end a chunk. -/
def isChunkEnd (c : Char) : Bool := c == '(' || c == ')' || (GroupKind.ofOperator? c).isSome

/-- The chunk that has not ended yet: what is kept of the text since the last operator or
parenthesis, or since its start. -/
def openChunk (front : List Char) : List Char :=
  (front.rtakeWhile fun c => !isChunkEnd c).filter fun c => !isSkipped c

/-- The innermost level that is open at the end of a text, as far as it has been read. It starts
with the text, or after a parenthesis that has not been closed. -/
def IsOpenLevel (level : List Piece) (front : List Char) : Prop :=
  ∃ before, front = before ++ Piece.charsAll level ∧ (before = [] ∨ before.getLast? = some '(')

/-- The fault is found in the text where it says. One without a position says nothing of that. -/
def ParseError.PointsAt (cs : List Char) : ParseError → Prop
  | .mixedOperators expected found position =>
      cs[position]? = some found ∧ (GroupKind.ofOperator? found).isSome = true ∧
        found ≠ expected ∧ ∃ level, IsOpenLevel level (cs.take position) ∧
          (Piece.operators level).head? = some expected
  | .unresolvedCourse chunk position =>
      (position = cs.length ∨ ∃ c, cs[position]? = some c ∧ isChunkEnd c = true) ∧
        openChunk (cs.take position) ≠ [] ∧ chunk = String.ofList (openChunk (cs.take position)) ∧
          extractIds chunk = []
  | .nestedCredit position =>
      ∃ level, IsOpenLevel level (cs.take position) ∧
        (cs[position]? = some '(' ∧ (Piece.operators level).head? = some '-' ∨
          cs[position]? = some '-' ∧ Piece.operators level = [] ∧ Piece.HasParen level)
  | .unbalanced position =>
      cs[position]? = some ')' ∧ Balanced (cs.take position) ∨
        position = cs.length ∧ ∃ before inside, cs = before ++ '(' :: inside ∧ Balanced inside
  | .empty | .creditAmount _ | .creditScope _ | .creditSubject _ | .tooDeep _ => True

def ParseError.position? : ParseError → Option Nat
  | .mixedOperators _ _ position | .unresolvedCourse _ position | .nestedCredit position
  | .unbalanced position => some position
  | .empty | .creditAmount _ | .creditScope _ | .creditSubject _ | .tooDeep _ => none

/-- The limit on nesting that the fault is about. -/
def ParseError.limit? : ParseError → Option Nat
  | .tooDeep limit => some limit
  | _ => none

variable {c : Char} {cs front rest before : List Char} {e : ParseError} {level : List Piece}

theorem ParseError.pointsAt_of_no_position (h : e.position? = none) : e.PointsAt cs := by
  cases e <;> trivial

/-! ## Open levels and chunks -/

/-- A level that starts after another one is open starts after a parenthesis that closes in the
other. -/
theorem eq_of_charsAll_eq_append {level' : List Piece}
    (hchars : Piece.charsAll level = rest ++ Piece.charsAll level')
    (hstart : before ++ rest = [] ∨ (before ++ rest).getLast? = some '(') : level = level' := by
  by_cases hrest : rest = []
  · rw [hrest] at hchars
    exact Piece.charsAll_inj hchars
  have hlast : rest.getLast? = some '(' := by
    rcases hstart with hnil | hlast
    · exact absurd (List.append_eq_nil_iff.1 hnil).2 hrest
    · rwa [List.getLast?_append_of_ne_nil _ hrest] at hlast
  obtain ⟨front, rfl⟩ := List.getLast?_eq_some_iff.1 hlast
  have hbalanced := Piece.balanced_charsAll level
  have hfront : 0 ≤ openParens front := by
    apply hbalanced.prefixes
    rw [hchars, List.append_assoc]
    exact List.prefix_append _ _
  have htotal := hbalanced.total
  rw [hchars, openParens_append, openParens_append,
    (Piece.balanced_charsAll level').total] at htotal
  change openParens front + 1 + 0 = 0 at htotal
  omega

/-- At the end of a text one level is the innermost that is open. -/
theorem IsOpenLevel.unique {level' : List Piece} (h : IsOpenLevel level front)
    (h' : IsOpenLevel level' front) : level = level' := by
  obtain ⟨before, hfront, hbefore⟩ := h
  obtain ⟨before', hfront', hbefore'⟩ := h'
  rcases List.append_eq_append_iff.1 (hfront.symm.trans hfront') with
    ⟨rest, rfl, hchars⟩ | ⟨rest, rfl, hchars⟩
  · exact eq_of_charsAll_eq_append hchars hbefore'
  · exact (eq_of_charsAll_eq_append hchars hbefore).symm

theorem openChunk_of_end (h : isChunkEnd c = true) : openChunk (front ++ [c]) = [] := by
  rw [openChunk, List.rtakeWhile_concat_neg]
  · rfl
  · simp [h]

theorem openChunk_of_plain {hc : c ≠ '(' ∧ c ≠ ')'} (hop : GroupKind.ofOperator? c = none) :
    openChunk (front ++ [c]) = openChunk front ++ (Piece.plain c hc).kept?.toList := by
  have hend : isChunkEnd c = false := by simp [isChunkEnd, hc, hop]
  rw [openChunk, List.rtakeWhile_concat_pos _ _ _ (by simp [hend]), List.filter_append, Piece.kept?]
  cases hskipped : isSkipped c <;> simp [openChunk, hskipped]

/-! ## Faults of a level -/

theorem CreditRule.ofChunks_eq_error {chunks : List String} (h : ofChunks chunks = .error e) :
    e.position? = none ∧ e.limit? = none := by
  rcases bind_eq_error.1 h with hamount | ⟨required, _, h⟩
  · unfold parseAmount at hamount
    split at hamount
    · split at hamount <;> cases hamount
      exact ⟨rfl, rfl⟩
    · cases hamount
      exact ⟨rfl, rfl⟩
  rcases bind_eq_error.1 h with hscope | ⟨scope, _, h⟩
  · unfold parseScope at hscope
    split at hscope <;> cases hscope
    exact ⟨rfl, rfl⟩
  rcases bind_eq_error.1 h with hsubjects | ⟨subjects, _, h⟩
  · obtain ⟨cause, _, rfl⟩ := mapError_eq_error.1 hsubjects
    exact ⟨rfl, rfl⟩
  · cases h

namespace Level

variable {l : Level} {position : Nat} {kind : GroupKind}

theorem flush_eq_error (h : l.flush position = .error e) :
    l.pending ≠ [] ∧ extractIds (String.ofList l.pending) = [] ∧
      e = .unresolvedCourse (String.ofList l.pending) position := by
  by_cases hpending : l.pending = []
  · rw [flush, if_pos hpending] at h
    cases h
  by_cases hcredit : l.kind = some .credit
  · rw [flush_credit position hpending hcredit] at h
    cases h
  · rw [flush_course position hpending hcredit] at h
    split at h
    next => cases h
    next hnone =>
      cases h
      refine ⟨hpending, ?_, rfl⟩
      by_contra hne
      obtain ⟨id, hid⟩ := exists_extractFirst?_inCapitals.2 hne
      cases hnone.symm.trans hid

theorem setOperator_eq_error (h : l.setOperator c kind position = .error e) :
    (l.kind = none ∧ kind = .credit ∧ l.children ≠ [] ∧ e = .nestedCredit position) ∨
      ∃ current, l.kind = some current ∧ current ≠ kind ∧
        e = .mixedOperators (current.operator?.getD c) c position := by
  unfold setOperator at h
  split at h
  next hkind =>
    split at h
    next hnested =>
      cases h
      exact Or.inl ⟨hkind, hnested.1, hnested.2, rfl⟩
    next => cases h
  next current hkind =>
    split at h
    next => cases h
    next hne =>
      cases h
      exact Or.inr ⟨current, hkind, hne, rfl⟩

theorem finish_eq_error (h : l.finish = .error e) : e.position? = none ∧ e.limit? = none := by
  replace h : l.group = .error e := map_eq_error.1 h
  unfold group at h
  split at h
  next => cases h
  next => exact CreditRule.ofChunks_eq_error (map_eq_error.1 h)
  next =>
    split at h <;> cases h
    exact ⟨rfl, rfl⟩

/-- A chunk that names no course is found where it ends. -/
theorem pointsAt_of_flush (h : l.flush front.length = .error e)
    (hpending : l.pending = openChunk front)
    (hend : ∀ c ∈ rest.head?, isChunkEnd c = true) : e.PointsAt (front ++ rest) := by
  obtain ⟨hne, hnone, rfl⟩ := flush_eq_error h
  rw [hpending] at hne hnone ⊢
  refine ⟨?_, ?_, ?_, hnone⟩
  · cases rest with
    | nil => exact Or.inl (by rw [List.append_nil])
    | cons c rest => exact Or.inr ⟨c, by simp, hend c rfl⟩
  · rwa [List.take_left]
  · rw [List.take_left]

end Level

/-! ## What has been read -/

/-- The levels around the innermost one, each of which is of the kind of its first operator and ends
before a parenthesis. -/
inductive OpenAround : List Char → List Level → Prop
  | outermost : OpenAround [] []
  | inside {before : List Char} {l : Level} {level : List Piece} {others : List Level}
    (h : OpenAround before others) (hkind : l.kind = (Piece.kinds level).head?)
    (hpending : l.pending = []) :
    OpenAround (before ++ Piece.charsAll level ++ ['(']) (l :: others)

/-- What the reader knows of the text before it: the innermost level, and where that starts. -/
structure ParseState.HasRead (before : List Char) (level : List Piece) (s : ParseState) : Prop where
  around : OpenAround before s.enclosing
  kind : s.current.kind = (Piece.kinds level).head?
  held : s.current.kind = none → s.current.children ≠ [] → Piece.HasParen level
  pending : s.current.pending = openChunk (before ++ Piece.charsAll level)

namespace ParseState

variable {limit position : Nat} {s next : ParseState} {l m : Level} {enclosing : List Level}

theorem hasRead_initial : HasRead [] [] initial where
  around := .outermost
  kind := rfl
  held _ h := absurd rfl h
  pending := rfl

namespace HasRead

theorem isOpenLevel (h : HasRead before level s) :
    IsOpenLevel level (before ++ Piece.charsAll level) := by
  refine ⟨before, rfl, ?_⟩
  obtain ⟨l, enclosing⟩ := s
  obtain ⟨hplace, _, _, _⟩ := h
  cases hplace with
  | outermost => exact Or.inl rfl
  | inside => exact Or.inr List.getLast?_concat

theorem openLevel (h : HasRead before level s) (hopen : s.openLevel limit position = .ok next) :
    HasRead (before ++ Piece.charsAll level ++ ['(']) [] next := by
  obtain ⟨l, enclosing⟩ := s
  obtain ⟨around, hflush, _, _, rfl⟩ := openLevel_eq_ok.1 hopen
  refine ⟨?_, rfl, fun _ h => absurd rfl h, ?_⟩
  · exact .inside h.around ((Level.flush_kind hflush).trans h.kind) (Level.flush_pending hflush)
  · rw [Piece.charsAll, List.append_nil, openChunk_of_end rfl]
    rfl

theorem closeLevel (h : HasRead before level s) (hclose : s.closeLevel position = .ok next) :
    ∃ before' around, before ++ Piece.charsAll level ++ [')'] = before' ++ Piece.charsAll around ∧
      HasRead before' around next := by
  obtain ⟨l, enclosing⟩ := s
  obtain ⟨hplace, _, _, _⟩ := h
  cases hplace with
  | outermost => cases hclose
  | @inside before parent around others hplace hkind hpending =>
      obtain ⟨closed, group, _, _, rfl⟩ := closeLevel_eq_ok.1 hclose
      have hchars : before ++ Piece.charsAll around ++ ['('] ++ Piece.charsAll level ++ [')'] =
          before ++ Piece.charsAll (around ++ [.paren level]) := by
        simp [Piece.charsAll_append, Piece.charsAll, Piece.chars]
      have hkinds : Piece.kinds (around ++ [.paren level]) = Piece.kinds around := by
        rw [Piece.kinds_append, Piece.kinds_paren]
        exact List.append_nil _
      refine ⟨before, around ++ [.paren level], hchars, hplace, ?_, ?_, ?_⟩
      · rw [hkinds]
        exact hkind
      · intro _ _
        exact ⟨level, List.mem_append_right _ List.mem_cons_self⟩
      · rw [← hchars, openChunk_of_end rfl]
        exact hpending

theorem read {hc : c ≠ '(' ∧ c ≠ ')'} (h : HasRead before level ⟨l, enclosing⟩)
    (hread : l.read position c = .ok m) :
    HasRead before (level ++ [.plain c hc]) ⟨m, enclosing⟩ := by
  have hchars : before ++ Piece.charsAll (level ++ [.plain c hc]) =
      before ++ Piece.charsAll level ++ [c] := by
    rw [Piece.charsAll_append, ← List.append_assoc]
    rfl
  rcases Level.read_eq_ok (h := hc) hread with ⟨kind, hop, hkind, hflush⟩ | ⟨hop, rfl⟩
  · refine ⟨h.around, ?_, ?_, ?_⟩
    · have hfirst : (Piece.kinds (level ++ [.plain c hc])).head? = l.kind.or (some kind) := by
        rw [Piece.kinds_append, Piece.kinds_operator hop, List.head?_append, ← h.kind]
        rfl
      rw [hfirst]
      refine (Level.flush_kind hflush).trans ?_
      rcases hkind with hkind | hkind <;> rw [hkind] <;> rfl
    · intro hnone
      cases (Level.flush_kind hflush).symm.trans hnone
    · rw [hchars, openChunk_of_end (by simp [isChunkEnd, hop])]
      exact Level.flush_pending hflush
  · refine ⟨h.around, ?_, ?_, ?_⟩
    · rw [Piece.kinds_append, Piece.kinds_plain hop]
      exact h.kind.trans (congrArg List.head? (List.append_nil _).symm)
    · intro hnone hne
      obtain ⟨inside, hmem⟩ := h.held hnone hne
      exact ⟨inside, List.mem_append_left _ hmem⟩
    · rw [hchars, openChunk_of_plain hop, ← h.pending]

/-! ### Faults of a step -/

theorem openLevel_error (h : HasRead before level s)
    (hfront : before ++ Piece.charsAll level = front)
    (herr : s.openLevel limit front.length = .error e) : e.PointsAt (front ++ '(' :: rest) := by
  have hpending := h.pending
  have hopen := h.isOpenLevel
  rw [hfront] at hpending hopen
  rcases bind_eq_error.1 herr with hflush | ⟨around, hflush, herr⟩
  · exact Level.pointsAt_of_flush hflush hpending (by simp [isChunkEnd])
  split at herr
  next hcredit =>
    cases herr
    have hkind : (Piece.kinds level).head? = some .credit := by
      rw [← h.kind, ← Level.flush_kind hflush, hcredit]
    refine ⟨level, ?_, Or.inl ⟨by simp, Piece.head?_operators hkind⟩⟩
    rwa [List.take_left]
  next =>
    split at herr <;> cases herr
    trivial

theorem closeLevel_error (h : HasRead before level s)
    (hfront : before ++ Piece.charsAll level = front)
    (herr : s.closeLevel front.length = .error e) : e.PointsAt (front ++ ')' :: rest) := by
  have hpending := h.pending
  rw [hfront] at hpending
  obtain ⟨l, enclosing⟩ := s
  obtain ⟨hplace, _, _, _⟩ := h
  cases hplace with
  | outermost =>
      cases herr
      refine Or.inl ⟨by simp, ?_⟩
      rw [List.take_left, ← hfront]
      exact Piece.balanced_charsAll level
  | inside =>
      rcases bind_eq_error.1 herr with hflush | ⟨closed, _, herr⟩
      · exact Level.pointsAt_of_flush hflush hpending (by simp [isChunkEnd])
      rcases bind_eq_error.1 herr with hfinish | ⟨group, _, herr⟩
      · exact ParseError.pointsAt_of_no_position (Level.finish_eq_error hfinish).1
      · cases herr

theorem setOperator_error {kind : GroupKind} (h : HasRead before level ⟨l, enclosing⟩)
    (hfront : before ++ Piece.charsAll level = front) (hop : GroupKind.ofOperator? c = some kind)
    (herr : l.setOperator c kind front.length = .error e) : e.PointsAt (front ++ c :: rest) := by
  have hopen : IsOpenLevel level ((front ++ c :: rest).take front.length) := by
    rw [List.take_left, ← hfront]
    exact h.isOpenLevel
  rcases Level.setOperator_eq_error herr with ⟨hnone, rfl, hne, rfl⟩ | ⟨current, hkind, hne, rfl⟩
  · cases Piece.operator?_of_kind hop
    have hkinds : Piece.kinds level = [] := List.head?_eq_none_iff.1 (h.kind.symm.trans hnone)
    exact ⟨level, hopen, Or.inr ⟨by simp, Piece.kinds_eq_nil.1 hkinds, h.held hnone hne⟩⟩
  · have hhead : (Piece.kinds level).head? = some current := h.kind.symm.trans hkind
    obtain ⟨first, _, hfirst⟩ := Piece.mem_kinds.1 (List.mem_of_mem_head? hhead)
    have hoperator : current.operator? = some first := Piece.operator?_of_kind hfirst
    rw [hoperator, Option.getD_some]
    refine ⟨by simp, by rw [hop]; rfl, ?_, level, hopen, ?_⟩
    · rintro rfl
      exact hne (Option.some.inj (hfirst.symm.trans hop))
    · rw [Piece.head?_operators hhead, hoperator]

theorem read_error (h : HasRead before level ⟨l, enclosing⟩)
    (hfront : before ++ Piece.charsAll level = front) (herr : l.read front.length c = .error e) :
    e.PointsAt (front ++ c :: rest) := by
  unfold Level.read at herr
  split at herr
  next kind hop =>
    rcases bind_eq_error.1 herr with hset | ⟨typed, hset, hflush⟩
    · exact h.setOperator_error hfront hop hset
    · have hpending : typed.pending = openChunk front := by
        rw [(Level.setOperator_frame hset).2.1, ← hfront]
        exact h.pending
      exact Level.pointsAt_of_flush hflush hpending (by simp [isChunkEnd, hop])
  next => split at herr <;> cases herr

end HasRead

/-- The text before the reader is the text of what it knows. -/
def After (front : List Char) (s : ParseState) : Prop :=
  ∃ before level, before ++ Piece.charsAll level = front ∧ HasRead before level s

theorem After.step (h : s.After front) (hstep : s.step limit position c = .ok next) :
    next.After (front ++ [c]) := by
  obtain ⟨before, level, rfl, h⟩ := h
  by_cases hopen : c = '('
  · subst hopen
    exact ⟨_, [], List.append_nil _, h.openLevel hstep⟩
  by_cases hclose : c = ')'
  · subst hclose
    obtain ⟨before', around, hchars, h⟩ := h.closeLevel hstep
    exact ⟨before', around, hchars.symm, h⟩
  · obtain ⟨l, enclosing⟩ := s
    obtain ⟨m, hread, rfl⟩ := (step_plain ⟨hopen, hclose⟩).1 hstep
    refine ⟨before, level ++ [.plain c ⟨hopen, hclose⟩], ?_, h.read hread⟩
    rw [Piece.charsAll_append, ← List.append_assoc]
    rfl

/-- A step that fails finds its fault in the text. -/
theorem After.step_error (h : s.After front) (herr : s.step limit front.length c = .error e) :
    e.PointsAt (front ++ c :: rest) := by
  obtain ⟨before, level, hfront, h⟩ := h
  by_cases hopen : c = '('
  · subst hopen
    exact h.openLevel_error hfront herr
  by_cases hclose : c = ')'
  · subst hclose
    exact h.closeLevel_error hfront herr
  · obtain ⟨l, enclosing⟩ := s
    rw [step_of_plain ⟨hopen, hclose⟩] at herr
    exact h.read_error hfront (map_eq_error.1 herr)

theorem After.run (h : s.After front) (hrun : s.run limit position rest = .ok next) :
    next.After (front ++ rest) := by
  induction rest generalizing s front position with
  | nil =>
      cases hrun
      rwa [List.append_nil]
  | cons c rest ih =>
      obtain ⟨between, hstep, hrun⟩ := run_cons_eq_ok.1 hrun
      have hnext := ih (h.step hstep) hrun
      rwa [List.append_assoc] at hnext

theorem After.run_error (h : s.After front) (herr : s.run limit front.length rest = .error e) :
    e.PointsAt (front ++ rest) := by
  induction rest generalizing s front with
  | nil => cases herr
  | cons c rest ih =>
      rcases bind_eq_error.1 herr with hstep | ⟨between, hstep, hrun⟩
      · exact h.step_error hstep
      · have hlength : (front ++ [c]).length = front.length + 1 := by simp
        have hnext := ih (h.step hstep) (by rwa [hlength])
        rwa [List.append_assoc] at hnext

theorem After.finish_error (h : s.After front) (herr : s.finish front.length = .error e) :
    e.PointsAt front := by
  obtain ⟨before, level, hfront, h⟩ := h
  have hpending := h.pending
  rw [hfront] at hpending
  obtain ⟨l, enclosing⟩ := s
  obtain ⟨hplace, _, _, _⟩ := h
  cases hplace with
  | outermost =>
      rcases bind_eq_error.1 herr with hflush | ⟨closed, _, hfinish⟩
      · have hpoints : e.PointsAt (front ++ []) := Level.pointsAt_of_flush hflush hpending nofun
        rwa [List.append_nil] at hpoints
      · exact ParseError.pointsAt_of_no_position (Level.finish_eq_error hfinish).1
  | @inside before parent around others =>
      cases herr
      refine Or.inr ⟨rfl, before ++ Piece.charsAll around, Piece.charsAll level, ?_,
        Piece.balanced_charsAll level⟩
      rw [← hfront]
      simp

end ParseState

/-- A text that cannot be read has a fault where the error says, if it says where. -/
theorem Group.pointsAt_of_parse {limit : Nat} {text : String}
    (h : parse limit text = .error e) : e.PointsAt text.toList := by
  unfold parse at h
  dsimp only at h
  split at h
  next =>
    cases h
    trivial
  next =>
    have hinitial : ParseState.initial.After [] := ⟨[], [], rfl, ParseState.hasRead_initial⟩
    rcases bind_eq_error.1 h with hrun | ⟨s, hrun, hfinish⟩
    · exact hinitial.run_error hrun
    · exact (hinitial.run hrun).finish_error hfinish

/-- Each kind of fault with a position. The chunk of the second text goes on across the blank and
the quotes in it. -/
theorem Group.pointsAt_nested :
    (parse defaultNesting "COMP 250 + (MATH 240 / (MATH 235) - COMP 206)" =
        .error (.mixedOperators '/' '-' 34) ∧
      ParseError.PointsAt "COMP 250 + (MATH 240 / (MATH 235) - COMP 206)".toList
        (.mixedOperators '/' '-' 34)) ∧
    (parse defaultNesting "COMP 250 + ('season 202' / MATH 240)" =
        .error (.unresolvedCourse "season202" 25) ∧
      ParseError.PointsAt "COMP 250 + ('season 202' / MATH 240)".toList
        (.unresolvedCourse "season202" 25)) ∧
    (parse defaultNesting "(COMP 250) 3 - 2" = .error (.nestedCredit 13) ∧
      ParseError.PointsAt "(COMP 250) 3 - 2".toList (.nestedCredit 13)) ∧
    (parse defaultNesting "(COMP 250 + (MATH 240)" = .error (.unbalanced 22) ∧
      ParseError.PointsAt "(COMP 250 + (MATH 240)".toList (.unbalanced 22)) := by
  have hmixed : parse defaultNesting "COMP 250 + (MATH 240 / (MATH 235) - COMP 206)" =
      .error (.mixedOperators '/' '-' 34) := by
    decide +kernel
  have hchunk : parse defaultNesting "COMP 250 + ('season 202' / MATH 240)" =
      .error (.unresolvedCourse "season202" 25) := by
    decide +kernel
  have hcredit : parse defaultNesting "(COMP 250) 3 - 2" = .error (.nestedCredit 13) := by
    decide +kernel
  have hopen : parse defaultNesting "(COMP 250 + (MATH 240)" = .error (.unbalanced 22) := by
    decide +kernel
  exact ⟨⟨hmixed, pointsAt_of_parse hmixed⟩, ⟨hchunk, pointsAt_of_parse hchunk⟩,
    ⟨hcredit, pointsAt_of_parse hcredit⟩, ⟨hopen, pointsAt_of_parse hopen⟩⟩

end Curriculum
