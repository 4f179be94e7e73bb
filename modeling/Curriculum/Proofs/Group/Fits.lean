import Curriculum.Proofs.Group.Grammar
import Curriculum.Proofs.Group.LetterCase
import Curriculum.Proofs.Group.Reading

/-!
# Levels that can be finished

Whether a level that has been read in part can be finished depends on the operators, the chunks and
the parentheses that are still to come. What is asked of them is followed through each thing that is
done to a level while it is read.
-/

namespace Curriculum

def SameKind (kinds : List GroupKind) : Prop := ∀ a ∈ kinds, ∀ b ∈ kinds, a = b

namespace Level

variable {l : Level} {kinds : List GroupKind} {chunks : List (List Char)} {paren : Prop}
  {kind : GroupKind}

/-- The level can be finished with operators of some kinds, some chunks and perhaps parentheses. -/
def Fits (l : Level) (kinds : List GroupKind) (chunks : List (List Char)) (paren : Prop) : Prop :=
  SameKind (l.kind.toList ++ kinds) ∧
    if .credit ∈ l.kind.toList ++ kinds then
      (l.kind = some .credit ∨ l.children = []) ∧ ¬paren ∧
        ∃ rule, CreditRule.ofChunks (l.creditChunks ++ chunks.map inCapitals) = .ok rule
    else
      (∀ chunk ∈ chunks, ∃ id, extractFirst? (inCapitals chunk) = some id) ∧
        (l.kind.toList ++ kinds ≠ [] → l.children ≠ [] ∨ chunks ≠ [] ∨ paren)

theorem sameKind_of_kind (hkind : l.kind = some kind) :
    SameKind (l.kind.toList ++ kinds) ↔ ∀ a ∈ kinds, a = kind := by
  rw [hkind]
  constructor
  · intro hsame a ha
    exact hsame a (List.mem_cons_of_mem _ ha) kind List.mem_cons_self
  · intro hall
    have hall' : ∀ a ∈ (some kind).toList ++ kinds, a = kind :=
      List.forall_mem_cons.2 ⟨rfl, hall⟩
    intro a ha b hb
    rw [hall' a ha, hall' b hb]

theorem fits_of_dash (hmem : .credit ∈ l.kind.toList ++ kinds) :
    l.Fits kinds chunks paren ↔
      SameKind (l.kind.toList ++ kinds) ∧ (l.kind = some .credit ∨ l.children = []) ∧ ¬paren ∧
        ∃ rule, CreditRule.ofChunks (l.creditChunks ++ chunks.map inCapitals) = .ok rule := by
  rw [Fits, if_pos hmem]

theorem fits_of_no_dash (hmem : .credit ∉ l.kind.toList ++ kinds) :
    l.Fits kinds chunks paren ↔
      SameKind (l.kind.toList ++ kinds) ∧
        (∀ chunk ∈ chunks, ∃ id, extractFirst? (inCapitals chunk) = some id) ∧
        (l.kind.toList ++ kinds ≠ [] → l.children ≠ [] ∨ chunks ≠ [] ∨ paren) := by
  rw [Fits, if_neg hmem]

theorem finish_fits : (∃ g, l.finish = .ok g) ↔ l.Fits [] [] False := by
  have hgroup : (∃ g, l.finish = .ok g) ↔ ∃ g, l.group = .ok g := by
    simp only [finish, map_eq_ok]
    exact ⟨fun ⟨_, g, hg, _⟩ => ⟨g, hg⟩, fun ⟨g, hg⟩ => ⟨_, g, hg, rfl⟩⟩
  have hsame : SameKind (l.kind.toList ++ []) := by
    cases l.kind <;> simp [SameKind]
  rw [hgroup]
  by_cases hmem : .credit ∈ l.kind.toList ++ []
  · have hkind : l.kind = some .credit := by simpa using hmem
    have hrule : l.group = (CreditRule.ofChunks l.creditChunks).map .credit := by
      rw [group, hkind]
    rw [fits_of_dash hmem, and_iff_right hsame, and_iff_right (Or.inl hkind),
      and_iff_right not_false, hrule, List.map_nil, List.append_nil]
    cases CreditRule.ofChunks l.creditChunks <;> simp [Except.map]
  · rw [fits_of_no_dash hmem, and_iff_right hsame]
    cases hkind : l.kind with
    | none => simp [group, hkind]
    | some kind =>
        have hjoin : l.group =
            if l.children = [] then .error .empty else .ok (.ofKind kind l.children) := by
          rw [hkind] at hmem
          rw [group, hkind]
          cases kind <;> first | rfl | exact absurd List.mem_cons_self hmem
        rw [hjoin]
        split
        next hnil => simp [hnil]
        next hne => simp [hne]

/-- A dash comes too late in a level of another kind, or after parentheses. -/
theorem not_fits_of_late_dash (hne : l.kind ≠ some .credit)
    (hnone : l.kind = none → .credit ∈ kinds → paren) (hmem : .credit ∈ l.kind.toList ++ kinds) :
    ¬l.Fits kinds chunks paren := by
  rw [fits_of_dash hmem]
  rintro ⟨hsame, _, hparen, _⟩
  cases hkind : l.kind with
  | none =>
      rw [hkind] at hmem
      exact hparen (hnone hkind hmem)
  | some kind =>
      rw [hkind] at hsame hmem
      rw [hkind, hsame kind List.mem_cons_self .credit hmem] at hne
      exact hne rfl

/-- The level after the end of a chunk of a credit rule. -/
def endChunk (l : Level) : Level :=
  { l with creditChunks := l.creditChunks ++ [inCapitals l.pending], pending := [] }

/-- The level after the end of a chunk that names a course. -/
def endCourse (l : Level) (id : CourseId) : Level :=
  { l with children := l.children ++ [.course id], pending := [] }

theorem flush_credit (position : Nat) (hpending : l.pending ≠ [])
    (hcredit : l.kind = some .credit) : l.flush position = .ok l.endChunk := by
  rw [flush, if_neg hpending]
  exact if_pos hcredit

theorem flush_course (position : Nat) (hpending : l.pending ≠ [])
    (hcredit : l.kind ≠ some .credit) :
    l.flush position =
      match extractFirst? (inCapitals l.pending) with
      | some id => .ok (l.endCourse id)
      | none => .error (.unresolvedCourse (String.ofList l.pending) position) := by
  rw [flush, if_neg hpending]
  exact if_neg hcredit

theorem endChunk_fits (hcredit : l.kind = some .credit) :
    l.endChunk.Fits kinds chunks paren ↔ l.Fits kinds (l.pending :: chunks) paren := by
  have hmem : .credit ∈ l.kind.toList ++ kinds := by simp [hcredit]
  have hmem' : .credit ∈ l.endChunk.kind.toList ++ kinds := hmem
  have hchunks : l.endChunk.creditChunks ++ chunks.map inCapitals =
      l.creditChunks ++ (l.pending :: chunks).map inCapitals := by
    rw [List.map_cons, endChunk, List.append_assoc, List.singleton_append]
  rw [fits_of_dash hmem, fits_of_dash hmem', hchunks]
  rfl

theorem endCourse_fits {id : CourseId} (hcredit : l.kind ≠ some .credit)
    (hnone : l.kind = none → .credit ∈ kinds → paren)
    (hfound : extractFirst? (inCapitals l.pending) = some id) :
    (l.endCourse id).Fits kinds chunks paren ↔ l.Fits kinds (l.pending :: chunks) paren := by
  by_cases hmem : .credit ∈ l.kind.toList ++ kinds
  · exact iff_of_false (not_fits_of_late_dash hcredit hnone hmem)
      (not_fits_of_late_dash hcredit hnone hmem)
  · have hmem' : .credit ∉ (l.endCourse id).kind.toList ++ kinds := hmem
    have hchildren : (l.endCourse id).children ≠ [] :=
      List.append_ne_nil_of_right_ne_nil _ (List.cons_ne_nil _ _)
    have hcourse : ∃ id, extractFirst? (inCapitals l.pending) = some id := ⟨id, hfound⟩
    rw [fits_of_no_dash hmem, fits_of_no_dash hmem', List.forall_mem_cons, and_iff_right hcourse]
    refine and_congr_right fun _ => and_congr_right fun _ => ?_
    exact iff_of_true (fun _ => Or.inl hchildren) fun _ => Or.inr (Or.inl (List.cons_ne_nil _ _))

/-- Without a course in it, a chunk can only be part of a credit rule. -/
theorem not_fits_of_no_course (hcredit : l.kind ≠ some .credit)
    (hnone : l.kind = none → .credit ∈ kinds → paren)
    (hfound : extractFirst? (inCapitals l.pending) = none) :
    ¬l.Fits kinds (l.pending :: chunks) paren := by
  by_cases hmem : .credit ∈ l.kind.toList ++ kinds
  · exact not_fits_of_late_dash hcredit hnone hmem
  · rw [fits_of_no_dash hmem, List.forall_mem_cons]
    rintro ⟨_, ⟨⟨id, hid⟩, _⟩, _⟩
    cases hfound.symm.trans hid

/-- A chunk that ends is the first of those to come. -/
theorem flush_fits (position : Nat) (hnone : l.kind = none → .credit ∈ kinds → paren) :
    (∃ m, l.flush position = .ok m ∧ m.Fits kinds chunks paren) ↔
      l.Fits kinds (Piece.ended l.pending ++ chunks) paren := by
  by_cases hpending : l.pending = []
  · simp [flush, Piece.ended, hpending]
  rw [Piece.ended, if_neg hpending, List.singleton_append]
  by_cases hcredit : l.kind = some .credit
  · simp only [flush_credit position hpending hcredit, Except.ok.injEq, exists_eq_left']
    exact endChunk_fits hcredit
  · rw [flush_course position hpending hcredit]
    cases hfound : extractFirst? (inCapitals l.pending) with
    | none =>
        refine iff_of_false ?_ (not_fits_of_no_course hcredit hnone hfound)
        rintro ⟨m, hm, _⟩
        cases hm
    | some id =>
        simp only [Except.ok.injEq, exists_eq_left']
        exact endCourse_fits hcredit hnone hfound

theorem fits_cons_of_kind (hkind : l.kind = some kind) :
    l.Fits (kind :: kinds) chunks paren ↔ l.Fits kinds chunks paren := by
  have hsame : SameKind (l.kind.toList ++ kind :: kinds) ↔ SameKind (l.kind.toList ++ kinds) := by
    rw [sameKind_of_kind hkind, sameKind_of_kind hkind, List.forall_mem_cons, and_iff_right rfl]
  have hmem : .credit ∈ l.kind.toList ++ kind :: kinds ↔ .credit ∈ l.kind.toList ++ kinds := by
    simp [hkind]
  have hnil : l.kind.toList ++ kind :: kinds ≠ [] ↔ l.kind.toList ++ kinds ≠ [] := by
    simp [hkind]
  simp only [Fits, hsame, hmem, hnil]

theorem typed_fits (hkind : l.kind = none) (hearly : kind = .credit → l.children = []) :
    (l.typed kind).Fits kinds chunks paren ↔ l.Fits (kind :: kinds) chunks paren := by
  have hkinds : l.kind.toList ++ kind :: kinds = (l.typed kind).kind.toList ++ kinds := by
    rw [hkind]
    rfl
  by_cases hmem : .credit ∈ (l.typed kind).kind.toList ++ kinds
  · have hmem' : .credit ∈ l.kind.toList ++ kind :: kinds := hkinds ▸ hmem
    rw [fits_of_dash hmem, fits_of_dash hmem', hkinds]
    refine and_congr_right fun hsame => and_congr_left fun _ => ?_
    have hcredit : kind = .credit := hsame kind List.mem_cons_self .credit hmem
    exact iff_of_true (Or.inl (congrArg some hcredit)) (Or.inr (hearly hcredit))
  · have hmem' : .credit ∉ l.kind.toList ++ kind :: kinds := hkinds ▸ hmem
    rw [fits_of_no_dash hmem, fits_of_no_dash hmem', hkinds]
    rfl

/-- An operator that is met is the first of those to come. -/
theorem setOperator_fits (op : Char) (position : Nat) :
    (∃ m, l.setOperator op kind position = .ok m ∧ m.Fits kinds chunks paren) ↔
      l.Fits (kind :: kinds) chunks paren := by
  unfold setOperator
  split
  next hkind =>
    split
    next hlate =>
      obtain ⟨rfl, hchildren⟩ := hlate
      have hmem : .credit ∈ l.kind.toList ++ .credit :: kinds := by simp
      rw [fits_of_dash hmem, hkind]
      refine iff_of_false (by simp) ?_
      rintro ⟨_, hfirst, _⟩
      exact hfirst.elim nofun hchildren
    next hearly =>
      simp only [Except.ok.injEq, exists_eq_left']
      exact typed_fits hkind fun hcredit =>
        Classical.byContradiction fun hne => hearly ⟨hcredit, hne⟩
  next current hkind =>
    split
    next heq =>
      subst heq
      simp only [Except.ok.injEq, exists_eq_left']
      exact (fits_cons_of_kind hkind).symm
    next hne =>
      refine iff_of_false (by simp) ?_
      rintro ⟨hsame, _⟩
      rw [hkind] at hsame
      exact hne (hsame current (by simp) kind (by simp))

/-- Parentheses are a child, after which no dash can follow. -/
theorem push_fits (n : Node) :
    l.kind ≠ some .credit ∧ (l.push n).Fits kinds chunks paren ↔ l.Fits kinds chunks True := by
  have hne : (l.push n).children ≠ [] :=
    List.append_ne_nil_of_right_ne_nil _ (List.cons_ne_nil _ _)
  by_cases hmem : .credit ∈ l.kind.toList ++ kinds
  · have hmem' : .credit ∈ (l.push n).kind.toList ++ kinds := hmem
    rw [fits_of_dash hmem, fits_of_dash hmem']
    refine iff_of_false ?_ fun hfits => hfits.2.2.1 trivial
    rintro ⟨hkind, _, hfirst, _⟩
    exact hfirst.elim hkind hne
  · have hmem' : .credit ∉ (l.push n).kind.toList ++ kinds := hmem
    have hkind : l.kind ≠ some .credit := fun hcredit => hmem (by simp [hcredit])
    rw [and_iff_right hkind, fits_of_no_dash hmem, fits_of_no_dash hmem']
    refine and_congr_right fun _ => and_congr_right fun _ => ?_
    exact iff_of_true (fun _ => Or.inl hne) fun _ => Or.inr (Or.inr trivial)

/-! ## Levels and what follows in their text -/

/-- The level can be finished by what follows in it. -/
def FitsText (l : Level) (rest : List Piece) : Prop :=
  l.Fits (Piece.kinds rest) (Piece.chunksFrom l.pending rest) (Piece.HasParen rest)

variable {c : Char} {rest inside : List Piece} {m : Level}

/-- All that can come of a level when its chunk ends. -/
theorem flush_eq_ok {position : Nat} (h : l.flush position = .ok m) :
    m = l ∧ l.pending = [] ∨ m = l.endChunk ∧ l.pending ≠ [] ∧ l.kind = some .credit ∨
      ∃ id, m = l.endCourse id ∧ l.pending ≠ [] ∧ l.kind ≠ some .credit ∧
        extractFirst? (inCapitals l.pending) = some id := by
  by_cases hpending : l.pending = []
  · rw [flush, if_pos hpending] at h
    cases h
    exact Or.inl ⟨rfl, hpending⟩
  by_cases hcredit : l.kind = some .credit
  · rw [flush_credit position hpending hcredit] at h
    cases h
    exact Or.inr (Or.inl ⟨rfl, hpending, hcredit⟩)
  · rw [flush_course position hpending hcredit] at h
    split at h
    next id hfound =>
      cases h
      exact Or.inr (Or.inr ⟨id, rfl, hpending, hcredit, hfound⟩)
    next => cases h

theorem flush_pending {position : Nat} (h : l.flush position = .ok m) : m.pending = [] := by
  rcases flush_eq_ok h with ⟨rfl, hpending⟩ | ⟨rfl, _⟩ | ⟨id, rfl, _⟩
  · exact hpending
  · rfl
  · rfl

theorem flush_kind {position : Nat} (h : l.flush position = .ok m) : m.kind = l.kind := by
  rcases flush_eq_ok h with ⟨rfl, _⟩ | ⟨rfl, _⟩ | ⟨id, rfl, _⟩ <;> rfl

theorem setOperator_eq_ok {op : Char} {position : Nat} (h : l.setOperator op kind position = .ok m) :
    m = l.typed kind ∧ (l.kind = none ∨ l.kind = some kind) := by
  unfold setOperator at h
  split at h
  next hkind =>
    split at h
    next => cases h
    next =>
      cases h
      exact ⟨rfl, Or.inl hkind⟩
  next current hkind =>
    split at h
    next heq =>
      cases h
      rw [heq] at hkind
      refine ⟨?_, Or.inr hkind⟩
      rw [typed, ← hkind]
    next => cases h

theorem setOperator_frame {op : Char} {position : Nat} (h : l.setOperator op kind position = .ok m) :
    m.kind = some kind ∧ m.pending = l.pending ∧ m.children = l.children := by
  obtain ⟨rfl, _⟩ := setOperator_eq_ok h
  exact ⟨rfl, rfl, rfl⟩

/-- Reads a character that is no parenthesis. -/
def read (l : Level) (position : Nat) (c : Char) : Except ParseError Level :=
  match GroupKind.ofOperator? c with
  | some kind => do
    let level ← l.setOperator c kind position
    level.flush position
  | none =>
    if isSkipped c then .ok l else .ok { l with pending := l.pending ++ [c] }

/-- An operator types the level and ends its chunk. What is kept of any other character belongs to
the chunk. -/
theorem read_eq_ok {h : c ≠ '(' ∧ c ≠ ')'} {position : Nat} (hread : l.read position c = .ok m) :
    (∃ kind, GroupKind.ofOperator? c = some kind ∧ (l.kind = none ∨ l.kind = some kind) ∧
      (l.typed kind).flush position = .ok m) ∨
    GroupKind.ofOperator? c = none ∧
      m = { l with pending := l.pending ++ (Piece.plain c h).kept?.toList } := by
  unfold read at hread
  split at hread
  next kind hop =>
    obtain ⟨typed, hset, hflush⟩ := bind_eq_ok.1 hread
    obtain ⟨rfl, hkind⟩ := setOperator_eq_ok hset
    exact Or.inl ⟨kind, hop, hkind, hflush⟩
  next hop =>
    refine Or.inr ⟨hop, ?_⟩
    rw [Piece.kept?]
    split at hread
    next hskipped =>
      cases hread
      rw [if_pos hskipped, Option.toList_none, List.append_nil]
    next hskipped =>
      cases hread
      rw [if_neg hskipped, Option.toList_some]

/-- A chunk that ends before the rest of the text. -/
theorem flush_fitsText (position : Nat)
    (hnone : l.kind = none → .credit ∈ Piece.kinds rest → Piece.HasParen rest) :
    (∃ m, l.flush position = .ok m ∧ m.FitsText rest) ↔
      l.Fits (Piece.kinds rest) (Piece.ended l.pending ++ Piece.chunks rest)
        (Piece.HasParen rest) := by
  rw [← flush_fits position hnone]
  refine exists_congr fun m => and_congr_right fun hflush => ?_
  rw [FitsText, flush_pending hflush, Piece.chunksFrom_empty]

theorem close_fits (position : Nat) :
    (∃ m g, l.flush position = .ok m ∧ m.finish = .ok g) ↔ l.FitsText [] := by
  have hparen : Piece.HasParen [] ↔ False := by simp [Piece.HasParen]
  have hkinds : Piece.kinds [] = [] := rfl
  rw [FitsText, Piece.chunksFrom_nil, hparen, hkinds, ← List.append_nil (Piece.ended l.pending),
    ← flush_fits position fun _ hmem => absurd hmem List.not_mem_nil]
  simp only [← finish_fits, exists_and_left]

theorem read_fits {h : c ≠ '(' ∧ c ≠ ')'} (position : Nat) :
    (∃ m, l.read position c = .ok m ∧ m.FitsText rest) ↔ l.FitsText (.plain c h :: rest) := by
  unfold read
  cases hop : GroupKind.ofOperator? c with
  | some kind =>
      rw [FitsText, Piece.kinds_operator hop, Piece.chunksFrom_operator hop, Piece.hasParen_plain,
        ← setOperator_fits c position]
      have hflush (s : Level) (hset : l.setOperator c kind position = .ok s) :
          (∃ m, s.flush position = .ok m ∧ m.FitsText rest) ↔
            s.Fits (Piece.kinds rest) (Piece.ended l.pending ++ Piece.chunks rest)
              (Piece.HasParen rest) := by
        obtain ⟨hkind, hpending, _⟩ := setOperator_frame hset
        have hsome : s.kind ≠ none := by simp [hkind]
        rw [flush_fitsText position fun hnone => absurd hnone hsome, hpending]
      simp only [bind_eq_ok]
      constructor
      · rintro ⟨m, ⟨s, hset, hm⟩, hfits⟩
        exact ⟨s, hset, (hflush s hset).1 ⟨m, hm, hfits⟩⟩
      · rintro ⟨s, hset, hfits⟩
        obtain ⟨m, hm, hfits⟩ := (hflush s hset).2 hfits
        exact ⟨m, ⟨s, hset, hm⟩, hfits⟩
  | none =>
      rw [FitsText, Piece.kinds_plain hop, Piece.chunksFrom_plain hop, Piece.hasParen_plain,
        Piece.kept?]
      dsimp only
      split
      next => simp [FitsText]
      next =>
        -- What can be finished does not depend on the chunk that has begun.
        simp only [Except.ok.injEq, exists_eq_left', Option.toList_some]
        exact Iff.rfl

theorem open_fits (n : Node) (position : Nat) :
    (∃ m, l.flush position = .ok m ∧ m.kind ≠ some .credit ∧ (m.push n).FitsText rest) ↔
      l.FitsText (.paren inside :: rest) := by
  rw [FitsText, Piece.chunksFrom_of_endsChunk rfl, Piece.kinds_paren,
    iff_true_intro Piece.hasParen_paren, ← flush_fits position fun _ _ => trivial]
  refine exists_congr fun m => and_congr_right fun hflush => ?_
  have hpending : m.pending = [] := flush_pending hflush
  have hpush : (m.push n).pending = [] := hpending
  rw [← push_fits n, FitsText, hpush, Piece.chunksFrom_empty]

end Level

end Curriculum
