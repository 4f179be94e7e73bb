import Curriculum.Proofs.Group.ParenDepth

/-!
# Parenthesis levels

A text with balanced parentheses falls into pieces: characters, and texts in parentheses that fall
into pieces themselves. The pieces of the text make up its outermost level, and those of each text
in parentheses make up another one.
-/

namespace Curriculum

inductive Piece where
  | plain (c : Char) (h : c ≠ '(' ∧ c ≠ ')')
  | paren (inside : List Piece)

mutual

def Piece.chars : Piece → List Char
  | .plain c _ => [c]
  | .paren inside => '(' :: Piece.charsAll inside ++ [')']

def Piece.charsAll : List Piece → List Char
  | [] => []
  | p :: rest => p.chars ++ Piece.charsAll rest

end

theorem Piece.charsAll_append (first rest : List Piece) :
    Piece.charsAll (first ++ rest) = Piece.charsAll first ++ Piece.charsAll rest := by
  induction first with
  | nil => rfl
  | cons p others ih => rw [List.cons_append, Piece.charsAll, Piece.charsAll, ih, List.append_assoc]

mutual

/-- How deep parentheses nest in a piece. -/
def Piece.depth : Piece → Nat
  | .plain _ _ => 0
  | .paren inside => Piece.depthAll inside + 1

def Piece.depthAll : List Piece → Nat
  | [] => 0
  | p :: rest => max p.depth (Piece.depthAll rest)

end

mutual

/-- The levels in a piece, which are those in parentheses. -/
def Piece.levels : Piece → List (List Piece)
  | .plain _ _ => []
  | .paren inside => inside :: Piece.levelsAll inside

def Piece.levelsAll : List Piece → List (List Piece)
  | [] => []
  | p :: rest => p.levels ++ Piece.levelsAll rest

end

mutual

theorem Piece.openParens_chars : (p : Piece) → openParens p.chars = 0
  | .plain c h => by
      refine (parenDepth_of_plain fun x hx => ?_).1
      rw [List.mem_singleton.1 hx]
      exact h
  | .paren inside => by
      rw [Piece.chars, openParens_paren]
      exact Piece.openParens_charsAll inside

theorem Piece.openParens_charsAll : (ps : List Piece) → openParens (Piece.charsAll ps) = 0
  | [] => rfl
  | p :: rest => by
      rw [Piece.charsAll, openParens_append, p.openParens_chars, Piece.openParens_charsAll rest]
      rfl

end

mutual

theorem Piece.parenDepth_chars : (p : Piece) → parenDepth p.chars = p.depth
  | .plain c h => by
      refine (parenDepth_of_plain fun x hx => ?_).2
      rw [List.mem_singleton.1 hx]
      exact h
  | .paren inside => by
      rw [Piece.chars, parenDepth_paren (Piece.openParens_charsAll inside),
        Piece.parenDepth_charsAll inside]
      rfl

theorem Piece.parenDepth_charsAll :
    (ps : List Piece) → parenDepth (Piece.charsAll ps) = Piece.depthAll ps
  | [] => rfl
  | p :: rest => by
      rw [Piece.charsAll, parenDepth_append, p.parenDepth_chars, p.openParens_chars,
        Piece.parenDepth_charsAll rest, Piece.depthAll]
      omega

end

/-! ## One way to fall into pieces -/

theorem Piece.exists_head (p : Piece) (cs : List Char) :
    ∃ c rest, p.chars ++ cs = c :: rest ∧ c ≠ ')' := by
  cases p with
  | plain c h => exact ⟨c, cs, rfl, h.2⟩
  | paren inside => exact ⟨'(', _, rfl, by decide⟩

/-- Where a level ends, it ends in whatever way its text falls into pieces. -/
theorem Piece.charsAll_append_inj : (ps qs : List Piece) → {cs ds : List Char} →
    (∀ c ∈ cs.head?, c = ')') → (∀ c ∈ ds.head?, c = ')') →
    Piece.charsAll ps ++ cs = Piece.charsAll qs ++ ds → ps = qs ∧ cs = ds
  | [], [], _, _, _, _, h => ⟨rfl, h⟩
  | [], q :: qs, cs, ds, hcs, _, h => by
      obtain ⟨c, rest, hhead, hne⟩ := q.exists_head (Piece.charsAll qs ++ ds)
      rw [Piece.charsAll, Piece.charsAll, List.nil_append, List.append_assoc, hhead] at h
      exact absurd (hcs c (by rw [h]; rfl)) hne
  | p :: ps, [], cs, ds, _, hds, h => by
      obtain ⟨c, rest, hhead, hne⟩ := p.exists_head (Piece.charsAll ps ++ cs)
      rw [Piece.charsAll, Piece.charsAll, List.nil_append, List.append_assoc, hhead] at h
      exact absurd (hds c (by rw [← h]; rfl)) hne
  | .plain c hc :: ps, .plain d hd :: qs, cs, ds, hcs, hds, h => by
      obtain ⟨rfl, htail⟩ := List.cons.inj h
      obtain ⟨rfl, rfl⟩ := Piece.charsAll_append_inj ps qs hcs hds htail
      exact ⟨rfl, rfl⟩
  | .plain c hc :: ps, .paren inside :: qs, cs, ds, _, _, h => by
      exact absurd (List.cons.inj h).1 hc.1
  | .paren inside :: ps, .plain d hd :: qs, cs, ds, _, _, h => by
      exact absurd (List.cons.inj h).1.symm hd.1
  | .paren inside :: ps, .paren other :: qs, cs, ds, hcs, hds, h => by
      replace h : Piece.charsAll inside ++ ')' :: (Piece.charsAll ps ++ cs) =
          Piece.charsAll other ++ ')' :: (Piece.charsAll qs ++ ds) := by
        simpa [Piece.charsAll, Piece.chars] using h
      -- The text inside ends where it is closed, and the rest of the level goes on from there.
      obtain ⟨rfl, hrest⟩ := Piece.charsAll_append_inj inside other (by simp) (by simp) h
      obtain ⟨rfl, rfl⟩ := Piece.charsAll_append_inj ps qs hcs hds (List.cons.inj hrest).2
      exact ⟨rfl, rfl⟩

theorem Piece.charsAll_inj {ps qs : List Piece} (h : Piece.charsAll ps = Piece.charsAll qs) :
    ps = qs := by
  have happend : Piece.charsAll ps ++ [] = Piece.charsAll qs ++ [] := by rw [h]
  exact (Piece.charsAll_append_inj ps qs (by simp) (by simp) happend).1

/-! ## Balance -/

/-- Every parenthesis that is opened is closed, and none is closed that was not opened. -/
structure Balanced (cs : List Char) : Prop where
  total : openParens cs = 0
  prefixes : ∀ front, front <+: cs → 0 ≤ openParens front

theorem Balanced.nil : Balanced [] where
  total := rfl
  prefixes front h := by
    rw [List.prefix_nil.1 h]
    exact Int.le_refl 0

theorem Balanced.plain {c : Char} (h : c ≠ '(' ∧ c ≠ ')') : Balanced [c] := by
  have hzero : openParens [c] = 0 := by rw [openParens, parenChange, if_neg h.1, if_neg h.2]; rfl
  refine ⟨hzero, fun front hfront => ?_⟩
  rcases List.prefix_cons_iff.1 hfront with rfl | ⟨t, rfl, ht⟩
  · exact Int.le_refl 0
  · rw [List.prefix_nil.1 ht]
    exact Int.le_of_eq hzero.symm

theorem Balanced.append {cs ds : List Char} (h : Balanced cs) (h' : Balanced ds) :
    Balanced (cs ++ ds) := by
  refine ⟨by rw [openParens_append, h.total, h'.total]; rfl, fun front hfront => ?_⟩
  obtain ⟨back, happend⟩ := hfront
  rcases List.append_eq_append_iff.1 happend with ⟨as, hcs, _⟩ | ⟨bs, hfront, hds⟩
  · exact h.prefixes front ⟨as, hcs.symm⟩
  · rw [hfront, openParens_append, h.total, Int.zero_add]
    exact h'.prefixes bs ⟨back, hds.symm⟩

theorem Balanced.paren {cs : List Char} (h : Balanced cs) : Balanced ('(' :: cs ++ [')']) := by
  have hzero : openParens ('(' :: cs ++ [')']) = 0 := by rw [openParens_paren, h.total]
  refine ⟨hzero, fun front hfront => ?_⟩
  rcases List.prefix_concat_iff.1 hfront with rfl | hfront
  · exact Int.le_of_eq hzero.symm
  · rcases List.prefix_cons_iff.1 hfront with rfl | ⟨inner, rfl, hinner⟩
    · exact Int.le_refl 0
    · have hnonneg := h.prefixes inner hinner
      change 0 ≤ 1 + openParens inner
      omega

mutual

theorem Piece.balanced_chars : (p : Piece) → Balanced p.chars
  | .plain c h => by
      rw [Piece.chars]
      exact .plain h
  | .paren inside => by
      rw [Piece.chars]
      exact .paren (Piece.balanced_charsAll inside)

theorem Piece.balanced_charsAll : (ps : List Piece) → Balanced (Piece.charsAll ps)
  | [] => .nil
  | p :: rest => by
      rw [Piece.charsAll]
      exact p.balanced_chars.append (Piece.balanced_charsAll rest)

end

/-- Text that closes `n` parentheses more than it opens. It is cut at those that were not opened. -/
theorem exists_pieces_between {cs : List Char} {n : Nat} (htotal : openParens cs = -n)
    (hprefixes : ∀ front, front <+: cs → -(n : Int) ≤ openParens front) :
    ∃ (first : List Piece) (others : List (List Piece)), others.length = n ∧
      cs = Piece.charsAll first ++ others.flatMap fun ps => ')' :: Piece.charsAll ps := by
  induction cs generalizing n with
  | nil =>
      have hn : n = 0 := by
        rw [openParens] at htotal
        omega
      exact ⟨[], [], hn.symm, rfl⟩
  | cons c rest ih =>
      rw [openParens] at htotal
      have hrest (front : List Char) (h : front <+: rest) :
          -(n : Int) ≤ parenChange c + openParens front :=
        hprefixes (c :: front) (List.cons_prefix_cons.2 ⟨rfl, h⟩)
      by_cases hopen : c = '('
      · have hchange : parenChange c = 1 := if_pos hopen
        rw [hchange] at htotal hrest
        -- What follows has to close this parenthesis as well.
        have hinside (front : List Char) (h : front <+: rest) :
            -((n + 1 : Nat) : Int) ≤ openParens front := by
          have := hrest front h
          omega
        obtain ⟨inside, others, hlength, hcs⟩ := ih (by omega) hinside
        cases others with
        | nil => cases hlength
        | cons after others =>
            refine ⟨.paren inside :: after, others, Nat.succ.inj hlength, ?_⟩
            rw [hcs, hopen]
            simp [Piece.charsAll, Piece.chars]
      · by_cases hclose : c = ')'
        · have hchange : parenChange c = -1 := by
            rw [hclose]
            rfl
          have hpos := hrest [] List.nil_prefix
          rw [hchange] at htotal hrest hpos
          cases n with
          | zero => cases hpos
          | succ n =>
              have hafter (front : List Char) (h : front <+: rest) :
                  -(n : Int) ≤ openParens front := by
                have := hrest front h
                omega
              obtain ⟨first, others, hlength, hcs⟩ := ih (by omega) hafter
              refine ⟨[], first :: others, congrArg Nat.succ hlength, ?_⟩
              rw [hcs, hclose]
              rfl
        · have hchange : parenChange c = 0 := by rw [parenChange, if_neg hopen, if_neg hclose]
          simp only [hchange, Int.zero_add] at htotal hrest
          obtain ⟨first, others, hlength, hcs⟩ := ih htotal hrest
          refine ⟨.plain c ⟨hopen, hclose⟩ :: first, others, hlength, ?_⟩
          rw [hcs]
          rfl

theorem Balanced.exists_pieces {cs : List Char} (h : Balanced cs) :
    ∃ ps, Piece.charsAll ps = cs := by
  obtain ⟨first, others, hlength, hcs⟩ :=
    exists_pieces_between (n := 0) h.total fun front hfront => h.prefixes front hfront
  rw [List.length_eq_zero_iff.1 hlength] at hcs
  exact ⟨first, by simpa using hcs.symm⟩

end Curriculum
