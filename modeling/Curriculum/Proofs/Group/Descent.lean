import Curriculum.Proofs.Group.Fits

/-!
# Recursive descent

Reading by recursive descent, a level is read to its end before the level around it goes on. The
reader keeps a stack of open levels in place of the recursion, and as far as its limit on nesting
reaches it gets through the same texts.
-/

namespace Curriculum

mutual

/-- Reads a piece of a level. -/
def Piece.descend (position : Nat) : Piece → Level → Except ParseError Level
  | .plain c _, l => l.read position c
  | .paren inside, l => do
    let around ← l.flush position
    if around.kind = some .credit then .error (.nestedCredit position)
    else
      let level ← Piece.descendAll (position + 1) inside .initial
      let level ← level.flush (position + 1 + (Piece.charsAll inside).length)
      let group ← level.finish
      return around.push (.group group)

def Piece.descendAll (position : Nat) : List Piece → Level → Except ParseError Level
  | [], l => .ok l
  | p :: rest, l => do
    let level ← p.descend position l
    Piece.descendAll (position + p.chars.length) rest level

end

variable {limit position : Nat} {l m : Level} {enclosing : List Level} {s s' : ParseState}
  {c : Char} {inside : List Piece} {cs : List Char}

namespace ParseState

theorem openLevel_eq_ok :
    openLevel limit position ⟨l, enclosing⟩ = .ok s ↔
      ∃ around, l.flush position = .ok around ∧ around.kind ≠ some .credit ∧
        enclosing.length < limit ∧ s = ⟨.initial, around :: enclosing⟩ := by
  unfold openLevel
  rw [bind_eq_ok]
  refine exists_congr fun around => and_congr_right fun _ => ?_
  by_cases hcredit : around.kind = some .credit
  · simp [hcredit]
  · by_cases hdeep : limit ≤ enclosing.length
    · simp [hcredit, hdeep, Nat.not_lt_of_le hdeep]
    · simp [hcredit, hdeep, Nat.lt_of_not_le hdeep, eq_comm]

theorem closeLevel_eq_ok :
    closeLevel position ⟨m, l :: enclosing⟩ = .ok s ↔
      ∃ level group, m.flush position = .ok level ∧ level.finish = .ok group ∧
        s = ⟨l.push (.group group), enclosing⟩ := by
  simp only [closeLevel, bind_eq_ok, pure_eq_ok, exists_and_left]
  simp only [Level.push, eq_comm]

theorem step_of_plain (h : c ≠ '(' ∧ c ≠ ')') :
    step limit position ⟨l, enclosing⟩ c = (l.read position c).map (⟨·, enclosing⟩) := by
  rw [step, if_neg h.1, if_neg h.2, Level.read]
  cases GroupKind.ofOperator? c with
  | some kind =>
      dsimp only
      cases l.setOperator c kind position with
      | error e => rfl
      | ok typed =>
          change (typed.flush position >>= fun m => .ok (ParseState.mk m enclosing)) =
            (typed.flush position).map fun m => ParseState.mk m enclosing
          cases typed.flush position <;> rfl
  | none =>
      dsimp only
      split <;> rfl

theorem step_plain (h : c ≠ '(' ∧ c ≠ ')') :
    step limit position ⟨l, enclosing⟩ c = .ok s ↔
      ∃ m, l.read position c = .ok m ∧ s = ⟨m, enclosing⟩ := by
  rw [step_of_plain h, map_eq_ok]
  simp only [eq_comm]

theorem run_cons_eq_ok {rest : List Char} :
    run limit position s (c :: rest) = .ok s' ↔
      ∃ next, s.step limit position c = .ok next ∧ next.run limit (position + 1) rest = .ok s' :=
  bind_eq_ok

end ParseState

theorem Piece.descend_paren_eq_ok :
    (paren inside).descend position l = .ok m ↔
      ∃ around level closed group, l.flush position = .ok around ∧ around.kind ≠ some .credit ∧
        descendAll (position + 1) inside .initial = .ok level ∧
        level.flush (position + 1 + (charsAll inside).length) = .ok closed ∧
        closed.finish = .ok group ∧ m = around.push (.group group) := by
  simp only [descend, bind_eq_ok]
  constructor
  · rintro ⟨around, hflush, h⟩
    split at h
    next => cases h
    next hkind =>
      simp only [bind_eq_ok, pure_eq_ok] at h
      obtain ⟨level, hlevel, closed, hclosed, group, hgroup, rfl⟩ := h
      exact ⟨around, level, closed, group, hflush, hkind, hlevel, hclosed, hgroup, rfl⟩
  · rintro ⟨around, level, closed, group, hflush, hkind, hlevel, hclosed, hgroup, rfl⟩
    refine ⟨around, hflush, ?_⟩
    rw [if_neg hkind]
    simp only [bind_eq_ok, pure_eq_ok]
    exact ⟨level, hlevel, closed, hclosed, group, hgroup, rfl⟩

mutual

/-- The reader gets through a piece exactly if it does not nest too deep and recursive descent does,
and it comes to the same level. -/
theorem Piece.run_chars : (p : Piece) → (position : Nat) → (l : Level) → (enclosing : List Level) →
    (rest : List Char) →
    ((ParseState.mk l enclosing).run limit position (p.chars ++ rest) = .ok s' ↔
      p.depth ≤ limit - enclosing.length ∧ ∃ m, p.descend position l = .ok m ∧
        (ParseState.mk m enclosing).run limit (position + p.chars.length) rest = .ok s')
  | .plain c h, position, l, enclosing, rest => by
      simp only [Piece.chars, List.singleton_append, ParseState.run_cons_eq_ok,
        ParseState.step_plain h, Piece.descend, Piece.depth, Nat.zero_le, true_and,
        List.length_singleton]
      constructor
      · rintro ⟨_, ⟨m, hread, rfl⟩, hrest⟩
        exact ⟨m, hread, hrest⟩
      · rintro ⟨m, hread, hrest⟩
        exact ⟨_, ⟨m, hread, rfl⟩, hrest⟩
  | .paren inside, position, l, enclosing, rest => by
      have hchars : (Piece.paren inside).chars ++ rest =
          '(' :: (Piece.charsAll inside ++ ')' :: rest) := by
        simp [Piece.chars]
      have hlength : position + (Piece.paren inside).chars.length =
          position + 1 + (Piece.charsAll inside).length + 1 := by
        simp [Piece.chars]
        omega
      have hopen (next : ParseState) :
          ParseState.step limit position ⟨l, enclosing⟩ '(' = .ok next ↔
            ParseState.openLevel limit position ⟨l, enclosing⟩ = .ok next :=
        Iff.rfl
      have hclose (position : Nat) (around level : Level) (next : ParseState) :
          ParseState.step limit position ⟨level, around :: enclosing⟩ ')' = .ok next ↔
            ParseState.closeLevel position ⟨level, around :: enclosing⟩ = .ok next :=
        Iff.rfl
      -- What stands inside is read with one more level on the stack, up to what closes it.
      rw [hchars, hlength, ParseState.run_cons_eq_ok, Piece.depth]
      simp only [hopen, ParseState.openLevel_eq_ok]
      constructor
      · rintro ⟨_, ⟨around, hflush, hkind, hdeep, rfl⟩, hrun⟩
        rw [Piece.run_charsAll inside] at hrun
        obtain ⟨hdepth, level, hlevel, hrest⟩ := hrun
        rw [ParseState.run_cons_eq_ok] at hrest
        obtain ⟨next, hstep, hrest⟩ := hrest
        rw [hclose, ParseState.closeLevel_eq_ok] at hstep
        obtain ⟨closed, group, hclosed, hgroup, rfl⟩ := hstep
        rw [List.length_cons] at hdepth
        refine ⟨by omega, _, ?_, hrest⟩
        rw [Piece.descend_paren_eq_ok]
        exact ⟨around, level, closed, group, hflush, hkind, hlevel, hclosed, hgroup, rfl⟩
      · rintro ⟨hdepth, m, hdescend, hrest⟩
        rw [Piece.descend_paren_eq_ok] at hdescend
        obtain ⟨around, level, closed, group, hflush, hkind, hlevel, hclosed, hgroup, rfl⟩ :=
          hdescend
        refine ⟨_, ⟨around, hflush, hkind, by omega, rfl⟩, ?_⟩
        rw [Piece.run_charsAll inside]
        refine ⟨?_, level, hlevel, ?_⟩
        · rw [List.length_cons]
          omega
        · rw [ParseState.run_cons_eq_ok]
          refine ⟨_, ?_, hrest⟩
          rw [hclose, ParseState.closeLevel_eq_ok]
          exact ⟨closed, group, hclosed, hgroup, rfl⟩

theorem Piece.run_charsAll : (ps : List Piece) → (position : Nat) → (l : Level) →
    (enclosing : List Level) → (rest : List Char) →
    ((ParseState.mk l enclosing).run limit position (Piece.charsAll ps ++ rest) = .ok s' ↔
      Piece.depthAll ps ≤ limit - enclosing.length ∧
        ∃ m, Piece.descendAll position ps l = .ok m ∧
          (ParseState.mk m enclosing).run limit (position + (Piece.charsAll ps).length) rest =
            .ok s')
  | [], position, l, enclosing, rest => by
      simp [Piece.charsAll, Piece.depthAll, Piece.descendAll]
  | p :: others, position, l, enclosing, rest => by
      rw [Piece.charsAll, List.append_assoc, Piece.run_chars p, Piece.depthAll, List.length_append,
        ← Nat.add_assoc, Nat.max_le, and_assoc]
      simp only [Piece.run_charsAll others, Piece.descendAll, bind_eq_ok]
      refine and_congr_right fun _ => ?_
      constructor
      · rintro ⟨m, hm, hdepth, last, hlast, hrest⟩
        exact ⟨hdepth, last, ⟨m, hm, hlast⟩, hrest⟩
      · rintro ⟨hdepth, last, ⟨m, hm, hlast⟩, hrest⟩
        exact ⟨m, hm, hdepth, last, hlast, hrest⟩

end

end Curriculum
