import Curriculum.Proofs.Group.Descent

/-!
# What is accepted

A text is read into a group exactly if something is written in it, its parentheses balance and do
not nest too deep, and each level is written as the grammar has it.
-/

namespace Curriculum

theorem Level.initial_fitsText {level : List Piece} :
    initial.FitsText level ↔ Piece.Grammatical level := by
  have hcredit : .credit ∈ initial.kind.toList ++ Piece.kinds level ↔
      '-' ∈ Piece.operators level :=
    Piece.credit_mem_kinds
  have hsame : SameKind (initial.kind.toList ++ Piece.kinds level) ↔
      ∀ a ∈ Piece.operators level, ∀ b ∈ Piece.operators level, a = b :=
    Piece.same_kinds_iff
  have hnil : initial.kind.toList ++ Piece.kinds level = [] ↔ Piece.operators level = [] :=
    Piece.kinds_eq_nil
  have hchunks : Piece.chunksFrom initial.pending level = Piece.chunks level :=
    Piece.chunksFrom_empty level
  have hrule : (∃ rule, CreditRule.ofChunks
        (initial.creditChunks ++ (Piece.chunks level).map inCapitals) = .ok rule) ↔
      ∃ rule, CreditRule.ofChunks ((Piece.chunks level).map String.ofList) = .ok rule :=
    exists_congr fun _ => CreditRule.ofChunks_inCapitals
  by_cases hdash : '-' ∈ Piece.operators level
  · rw [FitsText, fits_of_dash (hcredit.2 hdash), hsame, hchunks, hrule]
    constructor
    · rintro ⟨hsame, _, hrest⟩
      exact ⟨hsame, fun _ => hrest, fun hno => absurd hdash hno, fun hno => absurd hdash hno⟩
    · intro h
      exact ⟨h.sameOperator, Or.inr rfl, h.credit hdash⟩
  · rw [FitsText, fits_of_no_dash fun h => hdash (hcredit.1 h), hsame, hchunks]
    simp only [exists_extractFirst?_inCapitals, ne_eq, hnil]
    constructor
    · rintro ⟨hsame, hcourses, hoperands⟩
      refine ⟨hsame, fun hyes => absurd hyes hdash, fun _ => hcourses, fun _ hne => ?_⟩
      exact (hoperands hne).resolve_left fun h => h rfl
    · intro h
      exact ⟨h.sameOperator, h.courses hdash, fun hne => Or.inr (h.operands hdash hne)⟩

/-- A level can be read to its end exactly if it can be finished by its text and every level in it is
grammatical. -/
theorem Piece.descendAll_fits : (ps : List Piece) → (position last : Nat) → (l : Level) →
    ((∃ m, Piece.descendAll position ps l = .ok m ∧
        ∃ closed group, m.flush last = .ok closed ∧ closed.finish = .ok group) ↔
      l.FitsText ps ∧ ∀ level ∈ Piece.levelsAll ps, Piece.Grammatical level)
  | [], position, last, l => by
      simp only [Piece.descendAll, Except.ok.injEq, exists_eq_left', Piece.levelsAll]
      rw [Level.close_fits]
      simp
  | .plain c h :: rest, position, last, l => by
      have hlevels : Piece.levelsAll (.plain c h :: rest) = Piece.levelsAll rest := rfl
      rw [hlevels, ← Level.read_fits position]
      simp only [Piece.descendAll, bind_eq_ok, Piece.descend]
      constructor
      · rintro ⟨m, ⟨next, hread, hrest⟩, hclose⟩
        obtain ⟨hfits, hlevels⟩ := (Piece.descendAll_fits rest _ last next).1 ⟨m, hrest, hclose⟩
        exact ⟨⟨next, hread, hfits⟩, hlevels⟩
      · rintro ⟨⟨next, hread, hfits⟩, hlevels⟩
        obtain ⟨m, hrest, hclose⟩ := (Piece.descendAll_fits rest _ last next).2 ⟨hfits, hlevels⟩
        exact ⟨m, ⟨next, hread, hrest⟩, hclose⟩
  | .paren inside :: rest, position, last, l => by
      have hlevels : Piece.levelsAll (.paren inside :: rest) =
          inside :: (Piece.levelsAll inside ++ Piece.levelsAll rest) :=
        rfl
      have hinside := Piece.descendAll_fits inside (position + 1)
        (position + 1 + (Piece.charsAll inside).length) .initial
      rw [Level.initial_fitsText] at hinside
      rw [hlevels, List.forall_mem_cons, List.forall_mem_append]
      simp only [Piece.descendAll, bind_eq_ok, Piece.descend_paren_eq_ok]
      -- Which group the inner level gives makes no difference to what the outer one still asks for.
      constructor
      · rintro ⟨m, ⟨_, ⟨around, level, closed, group, hflush, hkind, hlevel, hclosed, hgroup, rfl⟩,
          hrest⟩, hclose⟩
        obtain ⟨hgrammatical, hlevels⟩ := hinside.1 ⟨level, hlevel, closed, group, hclosed, hgroup⟩
        obtain ⟨hfits, hothers⟩ := (Piece.descendAll_fits rest _ last _).1 ⟨m, hrest, hclose⟩
        refine ⟨?_, hgrammatical, hlevels, hothers⟩
        rw [← Level.open_fits (.group group) position]
        exact ⟨around, hflush, hkind, hfits⟩
      · rintro ⟨hfits, hgrammatical, hlevels, hothers⟩
        obtain ⟨level, hlevel, closed, group, hclosed, hgroup⟩ := hinside.2 ⟨hgrammatical, hlevels⟩
        rw [← Level.open_fits (.group group) position] at hfits
        obtain ⟨around, hflush, hkind, hfits⟩ := hfits
        obtain ⟨m, hrest, hclose⟩ := (Piece.descendAll_fits rest _ last _).2 ⟨hfits, hothers⟩
        exact ⟨m, ⟨_, ⟨around, level, closed, group, hflush, hkind, hlevel, hclosed, hgroup, rfl⟩,
          hrest⟩, hclose⟩

/-! ## Balance -/

namespace ParseState

variable {limit position : Nat} {s s' : ParseState} {c : Char} {cs : List Char}

theorem step_openParens (h : s.step limit position c = .ok s') :
    (s'.enclosing.length : Int) = s.enclosing.length + parenChange c := by
  obtain ⟨l, enclosing⟩ := s
  by_cases hopen : c = '('
  · subst hopen
    obtain ⟨around, _, _, _, rfl⟩ := openLevel_eq_ok.1 h
    exact Int.natCast_succ _
  by_cases hclose : c = ')'
  · subst hclose
    cases enclosing with
    | nil => cases h
    | cons parent others =>
        obtain ⟨_, _, _, _, rfl⟩ := closeLevel_eq_ok.1 h
        change (others.length : Int) = (others.length + 1 : Nat) + -1
        omega
  · obtain ⟨m, _, rfl⟩ := (step_plain ⟨hopen, hclose⟩).1 h
    rw [parenChange, if_neg hopen, if_neg hclose, Int.add_zero]

/-- As many levels are open as parentheses, all the way through a text that is read. -/
theorem run_openParens (h : s.run limit position cs = .ok s') :
    (s'.enclosing.length : Int) = s.enclosing.length + openParens cs ∧
      ∀ front, front <+: cs → 0 ≤ s.enclosing.length + openParens front := by
  induction cs generalizing s position with
  | nil =>
      cases h
      refine ⟨(Int.add_zero _).symm, fun front hfront => ?_⟩
      rw [List.prefix_nil.1 hfront, openParens, Int.add_zero]
      exact Int.natCast_nonneg _
  | cons c rest ih =>
      obtain ⟨next, hstep, hrest⟩ := run_cons_eq_ok.1 h
      obtain ⟨htotal, hprefixes⟩ := ih hrest
      have hnext := step_openParens hstep
      refine ⟨by rw [htotal, hnext, openParens, Int.add_assoc], fun front hfront => ?_⟩
      rcases List.prefix_cons_iff.1 hfront with rfl | ⟨front', rfl, hfront'⟩
      · rw [openParens, Int.add_zero]
        exact Int.natCast_nonneg _
      · rw [openParens, ← Int.add_assoc, ← hnext]
        exact hprefixes front' hfront'

end ParseState

namespace Group

variable {limit : Nat} {text : String} {g : Group}

theorem parse_eq_ok :
    parse limit text = .ok g ↔
      (∃ c ∈ text.toList, isSkipped c = false) ∧
        ∃ s, ParseState.initial.run limit 0 text.toList = .ok s ∧
          s.finish text.toList.length = .ok g := by
  have hblank : text.toList.all isSkipped = false ↔ ∃ c ∈ text.toList, isSkipped c = false := by
    simp
  rw [← hblank, parse, ← bind_eq_ok]
  cases text.toList.all isSkipped with
  | true => simp
  | false => simp

/-- Only a text with balanced parentheses is read to its end. -/
theorem balanced_of_parse (h : parse limit text = .ok g) : Balanced text.toList := by
  obtain ⟨_, ⟨l, enclosing⟩, hrun, hfinish⟩ := parse_eq_ok.1 h
  obtain ⟨htotal, hprefixes⟩ := ParseState.run_openParens hrun
  simp only [ParseState.initial, List.length_nil, Int.natCast_zero, Int.zero_add]
    at htotal hprefixes
  cases enclosing with
  | nil => exact ⟨htotal.symm, hprefixes⟩
  | cons parent others => cases hfinish

/-- Text that falls into pieces is read by recursive descent. -/
theorem parse_pieces_eq_ok {ps : List Piece} (hps : Piece.charsAll ps = text.toList) :
    parse limit text = .ok g ↔
      (∃ c ∈ text.toList, isSkipped c = false) ∧ Piece.depthAll ps ≤ limit ∧
        ∃ m closed, Piece.descendAll 0 ps .initial = .ok m ∧
          m.flush text.toList.length = .ok closed ∧ closed.finish = .ok g := by
  have hrun (s : ParseState) :
      ParseState.initial.run limit 0 text.toList = .ok s ↔
        Piece.depthAll ps ≤ limit ∧
          ∃ m, Piece.descendAll 0 ps .initial = .ok m ∧ s = ⟨m, []⟩ := by
    have hall : ParseState.initial.run limit 0 (Piece.charsAll ps ++ []) = .ok s ↔ _ :=
      Piece.run_charsAll ps 0 .initial [] []
    rw [List.append_nil, hps] at hall
    simpa [ParseState.run, eq_comm] using hall
  simp only [parse_eq_ok, hrun]
  refine and_congr_right fun _ => ?_
  constructor
  · rintro ⟨_, ⟨hdepth, m, hm, rfl⟩, hfinish⟩
    obtain ⟨closed, hclosed, hgroup⟩ := bind_eq_ok.1 hfinish
    exact ⟨hdepth, m, closed, hm, hclosed, hgroup⟩
  · rintro ⟨hdepth, m, closed, hm, hclosed, hgroup⟩
    exact ⟨_, ⟨hdepth, m, hm, rfl⟩, bind_eq_ok.2 ⟨closed, hclosed, hgroup⟩⟩

theorem exists_parse_pieces {ps : List Piece} (hps : Piece.charsAll ps = text.toList) :
    (∃ g, parse limit text = .ok g) ↔
      (∃ c ∈ text.toList, isSkipped c = false) ∧ Piece.depthAll ps ≤ limit ∧
        ∀ level ∈ ps :: Piece.levelsAll ps, Piece.Grammatical level := by
  have hfits := Piece.descendAll_fits ps 0 text.toList.length .initial
  rw [Level.initial_fitsText] at hfits
  rw [List.forall_mem_cons, ← hfits]
  simp only [parse_pieces_eq_ok hps, exists_and_left]
  refine and_congr_right fun _ => and_congr_right fun _ => ?_
  constructor
  · rintro ⟨g, m, hm, closed, hclosed, hgroup⟩
    exact ⟨m, hm, closed, hclosed, g, hgroup⟩
  · rintro ⟨m, hm, closed, hclosed, g, hgroup⟩
    exact ⟨g, m, hm, closed, hclosed, hgroup⟩

end Group

/-- One of the levels of a text. -/
def IsLevelOf (level : List Piece) (cs : List Char) : Prop :=
  ∃ ps, Piece.charsAll ps = cs ∧ level ∈ ps :: Piece.levelsAll ps

/-- A text is accepted exactly if it has a character that is not skipped, its parentheses balance and
nest no deeper than allowed, and all of its levels are grammatical. -/
theorem Group.exists_parse_iff (limit : Nat) (text : String) :
    (∃ g, parse limit text = .ok g) ↔
      (∃ c ∈ text.toList, isSkipped c = false) ∧
        Balanced text.toList ∧ parenDepth text.toList ≤ limit ∧
        ∀ level, IsLevelOf level text.toList → Piece.Grammatical level := by
  have hdepth {ps : List Piece} (hps : Piece.charsAll ps = text.toList) :
      parenDepth text.toList ≤ limit ↔ Piece.depthAll ps ≤ limit := by
    rw [← hps, Piece.parenDepth_charsAll, Int.ofNat_le]
  constructor
  · rintro ⟨g, hparse⟩
    have hbalanced := balanced_of_parse hparse
    obtain ⟨ps, hps⟩ := hbalanced.exists_pieces
    obtain ⟨hwritten, hlimit, _⟩ := (exists_parse_pieces hps).1 ⟨g, hparse⟩
    refine ⟨hwritten, hbalanced, (hdepth hps).2 hlimit, ?_⟩
    rintro level ⟨ps', hps', hlevel⟩
    exact ((exists_parse_pieces hps').1 ⟨g, hparse⟩).2.2 level hlevel
  · rintro ⟨hwritten, hbalanced, hlimit, hlevels⟩
    obtain ⟨ps, hps⟩ := hbalanced.exists_pieces
    rw [exists_parse_pieces hps]
    exact ⟨hwritten, (hdepth hps).1 hlimit, fun level hlevel => hlevels level ⟨ps, hps, hlevel⟩⟩

end Curriculum
