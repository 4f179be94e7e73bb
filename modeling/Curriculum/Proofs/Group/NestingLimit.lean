import Curriculum.Proofs.Group.Faults

/-!
# The limit on nesting

The limit is only a gate. A text is read as it would be without one, unless a parenthesis opens a
level beyond the limit, and then reading stops at that parenthesis.
-/

namespace Curriculum

variable {limit position level : Nat} {c : Char} {cs rest : List Char} {e : ParseError}

/-! ## Reading without a limit -/

namespace ParseState

/-- Opens a level, however many are open. -/
def openUnlimited (position : Nat) (s : ParseState) : Except ParseError ParseState := do
  let level ← s.current.flush position
  if level.kind = some .credit then .error (.nestedCredit position)
  else return ⟨.initial, level :: s.enclosing⟩

def stepUnlimited (position : Nat) (s : ParseState) (c : Char) : Except ParseError ParseState :=
  if c = '(' then s.openUnlimited position
  else if c = ')' then s.closeLevel position
  else (s.current.read position c).map (⟨·, s.enclosing⟩)

def runUnlimited (position : Nat) (s : ParseState) : List Char → Except ParseError ParseState
  | [] => .ok s
  | c :: rest => do
    let next ← s.stepUnlimited position c
    next.runUnlimited (position + 1) rest

/-- Reading without a limit comes to a parenthesis that opens the level before it stops. -/
def Opens (level position : Nat) (s : ParseState) (cs : List Char) : Prop :=
  ∃ front rest next, cs = front ++ '(' :: rest ∧
    s.runUnlimited position (front ++ ['(']) = .ok next ∧ next.enclosing.length = level

end ParseState

/-- Reads requisite text whose parentheses may nest as deep as they like. -/
def Group.parseUnlimited (text : String) : Except ParseError Group :=
  let cs := text.toList
  if cs.all isSkipped then .error .empty
  else do
    let state ← ParseState.initial.runUnlimited 0 cs
    state.finish cs.length

/-! ## Faults that are not about the limit -/

namespace Level

variable {l : Level} {kind : GroupKind}

theorem limit?_of_flush (h : l.flush position = .error e) : e.limit? = none := by
  obtain ⟨_, _, rfl⟩ := flush_eq_error h
  rfl

theorem limit?_of_read (h : l.read position c = .error e) : e.limit? = none := by
  unfold read at h
  split at h
  next kind hop =>
    rcases bind_eq_error.1 h with hset | ⟨typed, _, hflush⟩
    · rcases setOperator_eq_error hset with ⟨_, _, _, rfl⟩ | ⟨_, _, _, rfl⟩ <;> rfl
    · exact limit?_of_flush hflush
  next => split at h <;> cases h

end Level

namespace ParseState

variable {s next : ParseState}

theorem limit?_of_closeLevel (h : s.closeLevel position = .error e) : e.limit? = none := by
  unfold closeLevel at h
  split at h
  next =>
    cases h
    rfl
  next =>
    rcases bind_eq_error.1 h with hflush | ⟨level, _, h⟩
    · exact Level.limit?_of_flush hflush
    rcases bind_eq_error.1 h with hfinish | ⟨group, _, h⟩
    · exact (Level.finish_eq_error hfinish).2
    · cases h

theorem limit?_of_stepUnlimited (h : s.stepUnlimited position c = .error e) : e.limit? = none := by
  unfold stepUnlimited at h
  split at h
  next =>
    rcases bind_eq_error.1 h with hflush | ⟨level, _, h⟩
    · exact Level.limit?_of_flush hflush
    · split at h <;> cases h
      rfl
  next =>
    split at h
    · exact limit?_of_closeLevel h
    · exact Level.limit?_of_read (map_eq_error.1 h)

theorem limit?_of_finish (h : s.finish position = .error e) : e.limit? = none := by
  unfold finish at h
  split at h
  next =>
    rcases bind_eq_error.1 h with hflush | ⟨level, _, hfinish⟩
    · exact Level.limit?_of_flush hflush
    · exact (Level.finish_eq_error hfinish).2
  next =>
    cases h
    rfl

/-! ## The gate -/

/-- Lets a state through whose levels nest no deeper than the limit. -/
def gate (limit : Nat) (s : ParseState) : Except ParseError ParseState :=
  if limit < s.enclosing.length then .error (.tooDeep limit) else .ok s

/-- Only a parenthesis opens a level, and it opens one. -/
theorem enclosing_of_stepUnlimited (h : s.stepUnlimited position c = .ok next) :
    c = '(' ∧ next.enclosing.length = s.enclosing.length + 1 ∨
      c ≠ '(' ∧ next.enclosing.length ≤ s.enclosing.length := by
  unfold stepUnlimited at h
  split at h
  next hopen =>
    obtain ⟨level, _, h⟩ := bind_eq_ok.1 h
    split at h <;> cases h
    exact Or.inl ⟨hopen, rfl⟩
  next hopen =>
    refine Or.inr ⟨hopen, ?_⟩
    split at h
    · obtain ⟨l, enclosing⟩ := s
      cases enclosing with
      | nil => cases h
      | cons parent others =>
          obtain ⟨_, _, _, _, rfl⟩ := closeLevel_eq_ok.1 h
          exact Nat.le_succ _
    · obtain ⟨_, _, rfl⟩ := map_eq_ok.1 h
      exact Nat.le_refl _

/-- A step that reaches a level opens just that one. -/
theorem enclosing_of_reached (h : s.stepUnlimited position c = .ok next)
    (hbefore : s.enclosing.length < level) (hafter : level ≤ next.enclosing.length) :
    c = '(' ∧ next.enclosing.length = level := by
  rcases enclosing_of_stepUnlimited h with ⟨hopen, hlength⟩ | ⟨_, hlength⟩
  · exact ⟨hopen, by omega⟩
  · omega

theorem openLevel_eq_gate :
    s.openLevel limit position = s.openUnlimited position >>= gate limit := by
  unfold openLevel openUnlimited
  cases s.current.flush position with
  | error e => rfl
  | ok level =>
      change (if level.kind = some .credit then _ else _) =
        (if level.kind = some .credit then _ else _) >>= gate limit
      split
      · rfl
      · change _ = gate limit ⟨.initial, level :: s.enclosing⟩
        unfold gate
        rw [List.length_cons]
        simp only [Nat.lt_succ_iff]

/-- A step reads on without a limit and then passes the gate. -/
theorem step_eq_gate (h : s.enclosing.length ≤ limit) :
    s.step limit position c = s.stepUnlimited position c >>= gate limit := by
  by_cases hopen : c = '('
  · subst hopen
    exact openLevel_eq_gate
  have hsame : s.step limit position c = s.stepUnlimited position c := by
    by_cases hclose : c = ')'
    · subst hclose
      rfl
    · rw [step_of_plain ⟨hopen, hclose⟩, stepUnlimited, if_neg hopen, if_neg hclose]
  rw [hsame]
  cases hstep : s.stepUnlimited position c with
  | error e => rfl
  | ok next =>
      rcases enclosing_of_stepUnlimited hstep with ⟨hyes, _⟩ | ⟨_, hle⟩
      · exact absurd hyes hopen
      · exact (if_neg (Nat.not_lt_of_le (hle.trans h))).symm

theorem run_of_error (h : s.enclosing.length ≤ limit)
    (hstep : s.stepUnlimited position c = .error e) :
    s.run limit position (c :: rest) = .error e := by
  rw [run, step_eq_gate h, hstep]
  rfl

theorem run_of_deep (h : s.enclosing.length ≤ limit)
    (hstep : s.stepUnlimited position c = .ok next) (hdeep : limit < next.enclosing.length) :
    s.run limit position (c :: rest) = .error (.tooDeep limit) := by
  have hgate : gate limit next = .error (.tooDeep limit) := if_pos hdeep
  rw [run, step_eq_gate h, hstep]
  change (gate limit next >>= _) = _
  rw [hgate]
  rfl

theorem run_of_not_deep (h : s.enclosing.length ≤ limit)
    (hstep : s.stepUnlimited position c = .ok next) (hdeep : ¬limit < next.enclosing.length) :
    s.run limit position (c :: rest) = next.run limit (position + 1) rest := by
  have hgate : gate limit next = .ok next := if_neg hdeep
  rw [run, step_eq_gate h, hstep]
  change (gate limit next >>= _) = _
  rw [hgate]
  rfl

/-! ## Levels that are opened -/

theorem runUnlimited_cons_eq_ok {last : ParseState} :
    s.runUnlimited position (c :: rest) = .ok last ↔
      ∃ next, s.stepUnlimited position c = .ok next ∧
        next.runUnlimited (position + 1) rest = .ok last :=
  bind_eq_ok

/-- The parenthesis stands first, or it stands after a character that is read. -/
theorem opens_cons :
    s.Opens level position (c :: rest) ↔
      ∃ next, s.stepUnlimited position c = .ok next ∧
        (c = '(' ∧ next.enclosing.length = level ∨ next.Opens level (position + 1) rest) := by
  constructor
  · rintro ⟨front, after, last, hchars, hrun, hlevel⟩
    cases front with
    | nil =>
        obtain ⟨rfl, _⟩ := List.cons.inj hchars
        obtain ⟨next, hstep, hnil⟩ := runUnlimited_cons_eq_ok.1 hrun
        cases hnil
        exact ⟨_, hstep, Or.inl ⟨rfl, hlevel⟩⟩
    | cons d front =>
        obtain ⟨rfl, rfl⟩ := List.cons.inj hchars
        obtain ⟨next, hstep, hrun⟩ := runUnlimited_cons_eq_ok.1 hrun
        exact ⟨next, hstep, Or.inr ⟨front, after, last, rfl, hrun, hlevel⟩⟩
  · rintro ⟨next, hstep, ⟨rfl, hlevel⟩ | ⟨front, after, last, rfl, hrun, hlevel⟩⟩
    · exact ⟨[], rest, next, rfl, runUnlimited_cons_eq_ok.2 ⟨next, hstep, rfl⟩, hlevel⟩
    · exact ⟨c :: front, after, last, rfl, runUnlimited_cons_eq_ok.2 ⟨next, hstep, hrun⟩, hlevel⟩

theorem not_opens_nil : ¬s.Opens level position [] := by
  rintro ⟨front, after, _, hchars, _⟩
  cases front <;> cases hchars

/-- Before a level is opened, each one around it is. -/
theorem Opens.of_le {deeper : Nat} (h : s.Opens deeper position cs)
    (hlevel : s.enclosing.length < level) (hle : level ≤ deeper) : s.Opens level position cs := by
  induction cs generalizing s position with
  | nil => exact absurd h not_opens_nil
  | cons c rest ih =>
      obtain ⟨next, hstep, hopens⟩ := opens_cons.1 h
      refine opens_cons.2 ⟨next, hstep, ?_⟩
      by_cases hreached : level ≤ next.enclosing.length
      · exact Or.inl (enclosing_of_reached hstep hlevel hreached)
      · have hlater := hopens.resolve_left fun hfirst => by omega
        exact Or.inr (ih hlater (Nat.lt_of_not_le hreached))

/-- Reading with a limit stops there exactly if reading without one comes to a level beyond it. -/
theorem run_eq_tooDeep_iff (h : s.enclosing.length ≤ limit) :
    s.run limit position cs = .error (.tooDeep limit) ↔ s.Opens (limit + 1) position cs := by
  induction cs generalizing s position with
  | nil => exact iff_of_false nofun not_opens_nil
  | cons c rest ih =>
      rw [opens_cons]
      cases hstep : s.stepUnlimited position c with
      | error e =>
          rw [run_of_error h hstep]
          refine iff_of_false (fun herror => ?_) nofun
          cases herror
          cases limit?_of_stepUnlimited hstep
      | ok next =>
          by_cases hdeep : limit < next.enclosing.length
          · have hreached := enclosing_of_reached hstep (Nat.lt_succ_of_le h) hdeep
            exact iff_of_true (run_of_deep h hstep hdeep) ⟨next, rfl, Or.inl hreached⟩
          · rw [run_of_not_deep h hstep hdeep, ih (Nat.le_of_not_lt hdeep)]
            constructor
            · intro hopens
              exact ⟨next, rfl, Or.inr hopens⟩
            · rintro ⟨_, ⟨⟩, ⟨_, hlength⟩ | hopens⟩
              · exact absurd (Nat.lt_of_succ_le hlength.ge) hdeep
              · exact hopens

/-- Where the gate lets everything through, the limit plays no part. -/
theorem run_eq_runUnlimited (h : s.enclosing.length ≤ limit)
    (hopens : ¬s.Opens (limit + 1) position cs) :
    s.run limit position cs = s.runUnlimited position cs := by
  induction cs generalizing s position with
  | nil => rfl
  | cons c rest ih =>
      rw [opens_cons] at hopens
      rw [runUnlimited]
      cases hstep : s.stepUnlimited position c with
      | error e => exact run_of_error h hstep
      | ok next =>
          have hdeep : ¬limit < next.enclosing.length := by
            intro hdeep
            exact hopens ⟨next, hstep,
              Or.inl (enclosing_of_reached hstep (Nat.lt_succ_of_le h) hdeep)⟩
          rw [run_of_not_deep h hstep hdeep]
          exact ih (Nat.le_of_not_lt hdeep) fun hrest => hopens ⟨next, hstep, Or.inr hrest⟩

end ParseState

/-! ## Whole texts -/

namespace Group

variable {text : String}

theorem parse_eq_tooDeep_iff :
    parse limit text = .error (.tooDeep limit) ↔
      ParseState.initial.Opens (limit + 1) 0 text.toList := by
  rw [← ParseState.run_eq_tooDeep_iff (Nat.zero_le limit), parse]
  split
  next hblank =>
    refine iff_of_false nofun ?_
    rw [ParseState.run_eq_tooDeep_iff (Nat.zero_le limit)]
    rintro ⟨front, rest, _, hchars, _⟩
    rw [hchars] at hblank
    simp [isSkipped] at hblank
  next =>
    rw [bind_eq_error]
    refine or_iff_left ?_
    rintro ⟨s, _, hfinish⟩
    cases ParseState.limit?_of_finish hfinish

theorem parse_eq_parseUnlimited
    (h : ¬ParseState.initial.Opens (limit + 1) 0 text.toList) :
    parse limit text = parseUnlimited text := by
  rw [parse, parseUnlimited, ParseState.run_eq_runUnlimited (Nat.zero_le limit) h]

/-- Reading with a limit stops there exactly if reading without one comes to a parenthesis that
opens the next level. Otherwise it gives what reading without a limit gives, and what every greater
limit gives. -/
theorem parse_gated (limit : Nat) (text : String) :
    (∀ limit', limit ≤ limit' → parse limit text ≠ .error (.tooDeep limit) →
      parse limit' text = parse limit text) ∧
    (parse limit text = .error (.tooDeep limit) ↔
      ParseState.initial.Opens (limit + 1) 0 text.toList) ∧
    (parse limit text ≠ .error (.tooDeep limit) → parse limit text = parseUnlimited text) := by
  have hfree (limit : Nat) (h : parse limit text ≠ .error (.tooDeep limit)) :
      parse limit text = parseUnlimited text :=
    parse_eq_parseUnlimited fun hopens => h (parse_eq_tooDeep_iff.2 hopens)
  refine ⟨fun limit' hle h => ?_, parse_eq_tooDeep_iff, hfree limit⟩
  rw [hfree limit h]
  refine parse_eq_parseUnlimited fun hopens => h (parse_eq_tooDeep_iff.2 ?_)
  exact hopens.of_le (Nat.succ_pos limit) (Nat.succ_le_succ hle)

/-- A chunk that names no course is found before the parentheses after it are looked at, whatever
the limit. The third parenthesis of the other text opens the third level. -/
theorem parse_gated_threeDeep :
    (∀ limit, parse limit "permission + ((COMP 250))" =
      .error (.unresolvedCourse "permission" 11)) ∧
    parse 2 "(((COMP 250)))" = .error (.tooDeep 2) ∧
      ParseState.initial.Opens 3 0 "(((COMP 250)))".toList := by
  have hfault : parse 0 "permission + ((COMP 250))" =
      .error (.unresolvedCourse "permission" 11) := by
    decide +kernel
  have hdeep : parse 2 "(((COMP 250)))" = .error (.tooDeep 2) := by decide +kernel
  refine ⟨fun limit => ?_, hdeep, (parse_gated 2 "(((COMP 250)))").2.1.1 hdeep⟩
  rw [← hfault]
  refine (parse_gated 0 "permission + ((COMP 250))").1 limit (Nat.zero_le limit) ?_
  rw [hfault]
  exact nofun

end Group

end Curriculum
