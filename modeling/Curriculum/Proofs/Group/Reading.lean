import Curriculum.Group.Parser
import Curriculum.Proofs.Course.Written
import Curriculum.Proofs.Group.CreditChunks

/-!
# Reading stretches of text

A stretch of text takes the reader from one state to another, wherever it stands and whatever
follows. The stretches for words, operators and parentheses make up those for groups.
-/

namespace Curriculum

namespace IsWordChar

variable {c : Char}

theorem ofOperator? (h : IsWordChar c) : GroupKind.ofOperator? c = none := by
  unfold GroupKind.ofOperator?
  split
  next => exact absurd rfl (h.ne (by decide))
  next => exact absurd rfl (h.ne (by decide))
  next => exact absurd rfl (h.ne (by decide))
  next => exact absurd rfl (h.ne (by decide))
  next => rfl

theorem not_isSkipped (h : IsWordChar c) : isSkipped c = false := by
  simp only [isSkipped, Bool.or_eq_false_iff, beq_eq_false_iff_ne]
  exact ⟨⟨⟨⟨⟨h.ne (by decide), h.ne (by decide)⟩, h.ne (by decide)⟩, h.ne (by decide)⟩,
    h.ne (by decide)⟩, h.ne (by decide)⟩

end IsWordChar

/-! ## Levels -/

/-- The node is a group, or a course that is found in prose. -/
def Node.Found : Node → Prop
  | .course id => id.subject.Legible
  | .group _ => True

namespace Level

variable {l : Level} {n : Node} {kind : GroupKind}

/-- No chunk is pending, and the level holds nodes. -/
structure Ready (l : Level) : Prop where
  pending : l.pending = []
  kind : l.kind ≠ some .credit

def push (l : Level) (n : Node) : Level := { l with children := l.children ++ [n] }

def typed (l : Level) (kind : GroupKind) : Level := { l with kind := some kind }

/-- The level after the text of a node. A group is a child already, while a course is pending. -/
def take (l : Level) : Node → Level
  | .course id => { l with pending := id.packed }
  | .group g => l.push (.group g)

theorem ready_initial : initial.Ready := ⟨rfl, nofun⟩

theorem Ready.push (h : l.Ready) (n : Node) : (l.push n).Ready := ⟨h.pending, h.kind⟩

theorem Ready.typed (h : l.Ready) (hkind : kind ≠ .credit) : (l.typed kind).Ready :=
  ⟨h.pending, fun heq => hkind (Option.some.inj heq)⟩

theorem Ready.flush (h : l.Ready) (position : Nat) : l.flush position = .ok l :=
  if_pos h.pending

theorem flush_take (h : l.Ready) (hn : n.Found) (position : Nat) :
    (l.take n).flush position = .ok (l.push n) := by
  cases n with
  | group g => exact (h.push (.group g)).flush position
  | course id =>
      have hne : id.packed ≠ [] := by
        obtain ⟨a, b, c, d, hchars, _⟩ := id.subject.exists_chars
        rw [CourseId.packed, hchars]
        exact List.cons_ne_nil _ _
      have hpending := h.pending
      simp only [take, Level.flush, if_neg hne, if_neg h.kind,
        IsWordChar.map_toUpper id.isWordChar_packed, extractFirst?_packed hn]
      obtain ⟨kind, children, chunks, pending⟩ := l
      cases hpending
      rfl

/-- The level ends as a group, wherever it ends. -/
def Ends (l : Level) (g : Group) : Prop :=
  ∀ position, ∃ done, l.flush position = .ok done ∧ done.finish = .ok g

theorem setOperator_of_typed {op : Char} (hkind : kind ≠ .credit)
    (h : l.kind = none ∨ l.kind = some kind) (position : Nat) :
    l.setOperator op kind position = .ok (l.typed kind) := by
  unfold setOperator
  rcases h with h | h
  · simp only [h, hkind, false_and, if_false]
    rfl
  · simp only [h, if_true]
    obtain ⟨kind, children, chunks, pending⟩ := l
    cases h
    rfl

theorem take_typed (n : Node) : (l.take n).typed kind = (l.typed kind).take n := by
  cases n <;> rfl

end Level

/-! ## Stretches -/

namespace ParseState

variable {limit : Nat} {s s' s'' : ParseState} {l : Level} {enclosing : List Level}
  {cs ds : List Char} {c : Char} {n : Node} {g : Group} {kind : GroupKind}

/-- Reading the text takes one state to the other. -/
def Reads (limit : Nat) (s : ParseState) (cs : List Char) (s' : ParseState) : Prop :=
  ∀ position rest, s.run limit position (cs ++ rest) = s'.run limit (position + cs.length) rest

namespace Reads

theorem nil : Reads limit s [] s :=
  fun _ _ => rfl

theorem append (h : Reads limit s cs s') (h' : Reads limit s' ds s'') :
    Reads limit s (cs ++ ds) s'' := by
  intro position rest
  rw [List.append_assoc, h, h', List.length_append, Nat.add_assoc]

theorem of_step (h : ∀ position, s.step limit position c = .ok s') : Reads limit s [c] s' := by
  intro position rest
  rw [List.singleton_append, run, h]
  rfl

theorem cons (h : ∀ position, s.step limit position c = .ok s') (h' : Reads limit s' cs s'') :
    Reads limit s (c :: cs) s'' :=
  (of_step h).append h'

end Reads

theorem step_word (h : IsWordChar c) (position : Nat) :
    step limit position ⟨l, enclosing⟩ c =
      .ok ⟨{ l with pending := l.pending ++ [c] }, enclosing⟩ := by
  simp only [step, if_neg (h.ne (d := '(') (by decide)), if_neg (h.ne (d := ')') (by decide)),
    h.ofOperator?, h.not_isSkipped, Bool.false_eq_true, if_false]

theorem step_blank (position : Nat) : step limit position s ' ' = .ok s :=
  rfl

theorem reads_word (h : ∀ c ∈ cs, IsWordChar c) :
    Reads limit ⟨l, enclosing⟩ cs ⟨{ l with pending := l.pending ++ cs }, enclosing⟩ := by
  induction cs generalizing l with
  | nil =>
      rw [List.append_nil]
      exact Reads.nil
  | cons c rest ih =>
      rw [List.forall_mem_cons] at h
      have hrest := ih (l := { l with pending := l.pending ++ [c] }) h.2
      rw [List.append_assoc] at hrest
      exact Reads.cons (step_word h.1) hrest

/-- An operator ends the node before it and types the level. -/
theorem reads_operator (hkind : kind ≠ .credit) (hop : GroupKind.ofOperator? c = some kind)
    (hl : l.Ready) (htype : l.kind = none ∨ l.kind = some kind) (hn : n.Found) :
    Reads limit ⟨l.take n, enclosing⟩ [c] ⟨(l.typed kind).push n, enclosing⟩ := by
  refine Reads.of_step fun position => ?_
  have hopen : c ≠ '(' := by
    rintro rfl
    cases hop
  have hclose : c ≠ ')' := by
    rintro rfl
    cases hop
  have htype' : (l.take n).kind = none ∨ (l.take n).kind = some kind := by
    cases n <;> exact htype
  simp only [step, if_neg hopen, if_neg hclose, hop, Level.setOperator_of_typed hkind htype',
    Level.take_typed, bind, Except.bind, Level.flush_take (hl.typed hkind) hn]
  rfl

/-- A level in parentheses becomes a child of the level around it. -/
theorem reads_paren {level : Level} (hl : l.Ready) (hdepth : enclosing.length < limit)
    (hinner : Reads limit ⟨.initial, l :: enclosing⟩ cs ⟨level, l :: enclosing⟩)
    (hends : level.Ends g) :
    Reads limit ⟨l, enclosing⟩ ('(' :: cs ++ [')']) ⟨l.push (.group g), enclosing⟩ := by
  -- Nothing is pending in the level around, so opening another one leaves it as it is.
  have hopen (position : Nat) :
      step limit position ⟨l, enclosing⟩ '(' = .ok ⟨.initial, l :: enclosing⟩ := by
    simp only [step, if_true, openLevel, hl.flush, bind, Except.bind, if_neg hl.kind,
      if_neg (Nat.not_le_of_lt hdepth)]
  have hclose (position : Nat) :
      step limit position ⟨level, l :: enclosing⟩ ')' = .ok ⟨l.push (.group g), enclosing⟩ := by
    obtain ⟨done, hflush, hfinish⟩ := hends position
    change closeLevel position ⟨level, l :: enclosing⟩ = _
    simp only [closeLevel, bind, Except.bind, hflush, hfinish]
    rfl
  exact Reads.cons hopen (hinner.append (Reads.of_step hclose))

end ParseState

end Curriculum
