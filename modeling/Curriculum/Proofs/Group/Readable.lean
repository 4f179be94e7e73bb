import Curriculum.Proofs.Group.Legible
import Curriculum.Proofs.Group.Normal
import Curriculum.Proofs.Group.Reading

/-!
# Stretches that are groups

Wherever the text of a legible node stands between operators, it reads as the simplified node. The
text of a legible group fills a level of its own.
-/

namespace Curriculum

open ParseState (Reads)

/-- The text keeps the limit inside the levels that are open around it. -/
def HasRoom (limit : Nat) (enclosing : List Level) (cs : List Char) : Prop :=
  (enclosing.length : Int) + parenDepth cs ≤ limit

namespace HasRoom

variable {limit : Nat} {enclosing : List Level} {cs ds : List Char}

theorem append (h : HasRoom limit enclosing (cs ++ ds)) (hopen : openParens cs = 0) :
    HasRoom limit enclosing cs ∧ HasRoom limit enclosing ds := by
  unfold HasRoom at h ⊢
  rw [parenDepth_append, hopen] at h
  omega

theorem paren (h : HasRoom limit enclosing ('(' :: cs ++ [')'])) (hopen : openParens cs = 0)
    (l : Level) : enclosing.length < limit ∧ HasRoom limit (l :: enclosing) cs := by
  have hpos := parenDepth_nonneg cs
  unfold HasRoom at h ⊢
  rw [parenDepth_paren hopen] at h
  rw [List.length_cons]
  omega

end HasRoom

/-- The text of the node reads as the simplified node. -/
def Node.Readable (n : Node) : Prop :=
  ∀ (limit : Nat) (enclosing : List Level) (l : Level), l.Ready → HasRoom limit enclosing n.chars →
    Reads limit ⟨l, enclosing⟩ n.chars ⟨l.take n.simplify, enclosing⟩

/-- The text of the group fills a level that ends as the simplified group. -/
def Group.Readable (g : Group) : Prop :=
  ∀ (limit : Nat) (enclosing : List Level), HasRoom limit enclosing g.chars →
    ∃ level : Level, Reads limit ⟨.initial, enclosing⟩ g.chars ⟨level, enclosing⟩ ∧
      level.Ends g.simplify

/-! ## Nodes -/

theorem CourseId.reads_chars (id : CourseId) {limit : Nat} {enclosing : List Level} {l : Level}
    (hl : l.Ready) :
    Reads limit ⟨l, enclosing⟩ id.chars ⟨l.take (.course id), enclosing⟩ := by
  have hword := id.isWordChar_packed
  rw [packed, List.forall_mem_append] at hword
  have hsubject : Reads limit ⟨l, enclosing⟩ id.subject.chars
      ⟨{ l with pending := l.pending ++ id.subject.chars }, enclosing⟩ :=
    ParseState.reads_word hword.1
  have hread := hsubject.append
    (Reads.cons ParseState.step_blank (ParseState.reads_word hword.2))
  dsimp only at hread
  rw [hl.pending, List.nil_append] at hread
  exact hread

theorem Node.readable_course (id : CourseId) : (Node.course id).Readable := by
  intro limit enclosing l hl _
  rw [Node.chars, Node.simplify]
  exact id.reads_chars hl

theorem Level.ends_initial : initial.Ends .empty := by
  intro position
  refine ⟨initial, ready_initial.flush position, ?_⟩
  rfl

theorem Node.readable_group {g : Group} (hg : g.Legible) (h : g.Readable) :
    (Node.group g).Readable := by
  intro limit enclosing l hl hroom
  rw [Node.simplify]
  by_cases hempty : g = .empty
  · subst hempty
    rw [Node.chars] at hroom ⊢
    change HasRoom limit enclosing ('(' :: [] ++ [')']) at hroom
    have hdepth := (hroom.paren rfl l).1
    rw [Group.simplify]
    exact ParseState.reads_paren hl hdepth Reads.nil Level.ends_initial
  · rw [Node.chars_group hempty] at hroom ⊢
    obtain ⟨hdepth, hinner⟩ := hroom.paren (g.openParens_chars hg) l
    obtain ⟨level, hreads, hends⟩ := h limit (l :: enclosing) hinner
    exact ParseState.reads_paren hl hdepth hreads hends

/-! ## Levels that are filled -/

namespace Level

variable {l : Level} {nodes : List Node}

def pushAll (l : Level) (nodes : List Node) : Level := { l with children := l.children ++ nodes }

theorem pushAll_nil : l.pushAll [] = l := by
  rw [pushAll, List.append_nil]

theorem pushAll_cons {n : Node} : l.pushAll (n :: nodes) = (l.push n).pushAll nodes := by
  simp only [pushAll, push, List.append_assoc, List.singleton_append]

theorem Ready.pushAll (h : l.Ready) (nodes : List Node) : (l.pushAll nodes).Ready :=
  ⟨h.pending, h.kind⟩

theorem finish_untyped (nodes : List Node) (h : nodes ≠ []) :
    (initial.pushAll nodes).finish = .ok (Group.join .single nodes).simplify := by
  change ((Except.ok (if nodes = [] then Group.empty else .join .single nodes)).map _) = _
  rw [if_neg h]
  rfl

theorem finish_typed {c : Connective} (hc : c ≠ .single) (h : nodes ≠ []) :
    ((initial.typed c.kind).pushAll nodes).finish = .ok (Group.join c nodes).simplify := by
  have hgroup : ((initial.typed c.kind).pushAll nodes).group = .ok (.join c nodes) := by
    cases c with
    | single => exact absurd rfl hc
    | and => exact if_neg h
    | or => exact if_neg h
    | pair => exact if_neg h
  rw [finish, hgroup]
  rfl

theorem typed_of_kind {kind : GroupKind} (h : l.kind = some kind) : l.typed kind = l := by
  obtain ⟨kind, children, chunks, pending⟩ := l
  cases h
  rfl

theorem ends_of_ready {g : Group} (h : l.Ready) (hfinish : l.finish = .ok g) : l.Ends g :=
  fun position => ⟨l, h.flush position, hfinish⟩

end Level

theorem Group.readable_empty : Group.empty.Readable := by
  intro limit enclosing hroom
  rw [Group.chars] at hroom ⊢
  change HasRoom limit enclosing ('(' :: [] ++ [')']) at hroom
  have hdepth := (hroom.paren rfl .initial).1
  refine ⟨Level.initial.push (.group .empty), ?_, ?_⟩
  · exact ParseState.reads_paren Level.ready_initial hdepth Reads.nil Level.ends_initial
  · refine Level.ends_of_ready (Level.ready_initial.push _) ?_
    exact Level.finish_untyped [.group .empty] (List.cons_ne_nil _ _)

/-! ## Credit rules -/

/-- A level that holds the chunks of a credit rule. -/
def Level.ofChunks (chunks : List (List Char)) (pending : List Char) : Level :=
  ⟨some .credit, [], chunks.map String.ofList, pending⟩

theorem Level.flush_ofChunks {chunks : List (List Char)} {cs : List Char} (hne : cs ≠ [])
    (hword : ∀ c ∈ cs, IsWordChar c) (position : Nat) :
    (ofChunks chunks cs).flush position = .ok (ofChunks (chunks ++ [cs]) []) := by
  simp only [flush, ofChunks, if_neg hne, if_true, IsWordChar.map_toUpper hword, List.map_append,
    List.map_cons, List.map_nil]

/-- Each dash ends a chunk, and the last chunk is ended by the end of the level. -/
theorem Level.reads_chunks (limit : Nat) (enclosing : List Level) (chunks : List (List Char))
    {more : List (List Char)} {cs : List Char} (hcs : cs ≠ [] ∧ ∀ c ∈ cs, IsWordChar c)
    (hmore : ∀ ds ∈ more, ds ≠ [] ∧ ∀ c ∈ ds, IsWordChar c) :
    ∃ level : Level, Reads limit ⟨ofChunks chunks cs, enclosing⟩
        (more.flatMap fun ds => '-' :: ds) ⟨level, enclosing⟩ ∧
      ∀ position, level.flush position = .ok (ofChunks (chunks ++ cs :: more) []) := by
  induction more generalizing chunks cs with
  | nil => exact ⟨_, Reads.nil, Level.flush_ofChunks hcs.1 hcs.2⟩
  | cons ds rest ih =>
      rw [List.forall_mem_cons] at hmore
      obtain ⟨level, hreads, hflush⟩ := ih (chunks ++ [cs]) hmore.1 hmore.2
      rw [List.append_assoc] at hflush
      refine ⟨level, ?_, hflush⟩
      have hdash (position : Nat) :
          ParseState.step limit position ⟨ofChunks chunks cs, enclosing⟩ '-' =
            .ok ⟨ofChunks (chunks ++ [cs]) [], enclosing⟩ := by
        change ((ofChunks chunks cs).flush position >>= fun level => _) = _
        rw [Level.flush_ofChunks hcs.1 hcs.2]
        rfl
      rw [List.flatMap_cons]
      exact (Reads.cons hdash (ParseState.reads_word hmore.1.2)).append hreads

theorem Group.readable_credit {rule : CreditRule} (h : rule.Legible) :
    (Group.credit rule).Readable := by
  intro limit enclosing _
  have hchunks := h.isWordChar_chunks
  rw [CreditRule.chunks, List.forall_mem_cons, List.forall_mem_cons] at hchunks
  obtain ⟨hamount, hscope, hsubjects⟩ := hchunks
  obtain ⟨level, hreads, hflush⟩ := Level.reads_chunks limit enclosing
    [Nat.toDigits 10 rule.required.toNat] hscope hsubjects
  refine ⟨level, ?_, fun position => ⟨_, hflush position, ?_⟩⟩
  · -- The amount stands in a level without an operator, which its dash makes one of a rule.
    have hdash (position : Nat) :
        ParseState.step limit position
            ⟨{ Level.initial with pending := Nat.toDigits 10 rule.required.toNat }, enclosing⟩ '-' =
          .ok ⟨Level.ofChunks [Nat.toDigits 10 rule.required.toNat] [], enclosing⟩ := by
      change ((Level.ofChunks [] (Nat.toDigits 10 rule.required.toNat)).flush position >>=
        fun level => _) = _
      rw [Level.flush_ofChunks hamount.1 hamount.2]
      rfl
    rw [Group.chars, CreditRule.chars_eq_chunks]
    exact (ParseState.reads_word hamount.2).append
      ((Reads.cons hdash (ParseState.reads_word hscope.2)).append hreads)
  · change ((CreditRule.ofChunks (rule.chunks.map String.ofList)).map Group.credit).map
      Group.simplify = _
    rw [CreditRule.ofChunks_chunks h]
    rfl

/-! ## Joins -/

theorem Connective.exists_operator {c : Connective} (h : c ≠ .single) :
    ∃ op, c.separator = [' ', op, ' '] ∧ c.trailer 1 = [' ', op] ∧
      GroupKind.ofOperator? op = some c.kind ∧ c.kind ≠ .credit := by
  cases c with
  | single => exact absurd rfl h
  | and => exact ⟨'+', rfl, rfl, rfl, nofun⟩
  | or => exact ⟨'/', rfl, rfl, rfl, nofun⟩
  | pair => exact ⟨'|', rfl, rfl, rfl, nofun⟩

theorem Connective.trailer_of_two_le (c : Connective) (count : Nat) :
    c.trailer (count + 2) = [] := by
  cases c <;> rfl

section

variable {limit : Nat} {enclosing : List Level} {l : Level} {n : Node} {nodes : List Node}
  {c : Connective}

theorem Node.Legible.found (h : n.Legible) : n.Found := by
  cases h with
  | course h => exact h
  | group h => exact trivial

theorem Node.Legible.found_simplify (h : n.Legible) : n.simplify.Found := by
  cases h with
  | course h =>
      rw [Node.simplify]
      exact h
  | group h =>
      rw [Node.simplify]
      exact trivial

/-- A node and the operator after it. -/
theorem Node.Readable.reads_operator {op : Char} (h : n.Readable) (hn : n.Legible) (hl : l.Ready)
    (hop : GroupKind.ofOperator? op = some c.kind) (hcredit : c.kind ≠ .credit)
    (htype : l.kind = none ∨ l.kind = some c.kind) (hroom : HasRoom limit enclosing n.chars) :
    Reads limit ⟨l, enclosing⟩ (n.chars ++ [' ', op])
      ⟨(l.typed c.kind).push n.simplify, enclosing⟩ :=
  (h limit enclosing l hl hroom).append <| Reads.cons ParseState.step_blank <|
    ParseState.reads_operator hcredit hop hl htype hn.found_simplify

theorem Node.Legible.openParens_separator (hn : n.Legible) (c : Connective) :
    openParens (n.chars ++ c.separator) = 0 := by
  rw [openParens_append, n.openParens_chars hn, c.plain_separator]
  rfl

/-- A node and the operator between it and the next one. -/
theorem Node.Readable.reads_separator {op : Char} (h : n.Readable) (hn : n.Legible) (hl : l.Ready)
    (hsep : c.separator = [' ', op, ' ']) (hop : GroupKind.ofOperator? op = some c.kind)
    (hcredit : c.kind ≠ .credit) (htype : l.kind = none ∨ l.kind = some c.kind)
    (hroom : HasRoom limit enclosing (n.chars ++ c.separator)) :
    Reads limit ⟨l, enclosing⟩ (n.chars ++ c.separator)
      ⟨(l.typed c.kind).push n.simplify, enclosing⟩ := by
  have hfirst := (hroom.append (n.openParens_chars hn)).1
  have hread := (h.reads_operator hn hl hop hcredit htype hfirst).append
    (Reads.of_step ParseState.step_blank)
  rw [List.append_assoc] at hread
  rw [hsep]
  exact hread

theorem Node.reads_separatedBy {op : Char} (hsep : c.separator = [' ', op, ' '])
    (hop : GroupKind.ofOperator? op = some c.kind) (hcredit : c.kind ≠ .credit) {rest : List Node}
    (hlegible : ∀ m ∈ n :: rest, m.Legible) (hreadable : ∀ m ∈ n :: rest, m.Readable)
    (hl : l.Ready) (htype : l.kind = some c.kind)
    (hroom : HasRoom limit enclosing (Node.separatedBy c.separator (n :: rest))) :
    ∃ level : Level,
      Reads limit ⟨l, enclosing⟩ (Node.separatedBy c.separator (n :: rest)) ⟨level, enclosing⟩ ∧
        ∀ position, level.flush position = .ok (l.pushAll (Node.simplifyAll (n :: rest))) := by
  induction rest generalizing n l with
  | nil =>
      have hn := hlegible n List.mem_cons_self
      rw [Node.separatedBy] at hroom ⊢
      refine ⟨l.take n.simplify,
        hreadable n List.mem_cons_self limit enclosing l hl hroom, fun position => ?_⟩
      rw [Level.flush_take hl hn.found_simplify]
      simp only [Node.simplifyAll, Level.pushAll_cons, Level.pushAll_nil]
  | cons m more ih =>
      rw [List.forall_mem_cons] at hlegible hreadable
      rw [Node.separatedBy_cons_cons] at hroom ⊢
      obtain ⟨hfirst, hrest⟩ := hroom.append (hlegible.1.openParens_separator c)
      have hread := hreadable.1.reads_separator hlegible.1 hl hsep hop hcredit (Or.inr htype) hfirst
      obtain ⟨level, hreads, hflush⟩ := ih (l := (l.typed c.kind).push n.simplify) hlegible.2
        hreadable.2 ((hl.typed hcredit).push n.simplify) rfl hrest
      refine ⟨level, hread.append hreads, fun position => ?_⟩
      rw [hflush, Level.typed_of_kind htype, ← Level.pushAll_cons]
      simp only [Node.simplifyAll]

theorem Level.ends_take {g : Group} (hl : l.Ready) (hn : n.Found)
    (hfinish : (l.push n).finish = .ok g) : (l.take n).Ends g :=
  fun position => ⟨l.push n, Level.flush_take hl hn position, hfinish⟩

/-- A child of a single group as its text reads. -/
def Node.wrapped : Node → Node
  | .course id => .group (.course id)
  | .group g => .group g.simplify

theorem Group.simplify_course (id : CourseId) : (Group.course id).simplify = .course id := by
  simp [Group.course, Group.simplify, Node.simplifyAll, Node.simplify, Node.spliceAll, Node.splice,
    Group.collapse]

theorem Node.splice_simplify_wrapped (n : Node) :
    n.wrapped.simplify.splice .single = n.simplify.splice .single := by
  cases n with
  | course id =>
      rw [Node.wrapped, Node.simplify, Node.simplify, Group.simplify_course]
      simp [Group.course, Node.splice, Group.splice, Node.spliceAll]
  | group g => rw [Node.wrapped, Node.simplify, Node.simplify, Group.simplify_simplify]

/-- It makes no difference to a single group that its children stand in parentheses. -/
theorem Group.simplify_join_wrapped (nodes : List Node) :
    (Group.join .single (nodes.map Node.wrapped)).simplify =
      (Group.join .single nodes).simplify := by
  have hsplice : Node.spliceAll .single (Node.simplifyAll (nodes.map Node.wrapped)) =
      Node.spliceAll .single (Node.simplifyAll nodes) := by
    induction nodes with
    | nil => rfl
    | cons n rest ih =>
        rw [List.map_cons, Node.simplifyAll, Node.simplifyAll, Node.spliceAll, Node.spliceAll,
          n.splice_simplify_wrapped, ih]
  rw [Group.simplify, Group.simplify, hsplice]

theorem Node.reads_wrappedAll (hlegible : ∀ n ∈ nodes, n.Legible)
    (hreadable : ∀ n ∈ nodes, n.Readable) (hl : l.Ready)
    (hroom : HasRoom limit enclosing (Node.wrappedAll nodes)) :
    Reads limit ⟨l, enclosing⟩ (Node.wrappedAll nodes)
      ⟨l.pushAll (nodes.map Node.wrapped), enclosing⟩ := by
  induction nodes generalizing l with
  | nil =>
      rw [Node.wrappedAll, List.map_nil, Level.pushAll_nil]
      exact Reads.nil
  | cons n rest ih =>
      rw [List.forall_mem_cons] at hlegible hreadable
      rw [List.map_cons, Level.pushAll_cons]
      cases n with
      | course id =>
          have hplain : openParens id.chars = 0 := (parenDepth_of_plain id.plain_chars).1
          have hfinish : (Level.initial.push (.course id)).finish = .ok (.course id) := by
            rw [← Group.simplify_course]
            exact Level.finish_untyped [.course id] (List.cons_ne_nil _ _)
          rw [Node.wrappedAll, List.append_cons] at hroom ⊢
          obtain ⟨hfirst, hrest⟩ := hroom.append (openParens_paren.trans hplain)
          have hread := ParseState.reads_paren hl (hfirst.paren hplain l).1
            (id.reads_chars Level.ready_initial)
            (Level.ends_take Level.ready_initial hlegible.1.found hfinish)
          exact hread.append (ih hlegible.2 hreadable.2 (hl.push _) hrest)
      | group g =>
          rw [Node.wrappedAll] at hroom ⊢
          obtain ⟨hfirst, hrest⟩ := hroom.append (Node.openParens_chars _ hlegible.1)
          have hread := hreadable.1 limit enclosing l hl hfirst
          rw [Node.simplify] at hread
          exact hread.append (ih hlegible.2 hreadable.2 (hl.push _) hrest)

/-- A join of the simplified children is what remains of a join. -/
theorem Level.ends_typed (hc : c ≠ .single) (hne : nodes ≠ [])
    (hflush : ∀ position,
      l.flush position = .ok ((Level.initial.typed c.kind).pushAll (Node.simplifyAll nodes))) :
    l.Ends (Group.join c nodes).simplify := by
  have hne' : Node.simplifyAll nodes ≠ [] := by
    cases nodes with
    | nil => exact absurd rfl hne
    | cons n rest =>
        rw [Node.simplifyAll]
        exact List.cons_ne_nil _ _
  refine fun position => ⟨_, hflush position, ?_⟩
  rw [Level.finish_typed hc hne', Group.simplify_join_simplifyAll]

theorem Group.readable_join_single (hne : nodes ≠ []) (hlegible : ∀ n ∈ nodes, n.Legible)
    (hreadable : ∀ n ∈ nodes, n.Readable) : (Group.join .single nodes).Readable := by
  intro limit enclosing hroom
  match nodes, hne with
  | [n], _ =>
      have hn := hlegible n List.mem_cons_self
      have hchars : (Group.join .single [n]).chars = n.chars := by
        rw [Group.chars, if_neg (by simp), Node.separatedBy]
        exact List.append_nil _
      rw [hchars] at hroom ⊢
      refine ⟨Level.initial.take n.simplify, ?_, Level.ends_take Level.ready_initial
        hn.found_simplify ?_⟩
      · exact hreadable n List.mem_cons_self limit enclosing .initial Level.ready_initial hroom
      · rw [← Group.simplify_join_simplifyAll]
        exact Level.finish_untyped [n.simplify] (List.cons_ne_nil _ _)
  | n :: m :: rest, _ =>
      have hchars : (Group.join .single (n :: m :: rest)).chars =
          Node.wrappedAll (n :: m :: rest) := by
        rw [Group.chars, if_pos (by simp)]
      rw [hchars] at hroom ⊢
      refine ⟨_, Node.reads_wrappedAll hlegible hreadable Level.ready_initial hroom, ?_⟩
      refine Level.ends_of_ready (Level.ready_initial.pushAll _) ?_
      have hwrapped : (n :: m :: rest).map Node.wrapped ≠ [] := List.cons_ne_nil _ _
      rw [Level.finish_untyped _ hwrapped, Group.simplify_join_wrapped]

theorem Group.readable_join_typed (hc : c ≠ .single) (hne : nodes ≠ [])
    (hlegible : ∀ n ∈ nodes, n.Legible) (hreadable : ∀ n ∈ nodes, n.Readable) :
    (Group.join c nodes).Readable := by
  intro limit enclosing hroom
  obtain ⟨op, hsep, htrailer, hop, hcredit⟩ := Connective.exists_operator hc
  have hchars : (Group.join c nodes).chars =
      Node.separatedBy c.separator nodes ++ c.trailer nodes.length := by
    rw [Group.chars, if_neg fun h => hc h.1]
  match nodes, hne with
  | [n], hne =>
      -- The operator trails, so it ends the only child.
      have hn := hlegible n List.mem_cons_self
      rw [hchars, Node.separatedBy, List.length_singleton, htrailer] at hroom ⊢
      have hfirst := (hroom.append (n.openParens_chars hn)).1
      refine ⟨(Level.initial.typed c.kind).push n.simplify, ?_,
        Level.ends_typed hc hne fun position => ?_⟩
      · exact (hreadable n List.mem_cons_self).reads_operator hn Level.ready_initial hop hcredit
          (Or.inl rfl) hfirst
      · rw [((Level.ready_initial.typed hcredit).push n.simplify).flush]
        simp only [Node.simplifyAll, Level.pushAll_cons, Level.pushAll_nil]
  | n :: m :: rest, hne =>
      -- The first operator types the level, and the others find it typed.
      rw [hchars, List.length_cons, List.length_cons, c.trailer_of_two_le, List.append_nil,
        Node.separatedBy_cons_cons] at hroom ⊢
      rw [List.forall_mem_cons] at hlegible hreadable
      obtain ⟨hfirst, hrest⟩ := hroom.append (hlegible.1.openParens_separator c)
      have hread := hreadable.1.reads_separator hlegible.1 Level.ready_initial hsep hop hcredit
        (Or.inl rfl) hfirst
      obtain ⟨level, hreads, hflush⟩ := Node.reads_separatedBy hsep hop hcredit hlegible.2
        hreadable.2 ((Level.ready_initial.typed hcredit).push n.simplify) rfl hrest
      refine ⟨level, hread.append hreads, Level.ends_typed hc hne fun position => ?_⟩
      rw [hflush, ← Level.pushAll_cons]
      simp only [Node.simplifyAll]

theorem Group.readable_join (hne : nodes ≠ []) (hlegible : ∀ n ∈ nodes, n.Legible)
    (hreadable : ∀ n ∈ nodes, n.Readable) : (Group.join c nodes).Readable := by
  by_cases hc : c = .single
  · subst hc
    exact readable_join_single hne hlegible hreadable
  · exact readable_join_typed hc hne hlegible hreadable

end

mutual

theorem Node.Legible.readable : (n : Node) → n.Legible → n.Readable
  | .course id, _ => Node.readable_course id
  | .group g, .group h => Node.readable_group h (Group.Legible.readable g h)

theorem Group.Legible.readable : (g : Group) → g.Legible → g.Readable
  | .empty, _ => Group.readable_empty
  | .credit _, .credit h => Group.readable_credit h
  | .join _ nodes, .join hne h => Group.readable_join hne h (Node.Legible.readableAll nodes h)

theorem Node.Legible.readableAll :
    (nodes : List Node) → (∀ n ∈ nodes, n.Legible) → ∀ n ∈ nodes, n.Readable
  | [], _ => fun _ hn => absurd hn List.not_mem_nil
  | n :: rest, h => by
      rw [List.forall_mem_cons] at h ⊢
      exact ⟨Node.Legible.readable n h.1, Node.Legible.readableAll rest h.2⟩

end

end Curriculum
