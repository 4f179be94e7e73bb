import Curriculum.Course.Extract
import Curriculum.Group.Parser
import Curriculum.Proofs.Group.Pieces

/-!
# Grammar of a level

What makes up one parenthesis level, whatever stands in the parentheses inside of it: the operators
and the chunks between them. A level with a dash is a credit rule. Any other level is a list of
courses and of texts in parentheses, joined by one operator or by none.
-/

namespace Curriculum

namespace Piece

def operator? : Piece → Option Char
  | plain c _ => if (GroupKind.ofOperator? c).isSome then some c else none
  | paren _ => none

def endsChunk : Piece → Bool
  | plain c _ => (GroupKind.ofOperator? c).isSome
  | paren _ => true

/-- What a piece adds to a chunk that it does not end. -/
def kept? : Piece → Option Char
  | plain c _ => if isSkipped c then none else some c
  | paren _ => none

/-- The operators of a level. -/
def operators (level : List Piece) : List Char := level.filterMap operator?

def HasParen (level : List Piece) : Prop := ∃ inside, paren inside ∈ level

/-- The longest stretches without operators and parentheses, except for those of which nothing is
kept. -/
def chunks (level : List Piece) : List (List Char) :=
  ((level.splitOnP endsChunk).map (List.filterMap kept?)).filter fun chunk => !chunk.isEmpty

example :
    chunks [.plain 'a' (by decide), .plain ' ' (by decide), .plain 'b' (by decide),
      .plain '+' (by decide), .paren [.plain 'c' (by decide)], .plain 'd' (by decide)] =
      [['a', 'b'], ['d']] := by
  decide

/-- The level is written as the grammar has it. -/
structure Grammatical (level : List Piece) : Prop where
  sameOperator : ∀ a ∈ operators level, ∀ b ∈ operators level, a = b
  credit : '-' ∈ operators level → ¬HasParen level ∧
    ∃ rule, CreditRule.ofChunks ((chunks level).map String.ofList) = .ok rule
  courses : '-' ∉ operators level → ∀ chunk ∈ chunks level, extractIds (String.ofList chunk) ≠ []
  operands : '-' ∉ operators level → operators level ≠ [] → chunks level ≠ [] ∨ HasParen level

/-- The kinds of group that the operators of a level stand for. -/
def kinds (level : List Piece) : List GroupKind :=
  (operators level).filterMap GroupKind.ofOperator?

variable {c : Char} {h : c ≠ '(' ∧ c ≠ ')'} {kind : GroupKind} {level inside rest : List Piece}
  {pending : List Char}

/-! ## Operators -/

theorem operator?_eq_some {p : Piece} (hp : p.operator? = some c) :
    ∃ kind, GroupKind.ofOperator? c = some kind := by
  cases p with
  | plain d _ =>
      rw [operator?] at hp
      split at hp
      next hop =>
        cases hp
        exact Option.isSome_iff_exists.1 hop
      next => cases hp
  | paren _ => cases hp

theorem operator?_of_kind (hop : GroupKind.ofOperator? c = some kind) :
    kind.operator? = some c := by
  unfold GroupKind.ofOperator? at hop
  split at hop <;> cases hop <;> rfl

theorem credit_or_connective (hop : GroupKind.ofOperator? c = some kind) :
    kind = .credit ∨ ∃ c : Connective, c ≠ .single ∧ kind = c.kind := by
  unfold GroupKind.ofOperator? at hop
  split at hop
  next => exact Or.inr ⟨.and, nofun, (Option.some.inj hop).symm⟩
  next => exact Or.inr ⟨.or, nofun, (Option.some.inj hop).symm⟩
  next => exact Or.inr ⟨.pair, nofun, (Option.some.inj hop).symm⟩
  next => exact Or.inl (Option.some.inj hop).symm
  next => cases hop

theorem mem_kinds :
    kind ∈ kinds level ↔ ∃ c ∈ operators level, GroupKind.ofOperator? c = some kind :=
  List.mem_filterMap

theorem exists_kind (hc : c ∈ operators level) :
    ∃ kind ∈ kinds level, GroupKind.ofOperator? c = some kind := by
  obtain ⟨p, _, hp⟩ := List.mem_filterMap.1 hc
  obtain ⟨kind, hop⟩ := operator?_eq_some hp
  exact ⟨kind, mem_kinds.2 ⟨c, hc, hop⟩, hop⟩

theorem credit_mem_kinds : .credit ∈ kinds level ↔ '-' ∈ operators level := by
  rw [mem_kinds]
  constructor
  · rintro ⟨c, hc, hop⟩
    cases operator?_of_kind hop
    exact hc
  · intro hdash
    exact ⟨'-', hdash, rfl⟩

theorem kinds_eq_nil : kinds level = [] ↔ operators level = [] := by
  constructor
  · intro hnil
    refine List.eq_nil_iff_forall_not_mem.2 fun c hc => ?_
    obtain ⟨kind, hkind, _⟩ := exists_kind hc
    rw [hnil] at hkind
    cases hkind
  · intro hnil
    rw [kinds, hnil]
    rfl

/-- Operators are the same if they stand for the same kind. -/
theorem same_kinds_iff :
    (∀ a ∈ kinds level, ∀ b ∈ kinds level, a = b) ↔
      ∀ a ∈ operators level, ∀ b ∈ operators level, a = b := by
  constructor
  · intro hsame a ha b hb
    obtain ⟨kind, hkind, hop⟩ := exists_kind ha
    obtain ⟨kind', hkind', hop'⟩ := exists_kind hb
    cases hsame kind hkind kind' hkind'
    exact Option.some.inj ((operator?_of_kind hop).symm.trans (operator?_of_kind hop'))
  · intro hsame kind hkind kind' hkind'
    obtain ⟨a, ha, hop⟩ := mem_kinds.1 hkind
    obtain ⟨b, hb, hop'⟩ := mem_kinds.1 hkind'
    cases hsame a ha b hb
    exact Option.some.inj (hop.symm.trans hop')

theorem kinds_operator (hop : GroupKind.ofOperator? c = some kind) :
    kinds (plain c h :: rest) = kind :: kinds rest := by
  have hoperator : (plain c h).operator? = some c := by rw [operator?, hop]; rfl
  rw [kinds, operators, List.filterMap_cons_some hoperator, List.filterMap_cons_some hop]
  rfl

theorem kinds_plain (hop : GroupKind.ofOperator? c = none) :
    kinds (plain c h :: rest) = kinds rest := by
  have hoperator : (plain c h).operator? = none := by rw [operator?, hop]; rfl
  rw [kinds, operators, List.filterMap_cons_none hoperator]
  rfl

theorem kinds_paren : kinds (paren inside :: rest) = kinds rest :=
  rfl

theorem kinds_append (first rest : List Piece) :
    kinds (first ++ rest) = kinds first ++ kinds rest := by
  rw [kinds, operators, List.filterMap_append, List.filterMap_append]
  rfl

/-- The first operator of a level is the one that its first kind stands for. -/
theorem head?_operators (h : (kinds level).head? = some kind) :
    (operators level).head? = kind.operator? := by
  cases hoperators : operators level with
  | nil =>
      rw [kinds_eq_nil.2 hoperators] at h
      cases h
  | cons c rest =>
      have hmem : c ∈ operators level := by
        rw [hoperators]
        exact List.mem_cons_self
      obtain ⟨kind', _, hop⟩ := exists_kind hmem
      rw [kinds, hoperators, List.filterMap_cons_some hop] at h
      cases h
      exact (operator?_of_kind hop).symm

theorem hasParen_plain : HasParen (plain c h :: rest) ↔ HasParen rest := by
  simp [HasParen]

theorem hasParen_paren : HasParen (paren inside :: rest) :=
  ⟨inside, List.mem_cons_self⟩

/-! ## Chunks -/

/-- The chunks of the rest of a level, the first of which has begun. -/
def chunksFrom (pending : List Char) (level : List Piece) : List (List Char) :=
  (((level.splitOnP endsChunk).map (List.filterMap kept?)).modifyHead (pending ++ ·)).filter
    fun chunk => !chunk.isEmpty

/-- The chunk that ends, unless nothing has been kept of it. -/
def ended (pending : List Char) : List (List Char) := if pending = [] then [] else [pending]

theorem chunksFrom_empty (level : List Piece) : chunksFrom [] level = chunks level := by
  unfold chunksFrom chunks
  cases (level.splitOnP endsChunk).map (List.filterMap kept?) <;> rfl

theorem chunksFrom_nil (pending : List Char) : chunksFrom pending [] = ended pending := by
  cases pending <;> simp [chunksFrom, ended]

theorem chunksFrom_of_endsChunk {p : Piece} (hp : p.endsChunk = true) (pending : List Char)
    (rest : List Piece) : chunksFrom pending (p :: rest) = ended pending ++ chunks rest := by
  rw [chunksFrom, List.splitOnP_cons_eq_if_modifyHead, if_pos hp]
  cases pending <;> simp [chunks, ended]

theorem chunksFrom_of_not_endsChunk {p : Piece} (hp : p.endsChunk = false) (pending : List Char)
    (rest : List Piece) :
    chunksFrom pending (p :: rest) = chunksFrom (pending ++ p.kept?.toList) rest := by
  rw [chunksFrom, chunksFrom, List.splitOnP_cons_eq_if_modifyHead, hp]
  cases hsplit : rest.splitOnP endsChunk with
  | nil => exact absurd hsplit (List.splitOnP_ne_nil _ _)
  | cons first others =>
      cases hkept : p.kept? <;> simp [hkept]

theorem chunksFrom_operator (hop : GroupKind.ofOperator? c = some kind) :
    chunksFrom pending (plain c h :: rest) = ended pending ++ chunks rest :=
  chunksFrom_of_endsChunk (by rw [endsChunk, hop]; rfl) pending rest

theorem chunksFrom_plain (hop : GroupKind.ofOperator? c = none) :
    chunksFrom pending (plain c h :: rest) =
      chunksFrom (pending ++ (plain c h).kept?.toList) rest :=
  chunksFrom_of_not_endsChunk (by rw [endsChunk, hop]; rfl) pending rest

theorem chunksFrom_append {p : Piece} (hp : p.endsChunk = true) (pending : List Char)
    (first rest : List Piece) :
    chunksFrom pending (first ++ p :: rest) = chunksFrom pending first ++ chunks rest := by
  induction first generalizing pending with
  | nil => rw [List.nil_append, chunksFrom_of_endsChunk hp, chunksFrom_nil]
  | cons q first ih =>
      rw [List.cons_append]
      cases hq : q.endsChunk with
      | true =>
          rw [chunksFrom_of_endsChunk hq, chunksFrom_of_endsChunk hq, ← chunksFrom_empty, ih,
            chunksFrom_empty, List.append_assoc]
      | false => rw [chunksFrom_of_not_endsChunk hq, chunksFrom_of_not_endsChunk hq, ih]

end Piece

end Curriculum
