import Curriculum.Proofs.Group.Accepts
import Curriculum.Proofs.Group.Leaves
import Curriculum.Proofs.Group.RoundTrip

/-!
# Leaves in reading order

Reading loses nothing, adds nothing and keeps the order. The courses of a group that is read are the
first ones of all chunks that stand outside of credit rules, and its credit rules are those of all
levels with a dash.
-/

namespace Curriculum

/-! ## What a text says -/

mutual

/-- A piece and what stands in its parentheses, side by side. Each parenthesis stays as an empty
pair, which ends a chunk, and the text of levels with a dash is left out. -/
def Piece.opened : Piece → List Piece
  | .plain c h => [.plain c h]
  | .paren inside =>
    .paren [] ::
      ((if '-' ∈ Piece.operators inside then [] else Piece.openedAll inside) ++ [.paren []])

def Piece.openedAll : List Piece → List Piece
  | [] => []
  | p :: rest => p.opened ++ Piece.openedAll rest

end

namespace Piece

/-- The chunks of a text, those of levels with a dash left out. -/
def courseChunks (level : List Piece) : List (List Char) :=
  chunks (if '-' ∈ operators level then [] else openedAll level)

/-- The levels of a text that have a dash. -/
def creditLevels (level : List Piece) : List (List Piece) :=
  (level :: levelsAll level).filter ('-' ∈ operators ·)

/-- The first course that a chunk names. -/
def firstCourse? (chunk : List Char) : Option CourseId := extractFirst? (String.ofList chunk)

/-- The credit rule that the chunks of a level make up. -/
def creditRule (level : List Piece) : Except ParseError CreditRule :=
  CreditRule.ofChunks ((chunks level).map String.ofList)

/-- `a/(b+(1-2))c` -/
example :
    courseChunks [.plain 'a' (by decide), .plain '/' (by decide), .paren [.plain 'b' (by decide),
        .plain '+' (by decide), .paren [.plain '1' (by decide), .plain '-' (by decide),
          .plain '2' (by decide)]], .plain 'c' (by decide)] =
      [['a'], ['b'], ['c']] := by
  decide

end Piece

/-- The leaves of a group are those that a text names, in the order of the text. -/
structure Group.LeavesFrom (g : Group) (level : List Piece) : Prop where
  courses : g.courses.map some = (Piece.courseChunks level).map Piece.firstCourse?
  creditRules : g.creditRules.map .ok = (Piece.creditLevels level).map Piece.creditRule

/-! ## Levels of courses -/

variable {l m : Level} {position : Nat} {kind : GroupKind} {level inside rest : List Piece}
  {c : Char} {hplain : c ≠ '(' ∧ c ≠ ')'} {g : Group}

namespace Level

/-- The courses of the level when the rest of it has been read. -/
def coursesWith (l : Level) (rest : List Piece) : List (Option CourseId) :=
  (l.children.flatMap Node.courses).map some ++
    (Piece.chunksFrom l.pending (Piece.openedAll rest)).map Piece.firstCourse?

/-- The credit rules of the level when the rest of it has been read. -/
def rulesWith (l : Level) (rest : List Piece) : List (Except ParseError CreditRule) :=
  (l.children.flatMap Node.creditRules).map .ok ++
    ((Piece.levelsAll rest).filter ('-' ∈ Piece.operators ·)).map Piece.creditRule

/-- A chunk that ends becomes the last course. -/
theorem flush_leaves (hflush : l.flush position = .ok m) (hcourses : l.kind ≠ some .credit) :
    (m.children.flatMap Node.courses).map some = (l.children.flatMap Node.courses).map some ++
        (Piece.ended l.pending).map Piece.firstCourse? ∧
      m.children.flatMap Node.creditRules = l.children.flatMap Node.creditRules := by
  rcases flush_eq_ok hflush with ⟨rfl, hpending⟩ | ⟨_, _, hcredit⟩ | ⟨id, rfl, hpending, _, hfound⟩
  · simp [Piece.ended, hpending]
  · exact absurd hcredit hcourses
  · rw [extractFirst?_inCapitals] at hfound
    rw [Piece.ended, if_neg hpending, List.map_singleton, Piece.firstCourse?, hfound]
    simp [endCourse, Node.courses, Node.creditRules]

theorem flush_coursesWith (hflush : l.flush position = .ok m) (hcourses : l.kind ≠ some .credit)
    (rest : List Piece) :
    m.coursesWith rest = (l.children.flatMap Node.courses).map some ++
      (Piece.ended l.pending ++ Piece.chunks (Piece.openedAll rest)).map Piece.firstCourse? := by
  rw [coursesWith, (flush_leaves hflush hcourses).1, flush_pending hflush, Piece.chunksFrom_empty,
    List.map_append, List.append_assoc]

theorem flush_rulesWith (hflush : l.flush position = .ok m) (hcourses : l.kind ≠ some .credit)
    (rest : List Piece) : m.rulesWith rest = l.rulesWith rest := by
  rw [rulesWith, rulesWith, (flush_leaves hflush hcourses).2]

theorem read_leaves (hread : l.read position c = .ok m)
    (hdash : GroupKind.ofOperator? c ≠ some .credit) :
    m.coursesWith rest = l.coursesWith (.plain c hplain :: rest) ∧
      m.rulesWith rest = l.rulesWith (.plain c hplain :: rest) := by
  have hopened : Piece.openedAll (.plain c hplain :: rest) =
      .plain c hplain :: Piece.openedAll rest :=
    rfl
  have hlevels : Piece.levelsAll (.plain c hplain :: rest) = Piece.levelsAll rest := rfl
  rw [coursesWith, coursesWith, rulesWith, rulesWith, hopened, hlevels]
  rcases read_eq_ok (h := hplain) hread with ⟨kind, hop, _, hflush⟩ | ⟨hop, rfl⟩
  · have htyped : (l.typed kind).kind ≠ some .credit := fun hcredit => hdash (hop.trans hcredit)
    have hcourses := flush_coursesWith hflush htyped rest
    have hrules := flush_rulesWith hflush htyped rest
    rw [Piece.chunksFrom_operator hop]
    exact ⟨hcourses, hrules⟩
  · rw [Piece.chunksFrom_plain hop]
    exact ⟨rfl, rfl⟩

/-- What stands in parentheses comes after the chunk that they end. -/
theorem push_leaves (hflush : l.flush position = .ok m) (hcourses : l.kind ≠ some .credit)
    (hg : g.LeavesFrom inside) :
    (m.push (.group g)).coursesWith rest = l.coursesWith (.paren inside :: rest) ∧
      (m.push (.group g)).rulesWith rest = l.rulesWith (.paren inside :: rest) := by
  obtain ⟨hcoursesOf, hrulesOf⟩ := flush_leaves hflush hcourses
  have hopened : Piece.openedAll (.paren inside :: rest) =
      .paren [] :: ((if '-' ∈ Piece.operators inside then [] else Piece.openedAll inside) ++
        .paren [] :: Piece.openedAll rest) := by
    simp [Piece.openedAll, Piece.opened]
  have hlevels : (Piece.levelsAll (.paren inside :: rest)).filter ('-' ∈ Piece.operators ·) =
      Piece.creditLevels inside ++ (Piece.levelsAll rest).filter ('-' ∈ Piece.operators ·) :=
    List.filter_append _ _
  constructor
  · rw [coursesWith, coursesWith, hopened, Piece.chunksFrom_of_endsChunk rfl,
      ← Piece.chunksFrom_empty, Piece.chunksFrom_append rfl, Piece.chunksFrom_empty]
    simp only [push, List.flatMap_append, List.map_append, hcoursesOf, List.flatMap_singleton,
      Node.courses, hg.courses, flush_pending hflush, Piece.chunksFrom_empty, List.append_assoc,
      Piece.courseChunks]
  · rw [rulesWith, rulesWith, hlevels]
    simp only [push, List.flatMap_append, List.map_append, hrulesOf, List.flatMap_singleton,
      Node.creditRules, hg.creditRules, List.append_assoc]

/-! ## Levels of credit rules -/

/-- The chunks of a credit rule when the rest of the level has been read. -/
def chunksWith (l : Level) (rest : List Piece) : List String :=
  l.creditChunks ++ (Piece.chunksFrom l.pending rest).map inCapitals

theorem flush_creditChunks (hflush : l.flush position = .ok m) (hcredit : l.kind = some .credit) :
    m.creditChunks = l.creditChunks ++ (Piece.ended l.pending).map inCapitals := by
  rcases flush_eq_ok hflush with ⟨rfl, hpending⟩ | ⟨rfl, hpending, _⟩ | ⟨_, _, _, hcourses, _⟩
  · simp [Piece.ended, hpending]
  · rw [Piece.ended, if_neg hpending]
    rfl
  · exact absurd hcredit hcourses

theorem read_chunksWith (hread : l.read position c = .ok m)
    (hdash : ∀ kind, GroupKind.ofOperator? c = some kind → kind = .credit) :
    m.chunksWith rest = l.chunksWith (.plain c hplain :: rest) := by
  rw [chunksWith, chunksWith]
  rcases read_eq_ok (h := hplain) hread with ⟨kind, hop, _, hflush⟩ | ⟨hop, rfl⟩
  · rw [Piece.chunksFrom_operator hop, flush_pending hflush, Piece.chunksFrom_empty,
      flush_creditChunks hflush (congrArg some (hdash kind hop)), List.map_append,
      List.append_assoc]
    rfl
  · rw [Piece.chunksFrom_plain hop]

/-! ## The end of a level -/

/-- A group that is no credit rule has the leaves of its children. -/
theorem leaves_of_finish (hfinish : l.finish = .ok g)
    (hkind : ∀ kind, l.kind = some kind → ∃ c : Connective, kind = c.kind) :
    g.courses = l.children.flatMap Node.courses ∧
      g.creditRules = l.children.flatMap Node.creditRules := by
  obtain ⟨raw, hraw, rfl⟩ := map_eq_ok.1 hfinish
  rw [Group.courses_simplify, Group.creditRules_simplify, ← Node.coursesAll_eq_flatMap,
    ← Node.creditRulesAll_eq_flatMap]
  have hgroup : l.children = [] ∧ raw = .empty ∨ ∃ c, raw = .join c l.children := by
    unfold group at hraw
    split at hraw
    next =>
      cases hraw
      split
      next hnil => exact Or.inl ⟨hnil, rfl⟩
      next => exact Or.inr ⟨_, rfl⟩
    next hcredit =>
      obtain ⟨c, hc⟩ := hkind _ hcredit
      cases c <;> cases hc
    next kind _ hjoined =>
      obtain ⟨c, rfl⟩ := hkind _ hjoined
      split at hraw
      next => cases hraw
      next =>
        cases hraw
        exact Or.inr ⟨c, by cases c <;> rfl⟩
  rcases hgroup with ⟨hnil, rfl⟩ | ⟨c, rfl⟩
  · rw [hnil]
    exact ⟨rfl, rfl⟩
  · exact ⟨rfl, rfl⟩

theorem creditRule_of_finish (hfinish : l.finish = .ok g) (hcredit : l.kind = some .credit) :
    ∃ rule, CreditRule.ofChunks l.creditChunks = .ok rule ∧ g = .credit rule := by
  obtain ⟨raw, hraw, rfl⟩ := map_eq_ok.1 hfinish
  rw [group, hcredit] at hraw
  obtain ⟨rule, hrule, rfl⟩ := map_eq_ok.1 hraw
  exact ⟨rule, hrule, rfl⟩

end Level

/-! ## Whole levels -/

namespace Piece

theorem mem_kinds_cons {p : Piece} :
    kind ∈ kinds (p :: rest) ↔ kind ∈ kinds [p] ∨ kind ∈ kinds rest := by
  rw [← List.mem_append, kinds, kinds, kinds, operators, operators, operators,
    ← List.filterMap_append, ← List.filterMap_append, List.singleton_append]

/-- A level has the kind that it had or that an operator in it stands for. -/
theorem descend_kind {p : Piece} (h : p.descend position l = .ok m) :
    m.kind = some kind ↔ l.kind = some kind ∨ kind ∈ kinds [p] := by
  cases p with
  | plain c hplain =>
      rw [descend] at h
      rcases Level.read_eq_ok (h := hplain) h with ⟨kind', hop, hkind, hflush⟩ | ⟨hop, rfl⟩
      · rw [Level.flush_kind hflush, kinds_operator hop, Level.typed, Option.some.injEq]
        rcases hkind with hnone | hsame
        · simp [hnone, kinds, operators, eq_comm]
        · simp [hsame, kinds, operators, eq_comm]
      · rw [kinds_plain hop]
        simp [kinds, operators]
  | paren inside =>
      obtain ⟨around, _, _, _, hflush, _, _, _, _, rfl⟩ := descend_paren_eq_ok.1 h
      rw [Level.push, Level.flush_kind hflush, kinds_paren]
      simp [kinds, operators]

theorem descendAll_kind (h : descendAll position level l = .ok m) :
    m.kind = some kind ↔ l.kind = some kind ∨ kind ∈ kinds level := by
  induction level generalizing position l with
  | nil =>
      cases h
      simp [kinds, operators]
  | cons p rest ih =>
      obtain ⟨next, hnext, hrest⟩ := bind_eq_ok.1 h
      rw [ih hrest, descend_kind hnext, or_assoc, ← mem_kinds_cons]

theorem descendAll_chunksWith (h : descendAll position level l = .ok m) (hparen : ¬HasParen level)
    (hcredit : ∀ kind ∈ kinds level, kind = .credit) : m.chunksWith [] = l.chunksWith level := by
  induction level generalizing position l with
  | nil =>
      cases h
      rfl
  | cons p rest ih =>
      obtain ⟨next, hnext, hrest⟩ := bind_eq_ok.1 h
      have hcredit' : ∀ kind ∈ kinds rest, kind = .credit :=
        fun kind hkind => hcredit kind (mem_kinds_cons.2 (Or.inr hkind))
      cases p with
      | paren inside => exact absurd hasParen_paren hparen
      | plain c hplain =>
          rw [hasParen_plain] at hparen
          rw [ih hrest hparen hcredit']
          refine Level.read_chunksWith hnext fun kind hop => hcredit kind ?_
          rw [kinds_operator hop]
          exact List.mem_cons_self

theorem levelsAll_of_no_paren (h : ¬HasParen level) : levelsAll level = [] := by
  induction level with
  | nil => rfl
  | cons p rest ih =>
      cases p with
      | paren inside => exact absurd hasParen_paren h
      | plain c hplain => exact ih fun hrest => h (hasParen_plain.2 hrest)

theorem creditLevels_of_dash (hdash : '-' ∈ operators level) (hparen : ¬HasParen level) :
    creditLevels level = [level] := by
  rw [creditLevels, levelsAll_of_no_paren hparen]
  simp [hdash]

theorem creditLevels_of_no_dash (hdash : '-' ∉ operators level) :
    creditLevels level = (levelsAll level).filter ('-' ∈ operators ·) := by
  rw [creditLevels]
  simp [hdash]

section

variable {last : Nat} {closed : Level} (hlevel : Grammatical level)
  (hm : descendAll position level .initial = .ok m) (hclosed : m.flush last = .ok closed)
  (hgroup : closed.finish = .ok g)

include hm hclosed

theorem kind_of_closed : closed.kind = some kind ↔ kind ∈ kinds level := by
  rw [Level.flush_kind hclosed, descendAll_kind hm]
  exact or_iff_right nofun

include hgroup hlevel

/-- A level with a dash is one credit rule. -/
theorem leavesFrom_of_dash (hdash : '-' ∈ operators level) : g.LeavesFrom level := by
  obtain ⟨hparen, _⟩ := hlevel.credit hdash
  have hcredit := credit_mem_kinds.2 hdash
  have hkind := (kind_of_closed hm hclosed).2 hcredit
  have hchunks : closed.creditChunks = (chunks level).map inCapitals := by
    have hall : m.chunksWith [] = Level.initial.chunksWith level :=
      descendAll_chunksWith hm hparen fun kind hk =>
        same_kinds_iff.2 hlevel.sameOperator kind hk .credit hcredit
    rw [Level.flush_creditChunks hclosed ((Level.flush_kind hclosed).symm.trans hkind),
      ← chunksFrom_nil]
    exact hall.trans (congrArg (List.map inCapitals) (chunksFrom_empty level))
  obtain ⟨rule, hrule, rfl⟩ := Level.creditRule_of_finish hgroup hkind
  rw [hchunks, CreditRule.ofChunks_inCapitals] at hrule
  constructor
  · rw [courseChunks, if_pos hdash]
    rfl
  · rw [creditLevels_of_dash hdash hparen, List.map_singleton, creditRule, hrule]
    rfl

omit hlevel in
/-- Any other level has the leaves that have been met in it. -/
theorem leavesFrom_of_no_dash (hdash : '-' ∉ operators level)
    (hleaves : m.coursesWith [] = Level.initial.coursesWith level ∧
      m.rulesWith [] = Level.initial.rulesWith level) : g.LeavesFrom level := by
  obtain ⟨hcourses, hrules⟩ := hleaves
  have hcredit : m.kind ≠ some .credit := by
    rw [← Level.flush_kind hclosed, ne_eq, kind_of_closed hm hclosed, credit_mem_kinds]
    exact hdash
  have hjoined (kind : GroupKind) (hkind : closed.kind = some kind) :
      ∃ c : Connective, kind = c.kind := by
    obtain ⟨_, _, hop⟩ := mem_kinds.1 ((kind_of_closed hm hclosed).1 hkind)
    rcases credit_or_connective hop with rfl | ⟨c, _, rfl⟩
    · exact absurd ((Level.flush_kind hclosed).symm.trans hkind) hcredit
    · exact ⟨c, rfl⟩
  obtain ⟨hcoursesOf, hrulesOf⟩ := Level.leaves_of_finish hgroup hjoined
  obtain ⟨hlast, hsame⟩ := Level.flush_leaves hclosed hcredit
  constructor
  · rw [hcoursesOf, hlast, ← chunksFrom_nil, courseChunks, if_neg hdash, ← chunksFrom_empty]
    exact hcourses
  · rw [hrulesOf, hsame, creditLevels_of_no_dash hdash]
    simpa [Level.rulesWith, levelsAll, Level.initial] using hrules

end

/-- Every leaf of a level is met on the way to its end: the leaves that have been read and those that
are still to come make up the same list at each step. -/
theorem descendAll_leaves : (ps : List Piece) → {position : Nat} → {l m : Level} →
    descendAll position ps l = .ok m → l.kind ≠ some .credit → .credit ∉ kinds ps →
    (∀ level ∈ levelsAll ps, Grammatical level) →
    m.coursesWith [] = l.coursesWith ps ∧ m.rulesWith [] = l.rulesWith ps
  | [], _, _, _, h, _, _, _ => by
      cases h
      exact ⟨rfl, rfl⟩
  | .plain c hplain :: rest, position, l, m, h, hl, hps, hlevels => by
      obtain ⟨next, hnext, hrest⟩ := bind_eq_ok.1 h
      have hdash : .credit ∉ kinds [plain c hplain] :=
        fun hmem => hps (mem_kinds_cons.2 (Or.inl hmem))
      have hkind : next.kind ≠ some .credit := by
        rw [ne_eq, descend_kind hnext]
        exact not_or.2 ⟨hl, hdash⟩
      obtain ⟨hcourses, hrules⟩ := descendAll_leaves rest hrest hkind
        (fun hmem => hps (mem_kinds_cons.2 (Or.inr hmem))) hlevels
      rw [hcourses, hrules]
      refine Level.read_leaves hnext fun hop => hdash ?_
      rw [kinds_operator hop]
      exact List.mem_cons_self
  | .paren inside :: rest, position, l, m, h, hl, hps, hlevels => by
      obtain ⟨next, hnext, hrest⟩ := bind_eq_ok.1 h
      obtain ⟨around, level, closed, group, hflush, hkind, hlevel, hclosed, hgroup, rfl⟩ :=
        descend_paren_eq_ok.1 hnext
      have hlevelsAll : levelsAll (.paren inside :: rest) =
          inside :: (levelsAll inside ++ levelsAll rest) :=
        rfl
      rw [hlevelsAll, List.forall_mem_cons, List.forall_mem_append] at hlevels
      obtain ⟨hinside, hwithin, hlevels⟩ := hlevels
      have hleaves : group.LeavesFrom inside := by
        by_cases hdash : '-' ∈ operators inside
        · exact leavesFrom_of_dash hinside hlevel hclosed hgroup hdash
        · refine leavesFrom_of_no_dash hlevel hclosed hgroup hdash ?_
          exact descendAll_leaves inside hlevel nofun (mt credit_mem_kinds.1 hdash) hwithin
      obtain ⟨hcourses, hrules⟩ := descendAll_leaves rest hrest hkind hps hlevels
      rw [hcourses, hrules]
      exact Level.push_leaves hflush hl hleaves

end Piece

/-- A text that is read into a group falls into levels, and the leaves of the group are those that
its levels name, in their order: the first course of each chunk outside of levels with a dash, and
the credit rule of each level with a dash. -/
theorem Group.leavesFrom_of_parse {limit : Nat} {text : String} {g : Group}
    (h : parse limit text = .ok g) :
    (∃ ps, Piece.charsAll ps = text.toList) ∧
      ∀ ps, Piece.charsAll ps = text.toList → g.LeavesFrom ps := by
  refine ⟨(balanced_of_parse h).exists_pieces, fun ps hps => ?_⟩
  obtain ⟨_, _, hlevels⟩ := (exists_parse_pieces hps).1 ⟨g, h⟩
  rw [List.forall_mem_cons] at hlevels
  obtain ⟨_, _, m, closed, hm, hclosed, hgroup⟩ := (parse_pieces_eq_ok hps).1 h
  by_cases hdash : '-' ∈ Piece.operators ps
  · exact Piece.leavesFrom_of_dash hlevels.1 hm hclosed hgroup hdash
  · refine Piece.leavesFrom_of_no_dash hm hclosed hgroup hdash ?_
    exact Piece.descendAll_leaves ps hm nofun (mt Piece.credit_mem_kinds.1 hdash) hlevels.2

namespace Sample

def plainText (text : String) : List Piece :=
  text.toList.filterMap fun c => if h : c ≠ '(' ∧ c ≠ ')' then some (.plain c h) else none

/-- `math 240 / (6-34-math) (math 240)` -/
def besideRule : List Piece :=
  plainText "math 240 / " ++ .paren (plainText "6-34-math") :: plainText " " ++
    [.paren (plainText "math 240")]

end Sample

open Sample in
/-- Merging the last parentheses into the choice keeps both courses. -/
theorem Group.leavesFrom_besideRule :
    ∃ g, parse 1 "math 240 / (6-34-math) (math 240)" = .ok g ∧ g.courses = [math, math] ∧
      g.creditRules = [⟨6, "34", [math.subject]⟩] := by
  have hread : (parse 1 "math 240 / (6-34-math) (math 240)").toOption.isSome := by decide +kernel
  cases hparse : parse 1 "math 240 / (6-34-math) (math 240)" with
  | error e =>
      rw [hparse] at hread
      cases hread
  | ok g =>
      obtain ⟨hcourses, hrules⟩ := (leavesFrom_of_parse hparse).2 besideRule (by decide +kernel)
      have hsaid : (Piece.courseChunks besideRule).map Piece.firstCourse? =
          [math, math].map some := by
        decide +kernel
      have hasked : ((Piece.creditLevels besideRule).map Piece.creditRule).map Except.toOption =
          [⟨6, "34", [math.subject]⟩].map some := by
        decide +kernel
      rw [← hrules, List.map_map] at hasked
      refine ⟨g, rfl, ?_, ?_⟩
      · exact (List.map_inj_right fun _ _ => Option.some.inj).1 (hcourses.trans hsaid)
      · exact (List.map_inj_right fun _ _ => Option.some.inj).1 hasked

end Curriculum
