import Curriculum.Course.Extract
import Curriculum.Group.Simplify

/-!
# Reading requisite text

The text is read character by character over a stack of open parenthesis levels. Each level
learns its operator from the first one that stands in it. Blanks and quotes are skipped and do
not end a chunk; operators and parentheses do. A chunk names a course, the first one that is
found in it, or belongs to a credit rule where the operator is a dash.
-/

namespace Curriculum

/-- Characters skipped without ending a chunk. -/
def isSkipped (c : Char) : Bool :=
  c == '"' || c == '\'' || c == ' ' || c == '\t' || c == '\n' || c == '\r'

/-- One parenthesis level under construction. -/
structure Level where
  kind : Option GroupKind
  children : List Node
  creditChunks : List String
  /-- The chunk that has not ended yet. -/
  pending : List Char

namespace Level

def initial : Level := ⟨none, [], [], []⟩

/-- Sets the operator, or checks that it is the one set before. -/
def setOperator (l : Level) (op : Char) (kind : GroupKind) (position : Nat) :
    Except ParseError Level :=
  match l.kind with
  | none =>
    if kind = .credit ∧ l.children ≠ [] then .error (.nestedCredit position)
    else .ok { l with kind := some kind }
  | some current =>
    if current = kind then .ok l
    else .error (.mixedOperators (current.operator?.getD op) op position)

/-- Ends the pending chunk. A chunk of no characters says nothing. -/
def flush (l : Level) (position : Nat) : Except ParseError Level :=
  if l.pending = [] then .ok l
  else
    let upper := String.ofList (l.pending.map Char.toUpper)
    if l.kind = some .credit then
      .ok { l with creditChunks := l.creditChunks ++ [upper], pending := [] }
    else
      match extractFirst? upper with
      | some id => .ok { l with children := l.children ++ [.course id], pending := [] }
      | none => .error (.unresolvedCourse (String.ofList l.pending) position)

/-- The group of a finished level, before it is simplified. -/
def group (l : Level) : Except ParseError Group :=
  match l.kind with
  | none => .ok (if l.children = [] then .empty else .join .single l.children)
  | some .credit => (CreditRule.ofChunks l.creditChunks).map .credit
  | some kind => if l.children = [] then .error .empty else .ok (.ofKind kind l.children)

def finish (l : Level) : Except ParseError Group := l.group.map Group.simplify

end Level

/-- The levels that are open, the innermost first and the outermost apart. -/
structure ParseState where
  current : Level
  enclosing : List Level

namespace ParseState

def initial : ParseState := ⟨.initial, []⟩

def openLevel (limit position : Nat) (s : ParseState) : Except ParseError ParseState := do
  let level ← s.current.flush position
  if level.kind = some .credit then .error (.nestedCredit position)
  else if limit ≤ s.enclosing.length then .error (.tooDeep limit)
  else .ok ⟨.initial, level :: s.enclosing⟩

def closeLevel (position : Nat) (s : ParseState) : Except ParseError ParseState :=
  match s.enclosing with
  | [] => .error (.unbalanced position)
  | parent :: others => do
    let level ← s.current.flush position
    let group ← level.finish
    return ⟨{ parent with children := parent.children ++ [.group group] }, others⟩

/-- Reads the character at a position. -/
def step (limit position : Nat) (s : ParseState) (c : Char) : Except ParseError ParseState :=
  if c = '(' then s.openLevel limit position
  else if c = ')' then s.closeLevel position
  else
    match GroupKind.ofOperator? c with
    | some kind => do
      let level ← s.current.setOperator c kind position
      let level ← level.flush position
      return { s with current := level }
    | none =>
      if isSkipped c then .ok s
      else .ok { s with current := { s.current with pending := s.current.pending ++ [c] } }

def run (limit : Nat) (position : Nat) (s : ParseState) : List Char → Except ParseError ParseState
  | [] => .ok s
  | c :: rest => do
    let next ← s.step limit position c
    next.run limit (position + 1) rest

/-- The group of a text read to its end, which is at the given position. -/
def finish (position : Nat) (s : ParseState) : Except ParseError Group :=
  match s.enclosing with
  | [] => do
    let level ← s.current.flush position
    level.finish
  | _ :: _ => .error (.unbalanced position)

end ParseState

namespace Group

/-- How deep parentheses may nest unless it is said otherwise. -/
def defaultNesting : Nat := 32

/-- Reads requisite text whose parentheses nest at most `limit` deep, into a simplified group. -/
def parse (limit : Nat) (text : String) : Except ParseError Group :=
  let cs := text.toList
  if cs.all isSkipped then .error .empty
  else do
    let state ← ParseState.initial.run limit 0 cs
    state.finish cs.length

end Group

end Curriculum
