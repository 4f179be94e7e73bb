import Curriculum.Text.Remainder
import Curriculum.Toml.Scalar

/-!
# TOML strings

Strings stand in double quotes, where a backslash escapes, or in single quotes, where nothing
does. Three quotes open a string over several lines; a line break right after them is dropped,
and a line break in the string is one line feed however it is written.
-/

namespace Curriculum.Toml

open Text (Remainder)

def isWhite (c : Char) : Bool := c == ' ' || c == '\t'

/-- A character that may stand in a string or a comment: all but control characters. -/
def isTextChar (c : Char) : Bool := c == '\t' || (0x20 ≤ c.toNat && c.toNat != 0x7F)

/-- The character of a code point, unless it is half of a surrogate pair or none at all. -/
def scalarChar? (n : Nat) : Option Char :=
  if h : n.isValidChar then some (Char.ofNatAux n h) else none

def hexChar? (ds : List Char) : Option Char :=
  if ds.all isHexDigit then scalarChar? (valueOf 16 ds) else none

/-- The character behind a backslash. -/
def escape? : (cs : List Char) → Option (Char × Remainder cs)
  | 'b' :: rest => some ('\x08', .tail _ rest)
  | 't' :: rest => some ('\t', .tail _ rest)
  | 'n' :: rest => some ('\n', .tail _ rest)
  | 'f' :: rest => some ('\x0c', .tail _ rest)
  | 'r' :: rest => some ('\r', .tail _ rest)
  | '"' :: rest => some ('"', .tail _ rest)
  | '\\' :: rest => some ('\\', .tail _ rest)
  | 'u' :: a :: b :: c :: d :: rest =>
    (hexChar? [a, b, c, d]).map (·, ((((Remainder.tail d rest).after c).after b).after a).after 'u')
  | 'U' :: a :: b :: c :: d :: e :: f :: g :: h :: rest =>
    (hexChar? [a, b, c, d, e, f, g, h]).map
      (·, ((((((((Remainder.tail h rest).after g).after f).after e).after d).after c).after b).after
        a).after 'U')
  | _ => none

/-- The rest of a string in double quotes. -/
def readBasic (cs : List Char) : Option (List Char × Remainder cs) :=
  match cs with
  | '"' :: rest => some ([], .tail _ rest)
  | '\\' :: rest => do
    let (c, r) ← escape? rest
    have := r.shorter
    let (text, s) ← readBasic r.chars
    return (c :: text, (r.trans s).after '\\')
  | c :: rest =>
    if isTextChar c then do
      let (text, r) ← readBasic rest
      return (c :: text, r.after c)
    else none
  | [] => none
termination_by cs.length

/-- The rest of a string in single quotes. -/
def readLiteral : (cs : List Char) → Option (List Char × Remainder cs)
  | '\'' :: rest => some ([], .tail _ rest)
  | c :: rest =>
    if isTextChar c then do
      let (text, r) ← readLiteral rest
      return (c :: text, r.after c)
    else none
  | [] => none

/-- What to do with white space and line breaks behind a backslash. -/
inductive Joining where
  | no
  /-- The line must end before anything else. -/
  | toLineEnd
  /-- The line has ended; what is blank goes with it. -/
  | toText
deriving DecidableEq

/-- Up to two quotes that belong to the text stand before the three that close it. -/
def closeQuotes (quote : Char) (rest : List Char) :
    List Char × { r : List Char // r.length ≤ rest.length } :=
  match rest with
  | a :: b :: r =>
    if a = quote ∧ b = quote then
      ([quote, quote], ⟨r, by simp only [List.length_cons]; omega⟩)
    else if a = quote then ([quote], ⟨b :: r, by simp⟩)
    else ([], ⟨a :: b :: r, Nat.le_refl _⟩)
  | [a] => if a = quote then ([quote], ⟨[], by simp⟩) else ([], ⟨[a], Nat.le_refl _⟩)
  | [] => ([], ⟨[], Nat.le_refl _⟩)

/-- Three quotes at the front, with the quotes of the text before them. -/
def close? (quote : Char) : (cs : List Char) → Option (List Char × Remainder cs)
  | a :: b :: c :: rest =>
    if a = quote ∧ b = quote ∧ c = quote then
      let (text, r) := closeQuotes quote rest
      some (text, ⟨r.1, by have := r.2; simp only [List.length_cons]; omega⟩)
    else none
  | _ => none

/-- A line break at the front. -/
def newline? : (cs : List Char) → Option (Remainder cs)
  | '\n' :: rest => some (.tail _ rest)
  | '\r' :: '\n' :: rest => some ((Remainder.tail '\n' rest).after '\r')
  | _ => none

/-- The rest of a string in three double quotes. -/
def readLongBasic (joining : Joining) (cs : List Char) : Option (List Char × Remainder cs) :=
  match newline? cs with
  | some r => do
    have := r.shorter
    let (text, s) ← readLongBasic (if joining = .no then .no else .toText) r.chars
    return (if joining = .no then '\n' :: text else text, r.trans s)
  | none =>
    match cs with
    | [] => none
    | c :: rest =>
      if joining ≠ .no ∧ isWhite c then do
        let (text, r) ← readLongBasic joining rest
        return (text, r.after c)
      else if joining = .toLineEnd then none
      else
        match close? '"' (c :: rest) with
        | some found => some found
        | none =>
          if c = '\\' then
            match escape? rest with
            | some (e, r) => do
              have := r.shorter
              let (text, s) ← readLongBasic .no r.chars
              return (e :: text, (r.trans s).after c)
            | none => do
              let (text, r) ← readLongBasic .toLineEnd rest
              return (text, r.after c)
          else if isTextChar c then do
            let (text, r) ← readLongBasic .no rest
            return (c :: text, r.after c)
          else none
termination_by cs.length

/-- The rest of a string in three single quotes. -/
def readLongLiteral (cs : List Char) : Option (List Char × Remainder cs) :=
  match newline? cs with
  | some r => do
    have := r.shorter
    let (text, s) ← readLongLiteral r.chars
    return ('\n' :: text, r.trans s)
  | none =>
    match cs with
    | [] => none
    | c :: rest =>
      match close? '\'' (c :: rest) with
      | some found => some found
      | none =>
        if isTextChar c then do
          let (text, r) ← readLongLiteral rest
          return (c :: text, r.after c)
        else none
termination_by cs.length

/-- A string over several lines, behind its opening quotes. -/
def readLong (isBasic : Bool) (cs : List Char) : Option (List Char × Remainder cs) :=
  let read (cs : List Char) : Option (List Char × Remainder cs) :=
    if isBasic then readLongBasic .no cs else readLongLiteral cs
  match newline? cs with
  | some r => (read r.chars).map fun (text, s) => (text, r.trans s)
  | none => read cs

/-- A string of any kind, from its first quote on. -/
def readString? : (cs : List Char) → Option (List Char × Remainder cs)
  | '"' :: '"' :: '"' :: rest =>
    (readLong true rest).map fun (text, r) => (text, ((r.after '"').after '"').after '"')
  | '\'' :: '\'' :: '\'' :: rest =>
    (readLong false rest).map fun (text, r) => (text, ((r.after '\'').after '\'').after '\'')
  | '"' :: rest => (readBasic rest).map fun (text, r) => (text, r.after '"')
  | '\'' :: rest => (readLiteral rest).map fun (text, r) => (text, r.after '\'')
  | _ => none

end Curriculum.Toml
