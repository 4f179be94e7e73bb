import Curriculum.Json.Number

/-!
# Reading JSON

A document is one value with blanks around it. Containers nested more than
`Json.nestingLimit` deep are checked for their form only and come out unreadable.
-/

namespace Curriculum.Json

open Text (Remainder)

def nestingLimit : Nat := 127

/-- The four characters that may stand between tokens. -/
def isBlank (c : Char) : Bool := c == ' ' || c == '\t' || c == '\n' || c == '\r'

/-- A piece of a string: a character as it is, or a 16-bit unit written as an escape. -/
inductive Piece where
  | char (c : Char)
  | unit (n : Nat)

namespace Piece

def isLeading (n : Nat) : Bool := 0xD800 ≤ n && n < 0xDC00

def isTrailing (n : Nat) : Bool := 0xDC00 ≤ n && n < 0xE000

/-- Joins surrogate pairs; a half without its other half stands for no text. -/
def decode? : List Piece → Option (List Char)
  | [] => some []
  | .char c :: rest => (decode? rest).map (c :: ·)
  | .unit a :: .unit b :: rest =>
    if isLeading a then
      if isTrailing b then
        (decode? rest).map (Char.ofNat (0x10000 + (a - 0xD800) * 0x400 + (b - 0xDC00)) :: ·)
      else none
    else if isTrailing a then none
    else (decode? (.unit b :: rest)).map (Char.ofNat a :: ·)
  | .unit a :: rest =>
    if isLeading a || isTrailing a then none else (decode? rest).map (Char.ofNat a :: ·)

end Piece

def hexDigit? (c : Char) : Option Nat :=
  if c.isDigit then some (c.toNat - '0'.toNat)
  else if 'a' ≤ c && c ≤ 'f' then some (c.toNat - 'a'.toNat + 10)
  else if 'A' ≤ c && c ≤ 'F' then some (c.toNat - 'A'.toNat + 10)
  else none

/-- The character that a one-letter escape stands for. -/
def escaped? : Char → Option Char
  | '"' => some '"'
  | '\\' => some '\\'
  | '/' => some '/'
  | 'b' => some '\x08'
  | 'f' => some '\x0c'
  | 'n' => some '\n'
  | 'r' => some '\r'
  | 't' => some '\t'
  | _ => none

/-- The unit that four hexadecimal digits spell. -/
def unit? (a b c d : Char) : Option Nat := do
  let high := (← hexDigit? a) * 16 + (← hexDigit? b)
  let low := (← hexDigit? c) * 16 + (← hexDigit? d)
  return high * 256 + low

/-- The pieces of a string up to its closing quote. -/
def readPieces : (cs : List Char) → Option (List Piece × Remainder cs)
  | '"' :: rest => some ([], .tail _ rest)
  | '\\' :: 'u' :: a :: b :: c :: d :: rest => do
    let n ← unit? a b c d
    let (pieces, r) ← readPieces rest
    return (.unit n :: pieces,
      (((((r.after d).after c).after b).after a).after 'u').after '\\')
  | '\\' :: e :: rest => do
    let c ← escaped? e
    let (pieces, r) ← readPieces rest
    return (.char c :: pieces, (r.after e).after '\\')
  | c :: rest =>
    if c.toNat < 0x20 || c == '\\' then none
    else do
      let (pieces, r) ← readPieces rest
      return (.char c :: pieces, r.after c)
  | [] => none

/-- The whole part of a number: a single zero, or digits that do not start with one. -/
def isWholePart : List Char → Bool
  | [] => false
  | ['0'] => true
  | d :: _ => d != '0'

/-- Splits off the fraction, which has at least one digit after its point. -/
def readFraction : List Char → Option (List Char × List Char)
  | '.' :: rest =>
    if (rest.takeWhile Char.isDigit).isEmpty then none
    else some (rest.takeWhile Char.isDigit, rest.dropWhile Char.isDigit)
  | cs => some ([], cs)

def readExponentDigits (isNegative : Bool) (cs : List Char) :
    Option (Option (Bool × List Char) × List Char) :=
  if (cs.takeWhile Char.isDigit).isEmpty then none
  else some (some (isNegative, cs.takeWhile Char.isDigit), cs.dropWhile Char.isDigit)

def readExponent : List Char → Option (Option (Bool × List Char) × List Char)
  | c :: rest =>
    if c == 'e' || c == 'E' then
      match rest with
      | '+' :: digits => readExponentDigits false digits
      | '-' :: digits => readExponentDigits true digits
      | digits => readExponentDigits false digits
    else some (none, c :: rest)
  | [] => some (none, [])

/-- Reads a whole number literal. -/
def literal? (cs : List Char) : Option Literal := do
  let (isNegative, body) : Bool × List Char :=
    match cs with
    | '-' :: rest => (true, rest)
    | _ => (false, cs)
  let whole := body.takeWhile Char.isDigit
  if isWholePart whole then
    let (fraction, rest) ← readFraction (body.dropWhile Char.isDigit)
    let (exponent, rest) ← readExponent rest
    if rest.isEmpty then some ⟨isNegative, whole, fraction, exponent⟩ else none
  else none

/-- The characters of words and numbers; what follows either is none of them. -/
def isScalarChar (c : Char) : Bool := c.isAlphanum || c == '-' || c == '+' || c == '.'

/-- The value that a word or a number stands for. -/
def scalar? (cs : List Char) : Option Json :=
  if cs = "null".toList then some .null
  else if cs = "true".toList then some (.bool true)
  else if cs = "false".toList then some (.bool false)
  else (literal? cs).map Literal.toJson

def stringValue (pieces : List Piece) : Json :=
  match Piece.decode? pieces with
  | some cs => .string (String.ofList cs)
  | none => .unreadable

/-- A container that may still be entered, or `unreadable` past the limit. -/
def guarded (depth : Nat) (v : Json) : Json := if depth = 0 then .unreadable else v

/-- The members of an object, unless a key stands for no text. -/
def objectValue (members : List (Option String × Json)) : Json :=
  if members.all fun m => m.1.isSome then
    .object (members.filterMap fun m => m.1.map (·, m.2))
  else .unreadable

/-- Takes the colon between a key and its value. -/
def readColon (cs : List Char) : Option (Remainder cs) :=
  match cs with
  | c :: rest =>
    if isBlank c then
      (readColon rest).map (·.after c)
    else if c == ':' then some (.tail c rest)
    else none
  | [] => none

mutual

/-- Reads one value, with `depth` more containers to be entered at most. -/
def readValue (depth : Nat) (cs : List Char) : Option (Json × Remainder cs) :=
  match cs with
  | [] => none
  | c :: rest =>
    if isBlank c then do
      let (v, r) ← readValue depth rest
      return (v, r.after c)
    else if c == '"' then do
      let (pieces, r) ← readPieces rest
      return (stringValue pieces, r.after c)
    else if c == '[' then do
      let (items, r) ← readItems (depth - 1) true rest
      return (guarded depth (.array items), r.after c)
    else if c == '\x7b' then do
      let (members, r) ← readMembers (depth - 1) true rest
      return (guarded depth (objectValue members), r.after c)
    else do
      let v ← scalar? (c :: rest.takeWhile isScalarChar)
      return (v, (Remainder.tail c rest).dropWhile isScalarChar)
termination_by 2 * cs.length

/-- Reads the rest of an array, after its opening bracket or after an item of it. -/
def readItems (depth : Nat) (isFirst : Bool) (cs : List Char) :
    Option (List Json × Remainder cs) :=
  match cs with
  | [] => none
  | c :: rest =>
    if isBlank c then do
      let (items, r) ← readItems depth isFirst rest
      return (items, r.after c)
    else if c == ']' then some ([], .tail c rest)
    else if isFirst then do
      let (first, r) ← readValue depth (c :: rest)
      have := r.length_le
      let (others, s) ← readItems depth false r.chars
      return (first :: others, r.trans s)
    else if c == ',' then do
      let (next, r) ← readValue depth rest
      have := r.shorter
      let (others, s) ← readItems depth false r.chars
      return (next :: others, (r.trans s).after c)
    else none
termination_by 2 * cs.length + 1

/-- Reads the rest of an object, after its opening brace or after a member of it. -/
def readMembers (depth : Nat) (isFirst : Bool) (cs : List Char) :
    Option (List (Option String × Json) × Remainder cs) :=
  match cs with
  | [] => none
  | c :: rest =>
    if isBlank c then do
      let (members, r) ← readMembers depth isFirst rest
      return (members, r.after c)
    else if c == '\x7d' then some ([], .tail c rest)
    else if isFirst then do
      let (first, r) ← readMember depth (c :: rest)
      have := r.length_le
      let (others, s) ← readMembers depth false r.chars
      return (first :: others, r.trans s)
    else if c == ',' then do
      let (next, r) ← readMember depth rest
      have := r.shorter
      let (others, s) ← readMembers depth false r.chars
      return (next :: others, (r.trans s).after c)
    else none
termination_by 2 * cs.length + 1

/-- Reads a key and its value; the key is absent when it stands for no text. -/
def readMember (depth : Nat) (cs : List Char) :
    Option ((Option String × Json) × Remainder cs) :=
  match cs with
  | [] => none
  | c :: rest =>
    if isBlank c then do
      let (member, r) ← readMember depth rest
      return (member, r.after c)
    else if c == '"' then do
      let (pieces, r) ← readPieces rest
      let s ← readColon r.chars
      have := (r.trans s).shorter
      let (v, t) ← readValue depth (r.trans s).chars
      return (((Piece.decode? pieces).map String.ofList, v), ((r.trans s).trans t).after c)
    else none
termination_by 2 * cs.length

end

/-- Reads a document: one value, and blanks to its end. -/
def parse? (text : String) : Option Json := do
  let (v, r) ← readValue nestingLimit text.toList
  if r.chars.all isBlank then some v else none

end Curriculum.Json
