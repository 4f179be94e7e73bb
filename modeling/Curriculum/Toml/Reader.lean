import Curriculum.Toml.Text

/-!
# Reading TOML

A document is read line by line into its root table, under the header that was met last. Arrays
and inline tables nest at most `Toml.nestingLimit` deep, and a key has at most as many parts.
-/

namespace Curriculum.Toml

open Text (Remainder)

def nestingLimit : Nat := 79

def isBareKeyChar (c : Char) : Bool := c.isAlphanum || c == '-' || c == '_'

/-- One part of a key, bare or quoted. -/
def readKeyPart? : (cs : List Char) → Option (String × Remainder cs)
  | '"' :: rest => (readBasic rest).map fun (text, r) => (String.ofList text, r.after '"')
  | '\'' :: rest => (readLiteral rest).map fun (text, r) => (String.ofList text, r.after '\'')
  | c :: rest =>
    if isBareKeyChar c then
      some (String.ofList (c :: rest.takeWhile isBareKeyChar),
        (Remainder.tail c rest).dropWhile isBareKeyChar)
    else none
  | [] => none

/-- A key: parts with dots between them and white space anywhere around. -/
def readKey (cs : List Char) : Option (List String × Remainder cs) :=
  match cs with
  | [] => none
  | c :: rest =>
    if isWhite c then do
      let (parts, r) ← readKey rest
      return (parts, r.after c)
    else do
      let (part, r) ← readKeyPart? (c :: rest)
      let r := r.dropWhile isWhite
      match h : r.chars with
      | '.' :: more => do
        have hmore : more.length < rest.length := by
          have := r.length_le
          rw [h, List.length_cons] at this
          omega
        let (parts, s) ← readKey more
        return (part :: parts, ⟨s.chars, Nat.lt_succ_of_lt (Nat.lt_trans s.shorter hmore)⟩)
      | _ => return ([part], r)
termination_by cs.length

/-- A key that is not too long, split into its path and its last part. -/
def splitKey? (parts : List String) : Option (List String × String) :=
  if parts.length ≤ nestingLimit then parts.getLast?.map (parts.dropLast, ·) else none

/-- What is left of a text behind a comment, whose first character is given. -/
def afterComment (c : Char) (rest : List Char) : Remainder (c :: rest) :=
  (Remainder.tail c rest).dropWhile isTextChar

/-- A scalar that is no string. A date may go on with a time behind a space. -/
def readScalar (c : Char) (rest : List Char) : Option (Toml × Remainder (c :: rest)) :=
  let run := c :: rest.takeWhile isScalarChar
  let r := (Remainder.tail c rest).dropWhile isScalarChar
  match h : r.chars with
  | ' ' :: d :: more =>
    if isDate run ∧ d.isDigit then do
      let v ← scalar? (run ++ ' ' :: d :: more.takeWhile isScalarChar)
      return (v, ⟨more.dropWhile isScalarChar, by
        have h₁ := (List.dropWhile_suffix (l := more) isScalarChar).length_le
        have h₂ := r.shorter
        rw [h] at h₂
        simp only [List.length_cons] at h₂ ⊢
        omega⟩)
    else (scalar? run).map (·, r)
  | _ => (scalar? run).map (·, r)

mutual

/-- Reads a value, in which `depth` more arrays and inline tables may nest. -/
def readValue (depth : Nat) (cs : List Char) : Option (Toml × Remainder cs) :=
  match cs with
  | [] => none
  | c :: rest =>
    if c = '"' ∨ c = '\'' then
      (readString? (c :: rest)).map fun (text, r) => (.string (String.ofList text), r)
    else if c = '[' then
      if depth = 0 then none
      else do
        let (items, r) ← readItems (depth - 1) true rest
        return (.array items, r.after c)
    else if c = '\x7b' then
      if depth = 0 then none
      else do
        let (members, r) ← readMembers (depth - 1) true rest
        let entries ← members.foldlM (fun (entries : Entries) (path, key, v) =>
          addValue path key v ⟨.inline, entries⟩) []
        return (.table .inline entries, r.after c)
    else readScalar c rest
termination_by 3 * cs.length

/-- Reads the rest of an array. An item is wanted at the start and behind a comma, where the
array may end as well. -/
def readItems (depth : Nat) (wantsItem : Bool) (cs : List Char) :
    Option (List Toml × Remainder cs) :=
  match newline? cs with
  | some r => do
    have := r.shorter
    let (items, s) ← readItems depth wantsItem r.chars
    return (items, r.trans s)
  | none =>
    match cs with
    | [] => none
    | c :: rest =>
      if isWhite c then do
        let (items, r) ← readItems depth wantsItem rest
        return (items, r.after c)
      else if c = '#' then do
        have := (afterComment c rest).length_le
        let (items, s) ← readItems depth wantsItem (afterComment c rest).chars
        return (items, (afterComment c rest).trans s)
      else if c = ']' then some ([], .tail c rest)
      else if wantsItem then do
        let (item, r) ← readValue depth (c :: rest)
        have := r.length_le
        let (items, s) ← readItems depth false r.chars
        return (item :: items, r.trans s)
      else if c = ',' then do
        let (items, r) ← readItems depth true rest
        return (items, r.after c)
      else none
termination_by 3 * cs.length + 1

/-- Reads the rest of an inline table, which stands on one line. -/
def readMembers (depth : Nat) (isFirst : Bool) (cs : List Char) :
    Option (List (List String × String × Toml) × Remainder cs) :=
  match cs with
  | [] => none
  | c :: rest =>
    if isWhite c then do
      let (members, r) ← readMembers depth isFirst rest
      return (members, r.after c)
    else if c = '\x7d' then some ([], .tail c rest)
    else if isFirst then do
      let (first, r) ← readMember depth (c :: rest)
      have := r.length_le
      let (others, s) ← readMembers depth false r.chars
      return (first :: others, r.trans s)
    else if c = ',' then do
      let (next, r) ← readMember depth rest
      have := r.shorter
      let (others, s) ← readMembers depth false r.chars
      return (next :: others, (r.trans s).after c)
    else none
termination_by 3 * cs.length + 2

/-- Reads a key, the sign of equality and a value. -/
def readMember (depth : Nat) (cs : List Char) :
    Option ((List String × String × Toml) × Remainder cs) := do
  let (parts, r) ← readKey cs
  let (path, key) ← splitKey? parts
  match h : r.chars with
  | '=' :: rest => do
    have hs : (rest.dropWhile isWhite).length < cs.length := by
      have h₁ := (List.dropWhile_suffix (l := rest) isWhite).length_le
      have h₂ := r.shorter
      rw [h, List.length_cons] at h₂
      exact Nat.lt_of_le_of_lt h₁ (Nat.lt_trans (Nat.lt_succ_self _) h₂)
    let (v, t) ← readValue depth (rest.dropWhile isWhite)
    return ((path, key, v), ⟨t.chars, Nat.lt_trans t.shorter hs⟩)
  | _ => none
termination_by 3 * cs.length + 1

end

/-- A header in single or double brackets, from its first bracket on. -/
def readHeader? (cs : List Char) : Option (Bool × List String × String × Remainder cs) :=
  match cs with
  | '[' :: '[' :: rest => do
    let (parts, r) ← readKey rest
    let (path, key) ← splitKey? parts
    match h : r.chars with
    | ']' :: ']' :: more => some (true, path, key, ⟨more, by
        have := r.shorter
        rw [h] at this
        simp only [List.length_cons] at this ⊢
        omega⟩)
    | _ => none
  | '[' :: rest => do
    let (parts, r) ← readKey rest
    let (path, key) ← splitKey? parts
    match h : r.chars with
    | ']' :: more => some (false, path, key, ⟨more, by
        have := r.shorter
        rw [h] at this
        simp only [List.length_cons] at this ⊢
        omega⟩)
    | _ => none
  | _ => none

/-- The end of a line: white space, a comment, and a line break or the end of the text. -/
def endLine? (cs : List Char) : Option { rest : List Char // rest.length ≤ cs.length } :=
  let blank := cs.dropWhile isWhite
  have hblank := (List.dropWhile_suffix (l := cs) isWhite).length_le
  let rest := if blank.head? = some '#' then blank.dropWhile isTextChar else blank
  have hrest : rest.length ≤ cs.length := by
    simp only [rest]
    split
    · exact Nat.le_trans (List.dropWhile_suffix _).length_le hblank
    · exact hblank
  match rest, hrest with
  | [], _ => some ⟨[], Nat.zero_le _⟩
  | r, hr => (newline? r).map fun s => ⟨s.chars, Nat.le_trans (Nat.le_of_lt s.shorter) hr⟩

/-- Reads lines into a root table, under a header. -/
def readLines (root : Entries) (header : List String) (cs : List Char) : Option Entries :=
  match cs with
  | [] => some root
  | c :: rest =>
    if isWhite c then readLines root header rest
    else if c = '#' ∨ c = '\n' ∨ c = '\r' then
      match newline? (c :: rest) with
      | some r =>
        have := r.length_le
        readLines root header r.chars
      | none =>
        if c = '#' then
          match newline? (afterComment c rest).chars with
          | some s =>
            have : s.chars.length < rest.length + 1 :=
              Nat.lt_trans s.shorter (afterComment c rest).shorter
            readLines root header s.chars
          | none => if (afterComment c rest).chars.isEmpty then some root else none
        else none
    else if c = '[' then do
      let (isArray, path, key, r) ← readHeader? (c :: rest)
      let next ← alterAt false (if isArray then extendTables key else defineTable key) path
        ⟨.header, root⟩
      let s ← endLine? r.chars
      have : s.1.length < rest.length + 1 := Nat.lt_of_le_of_lt s.2 r.shorter
      readLines next (path ++ [key]) s.1
    else do
      let ((path, key, v), r) ← readMember nestingLimit (c :: rest)
      let next ← alterAt false (addValue path key v) header ⟨.header, root⟩
      let s ← endLine? r.chars
      have : s.1.length < rest.length + 1 := Nat.lt_of_le_of_lt s.2 r.shorter
      readLines next header s.1
termination_by cs.length

/-- Reads a document into its root table. A mark of byte order in front is passed over. -/
def parse? (text : String) : Option Entries :=
  match text.toList with
  | '\uFEFF' :: cs => readLines [] [] cs
  | cs => readLines [] [] cs

end Curriculum.Toml
