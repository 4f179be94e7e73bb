import Std.Data.ExtTreeSet.Basic

/-!
# TOML tables

A document is a table of keys and values. A table comes into being by a header of its own, by a
header of a table further down, by a dotted key, or inline as a value; this decides what may still
be added to it. A header may not define a table twice, a dotted key may not reach into a table
that has a header, and an inline table is finished once it is written.
-/

namespace Curriculum

inductive TomlOrigin where
  | header
  /-- Named on the way by the header of a table further down. -/
  | implied
  | dotted
  | inline
deriving DecidableEq

inductive Toml where
  | integer (n : Int)
  | float (literal : String)
  | boolean (b : Bool)
  | string (s : String)
  | dateTime (literal : String)
  | array (items : List Toml)
  | table (origin : TomlOrigin) (entries : List (String × Toml))
  /-- Tables that share a header in double brackets. -/
  | tables (elements : List (List (String × Toml)))

namespace Toml

abbrev Entries := List (String × Toml)

def get? (entries : Entries) (key : String) : Option Toml :=
  (entries.find? fun e => e.1 == key).map Prod.snd

/-- Puts a value in place of that of a key, or at the end. -/
def set (key : String) (v : Toml) : Entries → Entries
  | [] => [(key, v)]
  | e :: rest => if e.1 = key then (key, v) :: rest else e :: set key v rest

/-- A table as it is met on the way down a path. -/
structure Site where
  origin : TomlOrigin
  entries : Entries

/-- Changes the table at the end of a path. Tables that are not there are made on the way: by
a dotted key or by a header. -/
def alterAt (dotted : Bool) (change : Site → Option Entries) :
    List String → Site → Option Entries
  | [], site => change site
  | key :: path, site =>
    let made : TomlOrigin := if dotted then .dotted else .implied
    match get? site.entries key with
    | none => do
      let inner ← alterAt dotted change path ⟨made, []⟩
      return set key (.table made inner) site.entries
    | some (.table origin entries) =>
      if origin = .inline ∨ (dotted ∧ origin = .header) then none
      else do
        let inner ← alterAt dotted change path ⟨origin, entries⟩
        return set key (.table origin inner) site.entries
    | some (.tables elements) =>
      match elements.getLast? with
      | none => none
      | some entries => do
        let inner ← alterAt dotted change path ⟨.header, entries⟩
        return set key (.tables (elements.dropLast ++ [inner])) site.entries
    | some _ => none

/-- Adds a key to a table. Behind dots, the table must be one that dotted keys have made. -/
def addKey (dotted : Bool) (key : String) (v : Toml) (site : Site) : Option Entries :=
  if dotted ∧ site.origin ≠ .dotted then none
  else if (get? site.entries key).isSome then none
  else some (set key v site.entries)

/-- Adds a key, which may be dotted, to a table. -/
def addValue (path : List String) (key : String) (v : Toml) (site : Site) : Option Entries :=
  alterAt true (addKey (!path.isEmpty) key v) path site

/-- Gives a table its header. -/
def defineTable (key : String) (site : Site) : Option Entries :=
  match get? site.entries key with
  | none => some (set key (.table .header []) site.entries)
  | some (.table .implied entries) => some (set key (.table .header entries) site.entries)
  | some _ => none

/-- Starts another table under a header in double brackets. -/
def extendTables (key : String) (site : Site) : Option Entries :=
  match get? site.entries key with
  | none => some (set key (.tables [[]]) site.entries)
  | some (.tables elements) => some (set key (.tables (elements ++ [[]])) site.entries)
  | some _ => none

end Toml

end Curriculum
