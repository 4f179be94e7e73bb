import Std.Data.ExtTreeMap.Basic
import Std.Data.ExtTreeSet.Basic
import Curriculum.Json.Value

/-!
# JSON forms

A JSON form writes the values of a type and reads them back. Reading is strict: an integer is
no float, `null` stands only for an optional value, and one wrong part makes the whole fail. A
record is written as an object; it may be read from an array of its fields in their order, too.
Members of an object that name no field are passed over, readable or not.
-/

namespace Curriculum

class JsonForm (α : Type) where
  toJson : α → Json
  ofJson? : Json → Option α

/-- Values that may be the keys of an object. -/
class JsonKey (α : Type) where
  toKey : α → String
  ofKey? : String → Option α

export JsonForm (toJson ofJson?)

namespace JsonForm

/-- An integer in a range that begins at `low` and ends before `high`. -/
def integerIn? (low high : Int) : Json → Option Int
  | .integer n => if low ≤ n ∧ n < high then some n else none
  | _ => none

instance : JsonForm String where
  toJson := .string
  ofJson?
    | .string s => some s
    | _ => none

instance : JsonForm Bool where
  toJson := .bool
  ofJson?
    | .bool b => some b
    | _ => none

instance : JsonForm UInt32 where
  toJson n := .integer n.toNat
  ofJson? v := (integerIn? 0 0x100000000 v).map fun n => UInt32.ofNat n.toNat

instance : JsonForm UInt64 where
  toJson n := .integer n.toNat
  ofJson? v := (integerIn? 0 0x10000000000000000 v).map fun n => UInt64.ofNat n.toNat

instance : JsonForm Int32 where
  toJson n := .integer n.toInt
  ofJson? v := (integerIn? (-0x80000000) 0x80000000 v).map Int32.ofInt

/-- An integer stands for a float as well. -/
instance : JsonForm Float where
  toJson := .float
  ofJson?
    | .float x => some x
    | .integer n => some (Float.ofInt n)
    | _ => none

variable {α K : Type}

instance [JsonForm α] : JsonForm (Option α) where
  toJson
    | none => .null
    | some a => toJson a
  ofJson?
    | .null => some none
    | v => (ofJson? v).map some

instance [JsonForm α] : JsonForm (List α) where
  toJson xs := .array (xs.map toJson)
  ofJson?
    | .array items => items.mapM ofJson?
    | _ => none

instance [JsonForm α] [Ord α] [Std.TransOrd α] : JsonForm (Std.ExtTreeSet α) where
  toJson s := .array (s.toList.map toJson)
  ofJson?
    | .array items =>
      (items.mapM ofJson?).map fun (members : List α) => Std.ExtTreeSet.ofList members
    | _ => none

/-- Of members with the same key the last one counts. -/
instance [JsonKey K] [JsonForm α] [Ord K] [Std.TransOrd K] :
    JsonForm (Std.ExtTreeMap K α) where
  toJson m := .object (m.toList.map fun (k, a) => (JsonKey.toKey k, toJson a))
  ofJson?
    | .object members =>
      (members.mapM fun (key, v) => do
        return (← JsonKey.ofKey? key, ← ofJson? v)).map
          fun (entries : List (K × α)) => Std.ExtTreeMap.ofList entries
    | _ => none

end JsonForm

namespace Json

/-- The value of a field, which may go by several names but not stand twice. -/
def fieldOf? (members : List (String × Json)) (names : List String) : Option (Option Json) :=
  match members.filter fun m => names.contains m.1 with
  | [] => some none
  | [m] => some (some m.2)
  | _ => none

/-- The values of the fields of a record, each given by its names; `none` for one left out. -/
def fields? (names : List (List String)) : Json → Option (List (Option Json))
  | .object members => names.mapM (fieldOf? members)
  | .array items =>
    if items.length ≤ names.length then
      some (items.map some ++ List.replicate (names.length - items.length) none)
    else none
  | _ => none

/-- The value of a field that must be there. -/
def required? {α : Type} [JsonForm α] (field : Option Json) : Option α := field.bind ofJson?

/-- The value of a field, or its default. -/
def orDefault? {α : Type} [JsonForm α] (default : α) : Option Json → Option α
  | none => some default
  | some v => ofJson? v

/-- The value of an optional field. Only an object may leave it out. -/
def optional? {α : Type} [JsonForm α] (record : Json) : Option Json → Option (Option α)
  | none =>
    match record with
    | .object _ => some none
    | _ => none
  | some v => ofJson? v

/-- The value that a name stands for, also where the name is the only key of an object. -/
def named? {α : Type} (values : List (String × α)) : Json → Option α
  | .string name => (values.find? fun entry => entry.1 == name).map Prod.snd
  | .object [(name, .null)] => (values.find? fun entry => entry.1 == name).map Prod.snd
  | _ => none

end Json

end Curriculum
