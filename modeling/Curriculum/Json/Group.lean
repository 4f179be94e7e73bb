import Curriculum.Json.Form
import Curriculum.Requirement

/-!
# JSON forms of courses and requisites

Ids and subject codes are strings in any spelling. A group is an object with a `type` and, but
for the empty group, an `inner` part, or a pair of the two; a child of a group is a course id or a
group. Children are taken in as a whole before they are read, so nothing in them may be
unreadable, and the same is true of an inner part that stands before the type.
-/

namespace Curriculum

instance : JsonForm SubjectCode where
  toJson s := .string s.text
  ofJson?
    | .string raw => SubjectCode.parse? raw
    | _ => none

instance : JsonKey SubjectCode := ⟨SubjectCode.text, SubjectCode.parse?⟩

instance : JsonForm CourseId where
  toJson id := .string id.text
  ofJson?
    | .string raw => (CourseId.parse raw).toOption
    | _ => none

instance : JsonKey CourseId := ⟨CourseId.text, fun raw => (CourseId.parse raw).toOption⟩

namespace GroupKind

def names : List (String × GroupKind) :=
  [("AND", .and), ("OR", .or), ("SINGLE", .single), ("PAIR", .pair), ("CREDIT", .credit),
    ("EMPTY", .empty)]

def name : GroupKind → String
  | .and => "AND"
  | .or => "OR"
  | .single => "SINGLE"
  | .pair => "PAIR"
  | .credit => "CREDIT"
  | .empty => "EMPTY"

instance : JsonForm GroupKind where
  toJson k := .string k.name
  ofJson? := Json.named? names

/-- The kinds by their numbers, from zero. -/
def numbered : List GroupKind := [.empty, .single, .and, .or, .pair, .credit]

/-- The kind at the head of a pair: its name, or within another group its number too. -/
def ofHead? (within : Bool) : Json → Option GroupKind
  | .string name => ofJson? (.string name)
  | .integer n => if within ∧ 0 ≤ n then numbered[n.toNat]? else none
  | _ => none

end GroupKind

instance : JsonForm CreditRule where
  toJson r := .object
    [("required_credits", toJson r.required), ("level_scope", toJson r.scope),
      ("subjects", toJson r.subjects)]
  ofJson? v := do
    match ← v.fields? [["required_credits"], ["level_scope"], ["subjects"]] with
    | [required, scope, subjects] =>
      return ⟨← Json.required? required, ← Json.required? scope, ← Json.required? subjects⟩
    | _ => none

mutual

def Node.toJson : Node → Json
  | .course id => .string id.text
  | .group g => g.toJson

def Group.toJson : Group → Json
  | .empty => .object [("type", .string GroupKind.empty.name)]
  | .credit rule =>
    .object [("type", .string GroupKind.credit.name), ("inner", JsonForm.toJson rule)]
  | .join c nodes =>
    .object [("type", .string c.kind.name), ("inner", .array (Node.toJsonAll nodes))]

def Node.toJsonAll : List Node → List Json
  | [] => []
  | n :: rest => n.toJson :: Node.toJsonAll rest

end

namespace Group

/-- The type of a group, which may stand within another one, and its inner part if it has one. -/
def parts? (within : Bool) : Json → Option (GroupKind × Option Json)
  | .object members =>
    match members.filter fun m => m.1 == "type" || m.1 == "inner" with
    | [("type", kind)] => (ofJson? kind).map (·, none)
    | [("type", kind), ("inner", inner)] => (ofJson? kind).map (·, some inner)
    | [("inner", inner), ("type", kind)] =>
      if inner.isReadable then (ofJson? kind).map (·, some inner) else none
    | _ => none
  | .array [kind, inner] => (GroupKind.ofHead? within kind).map (·, some inner)
  | _ => none

theorem sizeOf_inner_lt {within : Bool} {v inner : Json} {kind : GroupKind}
    (h : parts? within v = some (kind, some inner)) : sizeOf inner < sizeOf v := by
  have member (members : List (String × Json)) (m : String × Json)
      (hm : m ∈ members.filter fun m => m.1 == "type" || m.1 == "inner") :
      sizeOf m.2 < sizeOf (Json.object members) := by
    have := List.sizeOf_lt_of_mem (List.mem_filter.1 hm).1
    obtain ⟨key, value⟩ := m
    simp only [Prod.mk.sizeOf_spec] at this
    simp only [Json.object.sizeOf_spec]
    omega
  unfold parts? at h
  split at h
  case h_1 members =>
    split at h
    case h_1 => simp at h
    case h_2 _ k i heq =>
      obtain ⟨_, _, hpair⟩ := Option.map_eq_some_iff.1 h
      cases hpair
      exact member members ("inner", inner) (by rw [heq]; simp)
    case h_3 _ i k heq =>
      split at h
      · obtain ⟨_, _, hpair⟩ := Option.map_eq_some_iff.1 h
        cases hpair
        exact member members ("inner", inner) (by rw [heq]; simp)
      · cases h
    case h_4 => cases h
  case h_2 =>
    obtain ⟨_, _, hpair⟩ := Option.map_eq_some_iff.1 h
    cases hpair
    simp only [Json.array.sizeOf_spec, List.cons.sizeOf_spec]
    omega
  case h_3 => cases h

end Group

mutual

def Node.ofJson? (v : Json) : Option Node :=
  match v with
  | .string raw => (CourseId.parse raw).toOption.map .course
  | v => if v.isReadable then (Group.read? true v).map .group else none
termination_by (sizeOf v, 1)

/-- Reads a group, which may stand within another one. -/
def Group.read? (within : Bool) (v : Json) : Option Group :=
  match h : Group.parts? within v with
  | some (kind, some (.array items)) =>
    have : sizeOf items < sizeOf v := by
      have := Group.sizeOf_inner_lt h
      simp only [Json.array.sizeOf_spec] at this
      omega
    match kind.connective? with
    | some c => (Node.ofJsonAll? items).map (.join c)
    | none => if kind = .credit then (JsonForm.ofJson? (.array items)).map .credit else none
  | some (.credit, some inner) => (JsonForm.ofJson? inner).map .credit
  | some (.empty, none) => some .empty
  | some (.empty, some .null) => some .empty
  | _ => none
termination_by (sizeOf v, 0)

def Node.ofJsonAll? (items : List Json) : Option (List Node) :=
  match items with
  | [] => some []
  | v :: rest => do return (← Node.ofJson? v) :: (← Node.ofJsonAll? rest)
termination_by (sizeOf items, 0)

end

instance : JsonForm Node := ⟨Node.toJson, Node.ofJson?⟩

instance : JsonForm Group := ⟨Group.toJson, Group.read? false⟩

namespace RequirementKind

instance : JsonForm RequirementKind where
  toJson k := .string k.name
  ofJson? := Json.named?
    [("prerequisite", .prerequisite), ("corequisite", .corequisite),
      ("restriction", .restriction)]

end RequirementKind

instance : JsonForm Requirement where
  toJson r := .object [("kind", toJson r.kind), ("group", toJson r.group)]
  ofJson? v := do
    match ← v.fields? [["kind"], ["group"]] with
    | [kind, group] => return ⟨← Json.required? kind, ← Json.required? group⟩
    | _ => none

instance : JsonForm Requisites where
  toJson r := .object
    [("prerequisites", toJson r.prerequisites), ("corequisites", toJson r.corequisites),
      ("restrictions", toJson r.restrictions)]
  ofJson? v := do
    match ← v.fields? [["prerequisites"], ["corequisites"], ["restrictions"]] with
    | [prerequisites, corequisites, restrictions] =>
      return ⟨← Json.optional? v prerequisites, ← Json.optional? v corequisites,
        ← Json.optional? v restrictions⟩
    | _ => none

end Curriculum
