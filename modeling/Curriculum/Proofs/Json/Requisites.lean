import Curriculum.Json.Group
import Curriculum.Proofs.Course.ReadBack
import Curriculum.Proofs.Json.Lawful

/-!
# Requisites read back from JSON

Ids and subject codes are written as their texts, and a group as an object that is readable
throughout, so it reads back at any depth within others.
-/

namespace Curriculum

open JsonForm

/-! ## Ids -/

instance : OrderFree SubjectCode where
  ofJson?_of_rearranges {s v} h := by
    cases h
    exact s.parse?_text

instance : LawfulJsonKey SubjectCode := ⟨SubjectCode.parse?_text⟩

theorem CourseId.toOption_parse_text (id : CourseId) :
    (CourseId.parse id.text).toOption = some id := by
  rw [id.parse_of_text]
  rfl

instance : OrderFree CourseId where
  ofJson?_of_rearranges {id v} h := by
    cases h
    exact id.toOption_parse_text

instance : LawfulJsonKey CourseId := ⟨CourseId.toOption_parse_text⟩

/-! ## Credit rules -/

theorem CreditRule.ofJson?_of_fields {r : CreditRule} {v required scope subjects : Json}
    (hfields : v.fields? [["required_credits"], ["level_scope"], ["subjects"]] =
      some [some required, some scope, some subjects])
    (hrequired : Json.required? (some required) = some r.required)
    (hscope : Json.required? (some scope) = some r.scope)
    (hsubjects : Json.required? (some subjects) = some r.subjects) : ofJson? v = some r := by
  simp [ofJson?, hfields, hrequired, hscope, hsubjects]

instance : Lawful CreditRule where
  ofJson?_toJson r := CreditRule.ofJson?_of_fields
    (Json.fields?_of_mem (by simp) fun _ hfield => hfield) (required?_toJson r.required)
    (required?_toJson r.scope) (required?_toJson r.subjects)

theorem SubjectCode.itemsReadable_map_toJson (subjects : List SubjectCode) :
    Json.itemsReadable (subjects.map toJson) = true := by
  induction subjects with
  | nil => rfl
  | cons s rest ih => exact ih

theorem CreditRule.isReadable_toJson (r : CreditRule) : (toJson r).isReadable = true := by
  have hsubjects : (toJson r.subjects).isReadable = true :=
    SubjectCode.itemsReadable_map_toJson r.subjects
  change (true && (true && ((toJson r.subjects).isReadable && true))) = true
  rw [hsubjects]
  rfl

/-! ## Groups -/

theorem GroupKind.ofJson?_name (k : GroupKind) : ofJson? (.string k.name) = some k := by
  cases k <;> rfl

theorem Connective.connective?_kind (c : Connective) : c.kind.connective? = some c := by
  cases c <;> rfl

mutual

theorem Node.isReadable_toJson (n : Node) : n.toJson.isReadable = true := by
  cases n with
  | course id => rfl
  | group g => exact g.isReadable_toJson

theorem Group.isReadable_toJson (g : Group) : g.toJson.isReadable = true := by
  cases g with
  | empty => rfl
  | credit rule =>
      simp [Group.toJson, Json.isReadable, Json.membersReadable, rule.isReadable_toJson]
  | join c nodes =>
      simp [Group.toJson, Json.isReadable, Json.membersReadable, Node.itemsReadable_toJsonAll nodes]

theorem Node.itemsReadable_toJsonAll (nodes : List Node) :
    Json.itemsReadable (Node.toJsonAll nodes) = true := by
  cases nodes with
  | nil => rfl
  | cons n rest =>
      rw [Node.toJsonAll, Json.itemsReadable, n.isReadable_toJson,
        Node.itemsReadable_toJsonAll rest, Bool.and_self]

end

namespace Group

variable {within : Bool} {v : Json}

/-- The type stands before the inner part, so the parts are told apart at once. -/
theorem parts?_of_type (within : Bool) (k : GroupKind) :
    parts? within (.object [("type", .string k.name)]) = some (k, none) := by
  simp [parts?, k.ofJson?_name]

theorem parts?_of_type_inner (within : Bool) (k : GroupKind) (inner : Json) :
    parts? within (.object [("type", .string k.name), ("inner", inner)]) =
      some (k, some inner) := by
  simp [parts?, k.ofJson?_name]

theorem read?_of_join {items : List Json} {c : Connective}
    (h : parts? within v = some (c.kind, some (.array items))) :
    read? within v = (Node.ofJsonAll? items).map (.join c) := by
  rw [read?]
  split
  next hparts =>
    cases h.symm.trans hparts
    rw [c.connective?_kind]
  next hparts => cases c <;> cases h.symm.trans hparts
  next hparts => cases c <;> cases h.symm.trans hparts
  next hparts => cases c <;> cases h.symm.trans hparts
  next hother _ _ _ => exact absurd h (hother _ _)

theorem read?_of_credit {inner : Json} (h : parts? within v = some (.credit, some inner)) :
    read? within v = (ofJson? inner).map .credit := by
  rw [read?]
  split
  next hparts =>
    cases h.symm.trans hparts
    rfl
  next hparts =>
    cases h.symm.trans hparts
    rfl
  next hparts => cases h.symm.trans hparts
  next hparts => cases h.symm.trans hparts
  next _ hother _ _ => exact absurd h (hother _)

theorem read?_of_empty (h : parts? within v = some (.empty, none)) :
    read? within v = some .empty := by
  rw [read?]
  split
  next hparts => cases h.symm.trans hparts
  next hparts => cases h.symm.trans hparts
  next => rfl
  next => rfl
  next _ _ hother _ => exact absurd h hother

end Group

mutual

theorem Node.ofJson?_toJson (n : Node) : Node.ofJson? n.toJson = some n := by
  cases n with
  | course id =>
      rw [Node.toJson, Node.ofJson?, id.toOption_parse_text]
      rfl
  | group g =>
      rw [Node.toJson, Node.ofJson?, if_pos g.isReadable_toJson, Group.read?_toJson true g,
        Option.map_some]
      -- A group is not written as a string, so it is not taken for a course.
      intro raw hstring
      cases g <;> cases hstring

/-- A group reads back, within another one as well as by itself. -/
theorem Group.read?_toJson (within : Bool) (g : Group) : Group.read? within g.toJson = some g := by
  cases g with
  | empty =>
      rw [Group.toJson]
      exact Group.read?_of_empty (Group.parts?_of_type within .empty)
  | credit rule =>
      rw [Group.toJson, Group.read?_of_credit (Group.parts?_of_type_inner within .credit _),
        Lawful.ofJson?_toJson, Option.map_some]
  | join c nodes =>
      rw [Group.toJson, Group.read?_of_join (Group.parts?_of_type_inner within c.kind _),
        Node.ofJsonAll?_toJsonAll nodes, Option.map_some]

theorem Node.ofJsonAll?_toJsonAll (nodes : List Node) :
    Node.ofJsonAll? (Node.toJsonAll nodes) = some nodes := by
  cases nodes with
  | nil => rw [Node.toJsonAll, Node.ofJsonAll?]
  | cons n rest =>
      rw [Node.toJsonAll, Node.ofJsonAll?, n.ofJson?_toJson, Node.ofJsonAll?_toJsonAll rest]
      rfl

end

instance : Lawful Group := ⟨Group.read?_toJson false⟩

/-! ## Requirements -/

instance : Lawful RequirementKind where
  ofJson?_toJson k := by cases k <;> rfl

theorem Requirement.ofJson?_of_fields {r : Requirement} {v kind group : Json}
    (hfields : v.fields? [["kind"], ["group"]] = some [some kind, some group])
    (hkind : Json.required? (some kind) = some r.kind)
    (hgroup : Json.required? (some group) = some r.group) : ofJson? v = some r := by
  simp [ofJson?, hfields, hkind, hgroup]

instance : Lawful Requirement where
  ofJson?_toJson r := Requirement.ofJson?_of_fields
    (Json.fields?_of_mem (by simp) fun _ hfield => hfield) (required?_toJson r.kind)
    (required?_toJson r.group)

theorem Requirement.optional?_toJson (record : Json) (r : Option Requirement) :
    Json.optional? record (some (toJson r)) = some r :=
  ofJson?_toJson_option nofun r

theorem Requisites.ofJson?_of_fields {r : Requisites}
    {v prerequisites corequisites restrictions : Json}
    (hfields : v.fields? [["prerequisites"], ["corequisites"], ["restrictions"]] =
      some [some prerequisites, some corequisites, some restrictions])
    (hprerequisites : Json.optional? v (some prerequisites) = some r.prerequisites)
    (hcorequisites : Json.optional? v (some corequisites) = some r.corequisites)
    (hrestrictions : Json.optional? v (some restrictions) = some r.restrictions) :
    ofJson? v = some r := by
  simp [ofJson?, hfields, hprerequisites, hcorequisites, hrestrictions]

instance : Lawful Requisites where
  ofJson?_toJson r := Requisites.ofJson?_of_fields
    (Json.fields?_of_mem (by simp) fun _ hfield => hfield)
    (Requirement.optional?_toJson _ r.prerequisites) (Requirement.optional?_toJson _ r.corequisites)
    (Requirement.optional?_toJson _ r.restrictions)

end Curriculum
