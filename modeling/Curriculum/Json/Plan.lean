import Curriculum.Json.Group
import Curriculum.Planner

/-!
# JSON forms of catalogs, plans and settings

A catalog record needs nothing but its id, which may go by the name `code` and is not looked
into here. Settings fall back to their defaults field by field.
-/

namespace Curriculum

instance : JsonForm TermId where
  toJson t := .string t.text
  ofJson? v := (ofJson? v).map TermId.mk

instance : JsonKey TermId := ⟨TermId.text, fun text => some ⟨text⟩⟩

instance : JsonForm PlanId where
  toJson p := toJson p.number
  ofJson? v := (ofJson? v).map PlanId.mk

instance : JsonForm (CourseRecord Float) where
  toJson r := .object
    [("id", toJson r.id), ("credits", toJson r.credits),
      ("prerequisites", toJson r.prerequisites), ("corequisites", toJson r.corequisites),
      ("restrictions", toJson r.restrictions)]
  ofJson? v := do
    match ← v.fields? [["id", "code"], ["credits"], ["prerequisites"], ["corequisites"],
      ["restrictions"]] with
    | [id, credits, prerequisites, corequisites, restrictions] =>
      return ⟨← Json.required? id, ← Json.orDefault? 0 credits,
        ← Json.orDefault? none prerequisites, ← Json.orDefault? none corequisites,
        ← Json.orDefault? none restrictions⟩
    | _ => none

instance : JsonForm (CourseEntry Float) where
  toJson e := .object
    [("id", toJson e.id), ("credits", toJson e.credits), ("requisites", toJson e.requisites)]
  ofJson? v := do
    match ← v.fields? [["id"], ["credits"], ["requisites"]] with
    | [id, credits, requisites] =>
      return ⟨← Json.required? id, ← Json.required? credits, ← Json.required? requisites⟩
    | _ => none

instance : JsonForm EquivalenceRule where
  toJson r := .object [("first", toJson r.first), ("second", toJson r.second)]
  ofJson? v := do
    match ← v.fields? [["first"], ["second"]] with
    | [first, second] => return ⟨← Json.required? first, ← Json.required? second⟩
    | _ => none

instance : JsonForm EquivalenceRules where
  toJson r := .object [("links", toJson r.links)]
  ofJson? v := do
    match ← v.fields? [["links"]] with
    | [links] => return ⟨← Json.required? links⟩
    | _ => none

instance : JsonForm PlannedCourse where
  toJson n := .object
    [("term_id", toJson n.term), ("is_satisfied", toJson n.isSatisfied),
      ("affected_course_ids", toJson n.dependents)]
  ofJson? v := do
    match ← v.fields? [["term_id"], ["is_satisfied"], ["affected_course_ids"]] with
    | [term, isSatisfied, dependents] =>
      return ⟨← Json.required? term, ← Json.required? isSatisfied, ← Json.required? dependents⟩
    | _ => none

instance : JsonForm DependencyGraph where
  toJson g := .object
    [("dep_graph", toJson g.nodes), ("subject_map", toJson g.bySubject),
      ("credits_req_map", toJson g.creditHolders)]
  ofJson? v := do
    match ← v.fields? [["dep_graph"], ["subject_map"], ["credits_req_map"]] with
    | [nodes, bySubject, creditHolders] =>
      return ⟨← Json.required? nodes, ← Json.required? bySubject, ← Json.required? creditHolders⟩
    | _ => none

instance : JsonForm Ledger where
  toJson l := .object [("by_subject", toJson l.bySubject)]
  ofJson? v := do
    match ← v.fields? [["by_subject"]] with
    | [bySubject] => return ⟨← Json.required? bySubject⟩
    | _ => none

instance : JsonForm TermOrder where
  toJson o := .object [("orders", toJson o.positions)]
  ofJson? v := do
    match ← v.fields? [["orders"]] with
    | [positions] => return ⟨← Json.required? positions⟩
    | _ => none

instance : JsonForm PlanState where
  toJson s := .object
    [("deps", toJson s.graph), ("term_order", toJson s.terms),
      ("equivalences", toJson s.equivalences)]
  ofJson? v := do
    match ← v.fields? [["deps"], ["term_order"], ["equivalences"]] with
    | [graph, terms, equivalences] =>
      return ⟨← Json.required? graph, ← Json.required? terms, ← Json.required? equivalences⟩
    | _ => none

instance : JsonForm Settings where
  toJson s := .object
    [("max_nesting_depth", toJson s.maxNestingDepth),
      ("widen_credit_dependents", toJson s.widenCreditDependents),
      ("log_filter", toJson s.logFilter)]
  ofJson? v := do
    let usual : Settings := {}
    match ← v.fields? [["max_nesting_depth"], ["widen_credit_dependents"], ["log_filter"]] with
    | [depth, widen, filter] =>
      return ⟨← Json.orDefault? usual.maxNestingDepth depth,
        ← Json.orDefault? usual.widenCreditDependents widen,
        ← Json.orDefault? usual.logFilter filter⟩
    | _ => none

end Curriculum
