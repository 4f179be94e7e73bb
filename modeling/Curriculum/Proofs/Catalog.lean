import Mathlib.Data.List.Induction
import Std.Data.ExtTreeMap.Lemmas
import Curriculum.Catalog
import Curriculum.Proofs.Course.Set
import Curriculum.Proofs.Lists
import Curriculum.Proofs.Outcome

/-!
# Loading a catalog

Records are loaded unless the id of one of them cannot be read. Each id then has the entry of the
last record under it, in whatever spelling. A field that cannot be read drops out of its entry and
has no part in the other fields, nor in what earlier records left.
-/

namespace Curriculum

/-! ## Fields -/

namespace Requisites

variable {limit : Nat} {kind : RequirementKind} {requirement : Requirement}
  {text p c r : Option String}

theorem parseField_eq_some :
    (parseField limit kind text).1 = some requirement ↔
      ∃ written group, text = some written ∧ Group.parse limit written = .ok group ∧
        requirement = ⟨kind, group⟩ := by
  cases text with
  | none => simp [parseField]
  | some written =>
      simp only [parseField, Option.map_some, Requirement.parse, Option.some.injEq, exists_and_left,
        exists_eq_left']
      cases Group.parse limit written with
      | error fault => simp [Except.map]
      | ok group => simp [Except.map, eq_comm]

theorem get?_parseFields :
    (parseFields limit p c r).1.get? kind =
      (parseField limit kind (match kind with
        | .prerequisite => p
        | .corequisite => c
        | .restriction => r)).1 := by
  cases kind <;> rfl

theorem eq_of_get?_eq {a b : Requisites} (h : ∀ kind, a.get? kind = b.get? kind) : a = b := by
  obtain ⟨p, c, r⟩ := a
  have hp : p = b.prerequisites := h .prerequisite
  have hc : c = b.corequisites := h .corequisite
  have hr : r = b.restrictions := h .restriction
  rw [hp, hc, hr]

end Requisites

/-! ## Records -/

variable {W : Type}

namespace CourseRecord

def id? (record : CourseRecord W) : Option CourseId := (CourseId.parse record.id).toOption

def text? (record : CourseRecord W) : RequirementKind → Option String
  | .prerequisite => record.prerequisites
  | .corequisite => record.corequisites
  | .restriction => record.restrictions

/-- The last record of a course, in whatever spelling. -/
def last? (records : List (CourseRecord W)) (id : CourseId) : Option (CourseRecord W) :=
  (records.filter (·.id? = some id)).getLast?

/-- The first record whose id cannot be read. -/
def firstInvalid? (records : List (CourseRecord W)) : Option (CourseRecord W) :=
  records.find? (·.id? = none)

variable {record : CourseRecord W} {records : List (CourseRecord W)} {id : CourseId}

theorem id?_eq_some : record.id? = some id ↔ CourseId.parse record.id = .ok id := by
  unfold id?
  cases CourseId.parse record.id <;> simp [Except.toOption]

theorem id?_eq_none : record.id? = none ↔ ∃ cause, CourseId.parse record.id = .error cause := by
  unfold id?
  cases CourseId.parse record.id <;> simp [Except.toOption]

theorem last?_concat :
    last? (records ++ [record]) id =
      if record.id? = some id then some record else last? records id := by
  unfold last?
  simp only [getLast?_filter_concat, decide_eq_true_eq]

theorem id?_of_last? (h : last? records id = some record) : record.id? = some id := by
  have hmem := List.mem_of_getLast? h
  simpa using (List.mem_filter.1 hmem).2

theorem exists_last?_iff :
    (∃ record, last? records id = some record) ↔ ∃ record ∈ records, record.id? = some id := by
  rw [← Option.isSome_iff_exists, last?, List.getLast?_isSome, ne_eq, List.filter_eq_nil_iff]
  simp

end CourseRecord

/-- An entry has the id and the credits of the record, and of each field, on its own, the group that
its text is read as, if there is a text and it can be read. -/
structure CourseEntry.ReadFrom (limit : Nat) (record : CourseRecord W) (entry : CourseEntry W) :
    Prop where
  id : CourseId.parse record.id = .ok entry.id
  credits : entry.credits = record.credits
  requirement : ∀ kind requirement, entry.requisites.get? kind = some requirement ↔
    ∃ text group, record.text? kind = some text ∧ Group.parse limit text = .ok group ∧
      requirement = ⟨kind, group⟩

namespace CourseEntry.ReadFrom

variable {limit : Nat} {record : CourseRecord W} {a b : CourseEntry W}

theorem get?_eq_none (h : a.ReadFrom limit record) (kind : RequirementKind)
    (hfault : ∀ text ∈ record.text? kind, (Group.parse limit text).toOption = none) :
    a.requisites.get? kind = none := by
  refine Option.eq_none_iff_forall_ne_some.2 fun requirement hsome => ?_
  obtain ⟨text, group, htext, hgroup, _⟩ := (h.requirement kind requirement).1 hsome
  have hnone := hfault text htext
  rw [hgroup] at hnone
  cases hnone

theorem unique (ha : a.ReadFrom limit record) (hb : b.ReadFrom limit record) : a = b := by
  have hid : a.id = b.id := Except.ok.inj (ha.id.symm.trans hb.id)
  have hcredits : a.credits = b.credits := ha.credits.trans hb.credits.symm
  have hrequisites : a.requisites = b.requisites := by
    refine Requisites.eq_of_get?_eq fun kind => Option.ext fun requirement => ?_
    rw [ha.requirement, hb.requirement]
  cases a
  cases b
  cases hid
  cases hcredits
  cases hrequisites
  rfl

end CourseEntry.ReadFrom

namespace Catalog

variable {c : Catalog W} {limit : Nat} {record : CourseRecord W} {records : List (CourseRecord W)}
  {entry : CourseEntry W} {e : CatalogError} {id : CourseId}

@[simp]
theorem get?_empty : (empty : Catalog W).get? id = none := by
  simp [empty, get?]

theorem get?_insert :
    (c.insert entry).get? id = if entry.id = id then some entry else c.get? id := by
  simp only [get?, insert, Std.ExtTreeMap.getElem?_insert, Std.compare_eq_iff_eq]

theorem entryOf_eq_ok : entryOf limit record = .ok entry ↔ entry.ReadFrom limit record := by
  have hread (id : CourseId) (h : CourseId.parse record.id = .ok id) :
      CourseEntry.ReadFrom limit record ⟨id, record.credits, (Requisites.parseFields limit
        record.prerequisites record.corequisites record.restrictions).1⟩ := by
    refine ⟨h, rfl, fun kind requirement => ?_⟩
    rw [Requisites.get?_parseFields, Requisites.parseField_eq_some]
    cases kind <;> rfl
  unfold entryOf
  cases h : CourseId.parse record.id with
  | error cause => exact ⟨nofun, fun hentry => by cases h.symm.trans hentry.id⟩
  | ok id =>
      constructor
      · rintro hentry
        cases hentry
        exact hread id h
      · intro hentry
        exact congrArg Except.ok ((hread id h).unique hentry)

theorem entryOf_eq_error :
    entryOf limit record = .error e ↔
      ∃ cause, CourseId.parse record.id = .error cause ∧ e = .invalidId record.id cause := by
  unfold entryOf
  cases CourseId.parse record.id <;> simp [eq_comm]

/-! ## Loading -/

theorem exists_entryOf_iff (limit : Nat) :
    (∃ entry : CourseEntry W, entryOf limit record = .ok entry) ↔
      ∃ id, CourseId.parse record.id = .ok id := by
  unfold entryOf
  cases CourseId.parse record.id <;> simp

theorem ingest_snd_eq_ok {next : Catalog W} :
    (c.ingest limit record).map Prod.snd = .ok next ↔
      ∃ entry, entry.ReadFrom limit record ∧ next = c.insert entry := by
  simp only [ingest, map_eq_ok, entryOf_eq_ok, Prod.exists, Prod.mk.injEq]
  constructor
  · rintro ⟨_, _, ⟨entry, hentry, rfl, rfl⟩, rfl⟩
    exact ⟨entry, hentry, rfl⟩
  · rintro ⟨entry, hentry, rfl⟩
    exact ⟨_, _, ⟨entry, hentry, rfl, rfl⟩, rfl⟩

theorem ofRecords_concat (limit : Nat) (records : List (CourseRecord W))
    (record : CourseRecord W) :
    ofRecords limit (records ++ [record]) =
      ofRecords limit records >>= fun c => (c.ingest limit record).map Prod.snd := by
  unfold ofRecords
  simp only [List.foldlM_append, List.foldlM_cons, List.foldlM_nil, bind_pure]

theorem exists_ofRecords_iff :
    (∃ c, ofRecords limit records = .ok c) ↔
      ∀ record ∈ records, ∃ id, CourseId.parse record.id = .ok id := by
  induction records using List.reverseRecOn with
  | nil => exact iff_of_true ⟨empty, rfl⟩ nofun
  | append_singleton records record ih =>
      simp only [ofRecords_concat, bind_eq_ok, ingest_snd_eq_ok, List.forall_mem_append,
        List.forall_mem_singleton, ← ih]
      rw [← exists_entryOf_iff limit]
      simp only [entryOf_eq_ok]
      constructor
      · rintro ⟨_, c, hc, entry, hentry, _⟩
        exact ⟨⟨c, hc⟩, entry, hentry⟩
      · rintro ⟨⟨c, hc⟩, entry, hentry⟩
        exact ⟨_, c, hc, entry, hentry, rfl⟩

/-- Loading stops at the first record whose id cannot be read. -/
theorem foldlM_ingest_eq_error :
    records.foldlM (fun c record => (ingest c limit record).map Prod.snd) c = .error e ↔
      ∃ record cause, CourseRecord.firstInvalid? records = some record ∧
        CourseId.parse record.id = .error cause ∧ e = .invalidId record.id cause := by
  induction records generalizing c with
  | nil => simp [CourseRecord.firstInvalid?, pure, Except.pure]
  | cons record rest ih =>
      rw [List.foldlM_cons]
      cases hid : CourseId.parse record.id with
      | error cause =>
          have hstop : (c.ingest limit record).map Prod.snd =
              .error (.invalidId record.id cause) :=
            map_eq_error.2 (map_eq_error.2 (entryOf_eq_error.2 ⟨cause, hid, rfl⟩))
          have hfirst : CourseRecord.firstInvalid? (record :: rest) = some record :=
            List.find?_cons_of_pos (by simpa using CourseRecord.id?_eq_none.2 ⟨cause, hid⟩)
          rw [hstop, hfirst]
          constructor
          · rintro ⟨⟩
            exact ⟨record, cause, rfl, hid, rfl⟩
          · rintro ⟨_, cause', ⟨⟩, hcause, rfl⟩
            cases hid.symm.trans hcause
            rfl
      | ok id =>
          obtain ⟨entry, hentry⟩ := (exists_entryOf_iff limit).2 ⟨id, hid⟩
          have hgo : (c.ingest limit record).map Prod.snd = .ok (c.insert entry) :=
            ingest_snd_eq_ok.2 ⟨entry, entryOf_eq_ok.1 hentry, rfl⟩
          have hfirst :
              CourseRecord.firstInvalid? (record :: rest) = CourseRecord.firstInvalid? rest :=
            List.find?_cons_of_neg (by simp [CourseRecord.id?_eq_some.2 hid])
          rw [hgo, hfirst]
          exact ih

/-- Each id has the entry of the last record under it. -/
theorem get?_ofRecords (h : ofRecords limit records = .ok c) :
    c.get? id = some entry ↔
      ∃ record, CourseRecord.last? records id = some record ∧ entry.ReadFrom limit record := by
  induction records using List.reverseRecOn generalizing c with
  | nil =>
      cases h
      simp [CourseRecord.last?]
  | append_singleton records record ih =>
      rw [ofRecords_concat] at h
      obtain ⟨before, hbefore, hingest⟩ := bind_eq_ok.1 h
      obtain ⟨last, hlast, rfl⟩ := ingest_snd_eq_ok.1 hingest
      have hid : record.id? = some last.id := CourseRecord.id?_eq_some.2 hlast.id
      rw [get?_insert, CourseRecord.last?_concat, hid]
      simp only [Option.some.injEq]
      split
      next =>
        simp only [Option.some.injEq, exists_eq_left']
        constructor
        · rintro rfl
          exact hlast
        · exact hlast.unique
      next => exact ih hbefore

/-! ## The listing -/

/-- Every entry stands under its own id. -/
def Keyed (c : Catalog W) : Prop :=
  ∀ id entry, c.get? id = some entry → entry.id = id

theorem keyed_ofRecords (h : ofRecords limit records = .ok c) : c.Keyed := by
  intro id entry hentry
  obtain ⟨record, hrecord, hread⟩ := (get?_ofRecords h).1 hentry
  exact Except.ok.inj
    (hread.id.symm.trans (CourseRecord.id?_eq_some.1 (CourseRecord.id?_of_last? hrecord)))

theorem Keyed.mem_toList (h : c.Keyed) : entry ∈ c.toList ↔ c.get? entry.id = some entry := by
  simp only [toList, values_eq_map_toList, List.mem_map, Prod.exists,
    Std.ExtTreeMap.mem_toList_iff_getElem?_eq_some, exists_eq_right]
  constructor
  · rintro ⟨id, hid⟩
    rwa [h id entry hid]
  · intro hentry
    exact ⟨entry.id, hentry⟩

theorem Keyed.map_id_toList (h : c.Keyed) : c.toList.map CourseEntry.id = c.entries.keys := by
  rw [toList, values_eq_map_toList, List.map_map, ← Std.ExtTreeMap.map_fst_toList_eq_keys]
  refine List.map_congr_left fun ⟨id, entry⟩ hmem => ?_
  exact h id entry (Std.ExtTreeMap.mem_toList_iff_getElem?_eq_some.1 hmem)

/-- The ids that are listed are those of the records. -/
theorem mem_map_id_toList (h : ofRecords limit records = .ok c) :
    id ∈ c.toList.map CourseEntry.id ↔ ∃ record ∈ records, CourseId.parse record.id = .ok id := by
  have hentry : (∃ entry, c.get? id = some entry) ↔
      ∃ record, CourseRecord.last? records id = some record := by
    simp only [get?_ofRecords h]
    constructor
    · rintro ⟨entry, record, hrecord, _⟩
      exact ⟨record, hrecord⟩
    · rintro ⟨record, hrecord⟩
      have hid := CourseRecord.id?_eq_some.1 (CourseRecord.id?_of_last? hrecord)
      obtain ⟨entry, hentry⟩ := (exists_entryOf_iff limit).2 ⟨id, hid⟩
      exact ⟨entry, record, hrecord, entryOf_eq_ok.1 hentry⟩
  rw [(keyed_ofRecords h).map_id_toList, Std.ExtTreeMap.mem_keys,
    Std.ExtTreeMap.mem_iff_isSome_getElem?, Option.isSome_iff_exists]
  refine hentry.trans (CourseRecord.exists_last?_iff.trans ?_)
  simp only [CourseRecord.id?_eq_some]

/-! ## Records entered in place -/

/-- A result or an error, and either way the catalog that is there then. -/
abbrev InPlace (W α : Type) := ExceptT CatalogError (StateM (Catalog W)) α

namespace InPlace

def exec {α : Type} (x : InPlace W α) (c : Catalog W) : Except CatalogError α × Catalog W :=
  x.run.run c

/-- Enters a record in place. -/
def ingest (limit : Nat) (record : CourseRecord W) : InPlace W CourseId := do
  let id ← ExceptT.mk (pure ((CourseId.parse record.id).mapError (.invalidId record.id)))
  let fields := Requisites.parseFields limit record.prerequisites record.corequisites
    record.restrictions
  modify fun c => c.insert ⟨id, record.credits, fields.1⟩
  return id

theorem exec_ingest : (ingest limit record).exec c = match c.ingest limit record with
    | .ok (id, next) => (.ok id, next)
    | .error e => (.error e, c) := by
  unfold exec ingest Catalog.ingest entryOf
  cases CourseId.parse record.id <;> rfl

theorem exec_ingest_eq_error {left : Catalog W} :
    (ingest limit record).exec c = (.error e, left) ↔
      (∃ cause, CourseId.parse record.id = .error cause ∧ e = .invalidId record.id cause) ∧
        left = c := by
  have hrefused : entryOf limit record = .error e ↔ _ := entryOf_eq_error
  rw [exec_ingest, ← hrefused, Catalog.ingest]
  cases entryOf limit record <;> simp [Except.map, eq_comm]

end InPlace

/-- Records are loaded exactly if all ids can be read; otherwise the first one that cannot is told.
The ids that are listed are those of the records, in order and without repeats. Each has the entry
of its last record, every field of which was read on its own. A record that is refused leaves the
catalog as it was. -/
theorem ofRecords_lastWins (limit : Nat) (records : List (CourseRecord W)) :
    ((∃ c, ofRecords limit records = .ok c) ↔
      ∀ record ∈ records, ∃ id, CourseId.parse record.id = .ok id) ∧
    (∀ e, ofRecords limit records = .error e ↔
      ∃ record cause, CourseRecord.firstInvalid? records = some record ∧
        CourseId.parse record.id = .error cause ∧ e = .invalidId record.id cause) ∧
    (∀ c, ofRecords limit records = .ok c →
      (∀ id, id ∈ c.toList.map CourseEntry.id ↔
        ∃ record ∈ records, CourseId.parse record.id = .ok id) ∧
      (c.toList.map CourseEntry.id).Pairwise (fun a b => compare a b = .lt) ∧
      (∀ entry, entry ∈ c.toList ↔ c.get? entry.id = some entry) ∧
      ∀ id entry, c.get? id = some entry ↔
        ∃ record, CourseRecord.last? records id = some record ∧ entry.ReadFrom limit record) ∧
    ∀ (c left : Catalog W) record e,
      (InPlace.ingest limit record).exec c = (.error e, left) ↔
        (∃ cause, CourseId.parse record.id = .error cause ∧ e = .invalidId record.id cause) ∧
          left = c := by
  refine ⟨exists_ofRecords_iff, fun e => foldlM_ingest_eq_error, fun c hc => ?_,
    fun c left record e => InPlace.exec_ingest_eq_error⟩
  have hkeyed := keyed_ofRecords hc
  refine ⟨fun id => mem_map_id_toList hc, ?_, fun entry => hkeyed.mem_toList,
    fun id entry => get?_ofRecords hc⟩
  rw [hkeyed.map_id_toList]
  exact c.entries.ordered_keys

end Catalog

namespace Sample

def secondRecord : CourseRecord Nat :=
  ⟨"Comp 251", 4, some "COMP 250 + MATH 240 / MATH 235", some "MATH 240", none⟩

/-- Two records of one course. The second one mixes operators in its prerequisites. -/
def respelled : List (CourseRecord Nat) :=
  [⟨"comp-251", 3, some "COMP 250", none, some "COMP 252"⟩, secondRecord]

end Sample

open Sample in
/-- Nothing of the first record is left, and the fault in the second keeps the rest of it. -/
theorem Catalog.ofRecords_respelled :
    ∃ c id entry, ofRecords 32 respelled = .ok c ∧ CourseId.parse "COMP 251" = .ok id ∧
      c.get? id = some entry ∧ entry.credits = 4 ∧ entry.requisites.prerequisites = none ∧
      (∃ group, entry.requisites.corequisites = some ⟨.corequisite, group⟩) ∧
      entry.requisites.restrictions = none := by
  obtain ⟨hloads, _, hloaded, _⟩ := ofRecords_lastWins 32 respelled
  have hreadable : (CourseId.parse "COMP 251").toOption.isSome = true := by decide +kernel
  cases hid : CourseId.parse "COMP 251" with
  | error cause =>
      rw [hid] at hreadable
      cases hreadable
  | ok id =>
      have hids : ∀ record ∈ respelled, CourseId.parse record.id = .ok id := by
        rw [← hid]
        decide +kernel
      obtain ⟨c, hc⟩ := hloads.2 fun record hrecord => ⟨id, hids record hrecord⟩
      obtain ⟨hlisted, _, hentries, hlast⟩ := hloaded c hc
      have hmem : secondRecord ∈ respelled := by simp [respelled]
      obtain ⟨entry, hentry, rfl⟩ :=
        List.mem_map.1 ((hlisted id).2 ⟨secondRecord, hmem, hids _ hmem⟩)
      rw [hentries] at hentry
      obtain ⟨record, hrecord, hread⟩ := (hlast _ _).1 hentry
      have hsecond : CourseRecord.last? respelled entry.id = some secondRecord := by
        have hall : respelled.filter (·.id? = some entry.id) = respelled :=
          List.filter_eq_self.2 fun record hrecord => by
            simpa using CourseRecord.id?_eq_some.2 (hids record hrecord)
        rw [CourseRecord.last?, hall]
        rfl
      cases hrecord.symm.trans hsecond
      have hmixed : (Group.parse 32 "COMP 250 + MATH 240 / MATH 235").toOption = none := by
        decide +kernel
      have hcourse : (Group.parse 32 "MATH 240").toOption.isSome = true := by decide +kernel
      cases hgroup : Group.parse 32 "MATH 240" with
      | error fault =>
          rw [hgroup] at hcourse
          cases hcourse
      | ok group =>
          refine ⟨c, entry.id, entry, hc, rfl, hentry, hread.credits, ?_, ⟨group, ?_⟩, ?_⟩
          · refine hread.get?_eq_none .prerequisite fun _ htext => ?_
            cases htext
            exact hmixed
          · exact (hread.requirement .corequisite _).2 ⟨_, group, rfl, hgroup, rfl⟩
          · exact hread.get?_eq_none .restriction nofun

end Curriculum
