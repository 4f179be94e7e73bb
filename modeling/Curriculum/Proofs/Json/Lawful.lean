import Mathlib.Data.List.Perm.Basic
import Std.Data.ExtTreeMap.Lemmas
import Std.Data.ExtTreeSet.Lemmas
import Curriculum.Json.Form

/-!
# JSON forms that read back

A lawful form reads back what it writes. Sets and maps are written in some order, and what they
mean does not depend on it: their forms read back every rearrangement of what they write.
-/

namespace Curriculum

/-- Reading each item of a list succeeds if it succeeds item by item. -/
theorem mapM_eq_some_of_forall₂ {α β : Type} {f : α → Option β} {xs : List α} {ys : List β}
    (h : List.Forall₂ (fun x y => f x = some y) xs ys) : xs.mapM f = some ys := by
  induction h with
  | nil => rfl
  | cons hhead _ ih => simp [List.mapM_cons, hhead, ih]

/-- Reading in another order gives the same things in another order. -/
theorem exists_mapM_of_perm {α β : Type} {f : α → Option β} {xs xs' : List α} {ys : List β}
    (h : List.Forall₂ (fun y x => f x = some y) ys xs) (horder : xs.Perm xs') :
    ∃ ys', xs'.mapM f = some ys' ∧ ys'.Perm ys := by
  obtain ⟨ys', hread, hperm⟩ := List.perm_comp_forall₂ horder.symm h.flip
  exact ⟨ys', mapM_eq_some_of_forall₂ hread, hperm⟩

namespace Json

mutual

/-- The second value is the first one with the items of arrays and the members of objects in any
order, at any depth. -/
inductive Rearranges : Json → Json → Prop
  | same (v : Json) : Rearranges v v
  | array {items middle items' : List Json} (hitems : List.Forall₂ Rearranges items middle)
      (horder : middle.Perm items') : Rearranges (.array items) (.array items')
  | object {members middle members' : List (String × Json)}
      (hmembers : List.Forall₂ RearrangesMember members middle)
      (horder : middle.Perm members') : Rearranges (.object members) (.object members')

/-- The members have the same name, and the value of the second one is a rearrangement of that of
the first one. -/
inductive RearrangesMember : String × Json → String × Json → Prop
  | value (name : String) {v v' : Json} (h : Rearranges v v') :
      RearrangesMember (name, v) (name, v')

end

theorem RearrangesMember.name_eq {m m' : String × Json} (h : RearrangesMember m m') :
    m.1 = m'.1 := by
  cases h
  rfl

theorem RearrangesMember.rearranges {m m' : String × Json} (h : RearrangesMember m m') :
    Rearranges m.2 m'.2 := by
  cases h
  assumption

namespace Rearranges

variable {v : Json} {items : List Json} {members : List (String × Json)}

theorem exists_array (h : Rearranges (.array items) v) :
    ∃ middle items', List.Forall₂ Rearranges items middle ∧ middle.Perm items' ∧
      v = .array items' := by
  cases h with
  | same => exact ⟨items, items, List.forall₂_same.2 fun v _ => .same v, .refl _, rfl⟩
  | array hitems horder => exact ⟨_, _, hitems, horder, rfl⟩

theorem exists_object (h : Rearranges (.object members) v) :
    ∃ middle members',
      List.Forall₂ RearrangesMember members middle ∧ middle.Perm members' ∧
        v = .object members' := by
  cases h with
  | same =>
      exact ⟨members, members, List.forall₂_same.2 fun m _ => .value m.1 (.same m.2), .refl _, rfl⟩
  | object hmembers horder => exact ⟨_, _, hmembers, horder, rfl⟩

end Rearranges

/-! ## Fields -/

theorem filter_eq_singleton {members : List (String × Json)} {name : String} {v : Json}
    (hnames : (members.map Prod.fst).Nodup) (hmem : (name, v) ∈ members) :
    members.filter (fun m => [name].contains m.1) = [(name, v)] := by
  induction members with
  | nil => cases hmem
  | cons m rest ih =>
      rw [List.map_cons, List.nodup_cons] at hnames
      rcases List.mem_cons.1 hmem with rfl | hrest
      · have hothers : rest.filter (fun m => [name].contains m.1) = [] := by
          refine List.filter_eq_nil_iff.2 fun m' hm' hname => hnames.1 ?_
          rw [List.contains_iff_mem, List.mem_singleton] at hname
          exact List.mem_map.2 ⟨m', hm', hname⟩
        rw [List.filter_cons_of_pos (by simp), hothers]
      · have hne : m.1 ≠ name := by
          rintro rfl
          exact hnames.1 (List.mem_map.2 ⟨_, hrest, rfl⟩)
        rw [List.filter_cons_of_neg (by simpa using hne), ih hnames.2 hrest]

/-- Fields of different names are found by their names, wherever they stand. -/
theorem fields?_of_mem {fields members : List (String × Json)}
    (hnames : (members.map Prod.fst).Nodup) (hmem : ∀ field ∈ fields, field ∈ members) :
    (Json.object members).fields? (fields.map fun field => [field.1]) =
      some (fields.map fun field => some field.2) := by
  refine mapM_eq_some_of_forall₂ ?_
  rw [List.forall₂_map_left_iff, List.forall₂_map_right_iff, List.forall₂_same]
  intro field hfield
  rw [fieldOf?, filter_eq_singleton hnames (hmem field hfield)]

theorem fields?_of_rearranges {members : List (String × Json)} {v : Json}
    (hnames : (members.map Prod.fst).Nodup) (h : Rearranges (.object members) v) :
    ∃ values, List.Forall₂ Rearranges (members.map Prod.snd) values ∧
      v.fields? (members.map fun m => [m.1]) = some (values.map some) := by
  obtain ⟨middle, members', hmembers, horder, rfl⟩ := h.exists_object
  have hsame : middle.map Prod.fst = members.map Prod.fst := by
    rw [← List.forall₂_eq_eq_eq, List.forall₂_map_left_iff, List.forall₂_map_right_iff]
    exact hmembers.flip.imp fun _ _ hm => hm.name_eq.symm
  have hfound : (Json.object members').fields? (middle.map fun m => [m.1]) =
      some (middle.map fun m => some m.2) := by
    refine fields?_of_mem ?_ fun m hm => horder.mem_iff.1 hm
    rw [← (horder.map Prod.fst).nodup_iff, hsame]
    exact hnames
  refine ⟨middle.map Prod.snd, ?_, ?_⟩
  · rw [List.forall₂_map_left_iff, List.forall₂_map_right_iff]
    exact hmembers.imp fun _ _ hm => hm.rearranges
  · have hlists : (members.map fun m => [m.1]) = middle.map fun m => [m.1] := by
      have hmap := congrArg (List.map fun name => [name]) hsame
      rw [List.map_map, List.map_map] at hmap
      exact hmap.symm
    rw [hlists, hfound, List.map_map]
    rfl

end Json

/-! ## Lawful forms -/

namespace JsonForm

/-- A form reads back what it writes. -/
class Lawful (α : Type) [JsonForm α] : Prop where
  ofJson?_toJson : ∀ a : α, ofJson? (toJson a) = some a

/-- A form reads back what it writes in whatever order. -/
class OrderFree (α : Type) [JsonForm α] : Prop where
  ofJson?_of_rearranges : ∀ {a : α} {v : Json}, (toJson a).Rearranges v → ofJson? v = some a

export Lawful (ofJson?_toJson)
export OrderFree (ofJson?_of_rearranges)

end JsonForm

/-- A key reads back what it writes. -/
class LawfulJsonKey (K : Type) [JsonKey K] : Prop where
  ofKey?_toKey : ∀ k : K, JsonKey.ofKey? (JsonKey.toKey k) = some k

namespace JsonForm

variable {α K : Type}

instance [JsonForm α] [OrderFree α] : Lawful α where
  ofJson?_toJson a := ofJson?_of_rearranges (.same (toJson a))

theorem required?_toJson [JsonForm α] [Lawful α] (a : α) :
    Json.required? (some (toJson a)) = some a :=
  ofJson?_toJson a

theorem required?_of_rearranges [JsonForm α] [OrderFree α] {a : α} {v : Json}
    (h : (toJson a).Rearranges v) : Json.required? (some v) = some a :=
  ofJson?_of_rearranges h

instance : OrderFree String where
  ofJson?_of_rearranges h := by
    cases h
    rfl

instance : OrderFree Bool where
  ofJson?_of_rearranges h := by
    cases h
    rfl

theorem integerIn?_of_mem {low high n : Int} (hlow : low ≤ n) (hhigh : n < high) :
    integerIn? low high (.integer n) = some n :=
  if_pos ⟨hlow, hhigh⟩

instance : OrderFree UInt32 where
  ofJson?_of_rearranges {n v} h := by
    cases h
    have hread : integerIn? 0 0x100000000 (.integer n.toNat) = some (n.toNat : Int) :=
      integerIn?_of_mem (Int.natCast_nonneg _) (Int.ofNat_lt.2 n.toNat_lt)
    change (integerIn? 0 0x100000000 (.integer n.toNat)).map _ = some n
    rw [hread, Option.map_some, Int.toNat_natCast, UInt32.ofNat_toNat]

instance : OrderFree Int32 where
  ofJson?_of_rearranges {n v} h := by
    cases h
    have hread : integerIn? (-0x80000000) 0x80000000 (.integer n.toInt) = some n.toInt :=
      integerIn?_of_mem n.le_toInt n.toInt_lt
    change (integerIn? (-0x80000000) 0x80000000 (.integer n.toInt)).map Int32.ofInt = some n
    rw [hread, Option.map_some, Int32.ofInt_toInt]

instance [JsonForm α] [Lawful α] : Lawful (List α) where
  ofJson?_toJson xs := by
    refine mapM_eq_some_of_forall₂ ?_
    rw [List.forall₂_map_left_iff, List.forall₂_same]
    exact fun a _ => ofJson?_toJson a

theorem ofJson?_option [JsonForm α] {v : Json} (h : v ≠ .null) :
    (ofJson? v : Option (Option α)) = (ofJson? v).map some := by
  cases v with
  | null => exact absurd rfl h
  | _ => rfl

/-- A value that is not written as `null` may be left out. -/
theorem ofJson?_toJson_option [JsonForm α] [Lawful α] (hnull : ∀ a : α, toJson a ≠ .null)
    (a : Option α) : ofJson? (toJson a) = some a := by
  cases a with
  | none => rfl
  | some a =>
      have hwritten : toJson (some a) = toJson a := rfl
      rw [hwritten, ofJson?_option (hnull a), ofJson?_toJson a, Option.map_some]

instance [JsonForm α] [OrderFree α] [DecidableEq α] [Ord α] [Std.TransOrd α] [Std.LawfulEqOrd α] :
    OrderFree (Std.ExtTreeSet α) where
  ofJson?_of_rearranges {s v} h := by
    obtain ⟨middle, items, hitems, horder, rfl⟩ := h.exists_array
    rw [List.forall₂_map_left_iff] at hitems
    obtain ⟨members, hread, hperm⟩ := exists_mapM_of_perm
      (hitems.imp fun _ _ hitem => ofJson?_of_rearranges hitem) horder
    change (items.mapM ofJson?).map (fun (members : List α) => Std.ExtTreeSet.ofList members) =
      some s
    rw [hread, Option.map_some, Option.some.injEq]
    ext a
    simp [hperm.mem_iff]

instance [JsonKey K] [LawfulJsonKey K] [JsonForm α] [OrderFree α] [DecidableEq K] [Ord K]
    [Std.TransOrd K] [Std.LawfulEqOrd K] : OrderFree (Std.ExtTreeMap K α) where
  ofJson?_of_rearranges {m v} h := by
    obtain ⟨middle, members, hmembers, horder, rfl⟩ := h.exists_object
    rw [List.forall₂_map_left_iff] at hmembers
    let read (member : String × Json) : Option (K × α) := do
      return (← JsonKey.ofKey? member.1, ← ofJson? member.2)
    have hentries :
        List.Forall₂ (fun entry member => read member = some entry) m.toList middle := by
      refine hmembers.imp fun entry member hmember => ?_
      have hkey : JsonKey.ofKey? member.1 = some entry.1 := by
        rw [← hmember.name_eq]
        exact LawfulJsonKey.ofKey?_toKey entry.1
      simp [read, hkey, ofJson?_of_rearranges hmember.rearranges]
    obtain ⟨entries, hread, hperm⟩ := exists_mapM_of_perm hentries horder
    change (members.mapM read).map
      (fun (entries : List (K × α)) => Std.ExtTreeMap.ofList entries) = some m
    rw [hread, Option.map_some, Option.some.injEq]
    -- Each key stands once among the entries, so their order is of no account.
    have hdistinct : entries.Pairwise fun a b => ¬compare a.1 b.1 = .eq :=
      hperm.symm.pairwise Std.ExtTreeMap.distinct_keys_toList
        fun hne heq => hne (Std.OrientedCmp.eq_symm heq)
    apply Std.ExtTreeMap.ext_getElem?
    intro k
    cases hk : m[k]? with
    | some a =>
        have hmem : (k, a) ∈ entries :=
          hperm.mem_iff.2 (Std.ExtTreeMap.mem_toList_iff_getElem?_eq_some.2 hk)
        exact Std.ExtTreeMap.getElem?_ofList_of_mem Std.ReflCmp.compare_self hdistinct hmem
    | none =>
        apply Std.ExtTreeMap.getElem?_ofList_of_contains_eq_false
        rw [Bool.eq_false_iff, ne_eq, List.contains_iff_mem, List.mem_map]
        rintro ⟨entry, hentry, rfl⟩
        have hlisted : (entry.1, entry.2) ∈ m.toList := hperm.mem_iff.1 hentry
        rw [Std.ExtTreeMap.mem_toList_iff_getElem?_eq_some, hk] at hlisted
        cases hlisted

end JsonForm

end Curriculum
