import Mathlib.Data.List.Induction
import Mathlib.Data.List.Pairwise
import Curriculum.Proofs.Lists
import Curriculum.Proofs.TermOrder

/-!
# Terms in chronological order

Terms are listed from the earliest to the latest. While no two terms share a position there is one
such listing, so numbering terms and listing them are inverse to each other, but for the terms that
are given again.
-/

namespace Curriculum.TermOrder

variable {o o' : TermOrder} {t u : TermId} {terms listing : List TermId} {position : Int32} {i : Nat}

theorem eq_of_position? (h : ∀ t, o.position? t = o'.position? t) : o = o' := by
  have hmaps : o.positions = o'.positions := Std.ExtTreeMap.ext_getElem? fun {t} => h t
  cases o
  cases o'
  exact congrArg TermOrder.mk hmaps

/-! ## Listing -/

/-- The first term stands before the second one. -/
def Earlier (o : TermOrder) (t u : TermId) : Prop :=
  ∃ p q, o.position? t = some p ∧ o.position? u = some q ∧ p < q

/-- No two terms share a position. -/
def Apart (o : TermOrder) : Prop :=
  ∀ t u p, o.position? t = some p → o.position? u = some p → t = u

theorem Earlier.not_symm (h : o.Earlier t u) : ¬o.Earlier u t := by
  obtain ⟨p, q, hp, hq, hlt⟩ := h
  rintro ⟨q', p', hq', hp', hgt⟩
  cases hp.symm.trans hp'
  cases hq.symm.trans hq'
  exact Int32.lt_asymm hlt hgt

theorem terms_perm (o : TermOrder) : o.terms.Perm (o.positions.toList.map Prod.fst) :=
  (List.mergeSort_perm _ _).map Prod.fst

theorem mem_terms : t ∈ o.terms ↔ (o.position? t).isSome = true := by
  rw [o.terms_perm.mem_iff, List.mem_map, Option.isSome_iff_exists]
  constructor
  · rintro ⟨⟨t, p⟩, hentry, rfl⟩
    exact ⟨p, Std.ExtTreeMap.mem_toList_iff_getElem?_eq_some.1 hentry⟩
  · rintro ⟨p, hp⟩
    exact ⟨(t, p), Std.ExtTreeMap.mem_toList_iff_getElem?_eq_some.2 hp, rfl⟩

theorem nodup_terms (o : TermOrder) : o.terms.Nodup := by
  rw [o.terms_perm.nodup_iff, List.Nodup, List.pairwise_map]
  apply o.positions.distinct_keys_toList.imp
  intro x y hne heq
  exact hne (Std.compare_eq_iff_eq.2 heq)

theorem Apart.terms_pairwise (h : o.Apart) : o.terms.Pairwise o.Earlier := by
  have htrans (a b c : TermId × Int32) (hab : decide (a.2 ≤ b.2) = true)
      (hbc : decide (b.2 ≤ c.2) = true) : decide (a.2 ≤ c.2) = true := by
    simp only [decide_eq_true_eq] at hab hbc ⊢
    exact Int32.le_trans hab hbc
  have htotal (a b : TermId × Int32) : (decide (a.2 ≤ b.2) || decide (b.2 ≤ a.2)) = true := by
    simpa using Int32.le_total a.2 b.2
  have hsorted := List.pairwise_mergeSort htrans htotal o.positions.toList
  have hnodup := o.nodup_terms
  rw [terms, List.Nodup, List.pairwise_map] at hnodup
  rw [terms, List.pairwise_map]
  apply (hsorted.and hnodup).imp_of_mem
  rintro ⟨t, p⟩ ⟨u, q⟩ hp hq ⟨hle, hne⟩
  rw [List.mem_mergeSort, Std.ExtTreeMap.mem_toList_iff_getElem?_eq_some] at hp hq
  refine ⟨p, q, hp, hq, Int32.lt_of_le_of_ne (of_decide_eq_true hle) ?_⟩
  rintro rfl
  exact hne (h t u p hp hq)

/-- Of two different terms on a listing one is before the other, so they have different positions. -/
theorem apart_of_pairwise (h : listing.Pairwise o.Earlier)
    (hmem : ∀ t, t ∈ listing ↔ (o.position? t).isSome = true) : o.Apart := by
  have hsymm : Std.Symm fun t u => ∀ p, o.position? t = some p → o.position? u ≠ some p :=
    ⟨fun t u h p hu ht => h p ht hu⟩
  have hother : listing.Pairwise fun t u => ∀ p, o.position? t = some p → o.position? u ≠ some p := by
    apply h.imp
    rintro t u ⟨p, q, hp, hq, hlt⟩ p' hp' hq'
    cases hp.symm.trans hp'
    cases hq.symm.trans hq'
    exact Int32.lt_irrefl hlt
  intro t u p ht hu
  by_contra hne
  have htmem : t ∈ listing := (hmem t).2 (by rw [ht]; rfl)
  have humem : u ∈ listing := (hmem u).2 (by rw [hu]; rfl)
  exact hother.forall htmem humem hne p ht hu

theorem apart_iff_pairwise : o.Apart ↔ o.terms.Pairwise o.Earlier :=
  ⟨Apart.terms_pairwise, fun h => apart_of_pairwise h fun _ => mem_terms⟩

/-- A listing from the earliest to the latest is determined by the terms that are on it. -/
theorem terms_eq_of_pairwise (hlisting : listing.Pairwise o.Earlier) (hnodup : listing.Nodup)
    (hmem : ∀ t, t ∈ listing ↔ (o.position? t).isSome = true) : o.terms = listing := by
  have hperm : o.terms.Perm listing := by
    rw [List.perm_ext_iff_of_nodup o.nodup_terms hnodup]
    intro t
    rw [mem_terms, hmem]
  refine hperm.eq_of_pairwise ?_ (apart_of_pairwise hlisting hmem).terms_pairwise hlisting
  intro t u _ _ htu hut
  exact absurd hut htu.not_symm

/-! ## Numbering -/

theorem ofTerms_append_singleton (terms : List TermId) (t : TermId) :
    ofTerms (terms ++ [t]) =
      if t ∈ terms then ofTerms terms
      else (ofTerms terms).withPosition t (Int32.ofNat (ofTerms terms).size) := by
  have hlast : ofTerms (terms ++ [t]) =
      if ((ofTerms terms).position? t).isSome then ofTerms terms
      else (ofTerms terms).withPosition t (Int32.ofNat (ofTerms terms).size) :=
    List.foldl_append
  rw [hlast]
  simp only [position?_ofTerms_isSome]

theorem size_ofTerms (terms : List TermId) : (ofTerms terms).size = terms.eraseDups.length := by
  induction terms using List.reverseRecOn with
  | nil => rfl
  | append_singleton terms t ih =>
      rw [ofTerms_append_singleton, eraseDups_append_singleton]
      by_cases ht : t ∈ terms
      · simp [ht, ih]
      · have hnew : (ofTerms terms).positions.contains t = false := by
          rw [Std.ExtTreeMap.contains_eq_isSome_getElem?, Bool.eq_false_iff]
          exact mt position?_ofTerms_isSome.1 ht
        have hsize : (ofTerms terms).positions.size = terms.eraseDups.length := ih
        simp [ht, withPosition, size, Std.ExtTreeMap.size_insert, hnew, hsize]

/-- The terms are numbered in the order in which they are given first. -/
theorem position?_ofTerms (h : terms.eraseDups[i]? = some t) :
    (ofTerms terms).position? t = some (Int32.ofNat i) := by
  induction terms using List.reverseRecOn with
  | nil => simp at h
  | append_singleton terms u ih =>
      rw [eraseDups_append_singleton] at h
      rw [ofTerms_append_singleton]
      by_cases hu : u ∈ terms
      · rw [if_pos hu] at h ⊢
        exact ih h
      · rw [if_neg hu] at h ⊢
        rw [position?_withPosition]
        rcases Nat.lt_or_ge i terms.eraseDups.length with hlt | hge
        · rw [List.getElem?_append_left hlt] at h
          have ht : t ∈ terms := List.mem_eraseDups.1 (List.mem_of_getElem? h)
          have hne : u ≠ t := fun heq => hu (heq ▸ ht)
          rw [if_neg hne]
          exact ih h
        · -- The new term comes right behind the others.
          rw [List.getElem?_append_right hge, List.getElem?_singleton] at h
          split at h
          next hzero =>
            cases h
            have hi : i = terms.eraseDups.length := by omega
            rw [if_pos rfl, size_ofTerms, hi]
          next => cases h

theorem ofTerms_eraseDups (terms : List TermId) : ofTerms terms.eraseDups = ofTerms terms := by
  apply eq_of_position?
  intro t
  by_cases ht : t ∈ terms
  · obtain ⟨i, hi⟩ := List.mem_iff_getElem?.1 (List.mem_eraseDups.2 ht)
    have hagain : terms.eraseDups.eraseDups[i]? = some t := by
      rw [eraseDups_of_nodup (nodup_eraseDups terms), hi]
    rw [position?_ofTerms hi, position?_ofTerms hagain]
  · have hnone {terms : List TermId} (ht : t ∉ terms) : (ofTerms terms).position? t = none := by
      rw [← Option.not_isSome_iff_eq_none, position?_ofTerms_isSome]
      exact ht
    rw [hnone ht, hnone (mt List.mem_eraseDups.1 ht)]

/-- While positions do not run over, later terms have later positions. -/
theorem eraseDups_pairwise (h : terms.eraseDups.length < 2147483648) :
    terms.eraseDups.Pairwise (ofTerms terms).Earlier := by
  rw [List.pairwise_iff_getElem]
  intro i j hi hj hlt
  refine ⟨Int32.ofNat i, Int32.ofNat j, position?_ofTerms (List.getElem?_eq_getElem hi),
    position?_ofTerms (List.getElem?_eq_getElem hj), ?_⟩
  rw [Int32.lt_iff_toInt_lt, Int32.toInt_ofNat_of_lt (Nat.lt_trans hi h),
    Int32.toInt_ofNat_of_lt (Nat.lt_trans hj h)]
  exact Int.ofNat_lt.2 hlt

theorem position?_ofTerms_iff (h : terms.eraseDups.length < 2147483648) :
    (ofTerms terms).position? t = some position ↔
      ∃ i : Nat, terms.eraseDups[i]? = some t ∧ position.toInt = i := by
  have hnumber {i : Nat} (hi : terms.eraseDups[i]? = some t) : (Int32.ofNat i).toInt = i := by
    obtain ⟨hlt, _⟩ := List.getElem?_eq_some_iff.1 hi
    exact Int32.toInt_ofNat_of_lt (Nat.lt_trans hlt h)
  constructor
  · intro hposition
    have ht : t ∈ terms := position?_ofTerms_isSome.1 (by rw [hposition]; rfl)
    obtain ⟨i, hi⟩ := List.mem_iff_getElem?.1 (List.mem_eraseDups.2 ht)
    rw [position?_ofTerms hi] at hposition
    cases hposition
    exact ⟨i, hi, hnumber hi⟩
  · rintro ⟨i, hi, hposition⟩
    rw [position?_ofTerms hi, Int32.toInt_inj.1 (hposition.trans (hnumber hi).symm)]

theorem terms_ofTerms (h : terms.eraseDups.length < 2147483648) :
    (ofTerms terms).terms = terms.eraseDups := by
  refine terms_eq_of_pairwise (eraseDups_pairwise h) (nodup_eraseDups terms) fun t => ?_
  rw [List.mem_eraseDups, position?_ofTerms_isSome]

/-! ## Positions given one by one -/

def withPositions (o : TermOrder) (given : List (TermId × Int32)) : TermOrder :=
  given.foldl (fun o entry => o.withPosition entry.1 entry.2) o

/-- The last position that is given to a term. -/
def lastGiven? (given : List (TermId × Int32)) (t : TermId) : Option Int32 :=
  (given.filter fun entry => entry.1 = t).getLast?.map Prod.snd

theorem position?_withPositions (o : TermOrder) (given : List (TermId × Int32)) (t : TermId) :
    (o.withPositions given).position? t = (lastGiven? given t).or (o.position? t) := by
  induction given using List.reverseRecOn with
  | nil => rfl
  | append_singleton given entry ih =>
      have hlast : o.withPositions (given ++ [entry]) =
          (o.withPositions given).withPosition entry.1 entry.2 :=
        List.foldl_append
      rw [hlast, position?_withPosition, ih, lastGiven?, lastGiven?, getLast?_filter_concat]
      by_cases heq : entry.1 = t
      · simp [heq]
      · simp [heq]

/-- Numbering gives the terms that are given the positions from zero on, in the order in which they
come first, as long as there are fewer than `2 ^ 31`; listing gives them back in that order, and
numbering them again gives the same. Whatever positions are given to terms after that, each term that
has one is listed once, and they are listed from the earliest to the latest, each with a greater
position than the one before, if and only if no two share a position. -/
theorem terms_ofTerms_inverse (terms : List TermId)
    (h : terms.eraseDups.length < 2147483648) :
    (∀ t position, (ofTerms terms).position? t = some position ↔
      ∃ i : Nat, terms.eraseDups[i]? = some t ∧ position.toInt = i) ∧
    (ofTerms terms).terms = terms.eraseDups ∧
    ofTerms (ofTerms terms).terms = ofTerms terms ∧
    ∀ given, let o := (ofTerms terms).withPositions given
      (∀ t, o.position? t = (lastGiven? given t).or ((ofTerms terms).position? t)) ∧
      o.terms.Nodup ∧ (∀ t, t ∈ o.terms ↔ (o.position? t).isSome = true) ∧
      (o.Apart ↔ o.terms.Pairwise o.Earlier) := by
  refine ⟨fun t position => position?_ofTerms_iff h, terms_ofTerms h, ?_, fun given => ?_⟩
  · rw [terms_ofTerms h, ofTerms_eraseDups]
  · exact ⟨position?_withPositions _ given, nodup_terms _, fun t => mem_terms, apart_iff_pairwise⟩

/-- A term that comes in front of the others, and one that is put off. -/
theorem terms_ofTerms_inverse_putOff :
    let terms : List TermId := [⟨"first"⟩, ⟨"second"⟩, ⟨"first"⟩]
    let o := (ofTerms terms).withPositions [(⟨"third"⟩, 3), (⟨"zeroth"⟩, -1), (⟨"second"⟩, 7)]
    terms.eraseDups.length < 2147483648 ∧ (ofTerms terms).terms = [⟨"first"⟩, ⟨"second"⟩] ∧
      o.Apart ∧ o.terms.Pairwise o.Earlier := by
  intro terms o
  have hbound : terms.eraseDups.length < 2147483648 := by decide
  obtain ⟨_, hlisting, _, hgiven⟩ := terms_ofTerms_inverse terms hbound
  have hentries : o.positions.toList =
      [(⟨"first"⟩, 0), (⟨"second"⟩, 7), (⟨"third"⟩, 3), (⟨"zeroth"⟩, -1)] := by
    decide +kernel
  have hapart : o.Apart := by
    intro t u p ht hu
    have htmem := Std.ExtTreeMap.mem_toList_iff_getElem?_eq_some.2 ht
    have humem := Std.ExtTreeMap.mem_toList_iff_getElem?_eq_some.2 hu
    rw [hentries] at htmem humem
    simp only [List.mem_cons, Prod.mk.injEq, List.not_mem_nil, or_false] at htmem humem
    rcases htmem with ⟨rfl, rfl⟩ | ⟨rfl, rfl⟩ | ⟨rfl, rfl⟩ | ⟨rfl, rfl⟩ <;>
      simpa [eq_comm] using humem
  refine ⟨hbound, hlisting.trans (by decide), hapart, ?_⟩
  exact (hgiven _).2.2.2.1 hapart

end Curriculum.TermOrder
