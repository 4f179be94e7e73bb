import Curriculum.Proofs.Course.Set
import Curriculum.Proofs.Course.Written

/-!
# The order of ids and of their texts

Ids are compared part by part, texts byte by byte. The two orders agree: subjects and numbers have
one length each and are written with digits and capitals, and an id without a suffix has the shorter
text.
-/

namespace Curriculum

/-! ## Comparing texts -/

/-- Texts that begin with as many characters each are compared by these first. -/
theorem compare_append {α : Type} [Ord α] {first first' : List α}
    (h : first.length = first'.length) (rest rest' : List α) :
    compare (first ++ rest) (first' ++ rest') =
      (compare first first').then (compare rest rest') := by
  induction first generalizing first' with
  | nil =>
      cases first' with
      | nil => rfl
      | cons => cases h
  | cons x xs ih =>
      cases first' with
      | nil => cases h
      | cons y ys =>
          rw [List.cons_append, List.cons_append, List.compare_cons_cons, List.compare_cons_cons,
            ih (Nat.succ.inj h), Ordering.then_assoc]

theorem compare_map {α β : Type} [Ord α] [Ord β] {f : α → β} {xs ys : List α}
    (h : ∀ x ∈ xs, ∀ y ∈ ys, compare (f x) (f y) = compare x y) :
    compare (xs.map f) (ys.map f) = compare xs ys := by
  induction xs generalizing ys with
  | nil => cases ys <;> rfl
  | cons x xs ih =>
      cases ys with
      | nil => rfl
      | cons y ys =>
          rw [List.map_cons, List.map_cons, List.compare_cons_cons, List.compare_cons_cons,
            h x List.mem_cons_self y List.mem_cons_self,
            ih fun a ha b hb => h a (List.mem_cons_of_mem x ha) b (List.mem_cons_of_mem y hb)]

theorem compare_bytes_eq_lt {xs ys : List UInt8} : compare xs ys = .lt ↔ xs < ys := by
  induction xs generalizing ys with
  | nil =>
      cases ys with
      | nil => exact iff_of_false nofun (List.lt_irrefl [])
      | cons y ys => exact iff_of_true List.compare_nil_cons (List.nil_lt_cons y ys)
  | cons x xs ih =>
      cases ys with
      | nil => exact iff_of_false (by rw [List.compare_cons_nil]; exact nofun) (List.not_lt_nil _)
      | cons y ys =>
          rw [List.compare_cons_cons, Ordering.then_eq_lt, ih, List.cons_lt_cons_iff,
            Std.compare_eq_lt, Std.compare_eq_iff_eq]

/-! ## Comparing characters and digits -/

/-- What is compared by less and equal compares alike where less and equal mean the same. -/
theorem compareOfLessAndEq_congr {α β : Type} [LT α] [LT β] [DecidableLT α] [DecidableLT β]
    [DecidableEq α] [DecidableEq β] {a b : α} {a' b' : β} (hlt : a < b ↔ a' < b')
    (heq : a = b ↔ a' = b') : compareOfLessAndEq a b = compareOfLessAndEq a' b' := by
  simp only [compareOfLessAndEq, hlt, heq]

theorem compare_byte {c d : Char} (hc : c.toNat < 128) (hd : d.toNat < 128) :
    compare c.val.toUInt8 d.val.toUInt8 = compare c d := by
  have hvalue {x : Char} (hx : x.toNat < 128) : x.val.toUInt8.toNat = x.toNat := by
    rw [UInt32.toNat_toUInt8, Char.toNat_val]
    exact Nat.mod_eq_of_lt (by omega)
  refine compareOfLessAndEq_congr ?_ ?_
  · rw [UInt8.lt_iff_toNat_lt, hvalue hc, hvalue hd]
    exact Iff.rfl
  · rw [← UInt8.toNat_inj, hvalue hc, hvalue hd, Char.toNat_inj]

theorem flatMap_utf8EncodeChar {cs : List Char} (h : ∀ c ∈ cs, c.toNat < 128) :
    cs.flatMap String.utf8EncodeChar = cs.map fun c => c.val.toUInt8 := by
  induction cs with
  | nil => rfl
  | cons c rest ih =>
      rw [List.forall_mem_cons] at h
      have hle : c.toNat ≤ 127 := Nat.le_of_lt_succ h.1
      rw [List.flatMap_cons, String.utf8EncodeChar_eq_singleton (Char.utf8Size_eq_one_iff.2 hle),
        ih h.2, List.map_cons, List.singleton_append]

/-- The quotients decide, and the remainders where the quotients are the same. -/
theorem compare_div_mod (m n b : Nat) :
    compare m n = (compare (m / b) (n / b)).then (compare (m % b) (n % b)) := by
  rcases Nat.lt_trichotomy (m / b) (n / b) with hlt | heq | hgt
  · rw [Nat.compare_eq_lt.2 hlt, Nat.compare_eq_lt.2 (Nat.lt_of_div_lt_div hlt)]
    rfl
  · rw [Nat.compare_eq_eq.2 heq, Ordering.eq_then]
    calc compare m n
      _ = compare (b * (m / b) + m % b) (b * (n / b) + n % b) := by
          rw [Nat.div_add_mod, Nat.div_add_mod]
      _ = compare (m % b) (n % b) := by
          simp only [heq, Nat.compare_eq_ite_lt, Nat.add_lt_add_iff_left]
  · rw [Nat.compare_eq_gt.2 hgt, Nat.compare_eq_gt.2 (Nat.lt_of_div_lt_div hgt)]
    rfl

theorem compare_digitChar : ∀ m < 10, ∀ n < 10,
    compare (Nat.digitChar m) (Nat.digitChar n) = compare m n := by
  decide

/-! ## Comparing the parts of ids -/

theorem CourseNumber.compare_chars (m n : CourseNumber) :
    compare m.chars n.chars = compare m n := by
  have hdigit (j k : Nat) :
      compare (CourseNumber.digit j) (CourseNumber.digit k) = compare (j % 10) (k % 10) :=
    compare_digitChar _ (Nat.mod_lt j (by decide)) _ (Nat.mod_lt k (by decide))
  have hhundreds (k : CourseNumber) : k / 100 % 10 = k.val / 100 := by
    have hk := k.isLt
    omega
  have htens (k : CourseNumber) : k % 100 / 10 = k.val / 10 % 10 := by omega
  have hunits (k : CourseNumber) : k % 100 % 10 = k.val % 10 := by omega
  have hvalue : compare m n = compare m.val n.val := rfl
  rw [hvalue, compare_div_mod m n 100, compare_div_mod (m % 100) (n % 100) 10]
  simp only [CourseNumber.chars, List.compare_cons_cons, List.compare_nil_nil, Ordering.then_eq,
    hdigit, hhundreds, htens, hunits]

theorem TermSuffix.compare_chars (s t : TermSuffix) : compare s.chars t.chars = compare s t := by
  have hs := s.part_le
  have ht := t.part_le
  simp only [chars, List.compare_cons_cons, List.compare_nil_nil, Ordering.then_eq,
    compare_digitChar s.part (by omega) t.part (by omega)]
  rfl

/-- An id without a suffix comes before those that have one. -/
theorem TermSuffix.compare_elim_chars (s t : Option TermSuffix) :
    compare (s.elim [] chars) (t.elim [] chars) = compare s t := by
  cases s with
  | none => cases t <;> rfl
  | some s =>
      cases t with
      | none => rfl
      | some t => exact s.compare_chars t

namespace CourseId

variable {a b : CourseId}

theorem compare_chars (a b : CourseId) : compare a.chars b.chars = compare a b := by
  have hsubjects : a.subject.chars.length = b.subject.chars.length := by
    rw [a.subject.length_chars, b.subject.length_chars]
  have hnumbers : a.number.chars.length = b.number.chars.length := rfl
  have hblank : compare ' ' ' ' = .eq := rfl
  rw [chars, chars, compare_append hsubjects, List.compare_cons_cons, hblank, Ordering.eq_then,
    compare_append hnumbers, CourseNumber.compare_chars, TermSuffix.compare_elim_chars]
  rfl

/-- The bytes of the text of an id. -/
def bytes (id : CourseId) : List UInt8 := id.text.toUTF8.data.toList

theorem isAscii_chars (id : CourseId) : ∀ c ∈ id.chars, c.toNat < 128 := by
  intro c hc
  have hpacked : c = ' ' ∨ c ∈ id.packed := by
    simp only [chars, packed, List.mem_append, List.mem_cons] at hc ⊢
    exact or_left_comm.1 hc
  rcases hpacked with rfl | hpacked
  · decide
  · have hbounds := (id.isWordChar_packed c hpacked).toNat_bounds
    omega

theorem bytes_eq (id : CourseId) : id.bytes = id.chars.map fun c => c.val.toUInt8 := by
  rw [bytes, text, String.toUTF8, String.toByteArray_ofList, List.utf8Encode,
    List.data_toByteArray]
  exact flatMap_utf8EncodeChar id.isAscii_chars

theorem compare_bytes (a b : CourseId) : compare a.bytes b.bytes = compare a b := by
  rw [bytes_eq, bytes_eq, ← compare_chars]
  exact compare_map fun c hc d hd => compare_byte (a.isAscii_chars c hc) (b.isAscii_chars d hd)

theorem bytes_lt_iff : a.bytes < b.bytes ↔ compare a b = .lt := by
  rw [← compare_bytes_eq_lt, compare_bytes]

theorem bytes_le_iff : a.bytes ≤ b.bytes ↔ (compare a b).isLE = true := by
  rw [← List.not_lt, bytes_lt_iff, Std.OrientedOrd.eq_swap (a := b)]
  cases compare a b <;> decide

theorem bytes_le_trans {c : CourseId} (hab : a.bytes ≤ b.bytes) (hbc : b.bytes ≤ c.bytes) :
    a.bytes ≤ c.bytes := by
  rw [bytes_le_iff] at *
  exact Std.TransOrd.isLE_trans hab hbc

theorem eq_of_bytes_le (hab : a.bytes ≤ b.bytes) (hba : b.bytes ≤ a.bytes) : a = b := by
  rw [bytes_le_iff] at hab hba
  exact Std.LawfulEqOrd.eq_of_compare (Std.OrientedCmp.isLE_antisymm hab hba)

theorem pairwise_bytes_le (s : CourseSet) : s.toList.Pairwise fun a b => a.bytes ≤ b.bytes := by
  refine Std.ExtTreeSet.ordered_toList.imp fun hlt => ?_
  rw [bytes_le_iff, hlt]
  rfl

/-- Ids are in the order of the bytes of their texts, so a set of courses is listed as its courses
sorted by text. -/
theorem compare_eq_lt_iff_text :
    (∀ a b : CourseId, compare a b = .lt ↔ a.bytes < b.bytes) ∧
    ∀ ids : List CourseId, (Std.ExtTreeSet.ofList ids : CourseSet).toList =
      ids.eraseDups.mergeSort fun a b => decide (a.bytes ≤ b.bytes) := by
  refine ⟨fun a b => bytes_lt_iff.symm, fun ids => ?_⟩
  have hsorted : (ids.eraseDups.mergeSort fun a b => decide (a.bytes ≤ b.bytes)).Pairwise
      fun a b => a.bytes ≤ b.bytes := by
    refine (List.pairwise_mergeSort ?_ ?_ _).imp of_decide_eq_true
    · exact fun a b c hab hbc =>
        decide_eq_true (bytes_le_trans (of_decide_eq_true hab) (of_decide_eq_true hbc))
    · intro a b
      rw [Bool.or_eq_true, decide_eq_true_iff, decide_eq_true_iff]
      exact List.le_total _ _
  -- Both lists hold the same courses once each, and both are sorted.
  exact List.Perm.eq_of_pairwise (fun a b _ _ => eq_of_bytes_le) (pairwise_bytes_le _) hsorted
    ((CourseSet.toList_ofList_perm ids).trans (List.mergeSort_perm _ _).symm)

end CourseId

end Curriculum
