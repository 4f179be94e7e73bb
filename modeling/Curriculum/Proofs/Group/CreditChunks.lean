import Mathlib.Data.Nat.Digits.Lemmas
import Curriculum.Group.CreditRule
import Curriculum.Proofs.Course.Set
import Curriculum.Proofs.Course.Subject
import Curriculum.Proofs.Outcome

/-!
# Chunks of a credit rule

A credit rule is written as chunks with dashes between them, and the chunks make up the rule again.
Each chunk is read on its own: for an amount, for levels and for subjects there is one form that is
read and one value that it has.
-/

namespace Curriculum

namespace CreditRule

/-- The amount has at most seven digits, the level digits are there and are digits, and no subject
is listed twice. -/
def Legible (r : CreditRule) : Prop :=
  r.required ≤ 9999999 ∧ r.scope ≠ "" ∧ r.scope.toList.all Char.isDigit = true ∧ r.subjects.Nodup

/-- What stands between the dashes. -/
def chunks (r : CreditRule) : List (List Char) :=
  Nat.toDigits 10 r.required.toNat :: r.scope.toList :: r.subjects.map SubjectCode.chars

/-! ## Amounts -/

section

variable {cs : List Char} {chunk : String} {n : UInt32}

/-- One to seven digits. -/
def IsAmount (cs : List Char) : Prop :=
  1 ≤ cs.length ∧ cs.length ≤ 7 ∧ cs.all Char.isDigit = true

theorem bounds_of_isAmountText (h : isAmountText cs = true) :
    1 ≤ cs.length ∧ cs.length ≤ 7 ∧ '+' ∉ cs := by
  simp only [isAmountText, Bool.or_eq_true, Bool.and_eq_true, decide_eq_true_iff, beq_iff_eq,
    List.all_eq_true] at h
  rcases h with ⟨⟨hdigits, hpos⟩, hle⟩ | ⟨hword, hlength⟩
  · exact ⟨hpos, hle, fun hplus => absurd (hdigits '+' hplus) (by decide)⟩
  · exact ⟨by omega, by omega, fun hplus => absurd (hword '+' hplus) (by decide)⟩

theorem isAmountText_of_isAmount (h : IsAmount cs) : isAmountText cs = true := by
  obtain ⟨hpos, hle, hdigits⟩ := h
  have hall : cs.all Text.isDecimalDigit = true :=
    List.all_eq_true.2 fun c hc => isDecimalDigit_of_isDigit (List.all_eq_true.1 hdigits c hc)
  rw [isAmountText, hall, decide_eq_true hpos, decide_eq_true hle]
  rfl

theorem parseUInt32?_eq_some (hplus : '+' ∉ cs) :
    parseUInt32? cs = some n ↔
      cs ≠ [] ∧ cs.all Char.isDigit = true ∧ n.toNat = Nat.ofDigitChars 10 cs 0 := by
  have hvalue {value : Nat} :
      (if value < 0x100000000 then some (UInt32.ofNat value) else none) = some n ↔
        n.toNat = value := by
    split
    next hlt => rw [Option.some.injEq, ← UInt32.toNat_inj, UInt32.toNat_ofNat_of_lt' hlt, eq_comm]
    next hge => exact iff_of_false nofun fun h => hge (h ▸ n.toNat_lt)
  unfold parseUInt32?
  split
  next => exact absurd List.mem_cons_self hplus
  next =>
    dsimp only
    split
    next hdigits =>
      rw [Bool.and_eq_true] at hdigits
      rw [hvalue]
      exact ⟨fun h => ⟨by simpa using hdigits.1, hdigits.2, h⟩, fun h => h.2.2⟩
    next hdigits =>
      refine iff_of_false nofun fun h => hdigits ?_
      rw [Bool.and_eq_true]
      exact ⟨by simpa using h.1, h.2.1⟩

/-- Of the texts of the right shape those are numbers that consist of ASCII digits. -/
theorem parseAmount_eq_ok :
    parseAmount chunk = .ok n ↔
      IsAmount chunk.toList ∧ n.toNat = Nat.ofDigitChars 10 chunk.toList 0 := by
  have hread : parseAmount chunk = .ok n ↔
      isAmountText chunk.toList = true ∧ parseUInt32? chunk.toList = some n := by
    unfold parseAmount
    split
    next hshape => cases parseUInt32? chunk.toList <;> simp [hshape]
    next hshape => simp [hshape]
  rw [hread]
  constructor
  · rintro ⟨hshape, hn⟩
    obtain ⟨hpos, hle, hplus⟩ := bounds_of_isAmountText hshape
    obtain ⟨_, hdigits, hvalue⟩ := (parseUInt32?_eq_some hplus).1 hn
    exact ⟨⟨hpos, hle, hdigits⟩, hvalue⟩
  · rintro ⟨hamount, hvalue⟩
    have hshape := isAmountText_of_isAmount hamount
    obtain ⟨hpos, _, hplus⟩ := bounds_of_isAmountText hshape
    exact ⟨hshape, (parseUInt32?_eq_some hplus).2
      ⟨List.ne_nil_of_length_pos hpos, hamount.2.2, hvalue⟩⟩

theorem ofDigitChars_eq_ofDigits (cs : List Char) :
    Nat.ofDigitChars 10 cs 0 = Nat.ofDigits 10 (cs.reverse.map fun c => c.toNat - 48) := by
  rw [Nat.ofDigitChars_eq_foldl, List.foldl_eq_foldr_reverse, Nat.ofDigits_eq_foldr, List.foldr_map]
  congr
  funext c n
  exact Nat.add_comm _ _

/-- Seven digits do not exceed the greatest amount of seven digits. -/
theorem IsAmount.value_le (h : IsAmount cs) : Nat.ofDigitChars 10 cs 0 ≤ 9999999 := by
  obtain ⟨_, hle, hdigits⟩ := h
  have hdigit (d : ℕ) (hd : d ∈ cs.reverse.map fun c => c.toNat - 48) : d < 10 := by
    obtain ⟨c, hc, rfl⟩ := List.mem_map.1 hd
    exact digitValue_lt (List.all_eq_true.1 hdigits c (List.mem_reverse.1 hc))
  have hvalue := Nat.ofDigits_lt_base_pow_length (by decide) hdigit
  rw [← ofDigitChars_eq_ofDigits, List.length_map, List.length_reverse] at hvalue
  exact Nat.le_of_lt_succ (Nat.lt_of_lt_of_le hvalue (Nat.pow_le_pow_right (by decide) hle))

theorem isAmount_toDigits {n : Nat} (h : n ≤ 9999999) : IsAmount (Nat.toDigits 10 n) := by
  refine ⟨Nat.length_toDigits_pos, ?_, List.all_eq_true.2 fun c hc => ?_⟩
  · rw [Nat.length_toDigits_le_iff (by decide) (by decide)]
    exact Nat.lt_succ_of_le h
  · exact Nat.isDigit_of_mem_toDigits (by decide) (by decide) hc

end

/-! ## Levels -/

theorem parseScope_eq_ok {chunk scope : String} :
    parseScope chunk = .ok scope ↔
      chunk = scope ∧ scope ≠ "" ∧ scope.toList.all Char.isDigit = true := by
  unfold parseScope
  split
  next h =>
    rw [Bool.and_eq_true] at h
    rw [Except.ok.injEq]
    exact ⟨fun heq => heq ▸ ⟨rfl, by simpa using h.1, h.2⟩, And.left⟩
  next h =>
    refine iff_of_false nofun ?_
    rintro ⟨rfl, hne, hdigits⟩
    exact h (by rw [hdigits, Bool.and_true]; simpa using hne)

/-! ## Subjects -/

section

variable {code cs : List Char} {codes : List (List Char)} {chunk : String} {s : SubjectCode}
variable {subjects : List SubjectCode}

theorem utf8ByteSize_flatten
    (h : subjects.map SubjectCode.chars = codes.map (List.map Char.toUpper)) (left : List Char) :
    (String.ofList (codes.flatten ++ left)).utf8ByteSize =
      4 * codes.length + (String.ofList left).utf8ByteSize := by
  induction codes generalizing subjects with
  | nil => simp
  | cons code rest ih =>
      obtain ⟨s, others, rfl, hcode, hrest⟩ := List.map_eq_cons_iff.1 h
      rw [List.flatten_cons, List.append_assoc, String.ofList_append, String.utf8ByteSize_append,
        ih hrest, SubjectCode.utf8ByteSize_of_subset hcode (List.Subset.refl _),
        SubjectCode.length_of_chars hcode, List.length_cons]
      omega

/-- Four characters of one byte each make up a code. -/
theorem codesFrom_append (h : s.chars = code.map Char.toUpper) (rest : List Char) :
    codesFrom [] (code ++ rest) = (codesFrom [] rest).map (s :: ·) := by
  have hlength := SubjectCode.length_of_chars h
  have hparse : SubjectCode.parse (String.ofList code) = .ok s :=
    (SubjectCode.parse_eq_ok_of_length (Nat.le_of_eq hlength)).2 h
  rcases code with _ | ⟨a, _ | ⟨b, _ | ⟨c, _ | ⟨d, _ | ⟨_, _⟩⟩⟩⟩⟩
  case cons.cons.cons.cons.nil =>
    have hsize (cs : List Char) (hsub : cs ⊆ [a, b, c, d]) :=
      SubjectCode.utf8ByteSize_of_subset h hsub
    simp only [codesFrom, List.nil_append, List.cons_append]
    rw [hsize [a] (by simp), hsize [a, b] (by simp), hsize [a, b, c] (by simp),
      hsize [a, b, c, d] (List.Subset.refl _)]
    simp only [List.length_cons, List.length_nil, Nat.reduceAdd, Nat.reduceLT, if_true, if_false,
      hparse]
    cases codesFrom [] rest <;> rfl
  all_goals cases hlength

theorem codesFrom_flatten
    (h : subjects.map SubjectCode.chars = codes.map (List.map Char.toUpper)) :
    codesFrom [] codes.flatten = .ok subjects := by
  induction codes generalizing subjects with
  | nil =>
      rw [List.map_eq_nil_iff.1 h]
      rfl
  | cons code rest ih =>
      obtain ⟨s, others, rfl, hcode, hrest⟩ := List.map_eq_cons_iff.1 h
      rw [List.flatten_cons, codesFrom_append hcode, ih hrest]
      rfl

/-- Whatever is read has been cut into codes, up to less than a code at the end. -/
theorem exists_codes_of_codesFrom {pending : List Char}
    (hpending : (String.ofList pending).utf8ByteSize < 4)
    (h : codesFrom pending cs = .ok subjects) :
    ∃ (codes : List (List Char)) (left : List Char), pending ++ cs = codes.flatten ++ left ∧
      (String.ofList left).utf8ByteSize < 4 ∧
      subjects.map SubjectCode.chars = codes.map (List.map Char.toUpper) := by
  induction cs generalizing pending subjects with
  | nil =>
      cases h
      exact ⟨[], pending, List.append_nil _, hpending, rfl⟩
  | cons c rest ih =>
      rw [codesFrom] at h
      split at h
      next hshort =>
        obtain ⟨codes, left, happend, hleft, hcodes⟩ := ih hshort h
        exact ⟨codes, left, by rw [← happend, List.append_assoc, List.singleton_append], hleft,
          hcodes⟩
      next =>
        simp only [bind_eq_ok, pure_eq_ok] at h
        obtain ⟨s, hs, others, hothers, rfl⟩ := h
        obtain ⟨codes, left, happend, hleft, hcodes⟩ := ih (by decide) hothers
        split at hs
        next hfour =>
          have hle : (pending ++ [c]).length ≤ 4 := hfour ▸ Text.length_le_utf8ByteSize _
          have hcode := (SubjectCode.parse_eq_ok_of_length hle).1 hs
          refine ⟨(pending ++ [c]) :: codes, left, ?_, hleft, ?_⟩
          · rw [List.flatten_cons, List.append_assoc, List.append_assoc, ← happend,
              List.nil_append, List.singleton_append]
          · rw [List.map_cons, List.map_cons, hcode, hcodes]
        next =>
          -- A cut inside a character leaves nothing to read.
          have hempty : s.chars = [].map Char.toUpper := SubjectCode.parse_eq_ok.1 hs
          cases SubjectCode.length_of_chars hempty

theorem parseSubjects_eq_ok :
    parseSubjects chunk = .ok subjects ↔
      ∃ codes : List (List Char), chunk = String.ofList codes.flatten ∧
        subjects.map SubjectCode.chars = codes.map (List.map Char.toUpper) := by
  unfold parseSubjects
  constructor
  · intro h
    split at h
    next hwhole =>
      obtain ⟨codes, left, hchunk, hleft, hcodes⟩ := exists_codes_of_codesFrom (by decide) h
      rw [List.nil_append] at hchunk
      have hsize := utf8ByteSize_flatten hcodes left
      rw [← hchunk, String.ofList_toList] at hsize
      have hlength := Text.length_le_utf8ByteSize left
      have hnil : left = [] := List.length_eq_zero_iff.1 (by omega)
      rw [hnil, List.append_nil] at hchunk
      exact ⟨codes, by rw [← hchunk, String.ofList_toList], hcodes⟩
    next => cases h
  · rintro ⟨codes, rfl, hcodes⟩
    have hsize := utf8ByteSize_flatten hcodes []
    rw [List.append_nil] at hsize
    rw [if_pos (by rw [hsize]; exact Nat.mul_mod_right 4 _), String.toList_ofList,
      codesFrom_flatten hcodes]

theorem mapM_parseSubjects_eq_ok {chunks : List String} {subjects : List (List SubjectCode)} :
    chunks.mapM parseSubjects = .ok subjects ↔
      ∃ groups : List (List (List Char)),
        chunks = groups.map (fun codes => String.ofList codes.flatten) ∧
          subjects.map (List.map SubjectCode.chars) =
            groups.map (List.map (List.map Char.toUpper)) := by
  induction chunks generalizing subjects with
  | nil =>
      rw [List.mapM_nil, pure_eq_ok]
      constructor
      · rintro rfl
        exact ⟨[], rfl, rfl⟩
      · rintro ⟨groups, hgroups, hsubjects⟩
        rw [List.map_eq_nil_iff.1 hgroups.symm] at hsubjects
        exact (List.map_eq_nil_iff.1 hsubjects).symm
  | cons chunk rest ih =>
      simp only [List.mapM_cons, bind_eq_ok, pure_eq_ok, parseSubjects_eq_ok, ih]
      constructor
      · rintro ⟨first, ⟨codes, rfl, hcodes⟩, others, ⟨groups, rfl, hgroups⟩, rfl⟩
        exact ⟨codes :: groups, rfl, by rw [List.map_cons, List.map_cons, hcodes, hgroups]⟩
      · rintro ⟨groups, hchunks, hsubjects⟩
        obtain ⟨codes, groups, rfl, hchunk, hrest⟩ := List.map_eq_cons_iff.1 hchunks.symm
        obtain ⟨first, others, rfl, hcodes, hgroups⟩ := List.map_eq_cons_iff.1 hsubjects
        exact ⟨first, ⟨codes, hchunk.symm, hcodes⟩, others, ⟨groups, hrest.symm, hgroups⟩, rfl⟩

end

/-! ## Rules -/

/-- The chunks of a rule, with codes of subjects in groups that run together. -/
def spelled (amount scope : String) (groups : List (List (List Char))) : List String :=
  amount :: scope :: groups.map fun codes => String.ofList codes.flatten

/-- An amount, the digits of the levels and the codes of the subjects. -/
structure WellFormed (amount scope : String) (groups : List (List (List Char))) : Prop where
  amount : IsAmount amount.toList
  scope_ne : scope ≠ ""
  scope_digits : scope.toList.all Char.isDigit = true
  codes : ∀ code ∈ groups.flatten, SubjectCode.IsSpelling code

section

variable {chunks : List String} {groups : List (List (List Char))} {r : CreditRule}

theorem exists_subjects_iff :
    (∃ subjects : List (List SubjectCode),
      subjects.map (List.map SubjectCode.chars) =
        groups.map (List.map (List.map Char.toUpper))) ↔
      ∀ code ∈ groups.flatten, SubjectCode.IsSpelling code := by
  simp only [exists_map_eq_map_iff, SubjectCode.exists_chars_iff, List.forall_mem_flatten]

/-- The subjects of a rule are its codes in the order in which they appear first. -/
theorem eraseDups_flatten_eq_iff {subjects : List (List SubjectCode)}
    (h : subjects.map (List.map SubjectCode.chars) = groups.map (List.map (List.map Char.toUpper)))
    (kept : List SubjectCode) :
    subjects.flatten.eraseDups = kept ↔
      kept.map SubjectCode.chars = (groups.flatten.map (List.map Char.toUpper)).eraseDups := by
  rw [List.map_flatten, ← h, ← List.map_flatten, ← map_eraseDups SubjectCode.eq_of_chars,
    List.map_inj_right SubjectCode.eq_of_chars, eq_comm]

theorem ofChunks_eq_ok :
    ofChunks chunks = .ok r ↔
      ∃ amount groups, chunks = spelled amount r.scope groups ∧ WellFormed amount r.scope groups ∧
        r.required.toNat = Nat.ofDigitChars 10 amount.toList 0 ∧
        r.subjects.map SubjectCode.chars =
          (groups.flatten.map (List.map Char.toUpper)).eraseDups := by
  simp only [ofChunks, bind_eq_ok, pure_eq_ok, mapError_eq_ok, parseAmount_eq_ok, parseScope_eq_ok,
    mapM_parseSubjects_eq_ok]
  constructor
  · rintro ⟨required, ⟨hamount, hvalue⟩, scope, ⟨hscope, hne, hdigits⟩, subjects,
      ⟨groups, hgroups, hsubjects⟩, rfl⟩
    rcases chunks with _ | ⟨amount, _ | ⟨scope, rest⟩⟩
    · cases hamount.1
    · exact absurd hscope.symm hne
    · obtain rfl : scope = _ := hscope
      obtain rfl : rest = _ := hgroups
      exact ⟨amount, groups, rfl, ⟨hamount, hne, hdigits, exists_subjects_iff.1 ⟨_, hsubjects⟩⟩,
        hvalue, (eraseDups_flatten_eq_iff hsubjects _).1 rfl⟩
  · rintro ⟨amount, groups, rfl, h, hvalue, hkept⟩
    obtain ⟨subjects, hsubjects⟩ := exists_subjects_iff.2 h.codes
    refine ⟨r.required, ⟨h.amount, hvalue⟩, r.scope, ⟨rfl, h.scope_ne, h.scope_digits⟩, subjects,
      ⟨groups, rfl, hsubjects⟩, ?_⟩
    rw [(eraseDups_flatten_eq_iff hsubjects _).2 hkept]

theorem legible_of_ofChunks (h : ofChunks chunks = .ok r) : r.Legible := by
  obtain ⟨amount, groups, _, hform, hvalue, hkept⟩ := ofChunks_eq_ok.1 h
  refine ⟨?_, hform.scope_ne, hform.scope_digits, ?_⟩
  · rw [UInt32.le_iff_toNat_le, hvalue]
    exact hform.amount.value_le
  · exact List.Nodup.of_map SubjectCode.chars (hkept ▸ nodup_eraseDups _)

theorem ofChunks_chunks (h : r.Legible) : ofChunks (r.chunks.map String.ofList) = .ok r := by
  obtain ⟨hamount, hne, hscope, hnodup⟩ := h
  have hflat : (r.subjects.map fun s => [s.chars]).flatten = r.subjects.map SubjectCode.chars := by
    rw [← List.flatMap_def]
    exact List.map_eq_flatMap.symm
  have hupper : (r.subjects.map SubjectCode.chars).map (List.map Char.toUpper) =
      r.subjects.map SubjectCode.chars := by
    rw [List.map_map]
    exact List.map_congr_left fun s _ => IsWordChar.map_toUpper s.isWordChar
  refine ofChunks_eq_ok.2 ⟨String.ofList (Nat.toDigits 10 r.required.toNat),
    r.subjects.map fun s => [s.chars], ?_, ⟨?_, hne, hscope, ?_⟩, ?_, ?_⟩
  · simp [chunks, spelled]
  · rw [String.toList_ofList]
    exact isAmount_toDigits hamount
  · rw [hflat]
    refine List.forall_mem_map.2 fun s _ => SubjectCode.exists_chars_iff.1 ⟨s, ?_⟩
    exact (IsWordChar.map_toUpper s.isWordChar).symm
  · rw [String.toList_ofList, Nat.ofDigitChars_ten_toDigits]
  · rw [hflat, hupper, ← map_eraseDups SubjectCode.eq_of_chars, eraseDups_of_nodup hnodup]

end

end CreditRule

end Curriculum
