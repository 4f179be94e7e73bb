import Curriculum.Proofs.Course.Readers
import Curriculum.Proofs.Course.Capitals
import Curriculum.Proofs.Course.Subject

/-!
# Progress of the search for mentions

A search begins at a byte of the text, and after a mention it goes on one byte before the mention's
end, which is inside of the last digit if that takes several bytes. The next mention has a character
to follow and seven more of its own, so it ends further on, whether or not the one before stands for
any course, and the search comes to an end.
-/

namespace Curriculum

open Text (isDecimalDigit)

/-! ## Texts by bytes -/

namespace Text

variable {c : Char} {cs front rest : List Char} {offset : Nat}

def byteSize (cs : List Char) : Nat := (String.ofList cs).utf8ByteSize

/-- What is left of a text from a byte on. If that byte is inside of a character, then nothing is
left of that character. -/
def fromByte (offset : Nat) : List Char → List Char
  | [] => []
  | c :: cs => if offset = 0 then c :: cs else fromByte (offset - c.utf8Size) cs

@[simp]
theorem byteSize_nil : byteSize [] = 0 := rfl

@[simp]
theorem byteSize_cons (c : Char) (cs : List Char) :
    byteSize (c :: cs) = c.utf8Size + byteSize cs := by
  simp [byteSize, String.ofList_cons, String.utf8ByteSize_append]

@[simp]
theorem byteSize_append (front rest : List Char) :
    byteSize (front ++ rest) = byteSize front + byteSize rest := by
  simp [byteSize, String.ofList_append, String.utf8ByteSize_append]

/-- Every character that is taken off the front takes a byte at least. -/
theorem byteSize_of_suffix (h : rest <:+ cs) :
    byteSize rest + cs.length ≤ byteSize cs + rest.length := by
  obtain ⟨front, rfl⟩ := h
  have hfront : front.length ≤ byteSize front := length_le_utf8ByteSize front
  rw [byteSize_append, List.length_append]
  omega

theorem fromByte_zero (cs : List Char) : fromByte 0 cs = cs := by
  cases cs <;> rfl

theorem fromByte_suffix (offset : Nat) (cs : List Char) : fromByte offset cs <:+ cs := by
  induction cs generalizing offset with
  | nil => exact List.suffix_rfl
  | cons c rest ih =>
      rw [fromByte]
      split
      next => exact List.suffix_rfl
      next => exact (ih _).trans (List.suffix_cons c rest)

theorem byteSize_fromByte_le (offset : Nat) (cs : List Char) :
    byteSize (fromByte offset cs) ≤ byteSize cs - offset := by
  induction cs generalizing offset with
  | nil => exact Nat.zero_le _
  | cons c rest ih =>
      rw [fromByte]
      split
      next h => simp [h]
      next =>
        have hrest := ih (offset - c.utf8Size)
        rw [byteSize_cons]
        omega

/-- From the last byte of a character on nothing is left of it unless that is its only byte. -/
theorem fromByte_last (front rest : List Char) (d : Char) :
    fromByte (byteSize front + d.utf8Size - 1) (front ++ d :: rest) =
      if d.utf8Size = 1 then d :: rest else rest := by
  induction front with
  | nil =>
      have hpos := d.utf8Size_pos
      rw [byteSize_nil, Nat.zero_add, List.nil_append, fromByte]
      by_cases hone : d.utf8Size = 1
      · rw [if_pos hone, if_pos (by omega)]
      · rw [if_neg hone, if_neg (by omega), Nat.sub_eq_zero_of_le (Nat.sub_le _ _), fromByte_zero]
  | cons c front ih =>
      have hpos := c.utf8Size_pos
      have hlast := d.utf8Size_pos
      have hoffset : byteSize (c :: front) + d.utf8Size - 1 - c.utf8Size =
          byteSize front + d.utf8Size - 1 := by
        rw [byteSize_cons]
        omega
      rw [List.cons_append, fromByte, if_neg (by rw [byteSize_cons]; omega), hoffset, ih]

end Text

theorem isDigit_iff_utf8Size {d : Char} (h : isDecimalDigit d = true) :
    d.isDigit = true ↔ d.utf8Size = 1 := by
  constructor
  · intro hdigit
    exact IsWordChar.utf8Size (Or.inr hdigit)
  · intro hsize
    have hascii : d.toNat ≤ 127 := Char.utf8Size_eq_one_iff.1 hsize
    have hrange : ∀ z ∈ Text.digitZeros, z = 48 ∨ 0x660 ≤ z := by decide
    obtain ⟨z, hz, hd⟩ := List.any_eq_true.1 h
    have hzero := hrange z hz
    rw [Bool.and_eq_true, decide_eq_true_iff, decide_eq_true_iff] at hd
    have hlo : 48 ≤ d.toNat := by omega
    have hhi : d.toNat ≤ 57 := by omega
    simp only [Char.isDigit, Bool.and_eq_true, decide_eq_true_iff]
    exact ⟨hlo, hhi⟩

/-! ## The search -/

namespace Mention

open Text (byteSize fromByte)

/-- A mention that has been found, and the byte at which it ends. -/
structure Hit where
  mention : Mention
  stop : Nat

/-- The first mention from a byte on. It follows a character unless it stands at the very start. -/
def findAt? (text : List Char) (start : Nat) : Option Hit :=
  (if start = 0 then (read? text).or (find? text) else find? (fromByte start text)).map
    fun (m, rest) => ⟨m, byteSize text - byteSize rest⟩

/-- A mention ends in a digit, and its end is the byte behind that digit. -/
def Hit.EndsIn (hit : Hit) (text : List Char) : Prop :=
  isDecimalDigit hit.mention.lastDigit = true ∧ ∃ front rest,
    text = front ++ hit.mention.lastDigit :: rest ∧
      hit.stop = byteSize (front ++ [hit.mention.lastDigit])

/-- What a search from a byte on looks through. -/
def ahead (text : List Char) (start : Nat) : List Char :=
  if start = 0 then ';' :: text else fromByte start text

variable {cs text rest : List Char} {m : Mention} {start behind : Nat} {hit next : Hit}

theorem byteSize_find?_le (h : find? cs = some (m, rest)) : byteSize rest + 8 ≤ byteSize cs := by
  have hlength := length_of_find? h
  have hsuffix := (List.suffix_cons _ _).trans (suffix_of_find? h).2
  have hsize := Text.byteSize_of_suffix hsuffix
  omega

theorem findAt?_eq (text : List Char) (start : Nat) :
    findAt? text start =
      (find? (ahead text start)).map fun (m, rest) => ⟨m, byteSize text - byteSize rest⟩ := by
  unfold findAt? ahead
  split
  next => rw [find?_cons_of_not_isUpper (by decide)]
  next => rfl

theorem findAt?_eq_some (h : findAt? text start = some hit) :
    ∃ rest, find? (ahead text start) = some (hit.mention, rest) ∧
      hit.stop = byteSize text - byteSize rest := by
  rw [findAt?_eq] at h
  obtain ⟨⟨m, rest⟩, hfind, rfl⟩ := Option.map_eq_some_iff.1 h
  exact ⟨rest, hfind, rfl⟩

theorem suffix_of_ahead (h : find? (ahead text start) = some (m, rest)) :
    m.lastDigit :: rest <:+ text := by
  obtain ⟨hdigit, hsuffix⟩ := suffix_of_find? h
  unfold ahead at hsuffix
  split at hsuffix
  next =>
    rcases List.suffix_cons_iff.1 hsuffix with heq | hsuffix
    · -- A digit is no semicolon.
      rw [List.cons_eq_cons] at heq
      rw [heq.1] at hdigit
      cases hdigit
    · exact hsuffix
  next => exact hsuffix.trans (Text.fromByte_suffix start text)

theorem endsIn_of_findAt? (h : findAt? text start = some hit) : hit.EndsIn text := by
  obtain ⟨rest, hfind, hstop⟩ := findAt?_eq_some h
  obtain ⟨front, hfront⟩ := suffix_of_ahead hfind
  refine ⟨(suffix_of_find? hfind).1, front, rest, hfront.symm, ?_⟩
  rw [hstop, ← hfront]
  simp only [Text.byteSize_append, Text.byteSize_cons, Text.byteSize_nil]
  omega

theorem stop_le_byteSize (h : findAt? text start = some hit) : hit.stop ≤ byteSize text := by
  obtain ⟨rest, _, hstop⟩ := findAt?_eq_some h
  omega

/-- A mention takes seven bytes at least, and one more in front of it unless the search began at the
start of the text. -/
theorem le_stop_of_findAt? (h : findAt? text start = some hit) :
    start + 7 ≤ hit.stop ∧ (0 < start → start + 8 ≤ hit.stop) := by
  obtain ⟨rest, hfind, hstop⟩ := findAt?_eq_some h
  have hsize := byteSize_find?_le hfind
  unfold ahead at hsize
  split at hsize
  next hstart =>
    have hone : (';' : Char).utf8Size = 1 := by decide
    rw [Text.byteSize_cons] at hsize
    omega
  next =>
    have hleft := Text.byteSize_fromByte_le start text
    omega

/-- The next mention ends behind the one before, although the search goes back by a byte. -/
theorem stop_le_next (h : findAt? text start = some hit)
    (hnext : findAt? text (hit.stop - 1) = some next) : hit.stop + 7 ≤ next.stop := by
  have hstop := (le_stop_of_findAt? h).1
  have hlater := (le_stop_of_findAt? hnext).2 (by omega)
  omega

/-- The mentions that a search from a byte on comes to. -/
def scanFrom (text : List Char) (start : Nat) : List Hit :=
  match h : findAt? text start with
  | none => []
  | some hit =>
    have := le_stop_of_findAt? h
    have := stop_le_byteSize h
    hit :: scanFrom text (hit.stop - 1)
termination_by byteSize text - start

/-! ## The same search, character by character -/

theorem ahead_eq_resume (h : findAt? text start = some hit)
    (hfind : find? (ahead text start) = some (m, rest)) :
    ahead text (hit.stop - 1) = m.resume rest := by
  obtain ⟨rest', hfind', hstop⟩ := findAt?_eq_some h
  cases hfind.symm.trans hfind'
  obtain ⟨front, rfl⟩ := suffix_of_ahead hfind
  have hdigit := (suffix_of_find? hfind).1
  have hlater := (le_stop_of_findAt? h).1
  have hoffset : hit.stop - 1 = byteSize front + hit.mention.lastDigit.utf8Size - 1 := by
    rw [hstop, Text.byteSize_append, Text.byteSize_cons]
    omega
  rw [ahead, if_neg (by omega), hoffset, Text.fromByte_last, resume]
  simp only [isDigit_iff_utf8Size hdigit]

theorem map_mention_scanFrom (text : List Char) (start : Nat) :
    (scanFrom text start).map Hit.mention = allFrom (ahead text start) := by
  fun_induction scanFrom text start with
  | case1 start hnone =>
      rw [findAt?_eq, Option.map_eq_none_iff] at hnone
      rw [allFrom_of_none hnone, List.map_nil]
  | case2 start hit hsome _ _ ih =>
      obtain ⟨rest, hfind, _⟩ := findAt?_eq_some hsome
      rw [List.map_cons, ih, allFrom_of_some hfind, ahead_eq_resume hsome hfind]

theorem all_eq_scanFrom (text : String) :
    all text = (scanFrom (text.toList.map Char.toUpper) 0).map Hit.mention := by
  rw [all_eq_allFrom, map_mention_scanFrom, ahead, if_pos rfl]

/-! ## Where mentions end -/

/-- Each mention ends seven bytes at least behind the one before. -/
theorem pairwise_stop_scanFrom (h : ∀ hit, findAt? text start = some hit → behind + 7 ≤ hit.stop) :
    (behind :: (scanFrom text start).map Hit.stop).Pairwise fun x y => x + 7 ≤ y := by
  fun_induction scanFrom text start generalizing behind with
  | case1 => exact List.pairwise_singleton _ _
  | case2 start hit hsome _ _ ih =>
      have hfirst := h hit hsome
      have hlater := ih fun next hnext => stop_le_next hsome hnext
      refine List.pairwise_cons.2 ⟨?_, hlater⟩
      rw [List.map_cons, List.forall_mem_cons]
      refine ⟨hfirst, fun stop hstop => ?_⟩
      have hbehind : hit.stop + 7 ≤ stop := (List.pairwise_cons.1 hlater).1 stop hstop
      omega

/-- Seven bytes of the text are used up for each mention. -/
theorem length_scanFrom_le (h : ∀ hit, findAt? text start = some hit → behind + 7 ≤ hit.stop) :
    7 * (scanFrom text start).length ≤ byteSize text - behind := by
  fun_induction scanFrom text start generalizing behind with
  | case1 => exact Nat.zero_le _
  | case2 start hit hsome _ _ ih =>
      have hfirst := h hit hsome
      have hlater := ih fun next hnext => stop_le_next hsome hnext
      rw [List.length_cons]
      omega

/-- A mention that is found from a byte on ends in a digit, seven bytes further on at least, and the
next one, which is found from the last byte of it on, ends seven bytes further on again. So the
mentions in a text, those that stand for no course among them, end further and further on, and there
is at most one for every seven bytes. -/
theorem scan_advances (text : String) :
    let cs := text.toList.map Char.toUpper
    (∀ start hit, findAt? cs start = some hit →
      hit.EndsIn cs ∧ start + 7 ≤ hit.stop ∧ hit.stop ≤ text.utf8ByteSize ∧
      ∀ next, findAt? cs (hit.stop - 1) = some next → hit.stop + 7 ≤ next.stop) ∧
    all text = (scanFrom cs 0).map Hit.mention ∧
    ((scanFrom cs 0).map Hit.stop).Pairwise (fun x y => x + 7 ≤ y) ∧
    7 * (all text).length ≤ text.utf8ByteSize := by
  intro cs
  have hsize : byteSize cs = text.utf8ByteSize := by
    rw [byteSize, utf8ByteSize_map_toUpper, String.ofList_toList]
  have hfirst (hit : Hit) (h : findAt? cs 0 = some hit) : 0 + 7 ≤ hit.stop :=
    (le_stop_of_findAt? h).1
  refine ⟨fun start hit h => ⟨endsIn_of_findAt? h, (le_stop_of_findAt? h).1, ?_, ?_⟩,
    all_eq_scanFrom text, ?_, ?_⟩
  · rw [← hsize]
    exact stop_le_byteSize h
  · intro next hnext
    exact stop_le_next h hnext
  · exact (List.pairwise_cons.1 (pairwise_stop_scanFrom hfirst)).2
  · rw [all_eq_scanFrom, List.length_map, ← hsize]
    exact length_scanFrom_le hfirst

/-- Neither a season nor a number in the digits of another script stands for a course, and the
latter ends in a digit of two bytes. -/
example : (scanFrom "FALL 202, COMP ٢٥٠, MATH 240".toList 0).map Hit.stop = [8, 21, 31] := by
  decide +kernel

end Mention

end Curriculum
