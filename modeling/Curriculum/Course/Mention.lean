import Curriculum.Text.DecimalDigit
import Curriculum.Course.Id

/-!
# Mentions of courses in prose

Catalogs write several courses in one breath: `COMP 361D1/D2` lists term suffixes,
`NRSC/BIOL 451` cross-listed subjects, and `COMP 579, 550, 330` further numbers. A mention is one
such stretch of text. It is followed by no ASCII digit; an item that would end right before one
is given back to the text. Reading a mention always takes some text (`length_of_read?`).
-/

namespace Curriculum

open Text (isBlank isDecimalDigit)

/-- Three digits of any script. -/
structure Numeral where
  first : Char
  second : Char
  third : Char
deriving DecidableEq

def Numeral.chars (n : Numeral) : List Char := [n.first, n.second, n.third]

/-- An item that may follow the first number of a mention. -/
inductive MentionItem where
  /-- A term suffix, whose letter may be left out after another suffix. -/
  | suffix (letter : Option Char) (digit : Char)
  | number (numeral : Numeral)
deriving DecidableEq

namespace MentionItem

def lastDigit : MentionItem → Char
  | suffix _ digit => digit
  | number numeral => numeral.third

def isSuffix : MentionItem → Bool
  | suffix .. => true
  | number _ => false

end MentionItem

structure Mention where
  subjects : List (List Char)
  numeral : Numeral
  items : List MentionItem
deriving DecidableEq

namespace Mention

/-- Four capitals at the front of the text. -/
def word? : List Char → Option (List Char × List Char)
  | a :: b :: c :: d :: rest =>
    if [a, b, c, d].all Char.isUpper then some ([a, b, c, d], rest) else none
  | _ => none

/-- Three digits at the front of the text. -/
def numeral? : List Char → Option (Numeral × List Char)
  | a :: b :: c :: rest =>
    if [a, b, c].all isDecimalDigit then some (⟨a, b, c⟩, rest) else none
  | _ => none

/-- A mark at the front of the text, with blanks around it. -/
def mark? (mark : Char) (cs : List Char) : Option (List Char) :=
  match cs.dropWhile isBlank with
  | c :: rest => if c = mark then some (rest.dropWhile isBlank) else none
  | [] => none

/-- A further subject, behind a slash. -/
def nextWord? (cs : List Char) : Option (List Char × List Char) :=
  (mark? '/' cs).bind word?

/-- A suffix in full. -/
def fullSuffix? : List Char → Option (MentionItem × List Char)
  | letter :: digit :: rest =>
    if letter.isUpper && isDecimalDigit digit then some (.suffix (some letter) digit, rest)
    else none
  | _ => none

/-- A suffix without its letter. -/
def bareSuffix? : List Char → Option (MentionItem × List Char)
  | digit :: rest => if isDecimalDigit digit then some (.suffix none digit, rest) else none
  | [] => none

/-- A further suffix, behind a slash. -/
def nextSuffix? (cs : List Char) : Option (MentionItem × List Char) :=
  (mark? '/' cs).bind fun rest => (fullSuffix? rest).or (bareSuffix? rest)

/-- A further number, behind a comma. -/
def nextNumber? (cs : List Char) : Option (MentionItem × List Char) :=
  (mark? ',' cs).bind fun rest => (numeral? rest).map fun (n, after) => (.number n, after)

/-- The next item, after a suffix or after a number. -/
def nextItem? (afterSuffix : Bool) (cs : List Char) : Option (MentionItem × List Char) :=
  (if afterSuffix then nextSuffix? cs else fullSuffix? cs).or (nextNumber? cs)

theorem length_of_word? {cs w rest : List Char} (h : word? cs = some (w, rest)) :
    rest.length + 4 = cs.length := by
  unfold word? at h
  split at h
  · split at h
    · cases h
      simp
    · cases h
  · cases h

theorem length_of_numeral? {cs rest : List Char} {n : Numeral}
    (h : numeral? cs = some (n, rest)) : rest.length + 3 = cs.length := by
  unfold numeral? at h
  split at h
  · split at h
    · cases h
      simp
    · cases h
  · cases h

theorem length_of_mark? {mark : Char} {cs rest : List Char} (h : mark? mark cs = some rest) :
    rest.length < cs.length := by
  have hdrop := (List.dropWhile_suffix (l := cs) isBlank).length_le
  unfold mark? at h
  split at h
  case h_1 c after heq =>
    split at h
    · cases h
      have := (List.dropWhile_suffix (l := after) isBlank).length_le
      rw [heq, List.length_cons] at hdrop
      omega
    · cases h
  case h_2 => cases h

theorem length_of_nextWord? {cs w rest : List Char} (h : nextWord? cs = some (w, rest)) :
    rest.length < cs.length := by
  obtain ⟨after, hmark, hword⟩ := Option.bind_eq_some_iff.1 h
  have := length_of_word? hword
  have := length_of_mark? hmark
  omega

theorem length_of_fullSuffix? {cs rest : List Char} {i : MentionItem}
    (h : fullSuffix? cs = some (i, rest)) : rest.length < cs.length := by
  unfold fullSuffix? at h
  split at h
  · split at h
    · cases h
      simp only [List.length_cons]
      omega
    · cases h
  · cases h

theorem length_of_bareSuffix? {cs rest : List Char} {i : MentionItem}
    (h : bareSuffix? cs = some (i, rest)) : rest.length < cs.length := by
  unfold bareSuffix? at h
  split at h
  · split at h
    · cases h
      simp
    · cases h
  · cases h

theorem length_of_nextSuffix? {cs rest : List Char} {i : MentionItem}
    (h : nextSuffix? cs = some (i, rest)) : rest.length < cs.length := by
  obtain ⟨after, hmark, hitem⟩ := Option.bind_eq_some_iff.1 h
  refine Nat.lt_trans ?_ (length_of_mark? hmark)
  rcases Option.or_eq_some_iff.1 hitem with hfull | ⟨_, hbare⟩
  · exact length_of_fullSuffix? hfull
  · exact length_of_bareSuffix? hbare

theorem length_of_nextNumber? {cs rest : List Char} {i : MentionItem}
    (h : nextNumber? cs = some (i, rest)) : rest.length < cs.length := by
  obtain ⟨after, hmark, hitem⟩ := Option.bind_eq_some_iff.1 h
  obtain ⟨⟨n, tail⟩, hnum, heq⟩ := Option.map_eq_some_iff.1 hitem
  cases heq
  have := length_of_numeral? hnum
  have := length_of_mark? hmark
  omega

theorem length_of_nextItem? {afterSuffix : Bool} {cs rest : List Char} {i : MentionItem}
    (h : nextItem? afterSuffix cs = some (i, rest)) : rest.length < cs.length := by
  rcases Option.or_eq_some_iff.1 h with hsuffix | ⟨_, hnumber⟩
  · split at hsuffix
    · exact length_of_nextSuffix? hsuffix
    · exact length_of_fullSuffix? hsuffix
  · exact length_of_nextNumber? hnumber

/-- The subjects after the first one. -/
def readWords (cs : List Char) : List (List Char) × List Char :=
  match h : nextWord? cs with
  | none => ([], cs)
  | some (word, rest) =>
    have := length_of_nextWord? h
    ((word :: (readWords rest).1), (readWords rest).2)
termination_by cs.length

def startsWithDigit : List Char → Bool
  | c :: _ => c.isDigit
  | [] => false

/-- As many items as there are. The last one is given back if a digit follows it. -/
def readItems (afterSuffix : Bool) (cs : List Char) : List MentionItem × List Char :=
  match h : nextItem? afterSuffix cs with
  | none => ([], cs)
  | some (item, rest) =>
    have := length_of_nextItem? h
    let (more, last) := readItems item.isSuffix rest
    if more.isEmpty && startsWithDigit last then ([], cs) else (item :: more, last)
termination_by cs.length

/-- The blanks and dashes between a subject and its number. -/
def isGap (c : Char) : Bool := isBlank c || c == '-'

/-- A mention at the front of the text. -/
def read? (cs : List Char) : Option (Mention × List Char) := do
  let (word, rest) ← word? cs
  let (words, rest) := readWords rest
  let (numeral, rest) ← numeral? (rest.dropWhile isGap)
  let (items, rest) := readItems false rest
  if startsWithDigit rest then none else some (⟨word :: words, numeral, items⟩, rest)

theorem length_readWords (cs : List Char) : (readWords cs).2.length ≤ cs.length := by
  fun_induction readWords cs with
  | case1 => exact Nat.le_refl _
  | case2 cs word rest h hlt ih => exact Nat.le_trans ih (Nat.le_of_lt hlt)

theorem length_readItems (afterSuffix : Bool) (cs : List Char) :
    (readItems afterSuffix cs).2.length ≤ cs.length := by
  fun_induction readItems afterSuffix cs with
  | case1 => exact Nat.le_refl _
  | case2 => exact Nat.le_refl _
  | case3 b cs item rest h hlt more last hrec hstop ih =>
    rw [hrec] at ih
    exact Nat.le_trans ih (Nat.le_of_lt hlt)

/-- A mention takes a subject and three digits at least. -/
theorem length_of_read? {cs rest : List Char} {m : Mention} (h : read? cs = some (m, rest)) :
    rest.length + 7 ≤ cs.length := by
  obtain ⟨⟨word, r⟩, hword, h⟩ := Option.bind_eq_some_iff.1 h
  obtain ⟨⟨numeral, t⟩, hnum, h⟩ := Option.bind_eq_some_iff.1 h
  dsimp only at h
  split at h
  · cases h
  · cases h
    have h₁ := length_of_word? hword
    have h₂ := length_readWords r
    have h₃ := (List.dropWhile_suffix (l := (readWords r).2) isGap).length_le
    have h₄ := length_of_numeral? hnum
    have h₅ := length_readItems false t
    omega

/-- The digit that ends the mention. -/
def lastDigit (m : Mention) : Char :=
  (m.items.getLast?.map MentionItem.lastDigit).getD m.numeral.third

end Mention

end Curriculum
