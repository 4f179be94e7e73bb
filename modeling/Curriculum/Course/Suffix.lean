import Std.Data.ExtTreeSet.Basic

/-!
# Term suffixes

A course spread over consecutive terms is listed once per term, as `361D1` and `361D2`. The
suffix is a capital letter and a part number from 1 to 9; part `n` is taken in the term
directly after part `n - 1`.
-/

namespace Curriculum

structure TermSuffix where
  letter : Char
  part : Nat
  letter_isUpper : letter.isUpper = true
  part_pos : 1 ≤ part
  part_le : part ≤ 9
deriving DecidableEq

namespace TermSuffix

/-- A letter of either case with a part number from 1 to 9. -/
def ofParts? (letter : Char) (part : Nat) : Option TermSuffix :=
  if h : letter.toUpper.isUpper = true ∧ 1 ≤ part ∧ part ≤ 9 then
    some ⟨letter.toUpper, part, h.1, h.2.1, h.2.2⟩
  else none

/-- Reads the digit that ends a suffix, after a letter known already. -/
def withDigit? (letter digit : Char) : Option TermSuffix :=
  if digit.isDigit then ofParts? letter (digit.toNat - '0'.toNat) else none

def ofChars? : List Char → Option TermSuffix
  | [letter, digit] => withDigit? letter digit
  | _ => none

def parse? (raw : String) : Option TermSuffix :=
  ofChars? raw.toList

def chars (s : TermSuffix) : List Char :=
  [s.letter, Nat.digitChar s.part]

def text (s : TermSuffix) : String := String.ofList s.chars

/-- The suffix of the part taken one term earlier. -/
def predecessor? (s : TermSuffix) : Option TermSuffix := ofParts? s.letter (s.part - 1)

/-- The suffix of the part taken one term later. -/
def successor? (s : TermSuffix) : Option TermSuffix := ofParts? s.letter (s.part + 1)

instance : Ord TermSuffix := ⟨compareLex (compareOn letter) (compareOn part)⟩

instance : Std.TransOrd TermSuffix :=
  inferInstanceAs (Std.TransCmp (compareLex (compareOn letter) (compareOn part)))

instance : Std.LawfulEqOrd TermSuffix where
  eq_of_compare {a b} h := by
    obtain ⟨hl, hp⟩ := Ordering.then_eq_eq.1 h
    cases a
    cases b
    simp_all [compareOn]

end TermSuffix

end Curriculum
