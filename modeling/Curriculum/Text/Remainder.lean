import Std.Data.ExtTreeSet.Basic

/-!
# Remainders

A reader takes something off the front of a text and hands on what is left. The remainder
carries the proof that it is shorter, so a reader that calls itself on it ends.
-/

namespace Curriculum.Text

/-- What is left of `cs` once something has been taken off its front. -/
structure Remainder (cs : List Char) where
  chars : List Char
  shorter : chars.length < cs.length

namespace Remainder

theorem length_le {c : Char} {cs : List Char} (r : Remainder (c :: cs)) :
    r.chars.length ≤ cs.length :=
  Nat.le_of_lt_succ r.shorter

/-- A remainder of a remainder. -/
def trans {cs : List Char} (r : Remainder cs) (s : Remainder r.chars) : Remainder cs :=
  ⟨s.chars, Nat.lt_trans s.shorter r.shorter⟩

/-- What is left once the first character has been taken. -/
def tail (c : Char) (cs : List Char) : Remainder (c :: cs) :=
  ⟨cs, Nat.lt_succ_self _⟩

/-- A remainder is one of the longer text too. -/
def after {cs : List Char} (r : Remainder cs) (c : Char) : Remainder (c :: cs) :=
  ⟨r.chars, Nat.lt_succ_of_lt r.shorter⟩

/-- A remainder stays one when more is dropped from its front. -/
def dropWhile {cs : List Char} (r : Remainder cs) (p : Char → Bool) : Remainder cs :=
  ⟨r.chars.dropWhile p, Nat.lt_of_le_of_lt (List.dropWhile_suffix p).length_le r.shorter⟩

end Remainder

end Curriculum.Text
