import Curriculum.Text.Blank

/-!
# Subject codes

A subject code is four capital letters or digits, the first of them a letter, as in `COMP`.
Reading ignores case and blanks at both ends, so every code has one normal form.
-/

namespace Curriculum

/-- The normal form of a subject code. -/
def isSubjectText : List Char → Bool
  | [a, b, c, d] => a.isUpper && [b, c, d].all fun x => x.isUpper || x.isDigit
  | _ => false

structure SubjectCode where
  chars : List Char
  wellFormed : isSubjectText chars = true
deriving DecidableEq

namespace SubjectCode

def text (s : SubjectCode) : String := String.ofList s.chars

/-- Accepts a code already in normal form. -/
def ofChars? (cs : List Char) : Option SubjectCode :=
  if h : isSubjectText cs = true then some ⟨cs, h⟩ else none

/-- Reads a code in any case, with blanks around it. -/
def parse? (raw : String) : Option SubjectCode :=
  ofChars? ((Text.trim raw.toList).map Char.toUpper)

instance : Ord SubjectCode := ⟨compareOn chars⟩

instance : Std.TransOrd SubjectCode := inferInstanceAs (Std.TransCmp (compareOn chars))

instance : Std.LawfulEqOrd SubjectCode where
  eq_of_compare {a b} h := by
    have hchars : a.chars = b.chars := Std.LawfulEqOrd.eq_of_compare h
    cases a
    cases b
    simpa using hchars

theorem ofChars?_chars (s : SubjectCode) : ofChars? s.chars = some s := by
  simp [ofChars?, s.wellFormed]

theorem chars_of_ofChars? {cs : List Char} {s : SubjectCode} (h : ofChars? cs = some s) :
    s.chars = cs := by
  unfold ofChars? at h
  split at h
  · cases h
    rfl
  · cases h

end SubjectCode

end Curriculum
