import Curriculum.Course.Subject
import Curriculum.Course.Suffix

/-!
# Course ids

A course id is a subject, a three-digit number and possibly a term suffix, written
`COMP 361D1`. Reading ignores case, blanks and dashes, and every id has one written form.
-/

namespace Curriculum

/-- A course number, written with three digits. -/
abbrev CourseNumber := Fin 1000

namespace CourseNumber

def digit (n : Nat) : Char := Nat.digitChar (n % 10)

def chars (n : CourseNumber) : List Char :=
  [digit (n / 100), digit (n / 10), digit n]

def text (n : CourseNumber) : String := String.ofList n.chars

/-- Reads exactly three decimal digits. -/
def ofChars? : List Char → Option CourseNumber
  | [a, b, c] =>
    if a.isDigit && b.isDigit && c.isDigit then
      some (Fin.ofNat 1000
        ((a.toNat - 48) * 100 + (b.toNat - 48) * 10 + (c.toNat - 48)))
    else none
  | _ => none

end CourseNumber

inductive CourseIdError where
  | malformed (raw : String)
  | subject (raw : String)
  | number (text : String)
  | suffix (text : String)
deriving DecidableEq

def CourseIdError.message : CourseIdError → String
  | .malformed raw => s!"invalid course id: '{raw}'"
  | .subject raw => s!"invalid subject code: '{raw}'"
  | .number text => s!"invalid course number: '{text}'"
  | .suffix text => s!"invalid term suffix: '{text}'"

/-- Reads a subject code; the error carries the text as it was given. -/
def SubjectCode.parse (raw : String) : Except CourseIdError SubjectCode :=
  match parse? raw with
  | some subject => .ok subject
  | none => .error (.subject raw)

structure CourseId where
  subject : SubjectCode
  number : CourseNumber
  suffix : Option TermSuffix
deriving DecidableEq

namespace CourseId

/-- The text of an id with case, blanks and dashes out of the way. -/
def compact (raw : List Char) : List Char :=
  (raw.filter fun c => !Text.isBlank c && c != '-').map Char.toUpper

def isAscii (c : Char) : Bool := c.toNat < 128

/-- The suffix of an id: nothing, or a letter and a digit. -/
def parseSuffix : List Char → Except CourseIdError (Option TermSuffix)
  | [] => .ok none
  | cs =>
    match TermSuffix.ofChars? cs with
    | some suffix => .ok (some suffix)
    | none => .error (.suffix (String.ofList cs))

def parseNumber (cs : List Char) : Except CourseIdError CourseNumber :=
  match CourseNumber.ofChars? cs with
  | some number => .ok number
  | none => .error (.number (String.ofList cs))

/-- Reads any spelling of one id. A fault in the suffix is reported before one in the subject,
and that before one in the number. -/
def parse (raw : String) : Except CourseIdError CourseId :=
  let cs := compact raw.toList
  if cs.all isAscii && 7 ≤ cs.length then do
    let suffix ← parseSuffix (cs.drop 7)
    let subject ← SubjectCode.parse (String.ofList (cs.take 4))
    let number ← parseNumber ((cs.drop 4).take 3)
    return ⟨subject, number, suffix⟩
  else .error (.malformed raw)

def chars (id : CourseId) : List Char :=
  id.subject.chars ++ ' ' :: (id.number.chars ++ id.suffix.elim [] TermSuffix.chars)

def text (id : CourseId) : String := String.ofList id.chars

/-- The first digit of the number. -/
def level (id : CourseId) : Nat := id.number / 100

def isMultiTerm (id : CourseId) : Bool := id.suffix.isSome

def withSuffix (id : CourseId) (suffix : Option TermSuffix) : CourseId := { id with suffix }

/-- The part of a multi-term course taken one term earlier. -/
def predecessorPart? (id : CourseId) : Option CourseId :=
  (id.suffix.bind TermSuffix.predecessor?).map fun s => id.withSuffix (some s)

/-- The part of a multi-term course taken one term later. -/
def successorPart? (id : CourseId) : Option CourseId :=
  (id.suffix.bind TermSuffix.successor?).map fun s => id.withSuffix (some s)

instance : Ord CourseId :=
  ⟨compareLex (compareOn subject) (compareLex (compareOn number) (compareOn suffix))⟩

instance : Std.TransOrd CourseId :=
  inferInstanceAs (Std.TransCmp
    (compareLex (compareOn subject) (compareLex (compareOn number) (compareOn suffix))))

instance : Std.LawfulEqOrd CourseId where
  eq_of_compare {a b} h := by
    obtain ⟨hs, hr⟩ := Ordering.then_eq_eq.1 h
    obtain ⟨hn, hx⟩ := Ordering.then_eq_eq.1 hr
    cases a
    cases b
    simp_all [compareOn]

end CourseId

/-- A finite set of courses, listed in id order. -/
abbrev CourseSet := Std.ExtTreeSet CourseId

instance CourseSet.lawfulBEq : LawfulBEq CourseSet := Std.ExtTreeSet.instLawfulBEqOfLawfulEqCmp

end Curriculum
