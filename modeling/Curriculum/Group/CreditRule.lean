import Curriculum.Group.ParseError
import Curriculum.Text.DecimalDigit

/-!
# Credit rules

A credit rule asks for a number of credits from courses of some subjects at some levels. It is
written `6-34-MATH-COMP`: the amount, the level digits that count (a zero admits every level),
and the subjects.
-/

namespace Curriculum

structure CreditRule where
  required : UInt32
  scope : String
  subjects : List SubjectCode
deriving DecidableEq

namespace CreditRule

/-- The rule holds whatever has been taken. -/
def isVacuous (r : CreditRule) : Bool := r.subjects.isEmpty || r.required == 0

/-- Courses of this level count. -/
def matchesLevel (r : CreditRule) (level : Nat) : Bool :=
  r.scope.toList.any fun c => c == '0' || (c.isDigit && c.toNat - '0'.toNat == level)

/-- The course counts toward the rule. -/
def counts (r : CreditRule) (id : CourseId) : Bool :=
  r.subjects.contains id.subject && r.matchesLevel id.level

def chars (r : CreditRule) : List Char :=
  Nat.toDigits 10 r.required.toNat ++ '-' :: r.scope.toList ++
    r.subjects.flatMap fun s => '-' :: s.chars

def text (r : CreditRule) : String := String.ofList r.chars

/-- The shape of an amount: one to seven digits of any script, or four letters and digits. -/
def isAmountText (cs : List Char) : Bool :=
  (cs.all Text.isDecimalDigit && 1 ≤ cs.length && cs.length ≤ 7) ||
    (cs.all Char.isAlphanum && cs.length == 4)

/-- Reads a number of 32 bits in decimal, with or without a plus sign before it. -/
def parseUInt32? (cs : List Char) : Option UInt32 :=
  let digits := match cs with
    | '+' :: digits => digits
    | _ => cs
  if !digits.isEmpty && digits.all Char.isDigit then
    let value := Nat.ofDigitChars 10 digits 0
    if value < 0x100000000 then some (UInt32.ofNat value) else none
  else none

/-- Reads the number of credits. Not every text of the right shape is a number. -/
def parseAmount (chunk : String) : Except ParseError UInt32 :=
  if isAmountText chunk.toList then
    match parseUInt32? chunk.toList with
    | some required => .ok required
    | none => .error (.creditAmount chunk)
  else .error (.creditAmount chunk)

/-- One digit or more. -/
def parseScope (chunk : String) : Except ParseError String :=
  if !chunk.isEmpty && chunk.toList.all Char.isDigit then .ok chunk
  else .error (.creditScope chunk)

/-- Cuts a text into codes of four bytes each, of which `pending` starts the next one. A cut
inside a character leaves a code that is empty. -/
def codesFrom (pending : List Char) : List Char → Except CourseIdError (List SubjectCode)
  | [] => .ok []
  | c :: rest =>
    let code := pending ++ [c]
    let size := (String.ofList code).utf8ByteSize
    if size < 4 then codesFrom code rest
    else do
      let subject ← SubjectCode.parse (if size = 4 then String.ofList code else "")
      return subject :: (← codesFrom [] rest)

/-- The subjects of a chunk, in which codes may run together. -/
def parseSubjects (chunk : String) : Except CourseIdError (List SubjectCode) :=
  if chunk.utf8ByteSize % 4 = 0 then codesFrom [] chunk.toList else .error (.subject chunk)

/-- Builds a rule from its amount, its scope and its subjects. -/
def ofChunks (chunks : List String) : Except ParseError CreditRule := do
  let required ← parseAmount (chunks.head?.getD "")
  let scope ← parseScope (chunks[1]?.getD "")
  let subjects ← ((chunks.drop 2).mapM parseSubjects).mapError .creditSubject
  return ⟨required, scope, subjects.flatten.eraseDups⟩

end CreditRule

end Curriculum
