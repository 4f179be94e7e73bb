import Curriculum.Course.Mention

/-!
# Finding courses in prose

Extraction walks through a text from mention to mention and expands each into course ids. A
mention must not follow a capital letter. The search goes on at the last digit of the mention
before, since that digit may stand in front of the next one (`COMP250MATH240`).
-/

namespace Curriculum

namespace Mention

/-- A number with the suffixes listed after it, each with its letter if it has one. -/
structure Listing where
  numeral : Numeral
  suffixes : List (Option Char × Char)
deriving DecidableEq

/-- The listings of a number followed by more items. -/
def listingsFrom (numeral : Numeral) : List MentionItem → List Listing
  | [] => [⟨numeral, []⟩]
  | .number next :: rest => ⟨numeral, []⟩ :: listingsFrom next rest
  | .suffix letter digit :: rest =>
    match listingsFrom numeral rest with
    | first :: others => { first with suffixes := (letter, digit) :: first.suffixes } :: others
    | [] => []

def listings (m : Mention) : List Listing := listingsFrom m.numeral m.items

/-- The suffixes that are valid. One without a letter takes that of the first valid one. -/
def termSuffixes (known : Option Char) : List (Option Char × Char) → List TermSuffix
  | [] => []
  | (letter, digit) :: rest =>
    match (letter.or known).bind (TermSuffix.withDigit? · digit) with
    | some suffix => suffix :: termSuffixes (known.or (some suffix.letter)) rest
    | none => termSuffixes known rest

/-- One id per suffix, or the bare id if there is none. -/
def Listing.ids (subject : SubjectCode) (l : Listing) : List CourseId :=
  match CourseNumber.ofChars? l.numeral.chars with
  | none => []
  | some number =>
    match termSuffixes none l.suffixes with
    | [] => [⟨subject, number, none⟩]
    | suffixes => suffixes.map fun s => ⟨subject, number, some s⟩

/-- Words of four letters that name a season and never a subject. -/
def seasonWords : List (List Char) :=
  ["FALL".toList, "WINT".toList, "SUMM".toList, "SPRI".toList]

def subjectCodes (m : Mention) : List SubjectCode :=
  (m.subjects.filter fun word => !seasonWords.contains word).filterMap SubjectCode.ofChars?

/-- The ids that a mention stands for, subject by subject and number by number. -/
def ids (m : Mention) : List CourseId :=
  m.subjectCodes.flatMap fun subject => m.listings.flatMap (Listing.ids subject)

/-- The first mention that follows some character of the text. -/
def find? : List Char → Option (Mention × List Char)
  | [] => none
  | c :: rest =>
    if c.isUpper then find? rest
    else
      match read? rest with
      | some found => some found
      | none => find? rest

theorem length_of_find? {cs rest : List Char} {m : Mention} (h : find? cs = some (m, rest)) :
    rest.length + 8 ≤ cs.length := by
  fun_induction find? cs with
  | case1 => cases h
  | case2 c tail _ ih =>
    have := ih h
    simp only [List.length_cons]
    omega
  | case3 c tail _ found hread =>
    cases h
    have := length_of_read? hread
    simp only [List.length_cons]
    omega
  | case4 c tail _ _ ih =>
    have := ih h
    simp only [List.length_cons]
    omega

/-- Where the search goes on after a mention. -/
def resume (m : Mention) (rest : List Char) : List Char :=
  if m.lastDigit.isDigit then m.lastDigit :: rest else rest

theorem length_resume (m : Mention) (rest : List Char) :
    (m.resume rest).length ≤ rest.length + 1 := by
  unfold resume
  split <;> simp

/-- The mentions in the rest of a text. -/
def allFrom (cs : List Char) : List Mention :=
  match h : find? cs with
  | none => []
  | some (m, rest) =>
    have := length_of_find? h
    have := m.length_resume rest
    m :: allFrom (m.resume rest)
termination_by cs.length

/-- The mentions in a text, in any case of its letters. -/
def all (text : String) : List Mention :=
  let cs := text.toList.map Char.toUpper
  match read? cs with
  | some (m, rest) => m :: allFrom (m.resume rest)
  | none => allFrom cs

end Mention

/-- Every course that a text mentions, in order of first appearance. -/
def extractIds (text : String) : List CourseId :=
  ((Mention.all text).flatMap Mention.ids).eraseDups

/-- The first course that a text mentions. -/
def extractFirst? (text : String) : Option CourseId :=
  (Mention.all text).findSome? fun m => m.ids.head?

end Curriculum
