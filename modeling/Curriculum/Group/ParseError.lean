import Curriculum.Course.Id

/-!
# Faults in requisite text

Reading requisite text gives a whole group or one of these. Positions count characters from the
start of the text.
-/

namespace Curriculum

inductive ParseError where
  /-- The text says nothing, or an operator joins nothing. -/
  | empty
  | mixedOperators (expected found : Char) (position : Nat)
  /-- A chunk that ends at the position names no course. -/
  | unresolvedCourse (chunk : String) (position : Nat)
  | creditAmount (chunk : String)
  | creditScope (chunk : String)
  | creditSubject (cause : CourseIdError)
  | nestedCredit (position : Nat)
  | unbalanced (position : Nat)
  | tooDeep (limit : Nat)
deriving DecidableEq

def ParseError.message : ParseError → String
  | .empty => "requisite text is empty"
  | .mixedOperators expected found position =>
    s!"mixed operators at position {position}: group is '{expected}', found '{found}'"
  | .unresolvedCourse chunk position => s!"'{chunk}' at position {position} is not a course id"
  | .creditAmount chunk => s!"invalid credit amount: '{chunk}'"
  | .creditScope chunk => s!"invalid credit level scope: '{chunk}'"
  | .creditSubject cause => s!"invalid subject in credit group: {cause.message}"
  | .nestedCredit position =>
    s!"credit group at position {position} may only hold credit chunks"
  | .unbalanced position => s!"unbalanced parenthesis at position {position}"
  | .tooDeep limit => s!"nesting exceeds maximum depth of {limit}"

end Curriculum
