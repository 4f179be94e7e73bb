import Curriculum.Text.Hidden

/-!
# Quoted text

A message that shows a text of unknown content puts it in double quotes. Quotes, backslashes
and the usual control characters are escaped with a backslash, and hidden characters stand by
their number in hexadecimal.
-/

namespace Curriculum.Text

/-- How a character stands inside a quotation. -/
def quotedChar : Char → List Char
  | '\x00' => ['\\', '0']
  | '\t' => ['\\', 't']
  | '\r' => ['\\', 'r']
  | '\n' => ['\\', 'n']
  | '"' => ['\\', '"']
  | '\\' => ['\\', '\\']
  | c =>
    if isHidden c then
      ['\\', 'u', '\x7b'] ++ Nat.toDigits 16 c.toNat ++ ['\x7d']
    else [c]

def quoted (s : String) : String :=
  String.ofList ('"' :: s.toList.flatMap quotedChar ++ ['"'])

end Curriculum.Text
