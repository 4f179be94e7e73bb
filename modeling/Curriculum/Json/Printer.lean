import Curriculum.Json.Value
import Curriculum.Decimal.Shortest

/-!
# Writing JSON

Values are written without blanks, members in their order. A float keeps its point or exponent,
so it reads back as a float.
-/

namespace Curriculum.Json

def hexDigits (n : Nat) : List Char :=
  [n / 4096, n / 256, n / 16, n].map fun k => Nat.digitChar (k % 16)

/-- How a character stands inside a string. -/
def escape : Char → List Char
  | '"' => ['\\', '"']
  | '\\' => ['\\', '\\']
  | '\n' => ['\\', 'n']
  | '\r' => ['\\', 'r']
  | '\t' => ['\\', 't']
  | c => if c.toNat < 0x20 then '\\' :: 'u' :: hexDigits c.toNat else [c]

def quoted (s : String) : String :=
  String.ofList ('"' :: s.toList.flatMap escape ++ ['"'])

mutual

def render : Json → String
  | .null => "null"
  | .bool true => "true"
  | .bool false => "false"
  | .integer n => toString n
  | .float x => if x.isFinite then Decimal.floatText x else "null"
  | .string s => quoted s
  | .array items => "[" ++ renderItems items ++ "]"
  | .object members => "\x7b" ++ renderMembers members ++ "\x7d"
  | .unreadable => "null"

def renderItems : List Json → String
  | [] => ""
  | [v] => v.render
  | v :: rest => v.render ++ "," ++ renderItems rest

def renderMembers : List (String × Json) → String
  | [] => ""
  | [(key, v)] => quoted key ++ ":" ++ v.render
  | (key, v) :: rest => quoted key ++ ":" ++ v.render ++ "," ++ renderMembers rest

end

end Curriculum.Json
