import Curriculum.Text.Remainder

/-!
# JSON values

A document is kept as it was written: members keep their order and their repeats, and an
integer is not a float. Some well-formed texts stand for nothing that can be held, such as
`1e400`, a string with half a surrogate pair, or containers nested past the limit; they are
`unreadable`, and harmless where a reader skips them.
-/

namespace Curriculum

inductive Json where
  | null
  | bool (b : Bool)
  | integer (n : Int)
  | float (x : Float)
  | string (s : String)
  | array (items : List Json)
  | object (members : List (String × Json))
  | unreadable

namespace Json

mutual

/-- Nothing inside the value is unreadable. -/
def isReadable : Json → Bool
  | .unreadable => false
  | .array items => itemsReadable items
  | .object members => membersReadable members
  | _ => true

def itemsReadable : List Json → Bool
  | [] => true
  | v :: rest => v.isReadable && itemsReadable rest

def membersReadable : List (String × Json) → Bool
  | [] => true
  | (_, v) :: rest => v.isReadable && membersReadable rest

end

/-- The values of the members named `key`, in order. -/
def valuesOf (members : List (String × Json)) (key : String) : List Json :=
  (members.filter fun m => m.1 == key).map Prod.snd

/-- The value of the member named `key`, the last one if it is repeated. -/
def get? (v : Json) (key : String) : Option Json :=
  match v with
  | .object members => (valuesOf members key).getLast?
  | _ => none

end Json

end Curriculum
