import Curriculum.Json.Value

/-!
# JSON numbers

A literal without fraction and exponent is an integer if it fits 64 bits. Any other is a float:
as many digits as fit an unsigned 64-bit word make up a significand, which is then scaled once
by a power of ten. The result is close to the decimal value, though not always the closest.
-/

namespace Curriculum.Json

/-- A number as it stands in the text. -/
structure Literal where
  isNegative : Bool
  whole : List Char
  fraction : List Char
  /-- Sign and digits of the exponent. -/
  exponent : Option (Bool × List Char)
deriving DecidableEq

namespace Literal

def digitValue (c : Char) : Nat := c.toNat - '0'.toNat

/-- Extends a significand by digits while it fits 64 bits, and tells which digits are left. -/
def accumulate (significand : Nat) : List Char → Nat × List Char
  | [] => (significand, [])
  | d :: ds =>
    let next := significand * 10 + digitValue d
    if next < 0x10000000000000000 then accumulate next ds else (significand, d :: ds)

def powerOfTen (e : Nat) : Float := Float.ofScientific 1 false e

/-- Divides by a power of ten in steps that a float can hold. -/
def scaleDown (x : Float) (e : Nat) : Float :=
  if h : e ≤ 308 then x / powerOfTen e
  else if x == 0 then x
  else scaleDown (x / powerOfTen 308) (e - 308)
termination_by e

/-- Multiplies by a power of ten, unless the result is out of range. -/
def scaleUp? (x : Float) (e : Nat) : Option Float :=
  if e ≤ 308 then
    let y := x * powerOfTen e
    if y.isInf then none else some y
  else if x == 0 then some x
  else none

def scale? (x : Float) (e : Int) : Option Float :=
  if 0 ≤ e then scaleUp? x e.toNat else some (scaleDown x (-e).toNat)

/-- The exponent written after the digits; `none` when it does not fit 32 bits. -/
def exponentValue? (digits : List Char) : Option Nat :=
  let n := digits.foldl (fun acc d => acc * 10 + digitValue d) 0
  if n < 0x80000000 then some n else none

def toFloat? (l : Literal) : Option Float :=
  let (whole, dropped) := accumulate 0 l.whole
  let (significand, ignored) := accumulate whole l.fraction
  let shift : Int := dropped.length - (l.fraction.length - ignored.length : Nat)
  let magnitude : Option Float :=
    match l.exponent with
    | none => scale? (Float.ofNat significand) shift
    | some (isNegative, digits) =>
      match exponentValue? digits, isNegative with
      | some e, false => scale? (Float.ofNat significand) (shift + e)
      | some e, true => scale? (Float.ofNat significand) (shift - e)
      | none, false => if significand = 0 then some 0 else none
      | none, true => some 0
  magnitude.map fun x => if l.isNegative then -x else x

/-- The integer that the literal spells, if it spells one of 64 bits. Minus zero is a float. -/
def toInteger? (l : Literal) : Option Int :=
  let n := l.whole.foldl (fun acc d => acc * 10 + digitValue d) 0
  if l.fraction ≠ [] ∨ l.exponent.isSome then none
  else if l.isNegative then
    if 1 ≤ n ∧ n ≤ 0x8000000000000000 then some (-n) else none
  else if n < 0x10000000000000000 then some n else none

def toJson (l : Literal) : Json :=
  match l.toInteger? with
  | some n => .integer n
  | none =>
    match l.toFloat? with
    | some x => .float x
    | none => .unreadable

end Literal

end Curriculum.Json
