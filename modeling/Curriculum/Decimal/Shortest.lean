/-!
# Shortest decimals

The decimal of fewest digits that reads back to a given binary float, and of those the nearest
one, an even last digit deciding a tie. A finite float is `m · 2^q`; the reals that round to it
lie between the midpoints to its neighbours, and a midpoint belongs to it when `m` is even.
-/

namespace Curriculum.Decimal

/-- A positive binary float `significand · 2 ^ exponent`. -/
structure Binary where
  significand : Nat
  exponent : Int
  /-- The float below is only half as far away as the one above. -/
  isLowest : Bool

/-- The decimal `digits · 10 ^ exponent`. -/
structure Scaled where
  digits : Nat
  exponent : Int
deriving DecidableEq, Repr

/-- A positive rational number. -/
structure Ratio where
  num : Nat
  den : Nat

namespace Ratio

/-- `n · base ^ e`. -/
def scaled (n base : Nat) (e : Int) : Ratio :=
  if 0 ≤ e then ⟨n * Nat.pow base e.toNat, 1⟩ else ⟨n, Nat.pow base (-e).toNat⟩

def lt (a b : Ratio) : Bool := a.num * b.den < b.num * a.den

def le (a b : Ratio) : Bool := a.num * b.den ≤ b.num * a.den

/-- The distance between two numbers. -/
def distance (a b : Ratio) : Ratio :=
  ⟨(a.num * b.den - b.num * a.den) + (b.num * a.den - a.num * b.den), a.den * b.den⟩

end Ratio

namespace Binary

def value (x : Binary) : Ratio := .scaled x.significand 2 x.exponent

/-- The midpoint to the float below. -/
def lower (x : Binary) : Ratio :=
  if x.isLowest then .scaled (4 * x.significand - 1) 2 (x.exponent - 2)
  else .scaled (2 * x.significand - 1) 2 (x.exponent - 1)

/-- The midpoint to the float above. -/
def upper (x : Binary) : Ratio := .scaled (2 * x.significand + 1) 2 (x.exponent - 1)

/-- A number that rounds to `x`. -/
def contains (x : Binary) (r : Ratio) : Bool :=
  if x.significand % 2 == 0 then x.lower.le r && r.le x.upper
  else x.lower.lt r && r.lt x.upper

/-- The place of the first decimal digit: `10 ^ k ≤ x < 10 ^ (k + 1)`. -/
def leadingPlace (x : Binary) : Int :=
  let v := x.value
  if v.den ≤ v.num then (Nat.toDigits 10 (v.num / v.den)).length - 1
  else
    let k := (Nat.toDigits 10 (v.den / v.num)).length
    if v.den ≤ v.num * Nat.pow 10 (k - 1) then -(k - 1 : Nat) else -k

/-- The neighbour of `x` with the given last place that reads back to `x`: the nearer of two, and
of two as near the even one. -/
def onGrid? (x : Binary) (place : Int) : Option Scaled :=
  let v := x.value
  let unit := Ratio.scaled 1 10 place
  let below := (v.num * unit.den) / (v.den * unit.num)
  let low := Ratio.scaled below 10 place
  let high := Ratio.scaled (below + 1) 10 place
  let lowFits := 0 < below && x.contains low
  let highFits := x.contains high
  if lowFits && highFits then
    let (down, up) := (low.distance v, high.distance v)
    if down.lt up || (down.le up && below % 2 == 0) then some ⟨below, place⟩
    else some ⟨below + 1, place⟩
  else if lowFits then some ⟨below, place⟩
  else if highFits then some ⟨below + 1, place⟩
  else none

/-- Searches the grids from the coarsest; a float needs seventeen digits at most. -/
def shortest (x : Binary) : Scaled :=
  let top := x.leadingPlace
  ((List.range 17).findSome? fun (n : Nat) => x.onGrid? (top - n)).getD ⟨x.significand, x.exponent⟩

end Binary

/-- The parts of a positive finite double. -/
def Binary.ofBits (bits : UInt64) : Binary :=
  let fraction := bits.toNat % 0x10000000000000
  let field := bits.toNat / 0x10000000000000 % 0x800
  if field = 0 then ⟨fraction, -1074, false⟩
  else ⟨0x10000000000000 + fraction, (field : Int) - 1075, fraction == 0 && field != 1⟩

def zeros (n : Nat) : String := String.ofList (List.replicate n '0')

/-- The text of a positive decimal: positional from `0.00001` to below `10 ^ 16`, with a point in
either case, and scientific outside. -/
def Scaled.text (d : Scaled) : String :=
  let digits := (toString d.digits).toList
  let n : Int := digits.length
  let point := n + d.exponent
  if 0 ≤ d.exponent && point ≤ 16 then
    String.ofList digits ++ zeros d.exponent.toNat ++ ".0"
  else if 0 < point && point ≤ 16 then
    String.ofList (digits.take point.toNat) ++ "." ++ String.ofList (digits.drop point.toNat)
  else if -5 < point && point ≤ 0 then
    "0." ++ zeros (-point).toNat ++ String.ofList digits
  else
    let lead := String.ofList (digits.take 1)
    let rest := digits.drop 1
    let mantissa := if rest.isEmpty then lead else lead ++ "." ++ String.ofList rest
    mantissa ++ "e" ++ toString (point - 1)

/-- Drops the zeros that end a digit string. -/
def Scaled.normalize (d : Scaled) : Nat → Scaled
  | 0 => d
  | n + 1 =>
    if d.digits != 0 && d.digits % 10 == 0 then
      Scaled.normalize ⟨d.digits / 10, d.exponent + 1⟩ n
    else d

/-- The text of a finite double, told apart from an integer by its point or exponent. -/
def floatText (x : Float) : String :=
  let bits := x.toBits
  let sign := if bits.toNat / 0x8000000000000000 = 1 then "-" else ""
  let magnitude := bits.toNat % 0x8000000000000000
  if magnitude = 0 then sign ++ "0.0"
  else sign ++ ((Binary.ofBits (UInt64.ofNat magnitude)).shortest.normalize 20).text

end Curriculum.Decimal
