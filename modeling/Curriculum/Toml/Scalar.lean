import Curriculum.Toml.Table

/-!
# TOML numbers, dates and words

A scalar that is not a string is one run of letters, digits and a few marks, and is read as a
whole: a truth value, an integer of 64 bits, a float, or a date, a time or both.
-/

namespace Curriculum.Toml

/-- The characters that such a scalar may be made of. -/
def isScalarChar (c : Char) : Bool :=
  c.isAlphanum || c == '+' || c == '-' || c == '_' || c == '.' || c == ':'

/-- Digits in which single underscores may stand between two of them. -/
def digits? (isDigit : Char → Bool) : List Char → Option (List Char)
  | [] => none
  | [d] => if isDigit d then some [d] else none
  | d :: '_' :: rest => if isDigit d then (digits? isDigit rest).map (d :: ·) else none
  | d :: rest => if isDigit d then (digits? isDigit rest).map (d :: ·) else none

def isHexDigit (c : Char) : Bool := c.isDigit || ('a' ≤ c && c ≤ 'f') || ('A' ≤ c && c ≤ 'F')

def digitValue (c : Char) : Nat :=
  if c.isDigit then c.toNat - '0'.toNat
  else if 'a' ≤ c then c.toNat - 'a'.toNat + 10
  else c.toNat - 'A'.toNat + 10

def valueOf (base : Nat) (ds : List Char) : Nat :=
  ds.foldl (fun n d => n * base + digitValue d) 0

/-- A sign, if there is one, and what follows it. -/
def splitSign : List Char → Bool × List Char
  | '+' :: rest => (false, rest)
  | '-' :: rest => (true, rest)
  | cs => (false, cs)

/-- Decimal digits without a needless zero in front. -/
def decimal? (cs : List Char) : Option (List Char) := do
  let ds ← digits? Char.isDigit cs
  match ds with
  | '0' :: _ :: _ => none
  | _ => some ds

def inRange? (n : Int) : Option Int :=
  if -0x8000000000000000 ≤ n ∧ n < 0x8000000000000000 then some n else none

def integer? : List Char → Option Int
  | '0' :: 'x' :: cs => do inRange? (valueOf 16 (← digits? isHexDigit cs))
  | '0' :: 'o' :: cs => do inRange? (valueOf 8 (← digits? (fun c => '0' ≤ c && c ≤ '7') cs))
  | '0' :: 'b' :: cs => do inRange? (valueOf 2 (← digits? (fun c => c == '0' || c == '1') cs))
  | cs => do
    let (isNegative, body) := splitSign cs
    let n := valueOf 10 (← decimal? body)
    inRange? (if isNegative then -n else n)

/-- The value of an exponent: a sign and digits, zeros in front allowed. -/
def exponent? (cs : List Char) : Option Int := do
  let (isNegative, body) := splitSign cs
  let n := valueOf 10 (← digits? Char.isDigit body)
  return if isNegative then -n else n

/-- The decimal `digits · 10 ^ exponent` exceeds every finite double after rounding. -/
def isTooLarge (digits : List Char) (exponent : Int) : Bool :=
  let n := valueOf 10 digits
  let bound := Nat.pow 2 1024 - Nat.pow 2 970
  if n = 0 ∨ exponent + digits.length < 0 then false
  else if 310 < exponent then true
  else if 0 ≤ exponent then bound ≤ n * Nat.pow 10 exponent.toNat
  else bound * Nat.pow 10 (-exponent).toNat ≤ n

/-- Whether some characters spell a float: a whole part with a fraction, an exponent, or both. A
positive one must not be too large to be held. -/
def isFloat (cs : List Char) : Bool :=
  let (isNegative, body) := splitSign cs
  if body == "inf".toList || body == "nan".toList then true
  else
    let isMark (c : Char) : Bool := c == 'e' || c == 'E'
    let mantissa := body.takeWhile fun c => !isMark c
    let whole := mantissa.takeWhile (· != '.')
    let fraction := mantissa.dropWhile (· != '.')
    let power := body.dropWhile fun c => !isMark c
    let parsed : Option Bool := do
      let ds ← decimal? whole
      let fs ← if fraction.isEmpty then some [] else digits? Char.isDigit (fraction.drop 1)
      let e ← if power.isEmpty then some 0 else exponent? (power.drop 1)
      return isNegative || !isTooLarge (ds ++ fs) (e - fs.length)
    (!fraction.isEmpty || !power.isEmpty) && parsed.getD false

/-- The value of exactly `count` digits. -/
def fixed? (count : Nat) (cs : List Char) : Option Nat :=
  if cs.length = count ∧ cs.all Char.isDigit then some (valueOf 10 cs) else none

def daysInMonth (year month : Nat) : Nat :=
  if month = 2 then
    if year % 4 = 0 ∧ (year % 100 ≠ 0 ∨ year % 400 = 0) then 29 else 28
  else if month = 4 ∨ month = 6 ∨ month = 9 ∨ month = 11 then 30
  else 31

/-- A day of the calendar, as in `1979-05-27`. -/
def isDate (cs : List Char) : Bool :=
  let parsed : Option Bool := do
    let year ← fixed? 4 (cs.take 4)
    let month ← fixed? 2 ((cs.drop 5).take 2)
    let day ← fixed? 2 (cs.drop 8)
    return cs[4]? == some '-' && cs[7]? == some '-' && 1 ≤ month && month ≤ 12 && 1 ≤ day &&
      day ≤ daysInMonth year month
  parsed.getD false

/-- Hours and minutes, as in `07:32`. -/
def isHourMinute (cs : List Char) : Bool :=
  let parsed : Option Bool := do
    let hour ← fixed? 2 (cs.take 2)
    let minute ← fixed? 2 (cs.drop 3)
    return cs[2]? == some ':' && hour ≤ 23 && minute ≤ 59
  parsed.getD false

/-- A time of day, as in `07:32:00.999`. A leap second counts as the second 60. -/
def isTime (cs : List Char) : Bool :=
  let fraction := cs.drop 8
  let second := fixed? 2 ((cs.drop 6).take 2)
  isHourMinute (cs.take 5) && cs[5]? == some ':' && second.any (· ≤ 60) &&
    (fraction.isEmpty ||
      (fraction.head? == some '.' && 2 ≤ fraction.length && (fraction.drop 1).all Char.isDigit))

/-- The distance from universal time. -/
def isOffset : List Char → Bool
  | ['Z'] => true
  | ['z'] => true
  | '+' :: cs => isHourMinute cs
  | '-' :: cs => isHourMinute cs
  | _ => false

/-- A time of day with or without an offset. -/
def isTimeWithOffset (cs : List Char) : Bool :=
  let isTimeChar (c : Char) : Bool := c.isDigit || c == ':' || c == '.'
  let offset := cs.dropWhile isTimeChar
  isTime (cs.takeWhile isTimeChar) && (offset.isEmpty || isOffset offset)

/-- A date, a time, or a date with a time. -/
def isDateTime (cs : List Char) : Bool :=
  isDate cs || isTime cs ||
    (isDate (cs.take 10) && (cs[10]? == some 'T' || cs[10]? == some 't' || cs[10]? == some ' ') &&
      isTimeWithOffset (cs.drop 11))

def scalar? (cs : List Char) : Option Toml :=
  if cs = "true".toList then some (.boolean true)
  else if cs = "false".toList then some (.boolean false)
  else
    match integer? cs with
    | some n => some (.integer n)
    | none =>
      if isFloat cs then some (.float (String.ofList cs))
      else if isDateTime cs then some (.dateTime (String.ofList cs))
      else none

end Curriculum.Toml
