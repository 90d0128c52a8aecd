/-! Numbers of 64 bits with a binary point, kept exactly as a sign, a mantissa below `2 ^ 53` and a
    power of two. Reading rounds to the nearest such number, a tie going to the even mantissa.
    Writing takes the fewest decimal digits that read back as the same number, and of two such
    decimals the nearer one. All steps are exact arithmetic on natural numbers. -/

namespace ProcessForge

/-- A number of 64 bits. A finite one has the magnitude `mantissa * 2 ^ exponent`. -/
inductive Binary64 where
  | nan
  | infinite (negative : Bool)
  | finite (negative : Bool) (mantissa : Nat) (exponent : Int)
  deriving DecidableEq, Repr, Inhabited

namespace Binary64

def twoTo (n : Nat) : Nat := Nat.pow 2 n

def tenTo (n : Nat) : Nat := Nat.pow 10 n

/-- Whether the number is zero, of either sign. -/
def isZero : Binary64 → Bool
  | finite _ mantissa _ => mantissa == 0
  | _ => false

def minExponent : Int := -1074

def maxExponent : Int := 971

/-- Rounds a quotient to a whole number, a tie going to the even one. -/
def divideToEven (num den : Nat) : Nat :=
  let q := num / den
  let r := num % den
  if 2 * r < den then q
  else if den < 2 * r then q + 1
  else if q % 2 == 0 then q else q + 1

/-- Numerator and denominator of `num / den / 2 ^ exponent`. -/
def scaledBy (num den : Nat) (exponent : Int) : Nat × Nat :=
  if exponent < 0 then (num * twoTo (-exponent).toNat, den) else (num, den * twoTo exponent.toNat)

/-- Exponent with which the mantissa of the quotient fits into 53 bits. -/
def exponentOf (num den : Nat) : Int :=
  let guess := max ((num.log2 : Int) - (den.log2 : Int) - 53) minExponent
  let (n, d) := scaledBy num den guess
  if n / d < twoTo 53 then guess else guess + 1

def ofRatio (negative : Bool) (num den : Nat) : Binary64 :=
  if num == 0 then finite negative 0 minExponent
  else
    let exponent := exponentOf num den
    let (n, d) := scaledBy num den exponent
    let mantissa := divideToEven n d
    let (mantissa, exponent) :=
      if mantissa == twoTo 53 then (twoTo 52, exponent + 1) else (mantissa, exponent)
    if maxExponent < exponent then infinite negative else finite negative mantissa exponent

/-- The nearest number to `digits * 10 ^ power`, where `digits` has at most `count` decimal places. Far
    beyond the range of finite numbers the power is not computed. -/
def ofDecimal (negative : Bool) (digits count : Nat) (power : Int) : Binary64 :=
  if digits == 0 then finite negative 0 minExponent
  else if 400 < power then infinite negative
  else if power + count < -400 then finite negative 0 minExponent
  else if power < 0 then ofRatio negative digits (tenTo (-power).toNat)
  else ofRatio negative (digits * tenTo power.toNat) 1

def ofNat (n : Nat) : Binary64 := ofRatio false n 1

/-- The magnitude of a finite number as a quotient. -/
def magnitude? : Binary64 → Option (Nat × Nat)
  | finite _ mantissa exponent =>
    if exponent < 0 then some (mantissa, twoTo (-exponent).toNat)
    else some (mantissa * twoTo exponent.toNat, 1)
  | _ => none

/-- The whole number that a finite number is, if it is one. -/
def toInt? (x : Binary64) : Option Int :=
  match x, x.magnitude? with
  | finite negative _ _, some (num, den) =>
    if num % den == 0 then
      some (if negative then -((num / den : Nat) : Int) else ((num / den : Nat) : Int))
    else none
  | _, _ => none

/-! ### Sums and multiples of magnitudes -/

/-- The nearest number to the sum of two magnitudes. -/
def addMagnitude (x y : Binary64) : Binary64 :=
  match x.magnitude?, y.magnitude? with
  | some (a, b), some (c, d) => ofRatio false (a * d + c * b) (b * d)
  | _, _ => infinite false

/-- The nearest number to a multiple of a magnitude. -/
def scaleMagnitude (x : Binary64) (factor : Nat) : Binary64 :=
  match x.magnitude? with
  | some (num, den) => ofRatio false (num * factor) den
  | none => infinite false

/-- The whole number nearest to a magnitude, a tie going to the even one. -/
def roundMagnitude? (x : Binary64) : Option Nat := x.magnitude?.map fun (num, den) => divideToEven num den

/-! ### The fewest digits that read back -/

/-- The multiples of a quarter of the last binary place between which all reals round to the
    number: lower end, the number itself, upper end. -/
def quarterBounds (mantissa : Nat) (exponent : Int) : Nat × Nat × Nat :=
  let lower :=
    if mantissa == twoTo 52 && minExponent < exponent then 4 * mantissa - 1 else 4 * mantissa - 2
  (lower, 4 * mantissa, 4 * mantissa + 2)

/-- Least power `p` with `num / den < 10 ^ p`, searched upwards from a lower bound. -/
def decimalPlace (num den : Nat) : Nat → Int → Int
  | 0, p => p
  | fuel + 1, p =>
    let below := if p < 0 then num * tenTo (-p).toNat < den else num < den * tenTo p.toNat
    if below then p else decimalPlace num den fuel (p + 1)

/-- A decimal of the given number of digits that reads back as the number, if there is one: of the
    two neighbours on that decimal grid the one inside the bounds, and the nearer of two. -/
def gridDigits? (mantissa : Nat) (exponent : Int) (place : Int) (count : Nat) : Option Nat :=
  let (lower, value, upper) := quarterBounds mantissa exponent
  -- one grid step is `10 ^ (place - count)`, one quarter is `2 ^ (exponent - 2)`
  let power := place - count
  let stepNum := (if power < 0 then 1 else tenTo power.toNat)
    * (if exponent - 2 < 0 then twoTo (2 - exponent).toNat else 1)
  let stepDen := (if power < 0 then tenTo (-power).toNat else 1)
    * (if exponent - 2 < 0 then 1 else twoTo (exponent - 2).toNat)
  let inside (d : Nat) : Bool :=
    let point := d * stepNum
    if mantissa % 2 == 0 then lower * stepDen ≤ point && point ≤ upper * stepDen
    else lower * stepDen < point && point < upper * stepDen
  let down := value * stepDen / stepNum
  let up := down + 1
  let downGap := value * stepDen - down * stepNum
  let upGap := up * stepNum - value * stepDen
  match inside down, inside up with
  | true, true =>
    if downGap < upGap then some down
    else if upGap < downGap then some up
    else if down % 2 == 0 then some down else some up
  | true, false => some down
  | false, true => some up
  | false, false => none

def shortestFrom (mantissa : Nat) (exponent place : Int) : Nat → Nat → Nat × Nat
  | 0, count => (0, count)
  | fuel + 1, count =>
    match gridDigits? mantissa exponent place count with
    | some digits => (digits, count)
    | none => shortestFrom mantissa exponent place fuel (count + 1)

/-- Shortest digits and the place of the decimal point behind the first of them, for a magnitude
    other than zero: the value is `0.digits * 10 ^ place`. -/
def shortest (mantissa : Nat) (exponent : Int) : List Char × Int :=
  let (num, den) :=
    if exponent < 0 then (mantissa, twoTo (-exponent).toNat) else (mantissa * twoTo exponent.toNat, 1)
  let start := ((num.log2 : Int) - (den.log2 : Int) - 1) * 30103 / 100000 - 1
  let place := decimalPlace num den 8 start
  let (digits, count) := shortestFrom mantissa exponent place 17 1
  let text := Nat.toDigits 10 digits
  let place := place + (text.length : Int) - (count : Int)
  ((text.reverse.dropWhile (· == '0')).reverse, place)

/-- Decimal digits of a number with at least two places. -/
def twoPlaces (n : Nat) : List Char :=
  let text := Nat.toDigits 10 n
  if text.length < 2 then '0' :: text else text

/-- Text of a number: positional when the first digit stands between the fourth place behind the
    point and the sixteenth before it, otherwise with a power of ten. -/
def toText : Binary64 → String
  | nan => "nan"
  | infinite negative => if negative then "-inf" else "inf"
  | finite negative mantissa exponent =>
    let sign := if negative then "-" else ""
    if mantissa == 0 then sign ++ "0.0"
    else
      let (digits, place) := shortest mantissa exponent
      let body :=
        if place ≤ -4 || 16 < place then
          let power := place - 1
          let tail := digits.drop 1
          digits.take 1 ++ (if tail.isEmpty then [] else '.' :: tail)
            ++ ['e', if power < 0 then '-' else '+'] ++ twoPlaces power.natAbs
        else if place ≤ 0 then
          ['0', '.'] ++ List.replicate (-place).toNat '0' ++ digits
        else
          let whole := digits.take place.toNat
          let fraction := digits.drop place.toNat
          whole ++ List.replicate (place.toNat - whole.length) '0' ++ ['.']
            ++ (if fraction.isEmpty then ['0'] else fraction)
      sign ++ String.ofList body

end Binary64

end ProcessForge
