/-!
Numbers in decimal. Whole numbers are read from their digits, with an optional sign. Double-precision
numbers are exact values: a sign, a whole mantissa and a power of two. Arithmetic is done on exact
ratios and rounded once, to the nearest such number, a half to the even neighbour. A number is written
with the fewest digits that identify it: every decimal strictly between the halfway points to its two
neighbours reads back as the number, and the halfway points themselves do if the mantissa is even.
-/
namespace ApexLayout.Decimal

/-! ### Whole numbers -/

def digitsFrom (value : Nat) : List Char → Option Nat
  | [] => some value
  | c :: cs => if c.isDigit then digitsFrom (10 * value + (c.toNat - '0'.toNat)) cs else none

def digits? : List Char → Option Nat
  | [] => none
  | cs => digitsFrom 0 cs

/-- A whole number, which may have a plus sign. -/
def whole? (s : String) : Option Nat :=
  match s.toList with
  | '+' :: cs => digits? cs
  | cs => digits? cs

def integer? (s : String) : Option Int :=
  match s.toList with
  | '-' :: cs => (digits? cs).map fun n => -(n : Int)
  | _ => (whole? s).map Int.ofNat

/-- A whole number of at most 64 bits. -/
def word64? (s : String) : Option UInt64 :=
  (whole? s).bind fun n => if n < Nat.pow 2 64 then some (UInt64.ofNat n) else none

/-- A number of at most 16 bits; a negative zero is zero. -/
def word16? (s : String) : Option UInt16 :=
  (integer? s).bind fun n => if 0 ≤ n ∧ n < Nat.pow 2 16 then some (UInt16.ofNat n.toNat) else none

/-! ### Double-precision numbers -/

/-- The number `mantissa * 2 ^ exponent`, with its sign. -/
structure Double where
  negative : Bool
  mantissa : Nat
  exponent : Int
  deriving Repr, DecidableEq

/-- The quotient rounded to the nearest whole number, a half to the even one. -/
def roundDiv (num den : Nat) : Nat :=
  let q := num / den
  let r := num % den
  if 2 * r < den then q else if den < 2 * r then q + 1 else if q % 2 = 0 then q else q + 1

def minExponent : Int := -1074

def maxExponent : Int := 971

/-- The ratio times `2 ^ (-e)`, as a ratio. -/
def scaleTwo (num den : Nat) (e : Int) : Nat × Nat :=
  if 0 ≤ e then (num, den * Nat.pow 2 e.toNat) else (num * Nat.pow 2 (-e).toNat, den)

/-- The exponent at which the mantissa of a positive ratio has 53 bits, or the least one. -/
def exponentFor (num den : Nat) : Int :=
  let guess : Int := (num.log2 : Int) - (den.log2 : Int) - 52
  let (n, d) := scaleTwo num den guess
  max (if n < Nat.pow 2 52 * d then guess - 1 else guess) minExponent

namespace Double

def zero (negative : Bool) : Double := ⟨negative, 0, minExponent⟩

def isZero (x : Double) : Bool := x.mantissa == 0

def ratio (x : Double) : Nat × Nat :=
  if 0 ≤ x.exponent then (x.mantissa * Nat.pow 2 x.exponent.toNat, 1) else (x.mantissa, Nat.pow 2 (-x.exponent).toNat)

/-- The double nearest to a ratio, unless that is beyond the greatest one. -/
def ofRatio? (negative : Bool) (num den : Nat) : Option Double :=
  if num = 0 then some (zero negative)
  else
    let e := exponentFor num den
    let (n, d) := scaleTwo num den e
    let m := roundDiv n d
    let (m, e) := if m = Nat.pow 2 53 then (Nat.pow 2 52, e + 1) else (m, e)
    if e ≤ maxExponent then some ⟨negative, m, e⟩ else none

def ofNat? (n : Nat) : Option Double := ofRatio? false n 1

def mul? (x y : Double) : Option Double :=
  let (a, b) := x.ratio
  let (c, d) := y.ratio
  ofRatio? (x.negative != y.negative) (a * c) (b * d)

/-- The quotient by a number other than zero, rounded. -/
def div? (x y : Double) : Option Double :=
  let (a, b) := x.ratio
  let (c, d) := y.ratio
  ofRatio? (x.negative != y.negative) (a * d) (b * c)

def neg (x : Double) : Double := { x with negative := !x.negative }

end Double

/-! ### The fewest digits -/

def digits (n : Nat) : List Char := Nat.toDigits 10 n

/-- The number `value * 10 ^ power`. -/
structure Scaled where
  value : Nat
  power : Int
  deriving Repr, DecidableEq

/-- The ratio times `10 ^ (-p)`, as a ratio. -/
def scaleTen (num den : Nat) (p : Int) : Nat × Nat :=
  if 0 ≤ p then (num, den * Nat.pow 10 p.toNat) else (num * Nat.pow 10 (-p).toNat, den)

/-- The power of ten of the leading digit of a positive ratio. -/
def leadingPower (num den : Nat) : Int :=
  if den ≤ num then ((digits (num / den)).length : Int) - 1
  else -((digits ((den + num - 1) / num - 1)).length : Int)

namespace Double

/-- Twice the distance, in quarters of the last bit, down to the halfway point below: the neighbour
    below a power of two is nearer. -/
def gapBelow (x : Double) : Nat := if x.mantissa = Nat.pow 2 52 ∧ minExponent < x.exponent then 1 else 2

def identifies (x : Double) (s : Scaled) : Bool :=
  -- all sides times four, over the same power of two
  let (n, d) := scaleTen s.value 1 (-s.power)
  let (n, d) := scaleTwo (4 * n) d x.exponent
  let low := (4 * x.mantissa - x.gapBelow) * d
  let high := (4 * x.mantissa + 2) * d
  if x.mantissa % 2 = 0 then low ≤ n && n ≤ high else low < n && n < high

/-- The decimal on the grid of steps `10 ^ power` that identifies the number and is nearest to it; of two
    equally near ones the even one. -/
def onGrid? (x : Double) (power : Int) : Option Scaled :=
  let (num, den) := x.ratio
  let (n, d) := scaleTen num den power
  let below : Scaled := ⟨n / d, power⟩
  let above : Scaled := ⟨n / d + 1, power⟩
  let nearest : Scaled := ⟨roundDiv n d, power⟩
  if x.identifies nearest then some nearest
  else if x.identifies below then some below
  else if x.identifies above then some above
  else none

/-- The decimal with the fewest digits that identifies a number other than zero. -/
def shortest (x : Double) : Scaled :=
  let (num, den) := x.ratio
  let lead := leadingPower num den
  let grids := (List.range 17).map fun n : Nat => lead - (n : Int)
  (grids.findSome? x.onGrid?).getD ⟨roundDiv num den, 0⟩

end Double

/-- Digits of a decimal without the zeros at their end, and how many of them stand before the point. -/
def Scaled.significant (s : Scaled) : List Char × Int :=
  let all := digits s.value
  let kept := (all.reverse.dropWhile (· == '0')).reverse
  (kept, (all.length : Int) + s.power)

/-- Numbers from `10 ^ -5` up to `10 ^ 16` are written positionally, with at least one digit after the
    point; others with an exponent that has its sign. -/
def layout (ds : List Char) (point : Int) : List Char :=
  if 0 < point ∧ point ≤ 16 then
    let p := point.toNat
    if ds.length ≤ p then ds ++ List.replicate (p - ds.length) '0' ++ ['.', '0']
    else ds.take p ++ '.' :: ds.drop p
  else if -5 < point ∧ point ≤ 0 then '0' :: '.' :: List.replicate (-point).toNat '0' ++ ds
  else
    let e := point - 1
    let mantissa :=
      match ds with
      | [] => []
      | [d] => [d]
      | d :: rest => d :: '.' :: rest
    mantissa ++ 'e' :: (if e < 0 then '-' else '+') :: digits e.natAbs

def Double.text (x : Double) : String :=
  let size :=
    if x.isZero then ['0', '.', '0']
    else
      let (ds, point) := x.shortest.significant
      layout ds point
  String.ofList (if x.negative then '-' :: size else size)

end ApexLayout.Decimal
