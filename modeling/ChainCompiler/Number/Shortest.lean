import ChainCompiler.Number.Double

/-! The decimal text of a double: the fewest digits that read back to it, the nearest such, written without an
exponent. Of two decimals equally near, the greater one is written. -/

namespace ChainCompiler

structure Decimal where
  digits : Nat
  exponent : Int
  deriving DecidableEq, Repr

/-- The numbers that round to a magnitude, in units of a quarter of its last bit: from `low` to `high`, with
the ends when `closed`. The gap below a power of two is half as wide as the one above. -/
structure Interval where
  low : Nat
  value : Nat
  high : Nat
  closed : Bool
  deriving Repr

namespace Magnitude

def interval (x : Magnitude) : Interval :=
  let gap := if x.mantissa = Nat.pow 2 52 ∧ x.exponent ≠ -1074 then 1 else 2
  ⟨4 * x.mantissa - gap, 4 * x.mantissa, 4 * x.mantissa + 2, x.mantissa % 2 = 0⟩

def leadingExponent (num den : Nat) : Int :=
  if den ≤ num then (Nat.toDigits 10 (num / den)).length - 1
  else
    let k := (Nat.toDigits 10 (den / num)).length
    if den ≤ num * Nat.pow 10 (k - 1) then -((k : Int) - 1) else -(k : Int)

/-- The decimal on the grid of multiples of `10 ^ u` that reads back to the magnitude, the nearer one if both
neighbours of its value do. -/
def onGrid? (x : Magnitude) (u : Int) : Option Decimal :=
  let i := x.interval
  let e := x.exponent - 2
  let f := Nat.pow 2 e.toNat * Nat.pow 10 (-u).toNat
  let b := Nat.pow 2 (-e).toNat * Nat.pow 10 u.toNat
  let value := i.value * f
  let below := value / b
  let above := below + 1
  let downIn := i.low * f < below * b || (i.closed && i.low * f == below * b)
  let upIn := above * b < i.high * f || (i.closed && above * b == i.high * f)
  let down : Decimal := ⟨below, u⟩
  let up : Decimal := ⟨above, u⟩
  if downIn && upIn then
    some (if value - below * b < above * b - value then down else up)
  else if downIn then some down
  else if upIn then some up
  else none

/-- The first grid, from the one of `u` on to finer ones, that has a decimal for the magnitude. -/
def firstGrid (x : Magnitude) : Nat → Int → Decimal
  | 0, _ => ⟨0, 0⟩
  | n + 1, u => (onGrid? x u).getD (firstGrid x n (u - 1))

/-- The shortest decimal of a positive magnitude. Seventeen digits are always enough. -/
def shortest (x : Magnitude) : Decimal :=
  let u := leadingExponent (x.mantissa * Nat.pow 2 x.exponent.toNat) (Nat.pow 2 (-x.exponent).toNat)
  firstGrid x 17 u

end Magnitude

namespace Decimal

def stripZeros (d : Decimal) : Nat → Decimal
  | 0 => d
  | n + 1 => if d.digits % 10 = 0 then stripZeros ⟨d.digits / 10, d.exponent + 1⟩ n else d

def positional (d : Decimal) : List Char :=
  let ds := Nat.toDigits 10 d.digits
  let point : Int := ds.length + d.exponent
  if 0 ≤ d.exponent then ds ++ List.replicate d.exponent.toNat '0'
  else if 0 < point then ds.take point.toNat ++ '.' :: ds.drop point.toNat
  else '0' :: '.' :: List.replicate (-point).toNat '0' ++ ds

end Decimal

def Magnitude.text (x : Magnitude) : List Char :=
  if x.mantissa = 0 then ['0'] else (x.shortest.stripZeros 17).positional


def Double.toText : Double → String
  | .nan => "NaN"
  | .infinite negative => if negative then "-inf" else "inf"
  | .finite negative size =>
    String.ofList (if negative then '-' :: size.text else size.text)

end ChainCompiler
