/-! Doubles: numbers with a mantissa of fifty-three bits, kept as the exact integers they stand for, and the
rounding of a quotient to the nearest of them. -/

namespace ChainCompiler

/-- The one way to write each finite magnitude: the mantissa has its top bit set unless the exponent is
already the least one. -/
def Canonical (mantissa : Nat) (exponent : Int) : Prop :=
  mantissa < Nat.pow 2 53 ∧ -1074 ≤ exponent ∧ exponent ≤ 971 ∧ (Nat.pow 2 52 ≤ mantissa ∨ exponent = -1074)

instance (m : Nat) (q : Int) : Decidable (Canonical m q) := by
  unfold Canonical; infer_instance

structure Magnitude where
  mantissa : Nat
  exponent : Int
  canonical : Canonical mantissa exponent
  deriving DecidableEq, Repr

inductive Double where
  | nan
  | infinite (negative : Bool)
  | finite (negative : Bool) (size : Magnitude)
  deriving DecidableEq, Repr

namespace Double

def zero (negative : Bool) : Double := .finite negative ⟨0, -1074, by decide⟩

instance : Inhabited Double := ⟨zero false⟩

/-- The quotient to the nearest whole number; a half goes to the even neighbour. -/
def roundDiv (num den : Nat) : Nat :=
  let q := num / den
  let r := num % den
  if 2 * r < den then q
  else if den < 2 * r then q + 1
  else if q % 2 = 0 then q else q + 1

/-- The quotient of `num` and `den * 2 ^ e`, as a pair of whole numbers. -/
def scaleBy (num den : Nat) (e : Int) : Nat × Nat :=
  (num * Nat.pow 2 (-e).toNat, den * Nat.pow 2 e.toNat)

/-- The exponent at which a positive quotient has a mantissa of fifty-three bits, or the least exponent
for quotients too small for that. -/
def exponentFor (num den : Nat) : Int :=
  let low : Int := (num.log2 : Int) - den.log2 - 53
  let (a, b) := scaleBy num den low
  max (-1074) (if b * Nat.pow 2 53 ≤ a then low + 1 else low)

/-- The double of a rounded mantissa; what is beyond the greatest exponent is infinite. -/
def ofRounded (negative : Bool) (mantissa : Nat) (exponent : Int) : Double :=
  if h : Canonical mantissa exponent then .finite negative ⟨mantissa, exponent, h⟩ else .infinite negative

/-- The double nearest to the quotient. A mantissa that rounds up to the next power of two has one bit less. -/
def ofRatio (negative : Bool) (num den : Nat) : Double :=
  let e := exponentFor num den
  let (a, b) := scaleBy num den e
  let m := roundDiv a b
  if m = Nat.pow 2 53 then ofRounded negative (Nat.pow 2 52) (e + 1) else ofRounded negative m e

/-- The double nearest to `digits * 10 ^ exponent`. The number of digits decides the outcome for numbers far
outside the range, so that no great power is ever computed. -/
def ofDecimal (negative : Bool) (digits : Nat) (exponent : Int) : Double :=
  let top : Int := (Nat.toDigits 10 digits).length + exponent
  if digits = 0 ∨ top < -330 then zero negative
  else if 310 < top then .infinite negative
  else ofRatio negative (digits * Nat.pow 10 exponent.toNat) (Nat.pow 10 (-exponent).toNat)

end Double

end ChainCompiler
