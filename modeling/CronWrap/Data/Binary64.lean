/-! Binary64 numbers: the double nearest to a decimal number, a tie going to the even neighbour. -/
namespace CronWrap

/-- A double, by its bits. -/
structure Binary64 where
  bits : UInt64
  deriving DecidableEq, Repr, Inhabited

namespace Binary64

/-- The quotient rounded to the nearest integer, a tie to the even one. -/
def divNearest (num den : Nat) : Nat :=
  let q := num / den
  let twice := 2 * (num % den)
  if twice < den then q
  else if den < twice then q + 1
  else q + q % 2

/-- The exponent of the unit in the last place for the positive number `num / den`: 53 significant
bits, but no unit below the smallest subnormal. -/
def unitExponent (num den : Nat) : Int :=
  let guess : Int := (num.log2 : Int) - (den.log2 : Int)
  -- The quotient lies between two to the power of `guess - 1` and of `guess + 1`.
  let fits : Bool :=
    if 0 ≤ guess then den <<< guess.toNat ≤ num else den ≤ num <<< (-guess).toNat
  max ((if fits then guess else guess - 1) - 52) (-1074)

/-- The bits of the double nearest to the positive number `num / den`, or nothing when that number
lies beyond the largest double. -/
def ofRatio? (num den : Nat) : Option Nat :=
  let e := unitExponent num den
  let m := if 0 ≤ e then divNearest num (den <<< e.toNat) else divNearest (num <<< (-e).toNat) den
  -- Adding a mantissa of all ones plus one carries into the exponent, as it has to.
  let bits := ((e + 1074).toNat <<< 52) + m
  if bits < 0x7ff0000000000000 then some bits else none

/-- Beyond these powers of ten every number is out of range or rounds to zero. -/
def maxTenPower : Int := 310

def minTenPower : Int := -330

/-- The magnitude of the double nearest to `mantissa * 10 ^ exponent`. -/
def magnitude? (mantissa : Nat) (exponent : Int) : Option Nat :=
  if mantissa = 0 then some 0
  else
    let digits : Int := (Nat.toDigits 10 mantissa).length
    if maxTenPower < digits + exponent then none
    else if digits + exponent < minTenPower then some 0
    else if 0 ≤ exponent then ofRatio? (mantissa * Nat.pow 10 exponent.toNat) 1
    else ofRatio? mantissa (Nat.pow 10 (-exponent).toNat)

def signBit (negative : Bool) : Nat := if negative then 1 <<< 63 else 0

/-- The double nearest to a decimal number, or nothing when it is too large for one. -/
def ofDecimal? (negative : Bool) (mantissa : Nat) (exponent : Int) : Option Binary64 :=
  (magnitude? mantissa exponent).map fun m => ⟨(signBit negative + m).toUInt64⟩

def infinity (negative : Bool) : Binary64 := ⟨(signBit negative + 0x7ff0000000000000).toUInt64⟩

def nan (negative : Bool) : Binary64 := ⟨(signBit negative + 0x7ff8000000000000).toUInt64⟩

/-- The integer that a finite double with no fractional part is. -/
def toInt? (x : Binary64) : Option Int :=
  let n := x.bits.toNat % (1 <<< 63)
  let exponent := n >>> 52
  let fraction := n % (1 <<< 52)
  let sign : Int := if 1 <<< 63 ≤ x.bits.toNat then -1 else 1
  if exponent = 2047 then none
  else if exponent = 0 then if fraction = 0 then some 0 else none
  else
    let m := fraction + (1 <<< 52)
    if 1075 ≤ exponent then some (sign * (m <<< (exponent - 1075) : Nat))
    else
      let unit := 1 <<< (1075 - exponent)
      if m % unit = 0 then some (sign * (m / unit : Nat)) else none

example : ofDecimal? false 1 (-1) = some ⟨0x3fb999999999999a⟩ := by decide +kernel

example : ofDecimal? true 5 (-324) = some ⟨0x8000000000000001⟩ := by decide +kernel

example : ofDecimal? false 17976931348623159 292 = none := by decide +kernel

end Binary64

end CronWrap
