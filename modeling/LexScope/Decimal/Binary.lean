/-!
# Decimal.Binary — what the bits of a double stand for

A double is a sign and either a number `m · 2^q`, an infinity, or no number at all.  Everything
the library says about fractional numbers (whether one is a whole number, which digits write it)
it says about `m` and `q`, in exact arithmetic.
-/

namespace LexScope.Decimal

/-- A finite non-negative double, `significand · 2^exponent`. -/
structure Binary where
  significand : Nat
  exponent : Int
  /-- The gap to the double below is half the gap to the double above. -/
  narrowBelow : Bool
  deriving Repr, DecidableEq

/-- The three things a bit pattern can be. -/
inductive Double where
  | finite (negative : Bool) (magnitude : Binary)
  | infinite (negative : Bool)
  | nan
  deriving Repr, DecidableEq

/-- The meaning of a bit pattern: one bit of sign, eleven of exponent, fifty-two of fraction. -/
def Double.ofBits (bits : UInt64) : Double :=
  let negative := bits >>> 63 != 0
  let e := ((bits >>> 52) &&& 0x7FF).toNat
  let f := (bits &&& 0xFFFFFFFFFFFFF).toNat
  if e = 0x7FF then
    if f = 0 then .infinite negative else .nan
  else if e = 0 then
    .finite negative ⟨f, -1074, false⟩
  else
    .finite negative ⟨0x10000000000000 + f, (e : Int) - 1075, f == 0 && decide (e > 1)⟩

/-- The whole number a magnitude stands for, if it is one. -/
def Binary.toNat? (x : Binary) : Option Nat :=
  if 0 ≤ x.exponent then some (x.significand * Nat.pow 2 x.exponent.toNat)
  else
    let d := Nat.pow 2 (-x.exponent).toNat
    if x.significand % d = 0 then some (x.significand / d) else none

/-- The whole number a double stands for, if it is one; both zeros are `0`. -/
def Double.toInt? : Double → Option Int
  | .finite false x => x.toNat?.map Int.ofNat
  | .finite true x => x.toNat?.map (fun n => -(Int.ofNat n))
  | _ => none

/-- The bit pattern of the double nearest to `digits · 10^exponent`.  Exponents far outside the
range of doubles are answered without computing the power. -/
def nearestBits (negative : Bool) (digits : Nat) (exponent : Int) : UInt64 :=
  let sign : UInt64 := if negative then 0x8000000000000000 else 0
  let size := exponent + (Nat.log2 digits : Int) / 3
  let magnitude : UInt64 :=
    if digits = 0 || size < -700 then 0
    else if exponent > 400 then 0x7FF0000000000000
    else if 0 ≤ exponent then (Float.ofScientific digits false exponent.toNat).toBits
    else (Float.ofScientific digits true (-exponent).toNat).toBits
  sign ||| magnitude

end LexScope.Decimal
