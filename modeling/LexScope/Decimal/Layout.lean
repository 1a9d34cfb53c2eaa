import LexScope.Decimal.Shortest

/-!
# Decimal.Layout — how the digits of a fractional number are laid out

The shortest digits are written positionally while the decimal point falls within sixteen places
to the right of the first digit or three zeros to its left, and with an exponent otherwise.  A
positional number always shows a point; an exponent always shows its sign and two digits.
-/

namespace LexScope.Decimal

/-- The decisions of a layout, apart from the digits. -/
structure Layout where
  /-- Smallest exponent of ten of the first digit that is still written positionally. -/
  positionalFrom : Int
  /-- Smallest exponent of ten of the first digit that is no longer written positionally. -/
  positionalBelow : Int
  /-- Least number of digits of a written exponent. -/
  exponentDigits : Nat
  nan : String
  infinity : String

/-- The layout of numbers in messages. -/
def Layout.message : Layout := ⟨-4, 16, 2, "nan", "inf"⟩

/-- The layout of numbers in written data. -/
def Layout.data : Layout := ⟨-4, 16, 2, "NaN", "Infinity"⟩

/-- A run of zeros. -/
def zeros (n : Nat) : String := String.ofList (List.replicate n '0')

/-- Lay out a decimal that is not negative. -/
def Layout.scaled (l : Layout) (d : Scaled) : String :=
  let ds := toString d.digits
  let n := ds.length
  let lead : Int := d.exponent + n - 1
  if d.digits = 0 then "0.0"
  else if l.positionalFrom ≤ lead ∧ lead < l.positionalBelow then
    if 0 ≤ d.exponent then ds ++ zeros d.exponent.toNat ++ ".0"
    else if 0 ≤ lead then
      let whole := (lead + 1).toNat
      (ds.take whole).toString ++ "." ++ (ds.drop whole).toString
    else "0." ++ zeros (-lead - 1).toNat ++ ds
  else
    let mantissa := if n = 1 then ds else (ds.take 1).toString ++ "." ++ (ds.drop 1).toString
    let e := toString lead.natAbs
    mantissa ++ "e" ++ (if lead < 0 then "-" else "+") ++ zeros (l.exponentDigits - e.length) ++ e

/-- The text of a double. -/
def Layout.text (l : Layout) (bits : UInt64) : String :=
  match Double.ofBits bits with
  | .nan => l.nan
  | .infinite negative => (if negative then "-" else "") ++ l.infinity
  | .finite negative x => (if negative then "-" else "") ++ l.scaled x.shortest

end LexScope.Decimal
