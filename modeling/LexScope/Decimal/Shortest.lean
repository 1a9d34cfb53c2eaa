import LexScope.Decimal.Binary

/-!
# Decimal.Shortest — the fewest digits that read back

Many decimals read back as the same double.  The one written is the shortest; among equally short
ones the nearest; and of two equally near ones the even one.

The rule is computed as it is said.  The reals that round to `m · 2^q` form an interval, ends
included exactly when `m` is even (`Binary.readsBack`).  For one digit, two digits, and so on, the
two neighbours of the value on that decimal grid are tested, and the first grid with a hit wins
(`shortest`).
-/

namespace LexScope.Decimal

/-- A decimal, `digits · 10^exponent`. -/
structure Scaled where
  digits : Nat
  exponent : Int
  deriving Repr, DecidableEq

/-- Compare `a · 10^i` with `n · 2^j`, exactly. -/
def compareScaled (a : Nat) (i : Int) (n : Nat) (j : Int) : Ordering :=
  compare (a * Nat.pow 10 i.toNat * Nat.pow 2 (-j).toNat)
    (n * Nat.pow 2 j.toNat * Nat.pow 10 (-i).toNat)

/-- Whether a decimal lies among the reals that round to `x`, halves going to the even side. -/
def Binary.readsBack (x : Binary) (d : Scaled) : Bool :=
  let low := if x.narrowBelow then 4 * x.significand - 1 else 4 * x.significand - 2
  let high := 4 * x.significand + 2
  let ends := x.significand % 2 == 0
  let toLow := compareScaled d.digits d.exponent low (x.exponent - 2)
  let toHigh := compareScaled d.digits d.exponent high (x.exponent - 2)
  (toLow == .gt || (ends && toLow == .eq)) && (toHigh == .lt || (ends && toHigh == .eq))

/-- `⌊x / 10^e⌋`, the neighbour below on a decimal grid. -/
def Binary.floorAt (x : Binary) (e : Int) : Nat :=
  (x.significand * Nat.pow 2 x.exponent.toNat * Nat.pow 10 (-e).toNat)
    / (Nat.pow 2 (-x.exponent).toNat * Nat.pow 10 e.toNat)

/-- The better of two neighbours on the grid `10^e`, of those that read back: the nearer one, the
even one when both are equally near. -/
def Binary.nearestAt (x : Binary) (e : Int) : Option Scaled :=
  let below : Scaled := ⟨x.floorAt e, e⟩
  let above : Scaled := ⟨below.digits + 1, e⟩
  match x.readsBack below && below.digits != 0, x.readsBack above with
  | true, false => some below
  | false, true => some above
  | false, false => none
  | true, true =>
      match compareScaled (below.digits + above.digits) e (2 * x.significand) x.exponent with
      | .gt => some below
      | .lt => some above
      | .eq => some (if below.digits % 2 = 0 then below else above)

/-- The least `k` with `x < 10^k`, searched upwards from an estimate that is never too high. -/
def Binary.scale (x : Binary) : Int :=
  let bits : Int := (Nat.log2 x.significand : Int) + x.exponent
  let estimate := Int.fdiv (bits * 30103) 100000 - 2
  let fits := fun (k : Int) => compareScaled 1 k x.significand x.exponent == .gt
  let step := (List.range 6).find? (fun (i : Nat) => fits (estimate + i))
  estimate + step.getD 6

/-- Move the zeros that end the digits into the exponent. -/
def Scaled.strip : Nat → Scaled → Scaled
  | 0, d => d
  | fuel + 1, d =>
      if d.digits % 10 = 0 ∧ d.digits ≠ 0 then strip fuel ⟨d.digits / 10, d.exponent + 1⟩ else d

/-- The shortest decimal that reads back as `x`; the exact value if none of seventeen digits
does. -/
def Binary.shortest (x : Binary) : Scaled :=
  if x.significand = 0 then ⟨0, 0⟩
  else
    let k := x.scale
    match (List.range 17).findSome? (fun (i : Nat) => x.nearestAt (k - (i + 1))) with
    | some d => d.strip 20
    | none =>
        if 0 ≤ x.exponent then ⟨x.significand * Nat.pow 2 x.exponent.toNat, 0⟩
        else ⟨x.significand * Nat.pow 5 (-x.exponent).toNat, x.exponent⟩

end LexScope.Decimal
