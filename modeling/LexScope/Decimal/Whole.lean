import LexScope.Text.Digit

/-!
# Decimal.Whole — whole numbers as people write them

A whole number is written in decimal digits of any script.  Single underscores may stand between the
digits, a sign in front of them, and blanks around all of it.  There is a limit to the digits of one
number, leading zeros included.
-/

namespace LexScope.Decimal

/-- The most digits that a number may have. -/
def digitLimit : Nat := 4300

/-- Whether characters are digits with at most one underscore between two of them. -/
def isGrouped : List Char → Bool
  | [] => false
  | [c] => Text.isDigit c
  | c :: '_' :: rest => Text.isDigit c && isGrouped rest
  | c :: rest => Text.isDigit c && isGrouped rest

/-- The number that a row of digits stands for. -/
def valueOf (digits : List Nat) : Nat := digits.foldl (fun n d => n * 10 + d) 0

/-- The number without a sign that characters stand for. -/
def natOf? (cs : List Char) : Option Nat :=
  let digits := cs.filterMap Text.digit?
  if isGrouped cs && digits.length ≤ digitLimit then some (valueOf digits) else none

/-- The number that a text stands for. -/
def intOf? (s : String) : Option Int :=
  let trim (cs : List Char) := cs.dropWhile Text.isBlank
  match trim (trim s.toList).reverse |>.reverse with
  | '-' :: cs => (natOf? cs).map (fun n => -(Int.ofNat n))
  | '+' :: cs => (natOf? cs).map Int.ofNat
  | cs => (natOf? cs).map Int.ofNat

end LexScope.Decimal
