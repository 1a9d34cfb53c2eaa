import LexScope.Tree.Basic
import LexScope.Decimal.Binary

/-!
# Tree.Reader — reading a tree from interchange text

The reader keeps the members of an object in the order of the text.  A number without a point and
without an exponent is whole, and exact whatever its size; any other number is rounded to the
nearest double.

Strings are read in two steps: the escapes give a list of units (`units`), in which a character
above `U+FFFF` may be spelled as two, and the units give the characters (`joinUnits`).
-/

namespace LexScope.Tree.Reader

/-- Skip the four blank characters of the format. -/
def skipBlank (cs : List Char) : List Char :=
  cs.dropWhile (fun c => c = ' ' || c = '\n' || c = '\r' || c = '\t')

/-! ### Strings -/

/-- The value of a hexadecimal digit. -/
def hexValue (c : Char) : Option Nat :=
  if '0' ≤ c && c ≤ '9' then some (c.toNat - '0'.toNat)
  else if 'a' ≤ c && c ≤ 'f' then some (c.toNat - 'a'.toNat + 10)
  else if 'A' ≤ c && c ≤ 'F' then some (c.toNat - 'A'.toNat + 10)
  else none

/-- The value of four hexadecimal digits. -/
def hexValue4 (a b c d : Char) : Option Nat := do
  return ((← hexValue a) * 16 + (← hexValue b)) * 256 + (← hexValue c) * 16 + (← hexValue d)

/-- The character that a letter after a backslash stands for. -/
def escaped : Char → Option Char
  | '"' => some '"'
  | '\\' => some '\\'
  | '/' => some '/'
  | 'b' => some '\x08'
  | 'f' => some '\x0c'
  | 'n' => some '\n'
  | 'r' => some '\r'
  | 't' => some '\t'
  | _ => none

/-- The units of a string up to its closing quote, in reverse behind `acc`. -/
def units (acc : List Nat) : List Char → Option (List Nat × List Char)
  | [] => none
  | '"' :: rest => some (acc.reverse, rest)
  | '\\' :: 'u' :: a :: b :: c :: d :: rest =>
      match hexValue4 a b c d with
      | some n => units (n :: acc) rest
      | none => none
  | '\\' :: c :: rest =>
      match escaped c with
      | some x => units (x.toNat :: acc) rest
      | none => none
  | c :: rest => units (c.toNat :: acc) rest

/-- Whether a unit is the first half of a pair. -/
def isHigh (n : Nat) : Bool := 0xD800 ≤ n && n < 0xDC00

/-- Whether a unit is the second half of a pair. -/
def isLow (n : Nat) : Bool := 0xDC00 ≤ n && n < 0xE000

/-- The characters of a list of units; a half without its partner reads as a replacement. -/
def joinUnits : List Nat → List Char
  | [] => []
  | [n] => [if isHigh n || isLow n then '\uFFFD' else Char.ofNat n]
  | h :: l :: rest =>
      if isHigh h && isLow l then
        Char.ofNat (0x10000 + (h - 0xD800) * 0x400 + (l - 0xDC00)) :: joinUnits rest
      else if isHigh h || isLow h then '\uFFFD' :: joinUnits (l :: rest)
      else Char.ofNat h :: joinUnits (l :: rest)

/-- A string, its opening quote already read. -/
def string (cs : List Char) : Option (String × List Char) :=
  (units [] cs).map (fun (us, rest) => (String.ofList (joinUnits us), rest))

/-! ### Numbers -/

/-- The value of a run of decimal digits. -/
def digitsValue (ds : List Char) : Nat :=
  ds.foldl (fun n c => n * 10 + (c.toNat - '0'.toNat)) 0

/-- Split off the decimal digits in front. -/
def spanDigits (cs : List Char) : List Char × List Char := cs.span Char.isDigit

/-- The part after a point, if there is one: its digits. -/
def fraction : List Char → List Char × List Char
  | '.' :: cs =>
      match spanDigits cs with
      | ([], _) => ([], '.' :: cs)
      | (ds, rest) => (ds, rest)
  | cs => ([], cs)

/-- An exponent, if there is one. -/
def exponent (cs : List Char) : Option Int × List Char :=
  match cs with
  | e :: rest =>
      if e = 'e' || e = 'E' then
        let (negative, body) :=
          match rest with
          | '-' :: r => (true, r)
          | '+' :: r => (false, r)
          | r => (false, r)
        match spanDigits body with
        | ([], _) => (none, cs)
        | (ds, after) =>
            let n : Int := digitsValue ds
            (some (if negative then -n else n), after)
      else (none, cs)
  | [] => (none, cs)

/-- A number whose sign is already read. -/
def number (negative : Bool) (cs : List Char) : Option (Tree × List Char) :=
  match spanDigits cs with
  | ([], _) => none
  | (whole, rest) =>
      let (decimals, rest) := fraction rest
      let (power, rest) := exponent rest
      if decimals.isEmpty && power.isNone then
        let n : Int := digitsValue whole
        some (.int (if negative then -n else n), rest)
      else
        let digits := digitsValue (whole ++ decimals)
        let e := power.getD 0 - decimals.length
        some (.float (Decimal.nearestBits negative digits e), rest)

/-! ### Values -/

mutual

/-- A value, with `fuel` bounding the steps still allowed. -/
def value : Nat → List Char → Option (Tree × List Char)
  | 0, _ => none
  | fuel + 1, cs =>
      match skipBlank cs with
      | 'n' :: 'u' :: 'l' :: 'l' :: rest => some (.null, rest)
      | 't' :: 'r' :: 'u' :: 'e' :: rest => some (.bool true, rest)
      | 'f' :: 'a' :: 'l' :: 's' :: 'e' :: rest => some (.bool false, rest)
      | '"' :: rest => (string rest).map (fun (s, rest) => (.str s, rest))
      | '[' :: rest =>
          match skipBlank rest with
          | ']' :: rest => some (.arr [], rest)
          | rest => (items fuel rest).map (fun (ts, rest) => (.arr ts, rest))
      | '\x7b' :: rest =>
          match skipBlank rest with
          | '\x7d' :: rest => some (.obj [], rest)
          | rest => (members fuel rest).map (fun (ms, rest) => (.obj ms, rest))
      | '-' :: rest => number true rest
      | rest => number false rest

/-- The items of a list up to its closing bracket. -/
def items : Nat → List Char → Option (List Tree × List Char)
  | 0, _ => none
  | fuel + 1, cs => do
      let (t, rest) ← value fuel cs
      match skipBlank rest with
      | ',' :: rest =>
          let (ts, rest) ← items fuel rest
          return (t :: ts, rest)
      | ']' :: rest => return ([t], rest)
      | _ => none

/-- The members of an object up to its closing brace. -/
def members : Nat → List Char → Option (List (String × Tree) × List Char)
  | 0, _ => none
  | fuel + 1, cs =>
      match skipBlank cs with
      | '"' :: rest => do
          let (k, rest) ← string rest
          match skipBlank rest with
          | ':' :: rest =>
              let (t, rest) ← value fuel rest
              match skipBlank rest with
              | ',' :: rest =>
                  let (ms, rest) ← members fuel rest
                  return ((k, t) :: ms, rest)
              | '\x7d' :: rest => return ([(k, t)], rest)
              | _ => none
          | _ => none
      | _ => none

end

end LexScope.Tree.Reader

namespace LexScope.Tree

/-- The tree a text spells, if it spells one and nothing more.  Every step of the reader but the
last of a nesting takes a character, so twice the length is fuel enough. -/
def read? (s : String) : Option Tree :=
  let cs := s.toList
  match Reader.value (2 * cs.length + 2) cs with
  | some (t, rest) => if (Reader.skipBlank rest).isEmpty then some t else none
  | none => none

end LexScope.Tree
