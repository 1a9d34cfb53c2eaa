import LexScope.Tree.Basic
import LexScope.Text.Quoted
import LexScope.Decimal.Layout

/-!
# Tree.Printer — writing a tree as interchange text

`compact` writes a tree on one line; `pretty` writes one item or member per line, indented by two
spaces for each enclosing list or object, with empty ones kept on one line.  Members are written in
their order, whole numbers exactly, fractional ones in their shortest form.
-/

namespace LexScope.Tree

open Text (Escaping)

/-- The text of a value that holds no others. -/
def scalarText (e : Escaping) : Tree → String
  | .null => "null"
  | .bool true => "true"
  | .bool false => "false"
  | .int n => toString n
  | .float bits => Decimal.Layout.data.text bits
  | .str s => e.quote s
  | .arr _ => "[]"
  | .obj _ => "\x7b\x7d"

/-! ### One line -/

mutual

/-- A tree on one line, without blanks. -/
def compact : Tree → String
  | .arr items => "[" ++ String.intercalate "," (compactItems items) ++ "]"
  | .obj members => "\x7b" ++ String.intercalate "," (compactMembers members) ++ "\x7d"
  | t => scalarText .control t

/-- The items of a list, each on one line. -/
def compactItems : List Tree → List String
  | [] => []
  | t :: ts => t.compact :: compactItems ts

/-- The members of an object, each on one line. -/
def compactMembers : List (String × Tree) → List String
  | [] => []
  | (k, t) :: ms => (Escaping.quote .control k ++ ":" ++ t.compact) :: compactMembers ms

end

/-! ### Many lines -/

/-- A line break followed by the indentation of a depth. -/
def newline (depth : Nat) : String := "\n" ++ String.ofList (List.replicate (2 * depth) ' ')

/-- Parts between brackets, one to a line, at the given depth. -/
def block (opening closing : String) (depth : Nat) (parts : List String) : String :=
  if parts.isEmpty then opening ++ closing
  else
    opening ++ newline (depth + 1) ++ String.intercalate ("," ++ newline (depth + 1)) parts
      ++ newline depth ++ closing

mutual

/-- A tree over many lines, its first line standing at the given depth. -/
def prettyAt (e : Escaping) (depth : Nat) : Tree → String
  | .arr items => block "[" "]" depth (prettyItems e (depth + 1) items)
  | .obj members => block "\x7b" "\x7d" depth (prettyMembers e (depth + 1) members)
  | t => scalarText e t

/-- The items of a list, at the depth they stand at. -/
def prettyItems (e : Escaping) (depth : Nat) : List Tree → List String
  | [] => []
  | t :: ts => t.prettyAt e depth :: prettyItems e depth ts

/-- The members of an object, at the depth they stand at. -/
def prettyMembers (e : Escaping) (depth : Nat) : List (String × Tree) → List String
  | [] => []
  | (k, t) :: ms => (e.quote k ++ ": " ++ t.prettyAt e depth) :: prettyMembers e depth ms

end

/-- A tree over many lines. -/
def pretty (e : Escaping) (t : Tree) : String := t.prettyAt e 0

end LexScope.Tree
