import LexScope.Tree.Basic
import LexScope.Text.Quoted
import LexScope.Decimal.Layout

/-!
# Tree.Display — how a value reads in a message

A value that turns up in a message is displayed on one line: `None`, `True` and `False` for what is
absent or a truth value, numbers in their shortest form, lists in brackets and objects in braces
(`display`).  A string is quoted inside another value and wherever the message needs to show its
ends; where the text itself is meant it stands bare (`text`).
-/

namespace LexScope.Tree

mutual

/-- A value on one line, strings quoted. -/
def display : Tree → String
  | .null => "None"
  | .bool true => "True"
  | .bool false => "False"
  | .int n => toString n
  | .float bits => Decimal.Layout.message.text bits
  | .str s => Text.quote s
  | .arr items => "[" ++ String.intercalate ", " (displayItems items) ++ "]"
  | .obj members => "\x7b" ++ String.intercalate ", " (displayMembers members) ++ "\x7d"

/-- The items of a list on one line each. -/
def displayItems : List Tree → List String
  | [] => []
  | t :: ts => t.display :: displayItems ts

/-- The members of an object on one line each. -/
def displayMembers : List (String × Tree) → List String
  | [] => []
  | (k, t) :: ms => (Text.quote k ++ ": " ++ t.display) :: displayMembers ms

end

/-- A value as part of a sentence: a string as it is, anything else displayed. -/
def text : Tree → String
  | .str s => s
  | t => t.display

end LexScope.Tree
