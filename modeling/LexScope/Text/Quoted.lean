import LexScope.Text.Hidden
import LexScope.Text.Hex

/-!
# Text.Quoted — two ways of writing a string between quotes

Messages quote a text so that it can be read back by eye: single quotes unless only double ones
avoid an escape, and an escape for each hidden character (`quote`).  Written data uses double
quotes and the escapes of the interchange format, either for every character outside printable
ASCII or for control characters only (`Escaping`).
-/

namespace LexScope.Text

/-! ### Messages -/

/-- One character of a quoted message, `q` being the quote around it. -/
def quoteChar (q c : Char) : String :=
  if c = q || c = '\\' then String.ofList ['\\', c]
  else if c = '\n' then "\\n"
  else if c = '\r' then "\\r"
  else if c = '\t' then "\\t"
  else if ' ' ≤ c && c ≤ '~' then c.toString
  else if isHidden c then
    let n := c.toNat
    if n < 0x100 then "\\x" ++ hex 2 n
    else if n < 0x10000 then "\\u" ++ hex 4 n
    else "\\U" ++ hex 8 n
  else c.toString

/-- The quote a message puts around a text: double only if that saves an escape. -/
def quoteFor (s : String) : Char :=
  if s.toList.contains '\'' && !s.toList.contains '"' then '"' else '\''

/-- A text as messages quote it. -/
def quote (s : String) : String :=
  let q := quoteFor s
  q.toString ++ String.join (s.toList.map (quoteChar q)) ++ q.toString

/-! ### Data -/

/-- Which characters of written data are escaped, beside quotes, backslashes and controls. -/
inductive Escaping where
  /-- Everything outside printable ASCII; above `U+FFFF` as a pair of 16-bit units. -/
  | ascii
  /-- Nothing more. -/
  | control
  deriving Repr, DecidableEq

/-- The escape of a character by its number. -/
def unitEscape (n : Nat) : String :=
  if n < 0x10000 then "\\u" ++ hex 4 n
  else
    let m := n - 0x10000
    "\\u" ++ hex 4 (0xD800 + m / 0x400) ++ "\\u" ++ hex 4 (0xDC00 + m % 0x400)

/-- One character of written data. -/
def Escaping.char (e : Escaping) (c : Char) : String :=
  if c = '"' then "\\\""
  else if c = '\\' then "\\\\"
  else if c = '\n' then "\\n"
  else if c = '\r' then "\\r"
  else if c = '\t' then "\\t"
  else if c = '\x08' then "\\b"
  else if c = '\x0c' then "\\f"
  else if c < ' ' then unitEscape c.toNat
  else if e = .ascii && '~' < c then unitEscape c.toNat
  else c.toString

/-- A text as written data quotes it. -/
def Escaping.quote (e : Escaping) (s : String) : String :=
  "\"" ++ String.join (s.toList.map e.char) ++ "\""

end LexScope.Text
