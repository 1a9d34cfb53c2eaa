import LexScope.Error

/-!
# CommandLine.Disk — paths and what stands at them

A place on a disk is given by its steps from the root (`Place`), and a path leads to a place, from
the root or from the directory in which it is read.

Paths are followed in two ways.  For reading, a path is first made plain: a step back undoes the
step before it, whatever stands there (`Disk.resolve`).  For writing, the path is gone along step by
step, which needs a directory at each of them, and one is made where nothing stands
(`Disk.target`).

A disk knows some files and directories; whatever lies above one of them is a directory, too.  Files
may be read and written by everyone, and links are left out.
-/

namespace LexScope.CommandLine

/-- The steps of a path.  Empty steps and steps to the same directory lead nowhere. -/
def stepsOf (path : String) : List String :=
  (path.splitOn "/").filter fun step => step ≠ "" && step ≠ "."

/-! ### Places -/

/-- The steps from the root to a place, the last one first. -/
abbrev Place := List String

namespace Place

/-- The path of a place. -/
def text (p : Place) : String := "/" ++ String.intercalate "/" p.reverse

/-- Follow steps from a place; a step back from the root stays there. -/
def follow (p : Place) : List String → Place
  | [] => p
  | step :: rest => if step = ".." then follow (p.drop 1) rest else follow (step :: p) rest

/-- The place of a path from the root. -/
def ofPath (path : String) : Place := follow [] (stepsOf path)

end Place

/-! ### Disks -/

/-- What stands at a place. -/
inductive Entry where
  /-- A file, with the text that is read of it. -/
  | file (content : String)
  /-- A file whose bytes are no text. -/
  | binary
  | directory
  deriving Repr, DecidableEq

/-- Files and directories by their places, and the directory in which paths are read. -/
structure Disk where
  directory : Place
  entries : List (Place × Entry)
  deriving Repr

/-- The most bytes of a name. -/
def nameLimit : Nat := 255

/-- The most bytes of a path. -/
def pathLimit : Nat := 4095

/-- Whether a text holds the character that ends a path. -/
def hasNull (s : String) : Bool := s.toList.contains '\x00'

/-- Whether a row of steps is short enough for a path. -/
def isShort (steps : List String) : Bool :=
  (String.intercalate "/" steps).utf8ByteSize ≤ pathLimit

namespace Disk

/-- Where a path starts. -/
def startOf (d : Disk) (path : String) : Place :=
  if path.startsWith "/" then [] else d.directory

/-- What stands at a place. -/
def find? (d : Disk) (p : Place) : Option Entry :=
  match d.entries.lookup p with
  | some e => some e
  | none =>
      if (d.directory :: d.entries.map (·.1)).any (p.isSuffixOf ·) then some .directory else none

/-! ### Reading -/

/-- The place that a path leads to once it is plain. -/
def resolve (d : Disk) (path : String) : Place := (d.startOf path).follow (stepsOf path)

/-- Look for a place from the root downwards.  A name that is too long cannot be looked for. -/
def look (d : Disk) : Place → Except Error (Option Entry)
  | [] => .ok (d.find? [])
  | name :: above => do
      match ← d.look above with
      | some .directory =>
          if name.utf8ByteSize ≤ nameLimit then return d.find? (name :: above)
          else .error .malformed
      | _ => return none

/-- What a path leads to. -/
def read (d : Disk) (path : String) : Except Error (Option Entry) :=
  let place := d.resolve path
  if hasNull path then .error .nullCharacter
  else if place.text.utf8ByteSize ≤ pathLimit then d.look place
  else .error .malformed

/-! ### Writing -/

/-- Take a step to a directory, which is made if nothing stands there. -/
def enter? (d : Disk) (p : Place) (step : String) : Option Place :=
  if step = ".." then some (p.drop 1)
  else
    match d.find? (step :: p) with
    | some (.file _) | some .binary => none
    | _ => if step.utf8ByteSize ≤ nameLimit then some (step :: p) else none

/-- The directories passed on a way, the first one first. -/
def passed? (d : Disk) (p : Place) : List String → Option (List Place)
  | [] => some [p]
  | step :: rest => do return p :: (← d.passed? (← d.enter? p step) rest)

/-- The place of a file with a given name behind a way.  No directory may stand there, also none
that the way itself has made. -/
def placeBehind? (d : Disk) (passed : List Place) (name : String) : Option Place := do
  let place := name :: (← passed.getLast?)
  guard (name ≠ ".." && name.utf8ByteSize ≤ nameLimit)
  guard (!passed.contains place && d.find? place ≠ some .directory)
  return place

/-- The place at which a file is written for a path.  The directories on the way come first. -/
def target (d : Disk) (path : String) : Except Error Place := do
  let steps := stepsOf path
  let way := steps.dropLast
  if way.any hasNull then throw .nullCharacter
  if !isShort way then throw .malformed
  let passed ← wellFormed (d.passed? (d.startOf path) way)
  if hasNull path then throw .nullCharacter
  if !isShort steps then throw .malformed
  wellFormed (d.placeBehind? passed (steps.getLast?.getD ".."))

end Disk

end LexScope.CommandLine
