import LexScope.CommandLine.Run
import LexScope.Tree.Reader

/-!
# Main — the program

The file that is analysed holds a syntax tree in interchange form; the program's parser reads it.
Reading and writing files is all that happens here.
-/

namespace LexScope.CommandLine

/-- The parser of the program: the source is a tree already. -/
def treeParser : Parser := fun _ source =>
  match Tree.read? source with
  | some t => .ok t
  | none => .error { message := "The input is not a syntax tree." }

/-- What stands at a place of the real disk. -/
def entryAt (place : Place) : IO (List (Place × Entry)) := do
  try
    let bytes ← IO.FS.readBinFile place.text
    return [(place, (String.fromUTF8? bytes).elim .binary .file)]
  catch e =>
    match e with
    | .noFileOrDirectory .. => return []
    | .inappropriateType .. => return [(place, .directory)]
    | e => throw e

/-- Write a file of the real disk, making the directories above it. -/
def writeTo (f : Pipeline.File) : IO Unit := do
  IO.FS.createDirAll (Place.text ((Place.ofPath f.path).drop 1))
  IO.FS.writeFile f.path f.content

/-- Carry out a command line on the real disk. -/
def execute (words : List String) : IO UInt32 := do
  let disk : Disk := { directory := .ofPath (← IO.currentDir).toString, entries := [] }
  let entries ←
    match Invocation.of words with
    | .analyze _ r => entryAt (disk.resolve r.input)
    | _ => pure []
  match runWords { disk with entries } treeParser words with
  | .error .malformed =>
      IO.eprintln "ERROR: The syntax tree or a path is malformed."
      return 1
  | .error e =>
      IO.eprintln ("ERROR: " ++ e.message)
      return 1
  | .ok o =>
      IO.print o.stdout
      o.files.forM writeTo
      IO.eprint o.stderr
      return o.status.toUInt32

end LexScope.CommandLine

def main (words : List String) : IO UInt32 := LexScope.CommandLine.execute words
