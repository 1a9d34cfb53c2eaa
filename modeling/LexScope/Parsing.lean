import LexScope.Options
import LexScope.Digest.Sha256
import LexScope.Tree.Printer

/-!
# Parsing — from a source text to a tree, by a parser that is given

How source text becomes a tree is left to a parser; this is how one is called and what is made of
its reply.  A parser that gives a tree may note errors in it from which it recovered.  A parser that
fails stops everything, unless the request tolerates errors: then the result has no tree, and its
only error says why.
-/

namespace LexScope

/-- What a parser is asked for, beside the source.  Positions and ranges are always asked for. -/
structure ParserCall where
  sourceType : SourceType
  /-- Whether to recover from errors. -/
  tolerant : Tree
  deriving Repr, DecidableEq

/-- Why a parser failed. -/
structure ParserFailure where
  message : String
  description : Tree := .null
  line : Tree := .null
  column : Tree := .null
  deriving Repr, DecidableEq

/-- A parser gives a tree, which may be any value, or fails. -/
abbrev Parser := ParserCall → String → Except ParserFailure Tree

/-- An error in a source text. -/
structure ParseError where
  description : Tree
  line : Tree
  column : Tree
  deriving Repr, DecidableEq

namespace ParseError

/-- What a failure says: its description, else its message, else a phrase for want of one. -/
def ofFailure (f : ParserFailure) : ParseError :=
  let description :=
    f.description.orElse ((Tree.str f.message).orElse (.str "Failed to parse source."))
  { description, line := f.line, column := f.column }

/-- An error noted in a tree, if it is an object. -/
def ofRecord? (t : Tree) : Option ParseError :=
  if t.isObj then
    some { description := t.get "description", line := t.get "lineNumber"
           column := t.get "column" }
  else none

/-- An error as data. -/
def toTree (e : ParseError) : Tree :=
  .obj [("description", e.description), ("line", e.line), ("column", e.column)]

end ParseError

/-- What is known of a source text after parsing. -/
structure Parsed where
  /-- The tree, `null` if there is none. -/
  tree : Tree
  digest : String
  name : Tree
  sourceType : SourceType
  errors : List ParseError
  deriving Repr, DecidableEq

namespace Parsed

/-- Whether there is a tree. -/
def hasTree (p : Parsed) : Bool := p.tree ≠ .null

/-- All that is known, as data. -/
def toTree (p : Parsed) : Tree :=
  .obj
    [("ast", p.tree), ("source_hash", .str p.digest), ("source_name", p.name),
      ("source_type", .str p.sourceType.text), ("errors", .arr (p.errors.map ParseError.toTree))]

/-- All that is known, in printed form. -/
def print (p : Parsed) : String := p.toTree.pretty .control

end Parsed

/-- What to parse a source text as. -/
structure ParseRequest where
  name : Tree := .str "<input>"
  tolerant : Tree := .bool true
  sourceType : Tree := .str "script"
  deriving Repr, DecidableEq

namespace ParseRequest

/-- A request that differs in the given fields; there are no others. -/
def withFields (r : ParseRequest) : List (String × Tree) → Except Error ParseRequest
  | [] => .ok r
  | ("source_name", t) :: rest => { r with name := t }.withFields rest
  | ("tolerant", t) :: rest => { r with tolerant := t }.withFields rest
  | ("source_type", t) :: rest => { r with sourceType := t }.withFields rest
  | _ :: _ => .error .malformed

/-- The call a request leads to.  A list or an object cannot even be compared with a source type. -/
def call (r : ParseRequest) : Except Error ParserCall :=
  match SourceType.ofTree? r.sourceType with
  | some sourceType => .ok { sourceType, tolerant := r.tolerant }
  | none => .error (if r.sourceType.isScalar then .badSourceType r.sourceType else .malformed)

/-- The errors noted in a tree.  They count only where errors are tolerated. -/
def recovered (r : ParseRequest) (tree : Tree) : Except Error (List ParseError) :=
  if r.tolerant.truthy && tree.isObj then
    match ((Node.root tree).get "errors").sequence? with
    | some ns => wellFormed (ns.mapM (fun n => ParseError.ofRecord? n.value))
    | none => .error .malformed
  else .ok []

end ParseRequest

/-- Parse a source text. -/
def parse (parser : Parser) (source : String) (r : ParseRequest) : Except Error Parsed := do
  let call ← r.call
  let result (tree : Tree) (errors : List ParseError) : Parsed :=
    { tree, digest := Digest.sha256 source, name := r.name, sourceType := call.sourceType, errors }
  match parser call source with
  | .ok tree => return result tree (← r.recovered tree)
  | .error f =>
      if r.tolerant.truthy then return result .null [.ofFailure f]
      else throw (.syntaxError f.message)

end LexScope
