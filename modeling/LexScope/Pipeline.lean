import LexScope.Analyze
import LexScope.Issue
import LexScope.Parsing

/-!
# Pipeline — from a source text to its scopes and issues

A run parses a source text, analyses the tree if there is one, lists its issues, and keeps the parse
in a file if it is given a directory for that.  Everything is recorded on the way, also in a run
that stops with an error.
-/

namespace LexScope.Pipeline

/-- What a run is asked for. -/
structure Request where
  name : Tree := .str "<input>"
  tolerant : Tree := .bool true
  analyzes : Bool := true
  /-- The source type and the language version count only where no options are given. -/
  sourceType : Tree := .str "script"
  ecmaVersion : Tree := .int 6
  options : Option Options := none
  /-- Whether names that nothing binds are issues. -/
  undeclared : Bool := false
  /-- The directory in which to keep the parse. -/
  cache : Option String := none
  deriving Repr, DecidableEq

namespace Request

/-- A request that differs in the given fields; there are no others. -/
def withFields (r : Request) : List (String × Tree) → Except Error Request
  | [] => .ok r
  | ("source_name", t) :: rest => { r with name := t }.withFields rest
  | ("tolerant", t) :: rest => { r with tolerant := t }.withFields rest
  | ("analyze_scopes", t) :: rest => { r with analyzes := t.truthy }.withFields rest
  | ("source_type", t) :: rest => { r with sourceType := t }.withFields rest
  | ("ecma_version", t) :: rest => { r with ecmaVersion := t }.withFields rest
  | ("report_undeclared", t) :: rest => { r with undeclared := t.truthy }.withFields rest
  | _ :: _ => .error .malformed

/-- The options of a run. -/
def resolvedOptions (r : Request) : Except Error Options :=
  match r.options with
  | some o => .ok o
  | none =>
      ({ ecmaVersion := r.ecmaVersion, sourceType := r.sourceType } : Draft).validate

/-- What a run asks to be parsed. -/
def parseRequest (r : Request) (o : Options) : ParseRequest :=
  { name := r.name, tolerant := r.tolerant, sourceType := .str o.sourceType.text }

end Request

/-- A file to be written. -/
structure File where
  path : String
  content : String
  deriving Repr, DecidableEq

/-- What a run finds. -/
structure Result where
  parsed : Parsed
  store : Option Store
  issues : List Issue
  files : List File

/-- A run: what was recorded, and what it found or why it stopped. -/
structure Run where
  log : List LogRecord
  result : Except Error Result

/-- The file in which a parse is kept: it is named by the digest of the source. -/
def cacheFile (directory : String) (p : Parsed) : File :=
  { path := directory ++ "/" ++ p.digest ++ ".json", content := p.print }

/-- The record of parse errors, if there are any. -/
def parseLog (p : Parsed) : List LogRecord :=
  if p.errors.isEmpty then [] else [.parseErrors p.name p.errors.length]

/-- Analyse a parse and list its issues, with what is recorded.  Without a tree there is nothing to
analyse. -/
def analyzeParsed (r : Request) (o : Options) (p : Parsed) :
    List LogRecord × Except Error (Option Store × List Issue) :=
  if r.analyzes && p.hasTree then
    match ((analysis p.tree).run (.new o)).run with
    | (.ok _, s) =>
        (s.log.toList, (wellFormed (s.issues? r.undeclared)).map (fun issues => (some s, issues)))
    | (.error e, s) => (s.log.toList, .error e)
  else ([], .ok (none, []))

/-- Keep a parse, if there is a directory for it. -/
def keep (r : Request) (p : Parsed) : List LogRecord × List File :=
  match r.cache with
  | some directory =>
      let file := cacheFile directory p
      ([.cached p.name file.path], [file])
  | none => ([], [])

/-- Run a request on a source text. -/
def run (parser : Parser) (source : String) (r : Request) : Run :=
  let parsed := do
    let o ← r.resolvedOptions
    return (o, ← parse parser source (r.parseRequest o))
  match parsed with
  | .error e => { log := [], result := .error e }
  | .ok (o, p) =>
      match analyzeParsed r o p with
      | (log, .error e) => { log := parseLog p ++ log, result := .error e }
      | (log, .ok (store, issues)) =>
          let (kept, files) := keep r p
          { log := parseLog p ++ log ++ kept, result := .ok { parsed := p, store, issues, files } }

end LexScope.Pipeline
