import LexScope.CommandLine.Invocation
import LexScope.CommandLine.Disk

/-!
# CommandLine.Run — what a command line does

A run reads one file, prints or writes a report, and tells on the error stream what is wrong with
the program: errors of the parser first, then issues.  Its status is `0` only if there is nothing
wrong; issues count only in strict runs.  The report is made whenever the analysis succeeds, also in
a run that ends with another status.
-/

namespace LexScope.CommandLine

/-- What a run leaves behind. -/
structure Outcome where
  status : Nat
  stdout : String := ""
  stderr : String := ""
  files : List Pipeline.File := []
  deriving Repr, DecidableEq

/-- How the program is used. -/
def usage : String :=
  "usage: lexscope [-h] [-v] analyze [-h] [--out FILE] [--format text|json] [--no-references]\n"
    ++ "    [--ecma-version N] [--module] [--directive] [--optimistic] [--ignore-eval]\n"
    ++ "    [--implied-strict] [--undeclared] [--strict] input\n"

/-! ### Messages -/

/-- A position behind a file name. -/
def positionText (line column : Tree) : String :=
  if line = .null then ""
  else if column = .null then ":" ++ line.text
  else ":" ++ line.text ++ ":" ++ column.text

/-- A parse error in a file. -/
def errorLine (name : String) (e : ParseError) : String :=
  "ERROR " ++ name ++ positionText e.line e.column ++ ": " ++ e.description.text ++ "\n"

/-- An issue in a file. -/
def warningLine (name : String) (issue : Issue) : String :=
  "WARNING " ++ name ++ positionText issue.position.line issue.position.column ++ ": ["
    ++ issue.finding.code ++ "] " ++ issue.finding.message ++ "\n"

/-- All that is wrong with a program, one line each. -/
def diagnostics (name : String) (result : Pipeline.Result) : String :=
  String.join (result.parsed.errors.map (errorLine name))
    ++ String.join (result.issues.map (warningLine name))

/-- Why there is nothing to analyse. -/
def noTree (errors : List ParseError) : String :=
  "ERROR: Parsing failed; no AST produced.\n"
    ++ String.join (errors.map fun e =>
      "  " ++ e.description.text ++ positionText e.line e.column ++ "\n")

/-- The message of an error that ends a run in good order. -/
def failure? : Error → Option String
  | .malformed => none
  | .syntaxError message => some ("ERROR: Parsing failed: " ++ message ++ "\n")
  | .analysis fault p =>
      some ("ERROR: Scope analysis failed: " ++ (Error.analysis fault p).message ++ "\n")
  | e => some ("ERROR: " ++ e.message ++ "\n")

/-- The log of a run as lines, if it is wanted. -/
def logText (verbose : Bool) (log : List LogRecord) : String :=
  if verbose then String.join (log.map fun r => r.text ++ "\n") else ""

/-! ### Runs -/

/-- Deliver a report: to a file if one is named, else to the output. -/
def deliver (d : Disk) (r : AnalyzeRequest) (report : String) (o : Outcome) :
    Except Error Outcome :=
  if r.out = "" then .ok { o with stdout := report }
  else do
    let place ← d.target r.out
    return { o with files := [{ path := place.text, content := report }] }

/-- The status of a run that has a report. -/
def statusOf (r : AnalyzeRequest) (result : Pipeline.Result) : Nat :=
  if !result.parsed.errors.isEmpty || (r.strict && !result.issues.isEmpty) then 1 else 0

/-- The end of a run that stops with an error, behind what was recorded before it. -/
def stopped (log : String) (e : Error) : Except Error Outcome :=
  match failure? e with
  | some message => .ok { status := 1, stderr := log ++ message }
  | none => .error e

/-- Analyse a source text that has been read from a file of a given name, under given options. -/
def analyzeWith (d : Disk) (parser : Parser) (verbose : Bool) (r : AnalyzeRequest)
    (options : Options) (name source : String) : Except Error Outcome :=
  let run := Pipeline.run parser source (r.pipeline options name)
  let log := logText verbose run.log
  match run.result with
  | .error e => stopped log e
  | .ok result =>
      match result.store with
      | none => .ok { status := 1, stderr := log ++ noTree result.parsed.errors }
      | some store => do
          let report ← Report.render store r.settings
          deliver d r report
            { status := statusOf r result, stderr := log ++ diagnostics name result }

/-- Analyse a source text that has been read from a file of a given name.  Without options nothing
is parsed and nothing recorded. -/
def analyzeSource (d : Disk) (parser : Parser) (verbose : Bool) (r : AnalyzeRequest)
    (name source : String) : Except Error Outcome :=
  match r.options with
  | .ok options => analyzeWith d parser verbose r options name source
  | .error e => stopped "" e

/-- Carry out `analyze`. -/
def analyzeFile (d : Disk) (parser : Parser) (verbose : Bool) (r : AnalyzeRequest) :
    Except Error Outcome := do
  let path := (d.resolve r.input).text
  match ← d.read r.input with
  | none => return { status := 1, stderr := "ERROR: Input file not found: " ++ path ++ "\n" }
  | some .directory =>
      return { status := 1, stderr := "ERROR: Failed to read " ++ path
                 ++ ": [Errno 21] Is a directory: " ++ Text.quote path ++ "\n" }
  -- Nothing is told of a file that is no text: the run breaks off.
  | some .binary => .error .malformed
  | some (.file source) => analyzeSource d parser verbose r path source

/-- Carry out what a command line asks for. -/
def Invocation.run (d : Disk) (parser : Parser) : Invocation → Except Error Outcome
  | .help => .ok { status := 0, stdout := usage }
  | .misuse => .ok { status := 2, stderr := usage }
  | .idle => .ok { status := 1, stdout := usage }
  | .analyze verbose r => analyzeFile d parser verbose r

/-- Carry out a command line. -/
def runWords (d : Disk) (parser : Parser) (words : List String) (c : Convention := {}) :
    Except Error Outcome :=
  (Invocation.of words c).run d parser

end LexScope.CommandLine
