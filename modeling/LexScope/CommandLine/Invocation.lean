import LexScope.CommandLine.Words
import LexScope.Decimal.Whole
import LexScope.Pipeline
import LexScope.Report.Render

/-!
# CommandLine.Invocation — what a command line asks for

There is one command, `analyze`, with one argument, the file to read.  In front of it stands at most
the option for a log; behind it stand the options of the analysis and of the report.

By some conventions an option may be left without its value (`Convention.keepsDashes`).  It takes
back an earlier value, and for the file of the report that is all.  A missing version or format is
an error of the run, as a wrong value would be, but only when the run needs it.
-/

namespace LexScope.CommandLine

/-- What `analyze` is asked for. -/
structure AnalyzeRequest where
  input : String := ""
  /-- The file for the report; an empty name means none. -/
  out : String := ""
  /-- The form of the report, if the option for it was not left without a value. -/
  format : Option Report.Format := some .text
  noReferences : Bool := false
  /-- The language version, if the option for it was not left without a value. -/
  ecmaVersion : Option Int := some 6
  isModule : Bool := false
  directive : Bool := false
  optimistic : Bool := false
  ignoreEval : Bool := false
  impliedStrict : Bool := false
  undeclared : Bool := false
  /-- Issues count as errors, and parse errors are not tolerated. -/
  strict : Bool := false
  deriving Repr, DecidableEq

/-- What a command line asks for. -/
inductive Invocation where
  | help
  | misuse
  /-- There is no command. -/
  | idle
  | analyze (verbose : Bool) (r : AnalyzeRequest)
  deriving Repr, DecidableEq

/-! ### Grammars -/

/-- The options in front of the command. -/
def mainGrammar : Grammar Bool :=
  [("-h", .help), ("--help", .help), ("-v", .switch (fun _ => true)),
    ("--verbose", .switch (fun _ => true))]

/-- The options of `analyze`. -/
def analyzeGrammar : Grammar AnalyzeRequest :=
  [("-h", .help), ("--help", .help),
    ("--out", .value fun v r => some { r with out := v.getD "" }),
    ("--format", .value fun v r =>
      (v.mapM fun v => Report.Format.ofTree? (.str v)).map fun format => { r with format }),
    ("--no-references", .switch fun r => { r with noReferences := true }),
    ("--ecma-version", .value fun v r =>
      (v.mapM Decimal.intOf?).map fun ecmaVersion => { r with ecmaVersion }),
    ("--module", .switch fun r => { r with isModule := true }),
    ("--directive", .switch fun r => { r with directive := true }),
    ("--optimistic", .switch fun r => { r with optimistic := true }),
    ("--ignore-eval", .switch fun r => { r with ignoreEval := true }),
    ("--implied-strict", .switch fun r => { r with impliedStrict := true }),
    ("--undeclared", .switch fun r => { r with undeclared := true }),
    ("--strict", .switch fun r => { r with strict := true })]

/-- The invocation that an early end stands for. -/
def Invocation.ofStop : Stop → Invocation
  | .help => .help
  | .misuse => .misuse

/-- What the words behind `analyze` ask for; `spoilt` says that a word in front was unknown. -/
def Invocation.ofAnalyze (c : Convention) (verbose spoilt : Bool) (words : List String) :
    Invocation :=
  match analyzeGrammar.read c false words {} with
  | .error stop => .ofStop stop
  | .ok r =>
      match r.arguments with
      | [input] =>
          if r.hasUnknown || spoilt then .misuse
          else .analyze verbose { r.values with input }
      | _ => .misuse

/-- What the words of a command line ask for. -/
def Invocation.of (words : List String) (c : Convention := {}) : Invocation :=
  match mainGrammar.read c true words false with
  | .error stop => .ofStop stop
  | .ok r =>
      match r.arguments with
      | [] => if r.hasUnknown then .misuse else .idle
      | command :: rest =>
          if command = "analyze" then .ofAnalyze c r.values r.hasUnknown rest else .misuse

/-! ### What follows from a request -/

namespace AnalyzeRequest

/-- What stands for the value of an option that was given none. -/
def noValue : Tree := .arr []

/-- The options of the analysis. -/
def options (r : AnalyzeRequest) : Except Error Options :=
  match r.ecmaVersion with
  | none => .error (.badVersion noValue)
  | some ecmaVersion =>
      .ok { ecmaVersion, sourceType := if r.isModule then .moduleCode else .script
            directive := .bool r.directive, optimistic := .bool r.optimistic
            ignoreEval := .bool r.ignoreEval, impliedStrict := .bool r.impliedStrict }

/-- The run that the request leads to under given options, for a source of a given name. -/
def pipeline (r : AnalyzeRequest) (options : Options) (name : String) : Pipeline.Request :=
  { name := .str name, tolerant := .bool !r.strict, options := some options
    undeclared := r.undeclared }

/-- The form of the report. -/
def settings (r : AnalyzeRequest) : Report.Settings :=
  { format := (r.format.map fun format => Tree.str format.name).getD noValue
    includeReferences := !r.noReferences }

end AnalyzeRequest

end LexScope.CommandLine
