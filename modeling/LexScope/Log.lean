import LexScope.Options
import LexScope.Scope.Kind

/-!
# Log — what a run records about itself

Each step that is worth following leaves a record: what is analysed, each scope as it opens and
closes, the phases of a loop with a lexical head, and what the pipeline does around the analysis.
A record is data; `LogRecord.text` is the one line it prints as.
-/

namespace LexScope

/-- The phases in which a loop with a lexical head is walked, in order. -/
inductive Phase where
  | openDeadZone
  | visitRight
  | closeDeadZone
  | openIteration
  | visitBody
  | closeIteration
  deriving Repr, DecidableEq

namespace Phase

/-- The word for a phase. -/
def text : Phase → String
  | .openDeadZone => "materialize-tdz"
  | .visitRight => "visit-right"
  | .closeDeadZone => "close-tdz"
  | .openIteration => "materialize-iteration"
  | .visitBody => "visit-body"
  | .closeIteration => "close-iteration"

/-- All phases, in order. -/
def all : List Phase :=
  [.openDeadZone, .visitRight, .closeDeadZone, .openIteration, .visitBody, .closeIteration]

end Phase

/-- One thing a run records. -/
inductive LogRecord where
  | analyzing (type : Tree) (version : Int) (sourceType : SourceType)
  | analyzed (scopes : Nat)
  | opened (kind : ScopeKind) (handle : Nat) (type : Tree) (strict : Bool)
  | closed (kind : ScopeKind) (type : Tree) (references through : Nat)
  | phase (p : Phase)
  | parseErrors (source : Tree) (count : Nat)
  | cached (source : Tree) (file : String)
  deriving Repr, DecidableEq

/-- The line a record prints as: its level, where it comes from, and what it says. -/
def LogRecord.text : LogRecord → String
  | .analyzing type version sourceType =>
      "DEBUG scoping.referencer: analyzing " ++ type.text ++ " (ecma_version=" ++ toString version
        ++ ", source_type=" ++ sourceType.text ++ ")"
  | .analyzed scopes =>
      "DEBUG scoping.referencer: analysis produced " ++ toString scopes ++ " scopes"
  | .opened kind handle type strict =>
      "DEBUG scoping.scope_manager: nested " ++ kind.text ++ " scope #" ++ toString handle
        ++ " for " ++ type.text ++ " (strict=" ++ (Tree.bool strict).text ++ ")"
  | .closed kind type references through =>
      "DEBUG scoping.scope: closed " ++ kind.text ++ " scope at " ++ type.text ++ ": "
        ++ toString references ++ " references, " ++ toString through ++ " through"
  | .phase p => "DEBUG scoping.referencer: for-in/of phase " ++ p.text
  | .parseErrors source count =>
      "INFO frontend.pipeline: " ++ source.text ++ ": " ++ toString count ++ " parse errors"
  | .cached source file =>
      "DEBUG frontend.pipeline: cached parse of " ++ source.text ++ " at " ++ file

end LexScope
