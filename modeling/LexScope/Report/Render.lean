import LexScope.Report.Document
import LexScope.Report.Outline
import LexScope.Tree.Printer

/-!
# Report.Render — the report of an analysis

A report shows the global scope and everything below it, as an outline for people (`text`) or as a
document in printed form (`json`).  It needs a global scope.
-/

namespace LexScope.Report

/-- What a report looks like. -/
inductive Format where
  | text
  | json
  deriving Repr, DecidableEq

/-- The name of a format. -/
def Format.name : Format → String
  | .text => "text"
  | .json => "json"

/-- The format a value names. -/
def Format.ofTree? : Tree → Option Format
  | .str "text" => some .text
  | .str "json" => some .json
  | _ => none

/-- How a report is made. -/
structure Settings where
  /-- The name of the format. -/
  format : Tree := .str "text"
  includeReferences : Bool := true
  trailingNewline : Bool := true
  deriving Repr, DecidableEq

namespace Settings

/-- Settings that differ in the given fields; there are no others. -/
def withFields (settings : Settings) : List (String × Tree) → Except Error Settings
  | [] => .ok settings
  | ("format", t) :: rest => { settings with format := t }.withFields rest
  | ("include_references", t) :: rest =>
      { settings with includeReferences := t.truthy }.withFields rest
  | ("trailing_newline", t) :: rest =>
      { settings with trailingNewline := t.truthy }.withFields rest
  | _ :: _ => .error .malformed

end Settings

/-- A text without the line breaks at its end. -/
def trimNewlines (s : String) : String :=
  String.ofList (s.toList.reverse.dropWhile (· = '\n')).reverse

/-- The report of a scope in a format. -/
def body? (s : Store) (settings : Settings) (format : Format) (i : ScopeId) : Option String :=
  match format with
  | .json => do
      let text := (← document? s settings.includeReferences i).pretty .ascii
      return if settings.trailingNewline then text ++ "\n" else text
  | .text => do
      let text ← outline? s settings.includeReferences i
      return if settings.trailingNewline then text else trimNewlines text

/-- The report of an analysis. -/
def render (s : Store) (settings : Settings) : Except Error String :=
  match Format.ofTree? settings.format with
  | none => .error (.badFormat settings.format)
  | some format => wellFormed (s.global.bind (body? s settings format))

end LexScope.Report
