import LexScope.Scope.Query

/-!
# Report.Outline — a scope and the scopes below it as indented text

Each scope has a line that names it, a line for each variable in the order of the names, and a line
of the names that leave it, if there are any and they are not left out.  The scopes below it follow,
two blanks further in.
-/

namespace LexScope.Report

/-- The blanks in front of a line. -/
def indent (depth : Nat) : String := String.ofList (List.replicate (2 * depth) ' ')

/-- What a scope is marked with. -/
def marks (scope : Scope) : List String :=
  (if scope.strict then ["strict"] else []) ++ (if scope.callsEval then ["eval"] else [])
    ++ (if scope.usesThis then ["this"] else [])

/-- The line that names a scope. -/
def header? (depth : Nat) (scope : Scope) : Option String := do
  let position ← scope.block.position?
  guard scope.block.isObj
  let marked := marks scope
  let suffix := if marked.isEmpty then "" else " [" ++ String.intercalate ", " marked ++ "]"
  return indent depth ++ scope.kind.text ++ " scope (" ++ scope.block.type.text ++ " "
    ++ position.line.text ++ ":" ++ position.column.text ++ ")" ++ suffix ++ "\n"

/-- The text of a value that has to be one. -/
def textOf? : Tree → Option String
  | .str s => some s
  | _ => none

/-- How a definition is told: by the keyword of its declaration, if there is one. -/
def definitionText? (d : Definition) : Option String :=
  textOf? (d.declarationKind.orElse (.str d.kind.text))

/-- The line of a variable. -/
def variableLine? (depth : Nat) (v : Variable) : Option String := do
  let kinds := String.intercalate ", " (← v.defs.mapM definitionText?)
  return indent depth ++ "  - " ++ v.name.text ++ " (" ++ (if kinds = "" then "implicit" else kinds)
    ++ ") refs=" ++ toString v.references.length ++ "\n"

/-- The different names of references, in order; they have to be texts. -/
def throughNames? (s : Store) (scope : Scope) : Option (List String) := do
  let names ← (scope.through.filterMap s.referenceAt?).mapM (fun ref => textOf? ref.name)
  let table := names.foldl (fun (t : Table Unit) name => t.put (.text name) ()) []
  (← table.sorted?).names.mapM fun
    | .text name => some name
    | _ => none

/-- The line of the names that leave a scope. -/
def throughLine? (s : Store) (depth : Nat) (scope : Scope) : Option String := do
  if scope.through.isEmpty then return ""
  return indent depth ++ "  through: " ++ String.intercalate ", " (← throughNames? s scope) ++ "\n"

/-- The lines of a scope itself. -/
def lines? (s : Store) (includeReferences : Bool) (depth : Nat) (scope : Scope) :
    Option String := do
  let header ← header? depth scope
  let vars ← (← s.sortedVariables? scope).mapM (variableLine? depth)
  let through ← if includeReferences then throughLine? s depth scope else some ""
  return header ++ String.join vars ++ through

/-- The outline of a scope at a given depth, with those of the scopes below it, `fuel` levels of
them. -/
def outlineAt? (s : Store) (includeReferences : Bool) : Nat → Nat → ScopeId → Option String
  | 0, _, _ => none
  | fuel + 1, depth, i => do
      let scope ← s.scopeAt? i
      let own ← lines? s includeReferences depth scope
      let children ← scope.children.mapM (outlineAt? s includeReferences fuel (depth + 1))
      return own ++ String.join children

/-- The outline of a scope. -/
def outline? (s : Store) (includeReferences : Bool) (i : ScopeId) : Option String :=
  outlineAt? s includeReferences s.scopes.size 0 i

end LexScope.Report
