import LexScope.Scope.Query

/-!
# Report.Document — a scope and the scopes below it as data

The document of a scope tells its kind, the type and the start of its node, its flags, its variables
in the order of their names, the names that leave it, and, unless they are left out, its references;
then the documents of the scopes directly below it, in the order of creation.
-/

namespace LexScope.Report

/-- The word for an access. -/
def accessText : Access → String
  | .read => "read"
  | .write => "write"
  | .readWrite => "read-write"

/-- A definition of a variable. -/
def definitionEntry? (d : Definition) : Option Tree := do
  let position ← d.name.position?
  return .obj
    [("kind", .str d.kind.text), ("declarationKind", d.declarationKind), ("line", position.line)]

/-- A variable of a scope. -/
def variableEntry? (v : Variable) : Option Tree := do
  let defs ← v.defs.mapM definitionEntry?
  return .obj
    [("name", v.name), ("defs", .arr defs), ("references", .int v.references.length)]

/-- A reference made in a scope. -/
def referenceEntry? (ref : Reference) : Option Tree := do
  let position ← ref.identifier.position?
  return .obj
    [("name", ref.name), ("flag", .str (accessText ref.access)),
      ("resolved", .bool ref.resolved.isSome), ("line", position.line),
      ("column", position.column)]

/-- What is told of a scope itself, before the scopes below it. -/
def members? (s : Store) (includeReferences : Bool) (scope : Scope) :
    Option (List (String × Tree)) := do
  let position ← scope.block.position?
  guard scope.block.isObj
  let vars ← (← s.sortedVariables? scope).mapM variableEntry?
  let through := (scope.through.filterMap s.referenceAt?).map Reference.name
  let references ←
    if includeReferences then (scope.references.filterMap s.referenceAt?).mapM referenceEntry?
    else some []
  let own :=
    [("type", .str scope.kind.text), ("block", scope.block.type), ("line", position.line),
      ("column", position.column), ("strict", .bool scope.strict),
      ("dynamic", .bool scope.dynamic), ("variables", .arr vars),
      ("through", .arr through)]
  return own ++ (if includeReferences then [("references", .arr references)] else [])

/-- The document of a scope, with those of the scopes below it down to a given depth. -/
def documentAt? (s : Store) (includeReferences : Bool) : Nat → ScopeId → Option Tree
  | 0, _ => none
  | depth + 1, i => do
      let scope ← s.scopeAt? i
      let members ← members? s includeReferences scope
      let children ← scope.children.mapM (documentAt? s includeReferences depth)
      return .obj (members ++ [("children", .arr children)])

/-- The document of a scope.  A scope below another has a greater number, so no path down is longer
than the number of scopes. -/
def document? (s : Store) (includeReferences : Bool) (i : ScopeId) : Option Tree :=
  documentAt? s includeReferences s.scopes.size i

end LexScope.Report
