import LexScope.Scope.Query

/-!
# Issue — what deserves attention in a program

Some constructs take away what an analysis can know or are likely mistakes: a direct `eval`, a
`with`, a name used where it cannot be used yet, a write that makes a global variable by accident,
and, on request, a name that nothing binds.  `issues?` lists them: first those of each scope in the
order of creation, then those that only the global scope knows.
-/

namespace LexScope

/-- What can be found. -/
inductive Finding where
  | evalCall
  | withStatement
  | deadZoneReference (name : Tree)
  | implicitGlobal (name : Tree)
  | undeclaredReference (name : Tree)
  deriving Repr, DecidableEq

namespace Finding

/-- The code of a finding. -/
def code : Finding → String
  | .evalCall => "EVAL_CALL"
  | .withStatement => "WITH_STATEMENT"
  | .deadZoneReference _ => "TDZ_REFERENCE"
  | .implicitGlobal _ => "IMPLICIT_GLOBAL"
  | .undeclaredReference _ => "UNDECLARED_REFERENCE"

/-- A finding as a sentence. -/
def message : Finding → String
  | .evalCall => "Use of eval makes static analysis of this scope unreliable."
  | .withStatement => "`with` statement changes scope resolution dynamically."
  | .deadZoneReference name =>
      "'" ++ name.text ++ "' is used before its declaration is initialized."
  | .implicitGlobal name =>
      "Assignment to undeclared '" ++ name.text ++ "' creates an implicit global."
  | .undeclaredReference name => "'" ++ name.text ++ "' is not declared in any enclosing scope."

end Finding

/-- A finding and where it was made. -/
structure Issue where
  finding : Finding
  position : Position
  deriving Repr, DecidableEq

/-- An issue at a node, if the position of the node can be read. -/
def Finding.at? (finding : Finding) (n : Node) : Option Issue :=
  n.position?.map fun position => { finding, position }

namespace Store

/-- The issues of references, one for each. -/
def issuesOf? (s : Store) (finding : Finding) (rs : List ReferenceId) : Option (List Issue) :=
  (rs.filterMap s.referenceAt?).mapM (fun ref => finding.at? ref.identifier)

/-- The references to names of a dead zone. -/
def deadZoneIssues? (s : Store) (scope : Scope) : Option (List Issue) := do
  let found ← (scope.table.entries.filterMap s.variableAt?).mapM fun v =>
    s.issuesOf? (.deadZoneReference v.name) v.references
  return found.flatten

/-- The issues of one scope. -/
def scopeIssues? (s : Store) (scope : Scope) : Option (List Issue) := do
  let evals ← if scope.callsEval then (Finding.evalCall.at? scope.block).map ([·]) else some []
  let withs ←
    if scope.kind = .withObject then (Finding.withStatement.at? scope.block).map ([·]) else some []
  let zones ← if scope.kind = .deadZone then s.deadZoneIssues? scope else some []
  return evals ++ withs ++ zones

/-- The variables that writes created, one issue for each definition. -/
def implicitIssues? (s : Store) (global : Scope) : Option (List Issue) := do
  let found ← (global.implicit.entries.filterMap s.variableAt?).mapM fun v =>
    v.identifiers.mapM (Finding.implicitGlobal v.name).at?
  return found.flatten

/-- Whether a scope or one above it binds a name. -/
def isBoundFrom (s : Store) (i : ScopeId) (key : Name) : Bool :=
  (s.chain i).any fun j => (s.scopeAt? j).any (fun scope => (scope.table.find? key).isSome)

/-- The issue of a reference that is resolved to nothing and whose name nothing binds.  A reference
that left a dynamic scope may be unresolved although a scope above binds its name. -/
def undeclaredIssue? (s : Store) (ref : Reference) : Option (List Issue) :=
  if ref.resolved.isSome then some []
  else do
    let key ← Name.ofTree? ref.name
    if s.isBoundFrom ref.scope key then return []
    return [← (Finding.undeclaredReference ref.name).at? ref.identifier]

/-- The references that left the global scope and whose names nothing binds. -/
def undeclaredIssues? (s : Store) (global : Scope) : Option (List Issue) := do
  return (← (global.through.filterMap s.referenceAt?).mapM s.undeclaredIssue?).flatten

/-- All issues, if the positions they need can be read. -/
def issues? (s : Store) (undeclared : Bool) : Option (List Issue) := do
  let found ← s.scopes.toList.mapM s.scopeIssues?
  match s.global.bind s.scopeAt? with
  | none => return found.flatten
  | some global =>
      let implicit ← s.implicitIssues? global
      let unbound ← if undeclared then s.undeclaredIssues? global else some []
      return found.flatten ++ implicit ++ unbound

end Store

end LexScope
