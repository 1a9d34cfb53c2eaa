import LexScope.Scope.Close

/-!
# Scope.Enter — entering a construct

Entering a scope opens it and binds at once what its kind provides: the arguments of a function
(an arrow function has none), or the name that a function expression gives itself (`enter`).

A node is entered through the scope it introduces, and a named function expression through two: the
scope of its name, then its own (`scopeKinds?`, `nest`).  A method is never entered by name.
-/

namespace LexScope

/-- Whether a function scope has arguments of its own. -/
def Node.hasArguments (n : Node) : Bool := !n.isArrow

/-- Whether a node is a function expression that knows itself by a name. -/
def Node.namesItself (n : Node) : Bool :=
  n.hasType "FunctionExpression" && (n.get "id").truthy

/-- The definition of a function's name. -/
def Definition.ofFunction (n : Node) : Definition :=
  { kind := .functionName, name := n.get "id", node := n }

/-- The kinds of the scopes through which a node is entered, outermost first. -/
def scopeKinds? (n : Node) (isMethod : Bool) : Option (List ScopeKind) :=
  (ScopeKind.ofNode? n).map fun kind =>
    if kind = .function && n.namesItself && !isMethod then [.functionName, kind] else [kind]

namespace Action

/-- Bind what a scope of a given kind provides. -/
def provide (kind : ScopeKind) (n : Node) (i : ScopeId) : Action Unit :=
  match kind with
  | .function => if n.hasArguments then discard (defineArguments i) else pure ()
  | .functionName => discard (define i (n.get "id") (.ofFunction n))
  | _ => pure ()

/-- Open a scope of a given kind and bind what it provides. -/
def enter (kind : ScopeKind) (n : Node) (upper : Option ScopeId) : Action ScopeId := do
  let i ← openScope kind n upper
  provide kind n i
  return i

/-- Open scopes of the given kinds for one node, each below the one before, and return the last. -/
def enterAll (n : Node) : List ScopeKind → Option ScopeId → Action (Option ScopeId)
  | [], upper => pure upper
  | kind :: rest, upper => do enterAll n rest (some (← enter kind n upper))

/-- Open the scopes that a node introduces and return the innermost. -/
def nest (n : Node) (upper : Option ScopeId) (isMethod : Bool) : Action ScopeId := do
  need (← enterAll n (← need (scopeKinds? n isMethod)) upper)

end Action

end LexScope
