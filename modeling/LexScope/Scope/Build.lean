import LexScope.Scope.Store
import LexScope.Scope.Strict

/-!
# Scope.Build — what happens while scopes are open

A scope is opened for a node below another scope or below none (`openScope`).  While it is open,
names are bound in it (`define`, `defineArguments`), references are made in it (`refer`), and it may
turn out to call `eval` or to use `this` (`noteEval`, `noteThis`).

A direct `eval` can declare variables, so it makes its scope and every scope above it dynamic: from
then on nothing that passes them can be resolved by looking at the program alone.
-/

namespace LexScope

/-! ### Opening -/

/-- Note a scope opened below. -/
def Scope.adopt (scope : Scope) (i : ScopeId) : Scope :=
  { scope with children := scope.children ++ [i] }

namespace Store

/-- Whether what surrounds a new scope is strict: the scope above it, if that exists. -/
def strictAt? (s : Store) : Option ScopeId → Option Bool
  | none => some false
  | some u => (s.scopeAt? u).map (·.strict)

/-- The scope that is added when one opens below `upper`. -/
def freshScope (s : Store) (kind : ScopeKind) (n : Node) (upper : Option ScopeId) (strict : Bool) :
    Scope :=
  let own := s.scopes.size
  let outer := upper.bind (fun u => (s.scopeAt? u).map (·.variableScope))
  { kind, block := n, upper, strict
    variableScope := if kind.holdsVars then own else outer.getD own
    dynamic := kind.startsDynamic }

/-- Add a scope. -/
def pushScope (s : Store) (scope : Scope) : Store := { s with scopes := s.scopes.push scope }

/-- Add a scope below another one. -/
def addScope (s : Store) (kind : ScopeKind) (n : Node) (upper : Option ScopeId) (strict : Bool) :
    Store :=
  let own := s.scopes.size
  let added := s.pushScope (s.freshScope kind n upper strict)
  let linked :=
    match upper with
    | some u => added.updateScope u (·.adopt own)
    | none => added
  if kind = .global then { linked with global := some own } else linked

end Store

namespace Action

/-- Open a scope of a given kind.  Whether it is strict has to be known before it exists; that its
node is an object is noticed only when the opening is recorded. -/
def openScope (kind : ScopeKind) (n : Node) (upper : Option ScopeId) : Action ScopeId := do
  let upperStrict ← need ((← get).strictAt? upper)
  let strict ← need (isStrict? (← get).options kind n upperStrict)
  let own := (← get).scopes.size
  modify (·.addScope kind n upper strict)
  if n.isObj then record (.opened kind own n.type strict) else malformed
  return own

end Action

/-! ### Binding names -/

/-- Give a name of a scope an entry. -/
def Scope.bind (scope : Scope) (key : Name) (v : VariableId) : Scope :=
  { scope with table := scope.table.put key v }

namespace Store

/-- Give a name of a scope a new variable. -/
def bindNew (s : Store) (i : ScopeId) (key : Name) (v : Variable) : Store :=
  { s with vars := s.vars.push v }.updateScope i (·.bind key s.vars.size)

/-- Add a definition to a variable. -/
def addDefinition (s : Store) (v : VariableId) (d : Definition) : Store :=
  s.updateVariable v fun var => { var with defs := var.defs ++ [d] }

end Store

namespace Action

/-- Give a name of a scope a new variable. -/
def bindNew (i : ScopeId) (key : Name) (v : Variable) : Action VariableId := do
  let own := (← get).vars.size
  modify (·.bindNew i key v)
  return own

/-- Bind an identifier in a scope, adding a definition if its name is already bound there.  A node
that is no identifier binds nothing. -/
def define (i : ScopeId) (n : Node) (d : Definition) : Action (Option VariableId) := do
  if !n.isIdentifier then return none
  let name := n.value.get "name"
  let key ← need (Name.ofTree? name)
  match (← scopeAt i).table.find? key with
  | some v =>
      modify (·.addDefinition v d)
      return some v
  | none => return some (← bindNew i key { name, scope := i, defs := [d] })

/-- Bind the arguments of a function, in place of any variable of that name. -/
def defineArguments (i : ScopeId) : Action VariableId :=
  bindNew i (.text argumentsName) { name := .str argumentsName, scope := i }

end Action

/-! ### Making references -/

/-- Note a reference made in a scope.  It waits there to be settled. -/
def Scope.take (scope : Scope) (r : ReferenceId) : Scope :=
  { scope with
    references := scope.references ++ [r]
    pending := scope.pending.map (· ++ [r]) }

/-- Add a reference made in a scope. -/
def Store.addReference (s : Store) (i : ScopeId) (u : Use) : Store :=
  { s with references := s.references.push { u with scope := i } }.updateScope i
    (·.take s.references.size)

namespace Action

/-- Make a reference in an open scope.  A node that is no identifier makes none. -/
def refer (i : ScopeId) (u : Use) : Action (Option ReferenceId) := do
  if !u.identifier.isIdentifier then return none
  if (← scopeAt i).isClosed then throw (Fault.closedReference.on u.identifier)
  let own := (← get).references.size
  modify (·.addReference i u)
  return some own

end Action

/-! ### Flags -/

namespace Store

/-- Change some scopes, one after the other. -/
def updateScopes (s : Store) (l : List ScopeId) (f : Scope → Scope) : Store :=
  l.foldl (fun s j => s.updateScope j f) s

/-- Note that a scope calls `eval`: names may be bound in it and above it at run time. -/
def noteEval (s : Store) (i : ScopeId) : Store :=
  (s.updateScope i fun scope => { scope with callsEval := true }).updateScopes (s.chain i)
    fun scope => { scope with dynamic := true }

/-- Note that a scope uses `this`. -/
def noteThis (s : Store) (i : ScopeId) : Store :=
  s.updateScope i fun scope => { scope with usesThis := true }

end Store

namespace Action

/-- Note that a scope calls `eval` directly. -/
def noteEval (i : ScopeId) : Action Unit := do
  let _ ← scopeAt i
  modify (·.noteEval i)

/-- Note that a scope uses `this`. -/
def noteThis (i : ScopeId) : Action Unit := do
  let _ ← scopeAt i
  modify (·.noteThis i)

end Action

end LexScope
