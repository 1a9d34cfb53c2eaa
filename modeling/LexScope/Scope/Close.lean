import LexScope.Scope.Build

/-!
# Scope.Close — settling references

What a name refers to is decided when a scope closes.  Each pending reference is either resolved to
a variable of the scope or handed to the scope above; either way the decision is final for this
scope, and a reference that leaves is noted in `through` (`settle`).

A dynamic scope can bind any name at run time, so it settles nothing: its references leave it and
every scope above it at once (`escape`).  The global scope is an exception, as is every scope of an
optimistic analysis.  Before it settles anything, the global scope makes variables for the writes
that reached it, carry a candidate and find nothing bound (`makeImplicit`).
-/

namespace LexScope

namespace Store

/-- The scope that holds the `var` declarations of a scope. -/
def variableScope? (s : Store) (i : ScopeId) : Option ScopeId :=
  (s.scopeAt? i).map (·.variableScope)

/-- Tie a reference made in the scope `origin` to a variable. -/
def link (s : Store) (r : ReferenceId) (origin : ScopeId) (v : VariableId) : Store :=
  let stays (var : Variable) := decide (s.variableScope? origin = s.variableScope? var.scope)
  let noted := s.updateVariable v fun var =>
    { var with references := var.references ++ [r], stack := var.stack && stays var }
  noted.updateReference r fun ref => { ref with resolved := some v }

end Store

namespace Scope

/-- Note that a reference left a scope unresolved. -/
def pass (scope : Scope) (r : ReferenceId) : Scope :=
  { scope with through := scope.through ++ [r] }

/-- Take over a reference from a scope below. -/
def receive (scope : Scope) (r : ReferenceId) : Scope :=
  { scope with pending := scope.pending.map (· ++ [r]) }

/-- Note the variable made for a name that nothing binds. -/
def bindImplicit (scope : Scope) (key : Name) (v : VariableId) : Scope :=
  { scope with implicit := scope.implicit.put key v }

/-- Mark a scope as closed. -/
def shut (scope : Scope) : Scope :=
  { scope with
    pending := none
    implicitLeft := if scope.kind = .global then scope.through else scope.implicitLeft }

end Scope

namespace Action

/-! ### Settling one reference -/

/-- Resolve a reference to a variable. -/
def resolveTo (r : ReferenceId) (v : VariableId) : Action Unit := do
  let origin := (← referenceAt r).scope
  modify (·.link r origin v)

/-- Hand a reference to the scope above, which has to be open, and note that it left. -/
def handUp (i : ScopeId) (r : ReferenceId) : Action Unit := do
  match (← scopeAt i).upper with
  | some u =>
      if (← scopeAt u).isClosed then malformed
      modify (·.updateScope u (·.receive r))
  | none => pure ()
  modify (·.updateScope i (·.pass r))

/-- Settle a reference in a scope whose names are all known. -/
def settle (i : ScopeId) (r : ReferenceId) : Action Unit := do
  let key ← need (Name.ofTree? (← referenceAt r).name)
  match (← scopeAt i).table.find? key with
  | some v => resolveTo r v
  | none => handUp i r

/-- Let a reference leave a scope and every scope above it. -/
def escape (i : ScopeId) (r : ReferenceId) : Action Unit :=
  modify fun s => s.updateScopes (s.chain i) (·.pass r)

/-! ### Implicit globals -/

/-- The candidates of those references that find no variable in a table. -/
def openCandidates (table : Table VariableId) : List ReferenceId → Action (List Candidate)
  | [] => pure []
  | r :: rest => do
      let reference ← referenceAt r
      match reference.candidate with
      | none => openCandidates table rest
      | some c =>
          let key ← need (Name.ofTree? reference.name)
          let others ← openCandidates table rest
          return if (table.find? key).isSome then others else c :: others

/-- Make the variable that a candidate stands for. -/
def makeImplicit (i : ScopeId) (c : Candidate) : Action Unit := do
  let made ← define i c.pattern { kind := .variable, name := c.pattern, node := c.node }
  let v ← need made
  let key ← need (Name.ofTree? (c.pattern.value.get "name"))
  modify (·.updateScope i (·.bindImplicit key v))

/-- Make the variables that the references left to a global scope ask for. -/
def bindImplicits (i : ScopeId) (scope : Scope) (pending : List ReferenceId) : Action Unit := do
  if scope.kind = .global then
    let candidates ← openCandidates scope.table pending
    candidates.forM (makeImplicit i)

/-! ### Closing -/

/-- Whether the references of a scope are settled by looking at its names. -/
def settles (o : Options) (scope : Scope) : Bool :=
  !scope.dynamic || o.optimistic.truthy || scope.kind = .global

/-- Settle the references that a scope has left, or let all of them leave. -/
def settleAll (i : ScopeId) (settled : Bool) (pending : List ReferenceId) : Action Unit :=
  if settled then pending.forM (settle i) else pending.forM (escape i)

/-- Close a scope and return the one above. -/
def close (i : ScopeId) : Action (Option ScopeId) := do
  let scope ← scopeAt i
  match scope.pending with
  | none => throw (Fault.closedTwice.on scope.block)
  | some pending =>
      bindImplicits i scope pending
      settleAll i (settles (← get).options scope) pending
      modify (·.updateScope i (·.shut))
      let closed ← scopeAt i
      if closed.block.isObj then
        record (.closed closed.kind closed.block.type closed.references.length
          closed.through.length)
      else malformed
      return closed.upper

/-- Close a scope and those above it as long as they belong to a node, at most `fuel` of them. -/
def closeOwnedFrom (n : Node) : Nat → Option ScopeId → Action Unit
  | 0, _ => pure ()
  | _, none => pure ()
  | fuel + 1, some i => do
      if (← scopeAt i).block.same n then closeOwnedFrom n fuel (← close i) else pure ()

/-- Close every scope that belongs to a node, innermost first, starting from a given one. -/
def closeOwned (n : Node) (i : Option ScopeId) : Action Unit := do
  closeOwnedFrom n ((← get).scopes.size) i

end Action

end LexScope
