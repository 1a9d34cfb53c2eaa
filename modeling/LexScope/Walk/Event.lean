import LexScope.Scope.Enter

/-!
# Walk.Event — what a walk does

A walk over a program is a list of events: names are bound, references are made, scopes are entered
and left.  The list is a tree, because everything that happens inside a scope is inside the event
that enters it (`Event.within`), and leaving the scope is the end of that event.  That every scope
is left exactly once, and the last one entered is left first, is therefore a matter of form.

Which events a program has depends on the program and the options only; `Walk.Plan` says which.
What an event does depends on the scope it happens in, the *current* one; that is said here, by
`Event.run`.
-/

namespace LexScope.Walk

/-- The scope in which a declaration binds its names. -/
inductive Target where
  /-- The current scope. -/
  | here
  /-- The scope that holds the `var` declarations of the current one. -/
  | hoisted
  deriving Repr, DecidableEq

/-- One thing that happens in a walk. -/
inductive Event where
  /-- A declaration binds an identifier. -/
  | define (target : Target) (n : Node) (d : Definition)
  /-- A name is used.  A candidate counts only in a scope that is not strict. -/
  | refer (u : Use)
  /-- `eval` is called by its name. -/
  | callEval
  /-- `this` is used. -/
  | useThis
  /-- There has to be a current scope. -/
  | needScope
  /-- A phase of a loop begins. -/
  | phase (p : Phase)
  /-- The walk stops. -/
  | fail (e : Error)
  /-- A scope is entered, the events of its inside happen, and it is left. -/
  | within (kind : ScopeKind) (n : Node) (inside : List Event)
  /-- The current scope is left if it was entered for this node before the walk began, and so are
  the ones above it. -/
  | closeOwned (n : Node)
  deriving Repr, Inhabited

/-- The scope a target means. -/
def Target.resolve (current : ScopeId) : Target → Action ScopeId
  | .here => pure current
  | .hoisted => do return (← Action.scopeAt current).variableScope

/-- Make a reference, without its candidate if the scope is strict. -/
def referFrom (current : ScopeId) (u : Use) : Action Unit := do
  let strict := (← Action.scopeAt current).strict
  discard (Action.refer current (if strict then { u with candidate := none } else u))

mutual

/-- Let an event happen in the current scope. -/
def Event.run : Event → Option ScopeId → Action Unit
  | .define target n d, current => do
      let i ← target.resolve (← Action.need current)
      discard (Action.define i n d)
  | .refer u, current => do referFrom (← Action.need current) u
  | .callEval, current => do
      Action.noteEval (← Target.hoisted.resolve (← Action.need current))
  | .useThis, current => do
      Action.noteThis (← Target.hoisted.resolve (← Action.need current))
  | .needScope, current => discard (Action.need current)
  | .phase p, _ => Action.record (.phase p)
  | .fail e, _ => throw e
  | .within kind n inside, current => do
      let i ← Action.enter kind n current
      runAll inside (some i)
      discard (Action.close i)
  | .closeOwned n, current => Action.closeOwned n current

/-- Let events happen one after the other in the current scope. -/
def runAll : List Event → Option ScopeId → Action Unit
  | [], _ => pure ()
  | e :: rest, current => do
      e.run current
      runAll rest current

end

end LexScope.Walk
