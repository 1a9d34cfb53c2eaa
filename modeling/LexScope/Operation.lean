import LexScope.Walk.Plan

/-!
# Operation — building scopes step by step

A store can also be built by hand, one operation at a time and in any order: scopes are entered
below any other, names bound and references made in any of them, and any scope closed at any time.
`Operation.apply` is the whole of what can happen to a store.
-/

namespace LexScope

/-- One step in building scopes. -/
inductive Operation where
  /-- Enter a node through the scopes it introduces. -/
  | nest (n : Node) (upper : Option ScopeId) (isMethod : Bool)
  /-- Enter a node through a scope of a given kind. -/
  | enter (kind : ScopeKind) (n : Node) (upper : Option ScopeId)
  | define (scope : ScopeId) (n : Node) (d : Definition)
  | defineArguments (scope : ScopeId)
  | refer (scope : ScopeId) (u : Use)
  | noteEval (scope : ScopeId)
  | noteThis (scope : ScopeId)
  | visit (n : Node) (current : Option ScopeId)
  | close (scope : ScopeId)
  deriving Repr

/-- What an operation gives back. -/
inductive Outcome where
  /-- The scope entered. -/
  | entered (i : ScopeId)
  /-- The variable bound, if any. -/
  | bound (v : Option VariableId)
  /-- The reference made, if any. -/
  | made (r : Option ReferenceId)
  /-- The scope above the one closed, if any. -/
  | closed (upper : Option ScopeId)
  | done
  deriving Repr, DecidableEq

namespace Operation

/-- Carry out an operation. -/
def apply : Operation → Action Outcome
  | .nest n upper isMethod => return .entered (← Action.nest n upper isMethod)
  | .enter kind n upper => return .entered (← Action.enter kind n upper)
  | .define i n d => return .bound (← Action.define i n d)
  | .defineArguments i => do
      let _ ← Action.scopeAt i
      return .bound (some (← Action.defineArguments i))
  | .refer i u => return .made (← Action.refer i u)
  | .noteEval i => do Action.noteEval i; return .done
  | .noteThis i => do Action.noteThis i; return .done
  | .visit n current => do Action.visit n current; return .done
  | .close i => return .closed (← Action.close i)

/-- Carry out an operation in a store.  The store is changed even if the operation fails. -/
def applyTo (op : Operation) (s : Store) : Except Error Outcome × Store :=
  (op.apply.run s).run

end Operation

end LexScope
