import LexScope.Walk.Plan
import LexScope.Scope.Query

/-!
# Analyze — the analysis of a whole program

`analyze` walks a program in an empty store.  When it succeeds, every scope is closed and the store
is the result.
-/

namespace LexScope

/-- Walk a program and record its beginning and its end. -/
def analysis (tree : Tree) : Action Unit := do
  if !tree.isObj then Action.malformed
  let options := (← get).options
  Action.record (.analyzing (tree.get "type") options.ecmaVersion options.sourceType)
  Action.visit (.root tree) none
  Action.record (.analyzed (← get).scopes.size)

/-- Let an action happen in a store, and keep the store if it succeeds. -/
def Action.finish {α : Type} (action : Action α) (s : Store) : Except Error Store :=
  match (action.run s).run with
  | (.ok _, s) => .ok s
  | (.error e, _) => .error e

/-- The scopes of a program. -/
def analyze (options : Options) (tree : Tree) : Except Error Store :=
  (analysis tree).finish (.new options)

/-- How the options of an analysis are given. -/
inductive Given where
  /-- By a mapping, over which the overrides are laid before it is read. -/
  | mapping (t : Tree)
  /-- As options, in which the overrides replace fields. -/
  | options (o : Options)

/-- The names of the arguments of an analysis, which no override may have. -/
def argumentNames : List String := ["tree", "options"]

/-- The options of an analysis. -/
def Given.resolve (given : Given) (overrides : List (String × Tree)) : Except Error Options :=
  if overrides.any (fun m => argumentNames.contains m.1) then .error .malformed
  else
    match given with
    | .mapping t => Options.ofMappingWith t overrides
    | .options o => o.withFields overrides

end LexScope
