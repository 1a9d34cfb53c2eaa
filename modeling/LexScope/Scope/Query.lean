import LexScope.Scope.Store

/-!
# Scope.Query — what can be asked of a store

Nothing here changes anything.  The questions are: which scopes belong to a node, and which of them
is meant when one is asked for (`acquire`, `release`); what a scope knows about a name
(`isUsedName?`) or an identifier (`resolve?`); and what may be concluded from it.
-/

namespace LexScope

namespace Store

/-! ### Scopes of a node -/

/-- All scopes with their numbers, in the order of creation. -/
def numbered (s : Store) : List (Scope × ScopeId) := s.scopes.toList.zipIdx

/-- The scopes that belong to a node, in the order of creation. -/
def owned (s : Store) (n : Node) : List ScopeId :=
  (s.numbered.filter (fun (scope, _) => scope.block.same n)).map (·.2)

/-- Whether a scope stands for a construct of the program. -/
def isProper (s : Store) (i : ScopeId) : Bool :=
  (s.scopeAt? i).any (fun scope => !scope.kind.isSynthetic)

/-- The scope most likely meant by a node: the first that stands for a construct, or the last. -/
def acquire (s : Store) (n : Node) (inner : Bool) : Option ScopeId :=
  let proper := (s.owned n).filter s.isProper
  if inner then proper.getLast? else proper.head?

/-- The scope around the one most likely meant by a node, leaving out synthetic ones. -/
def release (s : Store) (n : Node) (inner : Bool) : Option ScopeId :=
  (s.acquire n inner).bind fun i => (s.chain i).tail.find? s.isProper

/-! ### Names and identifiers -/

/-- Whether a name is bound in a scope or leaves it unresolved.  A list or an object is no name. -/
def isUsedName? (s : Store) (scope : Scope) (name : Tree) : Option Bool :=
  (Name.ofTree? name).map fun key =>
    (scope.table.find? key).isSome
      || scope.through.any (fun r =>
          (s.referenceAt? r).any (fun ref => Name.ofTree? ref.name = some key))

/-- The reference that a closed scope made for an identifier. -/
def resolve? (s : Store) (scope : Scope) (n : Node) : Except Error (Option ReferenceId) :=
  if !scope.isClosed then .error (Fault.resolveOpen.on n)
  else
    .ok (scope.references.find? fun r =>
      (s.referenceAt? r).any (fun ref => ref.identifier.same n))

/-! ### Conclusions -/

/-- Whether a reference is resolved to a variable of a scope that can bind nothing at run time. -/
def isStatic (s : Store) (ref : Reference) : Bool :=
  ((ref.resolved.bind s.variableAt?).bind (fun v => s.scopeAt? v.scope)).any (·.isStatic)

/-- Whether the arguments of a function can be observed; outside functions this is not known. -/
def observesArguments (s : Store) (scope : Scope) : Bool :=
  if scope.kind ≠ .function then true
  else if scope.block.isArrow then false
  else if !scope.isStatic then true
  else
    ((scope.table.find? (.text argumentsName)).bind s.variableAt?).any
      (fun v => !v.references.isEmpty)

/-- The name a table entry stands for, as it was first written. -/
def entryName (s : Store) (v : VariableId) : Tree := ((s.variableAt? v).map (·.name)).getD .null

/-- The variables of a scope in the order of their names, if the names have one. -/
def sortedVariables? (s : Store) (scope : Scope) : Option (List Variable) :=
  scope.table.sorted?.map fun t => t.entries.filterMap s.variableAt?

/-! ### Descriptions -/

/-- A scope in one line. -/
def describe? (s : Store) (scope : Scope) : Option String := do
  let vars ← s.sortedVariables? scope
  guard scope.block.isObj
  return "Scope(" ++ scope.kind.text ++ ", block=" ++ scope.block.type.text ++ ", variables="
    ++ (Tree.arr (vars.map (·.name))).display ++ ")"

end Store

/-- A variable in one line. -/
def Variable.describe (v : Variable) : String :=
  "Variable(" ++ v.name.display ++ ", defs=["
    ++ String.intercalate "," (v.defs.map (·.kind.text)) ++ "], refs="
    ++ toString v.references.length ++ ")"

end LexScope
