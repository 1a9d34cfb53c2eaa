import LexScope.Name
import LexScope.Log

/-!
# Scope.Store — scopes, variables and references, and where they are kept

Scopes, variables and references refer to one another in circles, so each is kept in a store under
a number and refers to others by theirs.  Numbers are given in the order of creation and never
change; the number of a reference says when it was made.

A scope collects the variables bound in it (`table`) and the references made in it.  Until it is
closed it also holds the references still to be settled (`pending`): its own and those handed up by
scopes below.  A closed scope has none, not even an empty list.

An `Action` is a step that may change the store and may fail; what was changed before a failure
stays changed.
-/

namespace LexScope

/-- The number of a scope. -/
abbrev ScopeId := Nat

/-- The number of a variable. -/
abbrev VariableId := Nat

/-- The number of a reference. -/
abbrev ReferenceId := Nat

/-! ### Definitions and variables -/

/-- The ways in which a name can be bound. -/
inductive DefinitionKind where
  | variable
  | parameter
  | functionName
  | className
  | catchClause
  | importBinding
  | deadZone
  deriving Repr, DecidableEq, Inhabited

/-- The word for a way of binding. -/
def DefinitionKind.text : DefinitionKind → String
  | .variable => "Variable"
  | .parameter => "Parameter"
  | .functionName => "FunctionName"
  | .className => "ClassName"
  | .catchClause => "CatchClause"
  | .importBinding => "ImportBinding"
  | .deadZone => "TDZ"

/-- The way of binding that a word names. -/
def DefinitionKind.ofTree : Tree → Except Error DefinitionKind
  | .str "Variable" => .ok .variable
  | .str "Parameter" => .ok .parameter
  | .str "FunctionName" => .ok .functionName
  | .str "ClassName" => .ok .className
  | .str "CatchClause" => .ok .catchClause
  | .str "ImportBinding" => .ok .importBinding
  | .str "TDZ" => .ok .deadZone
  | got => .error (.badKind got)

/-- One place where a name is bound. -/
structure Definition where
  kind : DefinitionKind
  /-- The identifier. -/
  name : Node
  /-- The construct that binds it. -/
  node : Node
  /-- The declaration around that construct. -/
  parent : Node := .absent
  /-- The position among the declarators or parameters. -/
  index : Tree := .null
  /-- The keyword of the declaration. -/
  declarationKind : Tree := .null
  deriving Repr, DecidableEq, Inhabited

/-- A name bound in a scope. -/
structure Variable where
  name : Tree
  scope : ScopeId
  defs : List Definition := []
  /-- The references resolved to this variable, in the order in which they were settled. -/
  references : List ReferenceId := []
  /-- Whether all of them stay within the variable scope of the binding. -/
  stack : Bool := true
  deriving Repr, DecidableEq, Inhabited

/-- The binding identifiers, one for each definition. -/
def Variable.identifiers (v : Variable) : List Node := v.defs.map (·.name)

/-- Whether a variable has a definition of a given kind. -/
def Variable.hasKind (v : Variable) (kind : DefinitionKind) : Bool :=
  v.defs.any (·.kind = kind)

/-! ### References -/

/-- Whether a name is read, written or both. -/
inductive Access where
  | read
  | write
  | readWrite
  deriving Repr, DecidableEq, Inhabited

/-- Whether an access reads. -/
def Access.reads : Access → Bool
  | .read | .readWrite => true
  | .write => false

/-- Whether an access writes. -/
def Access.writes : Access → Bool
  | .write | .readWrite => true
  | .read => false

/-- What a write would create if nothing binds its name: a global variable. -/
structure Candidate where
  /-- The identifier that would be its definition. -/
  pattern : Node
  /-- The statement or expression that writes. -/
  node : Node
  deriving Repr, DecidableEq, Inhabited

/-- One use of a name, before it is known what it refers to. -/
structure Use where
  identifier : Node
  access : Access := .read
  /-- The expression written. -/
  writeExpr : Node := .absent
  candidate : Option Candidate := none
  /-- Only a part of the value is written. -/
  isPartial : Tree := .bool false
  /-- The write initialises the variable. -/
  isInit : Tree := .bool false
  deriving Repr, DecidableEq, Inhabited

/-- The name used. -/
def Use.name (u : Use) : Tree := u.identifier.value.get "name"

/-- A use made in a scope, and the variable it was resolved to. -/
structure Reference extends Use where
  scope : ScopeId
  resolved : Option VariableId := none
  deriving Repr, DecidableEq, Inhabited

/-- The name of a reference. -/
def Reference.name (r : Reference) : Tree := r.toUse.name

/-! ### Scopes -/

/-- A region of the program with names of its own. -/
structure Scope where
  kind : ScopeKind
  /-- The node that introduces the scope. -/
  block : Node
  upper : Option ScopeId
  strict : Bool
  /-- The nearest scope that holds `var` declarations, this one included. -/
  variableScope : ScopeId
  /-- Whether names may be bound here at run time. -/
  dynamic : Bool
  table : Table VariableId := []
  /-- The references made in this scope, in order. -/
  references : List ReferenceId := []
  /-- The references that left this scope unresolved, in order. -/
  through : List ReferenceId := []
  children : List ScopeId := []
  /-- Whether a direct `eval` may declare variables here. -/
  callsEval : Bool := false
  usesThis : Bool := false
  /-- The variables made for writes to names that nothing binds; only a global scope has any. -/
  implicit : Table VariableId := []
  /-- The references that a global scope had left when it closed. -/
  implicitLeft : List ReferenceId := []
  /-- The references still to be settled, while the scope is open. -/
  pending : Option (List ReferenceId) := some []
  deriving Repr, DecidableEq, Inhabited

/-- Whether a scope is closed. -/
def Scope.isClosed (s : Scope) : Bool := s.pending.isNone

/-- Whether a scope can bind nothing at run time. -/
def Scope.isStatic (s : Scope) : Bool := !s.dynamic

/-! ### The store -/

/-- Everything known in the course of an analysis. -/
structure Store where
  options : Options
  scopes : Array Scope := #[]
  vars : Array Variable := #[]
  references : Array Reference := #[]
  /-- The last global scope opened. -/
  global : Option ScopeId := none
  /-- What has been recorded so far. -/
  log : Array LogRecord := #[]
  deriving Repr, DecidableEq, Inhabited

namespace Store

/-- A store in which nothing has happened. -/
def new (options : Options) : Store := { options }

/-- The scope with a given number. -/
def scopeAt? (s : Store) (i : ScopeId) : Option Scope := s.scopes[i]?

/-- The variable with a given number. -/
def variableAt? (s : Store) (v : VariableId) : Option Variable := s.vars[v]?

/-- The reference with a given number. -/
def referenceAt? (s : Store) (r : ReferenceId) : Option Reference := s.references[r]?

/-- Change one scope. -/
def updateScope (s : Store) (i : ScopeId) (f : Scope → Scope) : Store :=
  { s with scopes := s.scopes.modify i f }

/-- Change one variable. -/
def updateVariable (s : Store) (v : VariableId) (f : Variable → Variable) : Store :=
  { s with vars := s.vars.modify v f }

/-- Change one reference. -/
def updateReference (s : Store) (r : ReferenceId) (f : Reference → Reference) : Store :=
  { s with references := s.references.modify r f }

/-- Record something. -/
def record (s : Store) (entry : LogRecord) : Store := { s with log := s.log.push entry }

/-! ### The way up -/

/-- A scope and the scopes above it, at most `fuel` of them. -/
def chainFrom (s : Store) : Nat → Option ScopeId → List ScopeId
  | 0, _ => []
  | _, none => []
  | fuel + 1, some i => i :: chainFrom s fuel ((s.scopeAt? i).bind (·.upper))

/-- A scope and the scopes above it, innermost first.  A scope is made after the one above it and so
has the greater number, which bounds the length of the chain. -/
def chain (s : Store) (i : ScopeId) : List ScopeId := s.chainFrom (i + 1) (some i)

/-! ### What a change leaves alone -/

@[simp] theorem scopeAt?_updateScope (s : Store) (i j : ScopeId) (f : Scope → Scope) :
    (s.updateScope i f).scopeAt? j = if i = j then (s.scopeAt? j).map f else s.scopeAt? j := by
  simp [scopeAt?, updateScope, Array.getElem?_modify]

@[simp] theorem variableAt?_updateVariable (s : Store) (v w : VariableId)
    (f : Variable → Variable) :
    (s.updateVariable v f).variableAt? w
      = if v = w then (s.variableAt? w).map f else s.variableAt? w := by
  simp [variableAt?, updateVariable, Array.getElem?_modify]

@[simp] theorem referenceAt?_updateReference (s : Store) (r q : ReferenceId)
    (f : Reference → Reference) :
    (s.updateReference r f).referenceAt? q
      = if r = q then (s.referenceAt? q).map f else s.referenceAt? q := by
  simp [referenceAt?, updateReference, Array.getElem?_modify]

@[simp] theorem variableAt?_updateScope (s : Store) (i : ScopeId) (f : Scope → Scope)
    (v : VariableId) : (s.updateScope i f).variableAt? v = s.variableAt? v := rfl

@[simp] theorem referenceAt?_updateScope (s : Store) (i : ScopeId) (f : Scope → Scope)
    (r : ReferenceId) : (s.updateScope i f).referenceAt? r = s.referenceAt? r := rfl

@[simp] theorem scopeAt?_updateVariable (s : Store) (v : VariableId) (f : Variable → Variable)
    (i : ScopeId) : (s.updateVariable v f).scopeAt? i = s.scopeAt? i := rfl

@[simp] theorem referenceAt?_updateVariable (s : Store) (v : VariableId) (f : Variable → Variable)
    (r : ReferenceId) : (s.updateVariable v f).referenceAt? r = s.referenceAt? r := rfl

@[simp] theorem scopeAt?_updateReference (s : Store) (r : ReferenceId) (f : Reference → Reference)
    (i : ScopeId) : (s.updateReference r f).scopeAt? i = s.scopeAt? i := rfl

@[simp] theorem variableAt?_updateReference (s : Store) (r : ReferenceId)
    (f : Reference → Reference) (v : VariableId) :
    (s.updateReference r f).variableAt? v = s.variableAt? v := rfl

end Store

/-- A step that may change the store and may fail. -/
abbrev Action := ExceptT Error (StateM Store)

namespace Action

/-- Stop with the error of last resort. -/
def malformed {α : Type} : Action α := throw .malformed

/-- A value of a needed form. -/
def need {α : Type} : Option α → Action α
  | some a => pure a
  | none => malformed

/-- The scope with a given number. -/
def scopeAt (i : ScopeId) : Action Scope := do need ((← get).scopeAt? i)

/-- The reference with a given number. -/
def referenceAt (r : ReferenceId) : Action Reference := do need ((← get).referenceAt? r)

/-- Record something. -/
def record (entry : LogRecord) : Action Unit := modify (·.record entry)

end Action

end LexScope
