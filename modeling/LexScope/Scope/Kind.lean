import LexScope.Node

/-!
# Scope.Kind — the kinds of scopes, and which one a node introduces

Most scopes stand for a construct of the program, and the type of the construct's node decides
their kind (`ScopeKind.ofNode?`).  Three kinds are never found that way.  A module scope lies under
the global scope of a module.  The other two are *synthetic*: one binds the name of a function
expression around the function, the other makes the names of a loop head unusable while the
expression that is iterated over is evaluated.
-/

namespace LexScope

/-- The kinds of scopes. -/
inductive ScopeKind where
  | global
  | moduleTop
  | function
  | block
  | switch
  | catchClause
  | withObject
  | classBody
  | deadZone
  | functionName
  deriving Repr, DecidableEq, Inhabited

namespace ScopeKind

/-- The word for a kind. -/
def text : ScopeKind → String
  | .global => "global"
  | .moduleTop => "module"
  | .function => "function"
  | .block => "block"
  | .switch => "switch"
  | .catchClause => "catch"
  | .withObject => "with"
  | .classBody => "class"
  | .deadZone => "TDZ"
  | .functionName => "function-expression-name"

/-- Whether `var` declarations below a scope of this kind end up in it. -/
def holdsVars : ScopeKind → Bool
  | .global | .moduleTop | .function => true
  | _ => false

/-- Whether a scope of this kind has no construct of its own. -/
def isSynthetic : ScopeKind → Bool
  | .deadZone | .functionName => true
  | _ => false

/-- Whether names below a scope of this kind may be bound at run time from the start. -/
def startsDynamic : ScopeKind → Bool
  | .global | .withObject => true
  | _ => false

/-- The kind of scope that a node of a given type introduces: a function's, unless the type says
otherwise. -/
def ofType : Tree → ScopeKind
  | .str "Program" => .global
  | .str "CatchClause" => .catchClause
  | .str "WithStatement" => .withObject
  | .str "ClassDeclaration" | .str "ClassExpression" => .classBody
  | .str "SwitchStatement" => .switch
  | .str "BlockStatement" | .str "ForStatement" | .str "ForInStatement"
  | .str "ForOfStatement" => .block
  | _ => .function

/-- The kind of scope that a node introduces.  The node has to be an object, and its type no list
and no object. -/
def ofNode? (n : Node) : Option ScopeKind :=
  if n.isObj && n.type.isScalar then some (ofType n.type) else none

end ScopeKind

/-- Whether a node is an arrow function. -/
def Node.isArrow (n : Node) : Bool := n.hasType "ArrowFunctionExpression"

end LexScope
