import LexScope.Options
import LexScope.Scope.Kind

/-!
# Scope.Strict — which scopes are strict

A scope is strict when everything is, when the scope around it is, when it belongs to a class or a
module, or when the statements of its program or function begin with a directive that says so.

The statements are read while they are directives (`Directive`); the first other statement ends the
prologue.  What makes a statement a directive depends on an option: either the field in which a
parser notes it, or its form, a string literal standing alone.
-/

namespace LexScope

/-- What a statement means for the prologue. -/
inductive Directive where
  /-- It asks for strict mode. -/
  | useStrict
  /-- It is a directive of another kind. -/
  | other
  /-- It is no directive, and the prologue ends. -/
  | none
  deriving Repr, DecidableEq

namespace Directive

/-- A directive that asks for strict mode or another one. -/
def ofBool (strict : Bool) : Directive := if strict then .useStrict else .other

/-- What the field noted by a parser says. -/
def ofField (statement : Node) : Directive :=
  let field := (statement.get "directive").value
  if field = .null then .none else ofBool (field = .str "use strict")

/-- What the form of an expression statement says.  The source text of the literal, if it is known,
counts before its value, because an escape in it matters. -/
def ofLiteral (expression : Tree) : Directive :=
  match expression.get "type", expression.get "value" with
  | .str "Literal", .str value =>
      let raw := expression.get "raw"
      if raw = .null then ofBool (value = "use strict")
      else ofBool (raw = .str "\"use strict\"" || raw = .str "'use strict'")
  | _, _ => .none

/-- What a statement means for the prologue, if it can be read. -/
def ofStatement? (byField : Bool) (statement : Node) : Option Directive :=
  if !statement.isObj then .none
  else if !statement.hasType "ExpressionStatement" then some .none
  else if byField then some (ofField statement)
  else (statement.value.objectAt? "expression").map ofLiteral

/-- Whether the prologue of a list of statements asks for strict mode. -/
def prologue? (byField : Bool) : List Node → Option Bool
  | [] => some false
  | statement :: rest =>
      match ofStatement? byField statement with
      | some .useStrict => some true
      | some .other => prologue? byField rest
      | some .none => some false
      | .none => .none

end Directive

/-- The statements whose prologue counts for a scope of a given kind. -/
def prologueOf? (kind : ScopeKind) (n : Node) : Option (List Node) :=
  match kind with
  | .global => (n.get "body").sequence?
  | .function =>
      let body := n.get "body"
      if body.truthy && !body.isObj then none
      else if !body.hasType "BlockStatement" then some []
      else (body.get "body").sequence?
  | _ => some []

/-- Whether a scope for a node is strict, given whether the scope around it is. -/
def isStrict? (o : Options) (kind : ScopeKind) (n : Node) (upperStrict : Bool) : Option Bool :=
  if o.impliedStrict.truthy || upperStrict then some true
  else if kind = .classBody || kind = .moduleTop then some true
  else (prologueOf? kind n).bind (Directive.prologue? o.directive.truthy)

end LexScope
