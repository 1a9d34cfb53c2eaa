import LexScope.Node

/-!
# Pattern — which identifiers a pattern binds

The target of a declaration or an assignment may be a single name or a pattern of any depth.  Read
from left to right, a pattern is a list of *items* (`Pattern.items`): the identifiers it binds, and
the expressions embedded in it (default values, computed keys, member expressions as targets), which
bind nothing and are evaluated like any other expression.

A pattern is *whole* when it is a bare identifier; only then does it bind the entire value.
-/

namespace LexScope.Pattern

/-- What is met in a pattern. -/
inductive Item where
  /-- An identifier that is bound (or whatever stands in its place). -/
  | bound (n : Node)
  /-- An expression to be evaluated. -/
  | embedded (n : Node)
  /-- A part that cannot be read; nothing after it is met. -/
  | broken
  deriving Repr, DecidableEq

/-- The types of nodes that are patterns. -/
def types : List String :=
  ["Identifier", "ObjectPattern", "ArrayPattern", "AssignmentPattern", "SpreadElement",
    "RestElement"]

/-- Whether a node is a pattern.  A type that is a list or an object leaves that open. -/
def isPattern? (n : Node) : Option Bool :=
  if !n.isObj then some false
  else if !n.type.isScalar then none
  else some (n.typeName?.any types.contains)

/-- Whether a pattern is a bare identifier. -/
def isWhole (n : Node) : Bool := n.isIdentifier

/-! ### Items -/

/-- The items of the parts that a member offers. -/
def parts (n : Node) (each : Node → List Item) : List Item :=
  match n.sequence? with
  | some ns => ns.flatMap each
  | none => [.broken]

/-- The target of a property.  A shorthand binds its key, unless it has a default. -/
def target (walk : Node → List Item) (p : Node) : List Item :=
  let value := p.get "value"
  if (p.get "shorthand").truthy then
    if value.truthy && !value.isObj then [.broken]
    else if value.hasType "AssignmentPattern" then walk value
    else [.bound (p.get "key")]
  else walk value

/-- The items of one member of an object pattern: first a computed key, then the target. -/
def property (walk : Node → List Item) (p : Node) : List Item :=
  if !p.isObj then [.broken]
  else if !p.hasType "Property" then walk p
  else
    let key := if (p.get "computed").truthy then [.embedded (p.get "key")] else []
    key ++ target walk p

/-- The items of a node, given those of the nodes below it. -/
def step (walk : Node → List Item) (n : Node) : List Item :=
  if !n.isObj then []
  else
    match n.typeName? with
    | some "Identifier" => [.bound n]
    | some "ObjectPattern" => parts (n.get "properties") (property walk)
    | some "ArrayPattern" => parts (n.get "elements") walk
    | some "RestElement" | some "SpreadElement" => walk (n.get "argument")
    | some "AssignmentPattern" =>
        let right := n.get "right"
        walk (n.get "left") ++ (if right.isNull then [] else [.embedded right])
    | _ => [.embedded n]

/-- The items down to a given depth. -/
def itemsAt : Nat → Node → List Item
  | 0, _ => []
  | depth + 1, n => step (itemsAt depth) n

/-- All items of a pattern, in the order in which they are met. -/
def items (n : Node) : List Item := itemsAt n.height n

/-! ### Views -/

/-- The identifier an item binds. -/
def Item.bound? : Item → Option Node
  | .bound n => some n
  | _ => none

/-- The expression an item embeds. -/
def Item.embedded? : Item → Option Node
  | .embedded n => some n
  | _ => none

/-- The identifiers a pattern binds. -/
def bound (n : Node) : List Node := (items n).filterMap Item.bound?

/-- The expressions embedded in a pattern. -/
def embedded (n : Node) : List Node := (items n).filterMap Item.embedded?

/-- Whether some part of a pattern cannot be read. -/
def isBroken (n : Node) : Bool := (items n).contains .broken

end LexScope.Pattern
