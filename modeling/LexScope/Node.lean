import LexScope.Tree.Display

/-!
# Node — a place in a program tree

The analysis has to tell two equal subtrees apart: two uses of `x` are two uses.  A `Node` is
therefore a value together with the way to it from the root, its *path*, and two nodes are the same
exactly when their paths are (`Node.same`).  What is `null` is no node at all, wherever it stands.

A node is *typed* when it is an object whose `type` is a string; only typed nodes are walked.  The
children of a node are its typed members and the typed items of its lists, in the order written,
metadata apart (`Node.children`).
-/

namespace LexScope

/-- One step down a tree. -/
inductive Step where
  | member (key : String)
  | item (index : Nat)
  deriving Repr, DecidableEq

/-- The way from the root of a tree to a place in it, outermost step first. -/
abbrev Path := List Step

/-- A step as it is shown in a path. -/
def Step.text : Step → String
  | .member key => key
  | .item i => toString i

/-- A path as it is shown: the root is `$`, and each step follows a slash. -/
def Path.text (p : Path) : String := p.foldl (fun s step => s ++ "/" ++ step.text) "$"

/-- A value and where it stands. -/
structure Node where
  path : Path
  value : Tree
  deriving Repr, DecidableEq, Inhabited

namespace Node

/-- The root of a tree. -/
def root (t : Tree) : Node := ⟨[], t⟩

/-- No node. -/
def absent : Node := ⟨[], .null⟩

/-! ### Reading -/

/-- The member of a node; a missing one is `null`. -/
def get (n : Node) (key : String) : Node := ⟨n.path ++ [.member key], n.value.get key⟩

/-- The items of a list, each where it stands. -/
def itemsFrom (p : Path) (i : Nat) : List Tree → List Node
  | [] => []
  | t :: ts => ⟨p ++ [.item i], t⟩ :: itemsFrom p (i + 1) ts

/-- The items of a node that is a list, none of any other. -/
def items (n : Node) : List Node :=
  match n.value with
  | .arr ts => itemsFrom n.path 0 ts
  | _ => []

/-- The nodes a member offers one after the other: nothing if it is not given, the items of a list,
the characters of a text, the names in an object.  Any other value offers no sequence. -/
def sequence? (n : Node) : Option (List Node) :=
  if !n.value.truthy then some []
  else
    match n.value with
    | .arr ts => some (itemsFrom n.path 0 ts)
    | .str s => some (itemsFrom n.path 0 (s.toList.map (fun c => .str c.toString)))
    | .obj members => some (itemsFrom n.path 0 (members.map (fun m => .str m.1)))
    | _ => none

/-- Whether there is nothing here. -/
def isNull (n : Node) : Bool := n.value = .null

/-- Whether a node is an object. -/
def isObj (n : Node) : Bool := n.value.isObj

/-- Whether a node counts as given. -/
def truthy (n : Node) : Bool := n.value.truthy

/-- The `type` of a node, whatever value it is. -/
def type (n : Node) : Tree := n.value.get "type"

/-- Whether a node has a given type. -/
def hasType (n : Node) (type : String) : Bool := n.type = .str type

/-- The type of a node that can be walked. -/
def typeName? (n : Node) : Option String :=
  match n.type with
  | .str s => some s
  | _ => none

/-- Whether a node can be walked. -/
def isTyped (n : Node) : Bool := n.typeName?.isSome

/-- Whether a node is the use or the binding of a name. -/
def isIdentifier (n : Node) : Bool := n.hasType "Identifier"

/-- How many lists and objects are nested in one another from here on. -/
def height (n : Node) : Nat := n.value.height

/-! ### Identity -/

/-- What identifies a node: its path, and nothing when there is no node. -/
def place (n : Node) : Option Path := if n.isNull then none else some n.path

/-- Whether two nodes are one. -/
def same (m n : Node) : Bool := m.place = n.place

/-! ### Children -/

/-- The members that describe a node and are not part of the program. -/
def metadata : List String :=
  ["type", "loc", "range", "comments", "leadingComments", "trailingComments", "innerComments",
    "tokens", "errors", "regex"]

/-- The nodes to walk at one member: itself, or the items of a list. -/
def typedAt (n : Node) : List Node :=
  match n.value with
  | .arr ts => (itemsFrom n.path 0 ts).filter isTyped
  | _ => if n.isTyped then [n] else []

/-- The children of a node, in the order written. -/
def children (n : Node) : List Node :=
  match n.value with
  | .obj members =>
      (members.filter (fun (key, _) => !metadata.contains key)).flatMap
        (fun (key, t) => typedAt ⟨n.path ++ [.member key], t⟩)
  | _ => []

end Node

/-! ### Source positions -/

/-- Where a node starts in the source.  Both parts are whatever the tree holds. -/
structure Position where
  line : Tree
  column : Tree
  deriving Repr, DecidableEq, Inhabited

namespace Position

/-- No position. -/
def unknown : Position := ⟨.null, .null⟩

/-- The position as it follows a message, empty unless both parts are known. -/
def suffix (p : Position) : String :=
  if p.line = .null ∨ p.column = .null then ""
  else " (line " ++ p.line.text ++ ", column " ++ p.column.text ++ ")"

end Position

/-- A member that should hold an object: absent counts as empty, anything else is no object. -/
def Tree.objectAt? (t : Tree) (key : String) : Option Tree :=
  let v := t.get key
  if !v.truthy then some (.obj []) else if v.isObj then some v else none

/-- Nothing can be read from what counts as nothing. -/
theorem Tree.get_of_falsy {t : Tree} (h : t.truthy = false) (key : String) : t.get key = .null := by
  cases t with
  | obj members =>
      cases members with
      | nil => rfl
      | cons m ms => cases h
  | _ => rfl

/-- What is read as an object holds what it holds itself. -/
theorem Tree.get_of_objectAt? {t u : Tree} {key : String} (h : t.objectAt? key = some u)
    (field : String) : u.get field = (t.get key).get field := by
  rw [objectAt?] at h
  split at h
  · rename_i hfalsy
    cases h
    rw [get_of_falsy (t := t.get key) (by simpa using hfalsy)]
    rfl
  · split at h
    · cases h
      rfl
    · cases h

/-- The position a value carries under `loc.start`; none if `loc` or `start` has the wrong form. -/
def Tree.position? (t : Tree) : Option Position := do
  let loc ← t.objectAt? "loc"
  let start ← loc.objectAt? "start"
  return ⟨start.get "line", start.get "column"⟩

namespace Node

/-- The position of a node; what is not given has none, what is given has to be an object. -/
def position? (n : Node) : Option Position :=
  if !n.truthy then some .unknown else if n.isObj then n.value.position? else none

/-- The position of a node as a message names it: what is no object has none. -/
def site? (n : Node) : Option Position :=
  if n.isObj && n.truthy then n.value.position? else some .unknown

end Node

end LexScope
