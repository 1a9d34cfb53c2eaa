import LexScope.Proofs.Unfold

/-!
# Proofs — Grammar — the programs of the sixth edition

What stands at a place in a program is a *phrase*: a node of certain types that is walked by the
rule of its type, a word that only names something, a pattern, a declarator, and so on (`Phrase`).
The grammar says, for every phrase and node, at which members the phrases below it stand (`slots?`);
a word, and an identifier in a pattern, is there in some *role*, and only one role is that of a use.

A program is put together from its *parts* (`parts`), the nodes that stand somewhere in it, each
with the phrase it is and the way down to it.  A tree *conforms* to the grammar if every part has
the form that the grammar gives its phrase (`Part.isFormed`) and nothing else that could be walked.

* `children_perm`: what could be walked below a part are the parts below it.
* `Conforms.covers`: in a conforming tree every node that could be walked is a part.
* `parts_unique`: no two parts stand at one place.
-/

namespace LexScope.Grammar

/-! ### Phrases -/

/-- What an identifier is there for. -/
inductive Role where
  /-- A name is read or written. -/
  | use
  /-- The name of a function. -/
  | functionName
  /-- The name of a class. -/
  | className
  /-- A name that a parameter binds. -/
  | parameter
  /-- A name that the parameter of a `catch` binds. -/
  | caught
  /-- The local name of an import. -/
  | importBinding
  /-- A name is declared and not written: no initializer, and not the head of an iteration. -/
  | declared
  /-- A name in the head of an iteration that has an initializer: it is written by that, and again by
  the iteration. -/
  | rewritten
  /-- A key of a property or method that is not computed. -/
  | key
  /-- The value of a shorthand in a pattern, which only repeats the key. -/
  | copy
  /-- The property of a member access that is not computed. -/
  | memberName
  | label
  /-- A part of a meta property. -/
  | metaPart
  /-- The name that an import has in its module. -/
  | importedName
  /-- The name under which something is exported. -/
  | exportedName
  /-- Something of another module: what stands in an export with a source, and any source. -/
  | foreign
  deriving Repr, DecidableEq

/-- How often an identifier in a role is used. -/
def Role.uses : Role → Nat
  | .use => 1
  | .rewritten => 2
  | _ => 0

/-- What can stand at a place in a program. -/
inductive Phrase where
  /-- A node of one of these types, walked by the rule of its type. -/
  | walked (types : List String)
  /-- A word of one of these types that is not walked. -/
  | word (ρ : Role) (types : List String)
  /-- The target of a declaration, of an assignment or of a parameter. -/
  | pattern (ρ : Role)
  /-- A member of an object pattern. -/
  | patternMember (ρ : Role)
  | declarator
  /-- The declaration in the head of an iteration. -/
  | head
  | headDeclarator
  /-- The function of a method. -/
  | method
  /-- The block that is the body of a function. -/
  | body
  | importSpecifier
  /-- A specifier of an export that has a source. -/
  | foreignSpecifier
  deriving Repr, DecidableEq

/-- How many phrases stand at a member. -/
inductive Arity where
  | one
  | optional
  | many
  /-- Any number, with gaps. -/
  | sparse
  deriving Repr, DecidableEq

/-- A member of a node at which phrases stand. -/
structure Slot where
  key : String
  arity : Arity
  phrase : Phrase
  deriving Repr, DecidableEq

namespace Slot

/-- The nodes that stand at a member. -/
def nodes (s : Slot) (n : Node) : List Node :=
  match s.arity with
  | .one => [n.get s.key]
  | .optional => if (n.get s.key).isNull then [] else [n.get s.key]
  | .many => (n.get s.key).items
  | .sparse => (n.get s.key).items.filter (!·.isNull)

/-- Whether a member is a list where it should be one. -/
def fits (s : Slot) (n : Node) : Bool :=
  match s.arity with
  | .one | .optional => true
  | .many | .sparse =>
      match (n.get s.key).value with
      | .arr _ => true
      | _ => false

end Slot

/-! ### Types -/

/-- The types of expressions. -/
def expressions : List String :=
  ["Identifier", "Literal", "ThisExpression", "ArrayExpression", "ObjectExpression",
    "FunctionExpression", "ArrowFunctionExpression", "ClassExpression", "UnaryExpression",
    "UpdateExpression", "BinaryExpression", "LogicalExpression", "AssignmentExpression",
    "ConditionalExpression", "CallExpression", "NewExpression", "MemberExpression",
    "SequenceExpression", "YieldExpression", "TemplateLiteral", "TaggedTemplateExpression",
    "MetaProperty"]

/-- The types of declarations. -/
def declarations : List String := ["FunctionDeclaration", "ClassDeclaration", "VariableDeclaration"]

/-- The types of statements, declarations among them. -/
def statements : List String :=
  declarations ++
    ["ExpressionStatement", "BlockStatement", "EmptyStatement", "DebuggerStatement",
      "WithStatement", "ReturnStatement", "LabeledStatement", "BreakStatement",
      "ContinueStatement", "IfStatement", "SwitchStatement", "ThrowStatement", "TryStatement",
      "WhileStatement", "DoWhileStatement", "ForStatement", "ForInStatement", "ForOfStatement"]

/-- The types of what only a module may hold. -/
def moduleItems : List String :=
  ["ImportDeclaration", "ExportNamedDeclaration", "ExportDefaultDeclaration",
    "ExportAllDeclaration"]

namespace Phrase

/-- An expression. -/
def expression : Phrase := .walked expressions

/-- An expression, or several at once. -/
def element : Phrase := .walked ("SpreadElement" :: expressions)

/-- What is called, or whose member is taken. -/
def callee : Phrase := .walked ("Super" :: expressions)

/-- A statement. -/
def statement : Phrase := .walked statements

/-- A block. -/
def block : Phrase := .walked ["BlockStatement"]

/-- A name in a given role. -/
def name (ρ : Role) : Phrase := .word ρ ["Identifier"]

/-- A key that is no expression. -/
def plainKey : Phrase := .word .key ["Identifier", "Literal"]

/-- The name of another module. -/
def source : Phrase := .word .foreign ["Literal"]

/-- What an identifier is that stands as a phrase. -/
def role : Phrase → Role
  | .word ρ _ | .pattern ρ | .patternMember ρ => ρ
  | _ => .use

/-- The types of nodes a phrase can be. -/
def types : Phrase → List String
  | .walked types | .word _ types => types
  | .pattern _ =>
      ["Identifier", "MemberExpression", "ObjectPattern", "ArrayPattern", "RestElement",
        "AssignmentPattern"]
  | .patternMember _ => ["Property"]
  | .declarator | .headDeclarator => ["VariableDeclarator"]
  | .head => ["VariableDeclaration"]
  | .method => ["FunctionExpression"]
  | .body => ["BlockStatement"]
  | .importSpecifier => ["ImportSpecifier", "ImportDefaultSpecifier", "ImportNamespaceSpecifier"]
  | .foreignSpecifier => ["ExportSpecifier"]

end Phrase

/-! ### The grammar -/

open Phrase

/-- The slots of the nodes whose children are just walked, for each type. -/
def plainSlots : List (String × List Slot) :=
  [("ExpressionStatement", [⟨"expression", .one, expression⟩]),
    ("EmptyStatement", []),
    ("DebuggerStatement", []),
    ("ReturnStatement", [⟨"argument", .optional, expression⟩]),
    ("IfStatement", [⟨"test", .one, expression⟩, ⟨"consequent", .one, statement⟩,
      ⟨"alternate", .optional, statement⟩]),
    ("SwitchCase", [⟨"test", .optional, expression⟩, ⟨"consequent", .many, statement⟩]),
    ("ThrowStatement", [⟨"argument", .one, expression⟩]),
    ("TryStatement", [⟨"block", .one, block⟩, ⟨"handler", .optional, .walked ["CatchClause"]⟩,
      ⟨"finalizer", .optional, block⟩]),
    ("WhileStatement", [⟨"test", .one, expression⟩, ⟨"body", .one, statement⟩]),
    ("DoWhileStatement", [⟨"body", .one, statement⟩, ⟨"test", .one, expression⟩]),
    ("Literal", []),
    ("Super", []),
    ("ArrayExpression", [⟨"elements", .sparse, element⟩]),
    ("ObjectExpression", [⟨"properties", .many, .walked ["Property"]⟩]),
    ("UnaryExpression", [⟨"argument", .one, expression⟩]),
    ("BinaryExpression", [⟨"left", .one, expression⟩, ⟨"right", .one, expression⟩]),
    ("LogicalExpression", [⟨"left", .one, expression⟩, ⟨"right", .one, expression⟩]),
    ("ConditionalExpression", [⟨"test", .one, expression⟩, ⟨"consequent", .one, expression⟩,
      ⟨"alternate", .one, expression⟩]),
    ("NewExpression", [⟨"callee", .one, expression⟩, ⟨"arguments", .many, element⟩]),
    ("SequenceExpression", [⟨"expressions", .many, expression⟩]),
    ("YieldExpression", [⟨"argument", .optional, expression⟩]),
    ("TemplateLiteral", [⟨"quasis", .many, .walked ["TemplateElement"]⟩,
      ⟨"expressions", .many, expression⟩]),
    ("TemplateElement", []),
    ("TaggedTemplateExpression", [⟨"tag", .one, callee⟩,
      ⟨"quasi", .one, .walked ["TemplateLiteral"]⟩]),
    ("SpreadElement", [⟨"argument", .one, expression⟩]),
    ("ClassBody", [⟨"body", .many, .walked ["MethodDefinition"]⟩])]

/-- Whether a member is computed. -/
def isComputed (n : Node) : Bool := (n.get "computed").truthy

/-- The key of a property, computed or not. -/
def keySlot (n : Node) : Slot := ⟨"key", .one, if isComputed n then expression else plainKey⟩

/-- The slots of a member access. -/
def accessSlots (n : Node) : List Slot :=
  [⟨"object", .one, callee⟩,
    ⟨"property", .one, if isComputed n then expression else .name .memberName⟩]

/-- The slots of an export of names. -/
def exportSlots (n : Node) : List Slot :=
  if (n.get "source").truthy then
    [⟨"specifiers", .many, .foreignSpecifier⟩, ⟨"source", .one, source⟩]
  else if (n.get "declaration").truthy then [⟨"declaration", .one, .walked declarations⟩]
  else [⟨"specifiers", .many, .walked ["ExportSpecifier"]⟩]

/-- The slots of a node that is walked, by its type and its family. -/
def walkedSlots? (n : Node) (type : String) : Walk.Family → Option (List Slot)
  | .program => some [⟨"body", .many, .walked (statements ++ moduleItems)⟩]
  | .block => some [⟨"body", .many, statement⟩]
  | .switch => some [⟨"discriminant", .one, expression⟩, ⟨"cases", .many, .walked ["SwitchCase"]⟩]
  | .withObject => some [⟨"object", .one, expression⟩, ⟨"body", .one, statement⟩]
  | .catchClause => some [⟨"param", .one, .pattern .caught⟩, ⟨"body", .one, block⟩]
  | .function => some
      [⟨"id", .optional, .name .functionName⟩, ⟨"params", .many, .pattern .parameter⟩,
        ⟨"body", .one,
          if n.isArrow && !(n.get "body").hasType "BlockStatement" then expression else .body⟩]
  | .classDefinition => some
      [⟨"id", .optional, .name .className⟩, ⟨"superClass", .optional, expression⟩,
        ⟨"body", .one, .walked ["ClassBody"]⟩]
  | .property => some
      [keySlot n, ⟨"value", .one,
        if n.hasType "MethodDefinition" || (n.get "method").truthy then .method else expression⟩]
  | .declaration => some [⟨"declarations", .many, .declarator⟩]
  | .assignment => some
      [⟨"left", .one, if (n.get "operator").value = .str "=" then .pattern .use
          else .walked ["Identifier", "MemberExpression"]⟩,
        ⟨"right", .one, expression⟩]
  | .update => some [⟨"argument", .one, expression⟩]
  | .identifier => some []
  | .access => some (accessSlots n)
  | .call => some [⟨"callee", .one, callee⟩, ⟨"arguments", .many, element⟩]
  | .this => some []
  | .label => some [⟨"label", .one, .name .label⟩, ⟨"body", .one, statement⟩]
  | .inert => some
      (if type = "MetaProperty" then
        [⟨"meta", .one, .name .metaPart⟩, ⟨"property", .one, .name .metaPart⟩]
      else [⟨"label", .optional, .name .label⟩])
  | .loop => some
      [⟨"init", .optional, .walked ("VariableDeclaration" :: expressions)⟩,
        ⟨"test", .optional, expression⟩, ⟨"update", .optional, expression⟩,
        ⟨"body", .one, statement⟩]
  | .iteration => some
      [⟨"left", .one, if (n.get "left").hasType "VariableDeclaration" then .head
          else .pattern .use⟩,
        ⟨"right", .one, expression⟩, ⟨"body", .one, statement⟩]
  | .importing => some [⟨"specifiers", .many, .importSpecifier⟩, ⟨"source", .one, source⟩]
  | .exportNamed => some (exportSlots n)
  | .exportDefault => some
      [⟨"declaration", .one,
        .walked ("FunctionDeclaration" :: "ClassDeclaration" :: expressions)⟩]
  | .exportAll => some [⟨"source", .one, source⟩]
  | .exportSpecifier => some
      [⟨"local", .one, .walked ["Identifier"]⟩, ⟨"exported", .one, .name .exportedName⟩]
  | .plain => plainSlots.lookup type
  | .declarator | .lexicalIteration => none

/-- The slots of a pattern. -/
def patternSlots? (ρ : Role) (n : Node) : String → Option (List Slot)
  | "Identifier" => some []
  | "MemberExpression" => some (accessSlots n)
  | "ObjectPattern" => some [⟨"properties", .many, .patternMember ρ⟩]
  | "ArrayPattern" => some [⟨"elements", .sparse, .pattern ρ⟩]
  | "RestElement" => some [⟨"argument", .one, .pattern ρ⟩]
  | "AssignmentPattern" => some [⟨"left", .one, .pattern ρ⟩, ⟨"right", .one, expression⟩]
  | _ => none

/-- The slots of a member of an object pattern.  A shorthand binds its key, unless it has a default,
and is never computed. -/
def patternMemberSlots? (ρ : Role) (n : Node) : Option (List Slot) :=
  if (n.get "shorthand").truthy then
    if isComputed n then none
    else if (n.get "value").hasType "AssignmentPattern" then
      some [⟨"key", .one, .name .key⟩, ⟨"value", .one, .pattern ρ⟩]
    else some [⟨"key", .one, .name ρ⟩, ⟨"value", .one, .name .copy⟩]
  else some [keySlot n, ⟨"value", .one, .pattern ρ⟩]

/-- What the names of a declarator are there for.  Without an initializer they are not written,
unless by an iteration in the head of which they stand. -/
def declaratorRole (n : Node) (inHead : Bool) : Role :=
  if (n.get "init").isNull then if inHead then .use else .declared
  else if inHead then .rewritten else .use

/-- The slots of a declarator. -/
def declaratorSlots (n : Node) (inHead : Bool) : List Slot :=
  [⟨"id", .one, .pattern (declaratorRole n inHead)⟩, ⟨"init", .optional, expression⟩]

/-- Whether a declaration can be the head of an iteration: it has one declarator, which has an
initializer only where names are declared by `var`. -/
def isHead (n : Node) : Bool :=
  (n.get "declarations").items.length = 1 &&
    (decide ((n.get "kind").value = .str "var") ||
      (n.get "declarations").items.all fun d => (d.get "init").isNull)

/-- **The grammar**: the members at which phrases stand below a phrase, if a node of this type can
be one. -/
def typeSlots? (n : Node) (type : String) : Phrase → Option (List Slot)
  | .walked _ | .method | .body => walkedSlots? n type (.ofType type)
  | .word _ _ => some []
  | .pattern ρ => patternSlots? ρ n type
  | .patternMember ρ => patternMemberSlots? ρ n
  | .declarator => some (declaratorSlots n false)
  | .headDeclarator => some (declaratorSlots n true)
  | .head => if isHead n then some [⟨"declarations", .many, .headDeclarator⟩] else none
  | .importSpecifier => some
      (if type = "ImportSpecifier" then
        [⟨"imported", .one, .name .importedName⟩, ⟨"local", .one, .name .importBinding⟩]
      else [⟨"local", .one, .name .importBinding⟩])
  | .foreignSpecifier => some
      [⟨"local", .one, .name .foreign⟩, ⟨"exported", .one, .name .foreign⟩]

/-- Names that the walk takes for types and the language does not have. -/
def familyNames : List String :=
  ["function", "class", "property", "declarator", "for_in", "lexical_for_in"]

/-- The members at which phrases stand below a phrase, if the node is one. -/
def slots? (φ : Phrase) (n : Node) : Option (List Slot) :=
  (n.typeName?.filter fun type => φ.types.contains type && !familyNames.contains type).bind
    fun type => typeSlots? n type φ

/-! ### Parts -/

/-- A phrase that a way down a tree goes through, its node, and the member it goes on at. -/
structure Station where
  phrase : Phrase
  node : Node
  key : String
  deriving Repr, DecidableEq

/-- What stands somewhere in a tree: the way down to it, innermost station first, the phrase that it
is, and its node. -/
structure Part where
  above : List Station
  phrase : Phrase
  node : Node
  deriving Repr, DecidableEq

namespace Part

/-- The slots of a part; what is no phrase has none. -/
def slots (p : Part) : List Slot := (slots? p.phrase p.node).getD []

/-- What stands at a slot of a part. -/
def standing (p : Part) (s : Slot) : List Part :=
  (s.nodes p.node).map fun m => ⟨⟨p.phrase, p.node, s.key⟩ :: p.above, s.phrase, m⟩

/-- What stands directly below a part. -/
def below (p : Part) : List Part := p.slots.flatMap p.standing

/-- The parts down to a given depth. -/
def partsAt : Nat → Part → List Part
  | 0, _ => []
  | depth + 1, p => p :: p.below.flatMap (partsAt depth)

/-- A part and all parts below it. -/
def parts (p : Part) : List Part := partsAt (p.node.height + 1) p

/-- The names of the members of a node. -/
def keys (p : Part) : List String :=
  match p.node.value with
  | .obj members => members.map (·.1)
  | _ => []

/-- Whether a part has the form of its phrase: every member that could be walked is a slot, and is a
list if it should be one. -/
def isFormed (p : Part) : Bool :=
  match slots? p.phrase p.node with
  | none => false
  | some slots =>
      decide p.keys.Nodup && slots.all (·.fits p.node) && p.keys.all fun key =>
        Node.metadata.contains key || slots.any (·.key = key) || (p.node.get key).typedAt.isEmpty

/-- Whether a part and all parts below it have the form of their phrases. -/
def Conforms (p : Part) : Prop := ∀ q ∈ p.parts, q.isFormed = true

end Part

/-- A tree as a program. -/
def program (tree : Tree) : Part := ⟨[], .walked ["Program"], .root tree⟩

/-- Whether a tree is a program of the grammar. -/
def Conforms (tree : Tree) : Prop := (program tree).Conforms

instance (tree : Tree) : Decidable (Conforms tree) :=
  inferInstanceAs (Decidable (∀ q ∈ (program tree).parts, q.isFormed = true))

/-! ### What the grammar keeps to -/

/-- Whether only a module may hold what can stand here. -/
def Phrase.admitsModuleItems : Phrase → Bool
  | .walked types => types.any moduleItems.contains
  | _ => false

/-- Whether a phrase can only be a name or a literal, if it is a word, and no whole program. -/
def Phrase.isPlain : Phrase → Bool
  | .word _ types => types.all ["Identifier", "Literal"].contains
  | .walked types => !types.contains "Program"
  | _ => true

/-- Slots that have different names, none of them that of metadata; words are names and literals,
programs stand nowhere, and what only a module may hold stands in nothing but a program. -/
def Sound (isProgram : Bool) (slots : List Slot) : Prop :=
  (slots.map (·.key)).Nodup ∧ ∀ s ∈ slots, s.key ∉ Node.metadata ∧
    s.phrase.isPlain = true ∧ (isProgram = false → s.phrase.admitsModuleItems = false)

instance (isProgram : Bool) (slots : List Slot) : Decidable (Sound isProgram slots) :=
  inferInstanceAs (Decidable (_ ∧ _))

variable {n : Node} {type : String} {slots : List Slot} {φ : Phrase} {ρ : Role}

theorem hasType_iff : n.hasType type = true ↔ n.typeName? = some type := by
  rw [Node.hasType, decide_eq_true_iff, Node.typeName?]
  constructor
  · intro h
    rw [h]
  · intro h
    split at h
    · rename_i s hs
      rw [hs, Option.some.inj h]
    · cases h

theorem slots?_eq_some : slots? φ n = some slots ↔ ∃ type, n.typeName? = some type ∧
    type ∈ φ.types ∧ type ∉ familyNames ∧ typeSlots? n type φ = some slots := by
  simp [slots?, Option.bind_eq_some_iff, Option.filter_eq_some_iff, and_assoc]

theorem isObj_of_slots? (h : slots? φ n = some slots) : n.isObj = true := by
  obtain ⟨type, ht, -⟩ := slots?_eq_some.1 h
  exact Walk.isObj_of_typeName? ht

theorem sound_accessSlots : Sound false (accessSlots n) := by
  unfold accessSlots
  split <;> decide

theorem sound_exportSlots : Sound false (exportSlots n) := by
  unfold exportSlots
  split
  · decide
  · split <;> decide

theorem sound_plainSlots : ∀ e ∈ plainSlots, Sound false e.2 := by decide +kernel

theorem sound_walkedSlots {family : Walk.Family} (h : walkedSlots? n type family = some slots) :
    Sound (family = .program) slots := by
  cases family with
  | plain =>
      obtain ⟨l₁, l₂, hl, -⟩ := List.lookup_eq_some_iff.1 h
      exact sound_plainSlots (type, slots) (hl ▸ by simp)
  | access => cases h; exact sound_accessSlots
  | exportNamed => cases h; exact sound_exportSlots
  | function => cases h; split <;> decide
  | property =>
      cases h
      unfold keySlot
      cases isComputed n <;> cases (n.hasType "MethodDefinition" || (n.get "method").truthy) <;>
        decide
  | inert =>
      cases h
      split <;> decide
  | assignment => cases h; split <;> decide
  | iteration => cases h; split <;> decide
  | declarator => cases h
  | lexicalIteration => cases h
  | _ => cases h; decide

theorem sound_patternSlots (h : patternSlots? ρ n type = some slots) : Sound false slots := by
  unfold patternSlots? at h
  split at h <;> cases h
  · exact ⟨List.nodup_nil, nofun⟩
  · exact sound_accessSlots
  all_goals simp [Sound, admitsModuleItems, isPlain, expression, expressions, moduleItems,
    Node.metadata]

theorem sound_patternMemberSlots (h : patternMemberSlots? ρ n = some slots) :
    Sound false slots := by
  unfold patternMemberSlots? keySlot at h
  split_ifs at h <;> cases h <;>
    simp [Sound, admitsModuleItems, isPlain, name, plainKey, expression, expressions,
      moduleItems, Node.metadata]

theorem sound_declaratorSlots {inHead : Bool} : Sound false (declaratorSlots n inHead) := by
  simp [Sound, declaratorSlots, admitsModuleItems, isPlain, expression, expressions,
    moduleItems, Node.metadata]

theorem Sound.mono {a b : Bool} (h : Sound a slots) (hab : a = true → b = true) :
    Sound b slots := by
  refine ⟨h.1, fun s hs => ⟨(h.2 s hs).1, (h.2 s hs).2.1, fun hb => (h.2 s hs).2.2 ?_⟩⟩
  cases a with
  | false => rfl
  | true => rw [hab rfl] at hb; cases hb

theorem ofType_eq_program (h : Walk.Family.ofType type = .program) : type = "Program" := by
  unfold Walk.Family.ofType at h
  split at h <;> first | rfl | cases h

/-- The grammar never has two slots at one member, or one at metadata; words are names and literals,
programs stand nowhere, and what only a module may hold stands directly in a program. -/
theorem sound_slots (h : slots? φ n = some slots) : Sound (n.hasType "Program") slots := by
  obtain ⟨type, ht, -, -, hs⟩ := slots?_eq_some.1 h
  have hwalked : walkedSlots? n type (.ofType type) = some slots →
      Sound (n.hasType "Program") slots := fun hw =>
    (sound_walkedSlots hw).mono fun hp => by
      rw [hasType_iff, ht, ofType_eq_program (of_decide_eq_true hp)]
  cases φ with
  | walked types => exact hwalked hs
  | method => exact hwalked hs
  | body => exact hwalked hs
  | word ρ types => cases hs; exact ⟨List.nodup_nil, nofun⟩
  | pattern ρ => exact (sound_patternSlots hs).mono nofun
  | patternMember ρ => exact (sound_patternMemberSlots hs).mono nofun
  | declarator => cases hs; exact sound_declaratorSlots.mono nofun
  | headDeclarator => cases hs; exact sound_declaratorSlots.mono nofun
  | head =>
      rw [typeSlots?] at hs
      split at hs <;> cases hs
      exact Sound.mono (a := false) (by decide) nofun
  | importSpecifier =>
      rw [typeSlots?] at hs
      split at hs <;> cases hs <;> exact Sound.mono (a := false) (by decide) nofun
  | foreignSpecifier => cases hs; exact Sound.mono (a := false) (by decide) nofun

/-! ### Parts are lower than what they stand in -/

namespace Slot

variable {s : Slot} {m : Node}

/-- What stands at a member is what is there, or an item of it. -/
theorem mem_nodes (h : m ∈ s.nodes n) : m = n.get s.key ∨ m ∈ (n.get s.key).items := by
  rw [nodes] at h
  split at h
  · exact .inl (List.mem_singleton.1 h)
  · split at h
    · cases h
    · exact .inl (List.mem_singleton.1 h)
  · exact .inr h
  · exact .inr (List.mem_filter.1 h).1

theorem height_lt (hn : n.isObj = true) (h : m ∈ s.nodes n) : m.height < n.height := by
  obtain ⟨k, hk⟩ := Nat.exists_eq_succ_of_ne_zero (Node.height_pos hn).ne'
  have hget := Node.height_get hk.le s.key
  rw [hk, Nat.lt_succ_iff]
  rcases mem_nodes h with rfl | h
  · exact hget
  · exact Node.height_of_mem_items (Nat.le_succ_of_le hget) h

end Slot

namespace Part

variable {p q r : Part} {s : Slot}

theorem mem_standing : q ∈ p.standing s ↔
    q.node ∈ s.nodes p.node ∧ q.above = ⟨p.phrase, p.node, s.key⟩ :: p.above ∧
      q.phrase = s.phrase := by
  rw [standing, List.mem_map]
  constructor
  · rintro ⟨m, hm, rfl⟩
    exact ⟨hm, rfl, rfl⟩
  · rintro ⟨hm, ha, hφ⟩
    exact ⟨q.node, hm, by rw [← ha, ← hφ]⟩

theorem mem_below : q ∈ p.below ↔ ∃ s ∈ p.slots, q ∈ p.standing s := List.mem_flatMap

theorem isObj_of_slot (h : s ∈ p.slots) : p.node.isObj = true := by
  rw [slots] at h
  cases hs : slots? p.phrase p.node with
  | none => rw [hs] at h; cases h
  | some slots => exact isObj_of_slots? hs

theorem height_lt (h : q ∈ p.below) : q.node.height < p.node.height := by
  obtain ⟨s, hs, hq⟩ := mem_below.1 h
  exact Slot.height_lt (isObj_of_slot hs) (mem_standing.1 hq).1

theorem descends : Descends (fun p : Part => p.node.height + 1)
    (fun walk p => p :: p.below.flatMap walk) partsAt := by
  refine ⟨fun _ _ => rfl, fun _ _ h => (Nat.succ_ne_zero _ h).elim, fun k p walk walk' hk hw => ?_⟩
  congr 1
  refine List.flatMap_congr fun q hq => hw q ?_
  have hlt := height_lt hq
  omega

/-- The parts of a part are itself and those of the parts below it. -/
theorem parts_eq (p : Part) : p.parts = p :: p.below.flatMap parts := descends.unfold p

/-- What holds of a part if it holds of the parts below it holds of every part. -/
theorem below_induction {motive : Part → Prop}
    (h : ∀ p, (∀ q ∈ p.below, motive q) → motive p) (p : Part) : motive p := by
  induction hk : p.node.height using Nat.strongRecOn generalizing p with
  | ind k ih => exact h p fun q hq => ih _ (hk ▸ height_lt hq) q rfl

theorem mem_parts : q ∈ p.parts ↔ q = p ∨ ∃ m ∈ p.below, q ∈ m.parts := by
  rw [parts_eq, List.mem_cons, List.mem_flatMap]

theorem self_mem_parts (p : Part) : p ∈ p.parts := mem_parts.2 (.inl rfl)

theorem parts_trans (h : q ∈ p.parts) (k : r ∈ q.parts) : r ∈ p.parts := by
  induction p using below_induction with
  | h p ih =>
      rcases mem_parts.1 h with rfl | ⟨m, hm, hq⟩
      · exact k
      · exact mem_parts.2 (.inr ⟨m, hm, ih m hm hq⟩)

theorem mem_parts_of_below (h : q ∈ p.parts) (k : r ∈ q.below) : r ∈ p.parts :=
  parts_trans h (mem_parts.2 (.inr ⟨r, k, self_mem_parts r⟩))

/-- What holds of a part, and of what stands directly below what it holds of, holds of all its
parts. -/
theorem parts_induction {motive : Part → Prop} (hp : motive p)
    (h : ∀ q ∈ p.parts, motive q → ∀ r ∈ q.below, motive r) : ∀ q ∈ p.parts, motive q := by
  induction p using below_induction with
  | h p ih =>
      intro q hq
      rcases mem_parts.1 hq with rfl | ⟨m, hm, hq⟩
      · exact hp
      · exact ih m hm (h p (self_mem_parts p) hp m hm)
          (fun r hr => h r (mem_parts.2 (.inr ⟨m, hm, hr⟩))) q hq

theorem Conforms.isFormed (h : p.Conforms) : p.isFormed = true := h p (self_mem_parts p)

theorem Conforms.of_mem (h : p.Conforms) (hq : q ∈ p.parts) : q.Conforms := fun r hr =>
  h r (parts_trans hq hr)

theorem Conforms.below (h : p.Conforms) (hq : q ∈ p.below) : q.Conforms :=
  h.of_mem (mem_parts.2 (.inr ⟨q, hq, self_mem_parts q⟩))

end Part

end LexScope.Grammar
