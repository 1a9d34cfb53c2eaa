import LexScope.Pattern
import LexScope.Walk.Event
import LexScope.Walk.Family

/-!
# Walk.Plan — the events of a program

`plan` gives the events of a node.  It is put together from one rule per family of nodes; a rule
gets the events of the nodes below through `visit` and never looks at a scope.

Patterns are read by `Pattern.items`.  The identifiers a pattern binds become definitions or
writes where the pattern is met; the expressions embedded in it are visited once the whole pattern
has been read, in the scope that the rule chooses.
-/

namespace LexScope.Walk

/-- The options that decide which events a program has. -/
structure Gates where
  /-- Blocks, `switch` statements and lexical loop heads have scopes. -/
  es6 : Bool
  /-- The program is a module. -/
  isModule : Bool
  /-- No call is a direct `eval`. -/
  ignoreEval : Bool
  deriving Repr, DecidableEq

/-- The gates that options set. -/
def Gates.ofOptions (o : Options) : Gates :=
  ⟨o.isEs6, o.isEs6 && o.isModule, o.ignoreEval.truthy⟩

/-- How a rule gets the events of a node further down. -/
abbrev Visit := Node → List Event

/-! ### Parts of rules -/

/-- The children of a node. -/
def visitChildren (visit : Visit) (n : Node) : List Event := n.children.flatMap visit

/-- Enter and leave the scopes that a node introduces. -/
def nested (n : Node) (isMethod : Bool) (inside : List Event) : List Event :=
  match scopeKinds? n isMethod with
  | some kinds =>
      kinds.foldr (fun kind inside => [.within kind n inside]) inside ++ [.closeOwned n]
  | none => [.fail .malformed]

/-- Enter the scope of a node only under a condition. -/
def nestedIf (condition : Bool) (n : Node) (inside : List Event) : List Event :=
  if condition then nested n false inside else inside ++ [.closeOwned n]

/-- Something for each identifier that a pattern binds, up to the part that cannot be read. -/
def forBound (pattern : Node) (each : Node → List Event) : List Event :=
  (Pattern.items pattern).flatMap fun
    | .bound p => each p
    | .embedded _ => []
    | .broken => [.fail .malformed]

/-- The expressions embedded in a pattern. -/
def visitEmbedded (visit : Visit) (pattern : Node) : List Event :=
  (Pattern.embedded pattern).flatMap visit

/-- The nodes that a member offers, or the end of the walk if it offers no sequence. -/
def forSequence (n : Node) (each : List Node → List Event) : List Event :=
  match n.sequence? with
  | some ns => each ns
  | none => [.fail .malformed]

/-- Whether a node declares names for a block: a declaration by any keyword but `var`. -/
def isLexical (n : Node) : Bool :=
  n.hasType "VariableDeclaration" && (n.get "kind").value ≠ .str "var"

/-! ### Declarations -/

/-- A declarator of a declaration. -/
def declarator? (declaration : Node) (i : Nat) : Option Node :=
  (declaration.get "declarations").items[i]?.filter Node.isObj

/-- The write that initialises an identifier of a pattern. -/
def initialWrite (pattern p value : Node) : Event :=
  let whole := Pattern.isWhole pattern
  .refer { identifier := p, access := .write, writeExpr := value, isPartial := .bool !whole,
           isInit := .bool whole }

/-- Bind the identifiers of a declarator.  An initializer is written to each as it is bound. -/
def bindDeclarator (target : Target) (kind : DefinitionKind) (declaration : Node) (i : Nat)
    (d : Node) : List Event :=
  let pattern := d.get "id"
  let value := d.get "init"
  forBound pattern fun p =>
    .define target p
        { kind, name := p, node := d, parent := declaration, index := .int i,
          declarationKind := (declaration.get "kind").value }
      :: (if value.isNull then [] else [initialWrite pattern p value])

/-- The declarators of a declaration, one after the other. -/
def declare (visit : Visit) (n : Node) : List Event :=
  let isVar := (n.get "kind").value = .str "var"
  let target := if isVar then Target.hoisted else .here
  let check := if isVar then [Event.needScope] else []
  check ++ forSequence (n.get "declarations") fun ds =>
    ds.zipIdx.flatMap fun (d, i) =>
      if !d.isObj then [.fail .malformed]
      else
        bindDeclarator target .variable n i d ++ visitEmbedded visit (d.get "id")
          ++ visit (d.get "init")

/-! ### Assignments -/

/-- Write to the identifiers of a pattern.  Where nothing binds one, the write may create it. -/
def assignTo (pattern value n : Node) : List Event :=
  forBound pattern fun p =>
    [.refer { identifier := p, access := .write, writeExpr := value, candidate := some ⟨p, n⟩,
              isPartial := .bool !Pattern.isWhole pattern }]

/-- The target of an assignment, then its right side.  With an operator other than `=` the target is
read and written as a whole. -/
def assign (visit : Visit) (n : Node) : List Event :=
  let left := n.get "left"
  let right := n.get "right"
  match Pattern.isPattern? left with
  | none => [.fail .malformed]
  | some false => visit left ++ visit right
  | some true =>
      if (n.get "operator").value = .str "=" then
        assignTo left right n ++ visitEmbedded visit left ++ visit right
      else .refer { identifier := left, access := .readWrite, writeExpr := right } :: visit right

/-- An increment or decrement reads and writes a bare name. -/
def update (visit : Visit) (n : Node) : List Event :=
  let argument := n.get "argument"
  if argument.isIdentifier then [.refer { identifier := argument, access := .readWrite }]
  else visitChildren visit n

/-! ### Functions and classes -/

/-- Bind the parameters of a function. -/
def bindParameters (n : Node) (params : List Node) : List Event :=
  params.zipIdx.flatMap fun (param, i) =>
    forBound param fun p =>
      [.define .here p { kind := .parameter, name := p, node := n, index := .int i }]

/-- The body of a function.  Its block is no scope of its own. -/
def functionBody (visit : Visit) (body : Node) : List Event :=
  if body.hasType "BlockStatement" then visitChildren visit body else visit body

/-- A function.  The name of a declaration belongs to the scope around it; the expressions embedded
in the parameters are evaluated inside. -/
def function (visit : Visit) (n : Node) (isMethod : Bool) : List Event :=
  let name :=
    if n.hasType "FunctionDeclaration" then [.define .here (n.get "id") (.ofFunction n)] else []
  let inside :=
    forSequence (n.get "params") fun params =>
      bindParameters n params ++ params.flatMap (visitEmbedded visit)
        ++ functionBody visit (n.get "body")
  name ++ nested n isMethod inside

/-- A class.  Its name is bound around it if it is a declaration, and always inside; the class it
extends is evaluated outside. -/
def classDefinition (visit : Visit) (n : Node) : List Event :=
  let id := n.get "id"
  let bindName := Event.define .here id { kind := .className, name := id, node := n }
  let outside := if n.hasType "ClassDeclaration" then [bindName] else []
  let inside := if id.truthy then [bindName] else []
  outside ++ visit (n.get "superClass") ++ nested n false (inside ++ visit (n.get "body"))

/-- A property or a method.  Its key is an expression only if it is computed, and the function of a
method is not entered by name. -/
def property (visit : Visit) (n : Node) : List Event :=
  let key := if (n.get "computed").truthy then visit (n.get "key") else []
  let value := n.get "value"
  let isMethod := n.hasType "MethodDefinition" || (n.get "method").truthy
  let isFunction := value.hasType "FunctionExpression" || value.isArrow
  key ++ (if isMethod && isFunction then function visit value true else visit value)

/-! ### Statements with scopes -/

/-- A program, with a module scope below its global scope if it is a module. -/
def program (g : Gates) (visit : Visit) (n : Node) : List Event :=
  let body := visitChildren visit n
  nested n false (if g.isModule then [.within .moduleTop n body] else body)

/-- A `switch`: what it tests is evaluated outside. -/
def switch (g : Gates) (visit : Visit) (n : Node) : List Event :=
  visit (n.get "discriminant") ++ nestedIf g.es6 n (visit (n.get "cases"))

/-- A `with`: its object is evaluated outside. -/
def withObject (visit : Visit) (n : Node) : List Event :=
  visit (n.get "object") ++ nested n false (visit (n.get "body"))

/-- A `catch` and its parameter. -/
def catchClause (visit : Visit) (n : Node) : List Event :=
  let param := n.get "param"
  let bind :=
    forBound param fun p => [.define .here p { kind := .catchClause, name := p, node := n }]
  nested n false (bind ++ visitEmbedded visit param ++ visit (n.get "body"))

/-! ### Loops -/

/-- A counting loop; one scope stands for all its turns. -/
def loop (g : Gates) (visit : Visit) (n : Node) : List Event :=
  nestedIf (g.es6 && isLexical (n.get "init")) n (visitChildren visit n)

/-- Write what is iterated over to the identifiers of a declared head. -/
def writeHead (n head : Node) : List Event :=
  match declarator? head 0 with
  | some d =>
      let pattern := d.get "id"
      forBound pattern fun p => [initialWrite pattern p (n.get "right")]
  | none => [.fail .malformed]

/-- Bind the identifiers of a lexical head. -/
def bindHead (kind : DefinitionKind) (head : Node) : List Event :=
  match declarator? head 0 with
  | some d => bindDeclarator .here kind head 0 d
  | none => [.fail .malformed]

/-- The expressions embedded in a lexical head. -/
def visitHead (visit : Visit) (head : Node) : List Event :=
  match declarator? head 0 with
  | some d => visitEmbedded visit (d.get "id")
  | none => []

/-- An iteration with a lexical head.  What is iterated over is evaluated where the names of the
head exist and cannot be used yet; the body runs in a scope of its own that binds them. -/
def lexicalIteration (visit : Visit) (n : Node) : List Event :=
  let head := n.get "left"
  let deadZone :=
    bindHead .deadZone head ++ .phase .visitRight :: visit (n.get "right")
      ++ [.phase .closeDeadZone]
  let turn :=
    bindHead .variable head ++ writeHead n head ++ visitHead visit head
      ++ .phase .visitBody :: visit (n.get "body") ++ [.phase .closeIteration]
  [.phase .openDeadZone, .within .deadZone n deadZone, .phase .openIteration]
    ++ nested n false turn

/-- An iteration over properties or values. -/
def iteration (g : Gates) (visit : Visit) (n : Node) : List Event :=
  let left := n.get "left"
  if g.es6 && isLexical left then lexicalIteration visit n
  else
    let head :=
      if left.hasType "VariableDeclaration" then visit left ++ writeHead n left
      else
        match Pattern.isPattern? left with
        | none => [.fail .malformed]
        | some true => assignTo left (n.get "right") n ++ visitEmbedded visit left
        | some false => visit left
    head ++ visit (n.get "right") ++ visit (n.get "body")

/-! ### Expressions -/

/-- A member access; its property is an expression only if it is computed. -/
def access (visit : Visit) (n : Node) : List Event :=
  visit (n.get "object") ++ (if (n.get "computed").truthy then visit (n.get "property") else [])

/-- A call, which is a direct `eval` if that is the name of what is called. -/
def call (g : Gates) (visit : Visit) (n : Node) : List Event :=
  let callee := n.get "callee"
  let body := visitChildren visit n
  if g.ignoreEval then body
  else if callee.truthy && !callee.isObj then [.fail .malformed]
  else if callee.isIdentifier && decide ((callee.get "name").value = .str "eval") then
    .callEval :: body
  else body

/-! ### Modules -/

/-- Events that may only happen in a module. -/
def onlyInModule (g : Gates) (n : Node) (events : List Event) : List Event :=
  if g.isModule then events
  else [.fail ((Fault.outsideModule (n.typeName?.getD "")).on n)]

/-- Bind the local names of an import. -/
def bindImports (n : Node) : List Event :=
  forSequence (n.get "specifiers") fun specifiers =>
    specifiers.flatMap fun specifier =>
      if !specifier.isObj then [.fail .malformed]
      else
        let p := specifier.get "local"
        [.define .here p { kind := .importBinding, name := p, node := specifier, parent := n }]

/-- An export of names.  With a source it uses nothing of this program. -/
def exportNamed (visit : Visit) (n : Node) : List Event :=
  if (n.get "source").truthy then []
  else if (n.get "declaration").truthy then visit (n.get "declaration")
  else visit (n.get "specifiers")

/-! ### All nodes -/

/-- The events of a node of a family. -/
def rule (g : Gates) (visit : Visit) (n : Node) : Family → List Event
  | .program => program g visit n
  | .block => nestedIf g.es6 n (visitChildren visit n)
  | .switch => switch g visit n
  | .withObject => withObject visit n
  | .catchClause => catchClause visit n
  | .function => function visit n false
  | .classDefinition => classDefinition visit n
  | .property => property visit n
  | .declaration => declare visit n
  | .declarator => [.fail .malformed]
  | .assignment => assign visit n
  | .update => update visit n
  | .identifier => [.refer { identifier := n }]
  | .access => access visit n
  | .call => call g visit n
  | .this => [.useThis]
  | .label => visit (n.get "body")
  | .inert => []
  | .loop => loop g visit n
  | .iteration => iteration g visit n
  | .lexicalIteration => lexicalIteration visit n
  | .importing => onlyInModule g n (bindImports n)
  | .exportNamed => onlyInModule g n (exportNamed visit n)
  | .exportDefault => onlyInModule g n (visit (n.get "declaration"))
  | .exportAll => onlyInModule g n []
  | .exportSpecifier => visit (n.get "local")
  | .plain => visitChildren visit n

/-- The events of any value: a list is walked item by item, a typed node by the rule of its family,
and nothing else is walked. -/
def step (g : Gates) (visit : Visit) (n : Node) : List Event :=
  match n.value with
  | .arr _ => n.items.flatMap visit
  | _ =>
      match n.typeName? with
      | some type => rule g visit n (.ofType type)
      | none => []

/-- The events down to a given depth. -/
def planAt (g : Gates) : Nat → Visit
  | 0, _ => []
  | depth + 1, n => step g (planAt g depth) n

/-- All events of a node.  Rules only visit nodes of smaller height. -/
def plan (g : Gates) (n : Node) : List Event := planAt g n.height n

end LexScope.Walk

namespace LexScope.Action

/-- Walk a node in the current scope. -/
def visit (n : Node) (current : Option ScopeId) : Action Unit := do
  Walk.runAll (Walk.plan (.ofOptions (← get).options) n) current

end LexScope.Action
