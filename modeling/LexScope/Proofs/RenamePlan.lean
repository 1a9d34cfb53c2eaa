import LexScope.Proofs.Rename

/-!
# Proofs — RenamePlan — the walk over a renamed tree

The events of a renamed node are the events of the node, renamed (`plan_rename`).  A rule looks at a
node through the readings that renaming leaves alone; the one name it asks for is `eval`, so the
names of the renaming may be any but that.

* `Pattern.items_rename`: the same for the items of a pattern.
* `isStrict?_rename`, `scopeKinds?_rename`: scopes of the same kinds, as strict as before.
-/

namespace LexScope

open Node

variable (ρ : Renaming)

/-! ### Patterns -/

namespace Pattern

/-- An item of a pattern with its node renamed. -/
def Item.rename : Item → Item
  | .bound n => .bound (n.rename ρ)
  | .embedded n => .embedded (n.rename ρ)
  | .broken => .broken

@[simp] theorem isPattern?_rename (n : Node) : isPattern? (n.rename ρ) = isPattern? n := by
  simp [isPattern?]

@[simp] theorem isWhole_rename (n : Node) : isWhole (n.rename ρ) = isWhole n :=
  isIdentifier_rename ρ n

/-- A way to read patterns that commutes with renaming. -/
def Follows (walk : Node → List Item) : Prop :=
  ∀ n, walk (n.rename ρ) = (walk n).map (Item.rename ρ)

variable {ρ} {walk : Node → List Item}

theorem Follows.parts (h : Follows ρ walk) (n : Node) :
    parts (n.rename ρ) walk = (parts n walk).map (Item.rename ρ) := by
  unfold Pattern.parts
  rw [sequence?_rename]
  cases n.sequence? with
  | none => rfl
  | some ns =>
      simp only [Option.map_some, List.flatMap_map, List.map_flatMap]
      exact List.flatMap_congr fun c _ => h c

theorem Follows.target (h : Follows ρ walk) : Follows ρ (target walk) := by
  intro p
  unfold Pattern.target
  simp (disch := decide) only [get_rename, truthy_rename, isObj_rename, hasType_rename, h _]
  split
  · split
    · rfl
    · split <;> rfl
  · rfl

theorem Follows.property (h : Follows ρ walk) : Follows ρ (property walk) := by
  intro p
  unfold Pattern.property
  simp (disch := decide) only [get_rename, truthy_rename, isObj_rename, hasType_rename, h p,
    h.target p]
  split
  · rfl
  · split
    · rfl
    · rw [List.map_append]
      split <;> rfl

theorem Follows.step (h : Follows ρ walk) : Follows ρ (step walk) := by
  intro n
  unfold Pattern.step
  simp (disch := decide) only [get_rename, isObj_rename, typeName?_rename, isNull_rename, h _]
  split
  · rfl
  · split
    · rfl
    · exact h.property.parts _
    · exact h.parts _
    · rfl
    · rfl
    · rw [List.map_append]
      split <;> rfl
    · rfl

theorem items_rename (n : Node) : items (n.rename ρ) = (items n).map (Item.rename ρ) := by
  have hall : ∀ depth, Follows ρ (itemsAt depth) := by
    intro depth
    induction depth with
    | zero => exact fun _ => rfl
    | succ depth ih => exact ih.step
  rw [items, height_rename]
  exact hall n.height n

theorem embedded_rename (n : Node) : embedded (n.rename ρ) = (embedded n).map (Node.rename ρ) := by
  rw [embedded, items_rename, List.filterMap_map, embedded, List.map_filterMap]
  refine List.filterMap_congr fun item _ => ?_
  cases item <;> rfl

end Pattern

/-! ### Kinds and strictness of scopes -/

@[simp] theorem isArrow_rename (n : Node) : (n.rename ρ).isArrow = n.isArrow := hasType_rename ρ n _

@[simp] theorem namesItself_rename (n : Node) : (n.rename ρ).namesItself = n.namesItself := by
  simp (disch := decide) only [Node.namesItself, hasType_rename, get_rename, truthy_rename]

@[simp] theorem scopeKinds?_rename (n : Node) (isMethod : Bool) :
    scopeKinds? (n.rename ρ) isMethod = scopeKinds? n isMethod := by
  simp only [scopeKinds?, ScopeKind.ofNode?, isObj_rename, type_rename, namesItself_rename]

namespace Directive

theorem ofLiteral_of_ne {t : Tree} (h : ∀ s, t.get "value" ≠ .str s) : ofLiteral t = .none := by
  unfold ofLiteral
  split
  · exact absurd ‹_› (h _)
  · rfl

theorem ofLiteral_rename (p : Path) (t : Tree) : ofLiteral (t.rename ρ p) = ofLiteral t := by
  have hvalue : (t.rename ρ p).get "value" = (t.get "value").rename ρ (p ++ [.member "value"]) :=
    Tree.get_rename_part ρ p (by decide) t
  by_cases hstr : ∃ s, t.get "value" = .str s
  · obtain ⟨s, hs⟩ := hstr
    unfold ofLiteral
    rw [hvalue, hs, Tree.get_rename_metadata ρ p (by decide),
      @Tree.get_rename_part ρ p "raw" (by decide)]
    simp only [Tree.rename_str, Tree.rename_eq_null, Tree.rename_eq_str]
  · have hne : ∀ s, t.get "value" ≠ .str s := fun s hs => hstr ⟨s, hs⟩
    rw [ofLiteral_of_ne hne, ofLiteral_of_ne fun s => ?_]
    rw [hvalue, Ne, Tree.rename_eq_str]
    exact hne s

theorem ofStatement?_rename (byField : Bool) (n : Node) :
    ofStatement? byField (n.rename ρ) = ofStatement? byField n := by
  have hfield : ofField (n.rename ρ) = ofField n := by
    simp (disch := decide) only [ofField, get_rename, value_rename, Tree.rename_eq_null,
      Tree.rename_eq_str]
  have hliteral : ((n.rename ρ).value.objectAt? "expression").map ofLiteral =
      (n.value.objectAt? "expression").map ofLiteral := by
    rw [value_rename, Tree.objectAt?_rename ρ n.path (by decide), Option.map_map]
    exact congrArg (Option.map · _) (funext fun t => ofLiteral_rename ρ _ t)
  unfold ofStatement?
  simp only [isObj_rename, hasType_rename, hfield, hliteral]

theorem prologue?_rename (byField : Bool) (ns : List Node) :
    prologue? byField (ns.map (Node.rename ρ)) = prologue? byField ns := by
  induction ns with
  | nil => rfl
  | cons n ns ih => rw [List.map_cons, prologue?, prologue?, ofStatement?_rename, ih]

end Directive

theorem prologueOf?_rename (kind : ScopeKind) (n : Node) :
    prologueOf? kind (n.rename ρ) = (prologueOf? kind n).map (List.map (Node.rename ρ)) := by
  cases kind with
  | global => simp (disch := decide) only [prologueOf?, get_rename, sequence?_rename]
  | function =>
      simp (disch := decide) only [prologueOf?, get_rename, sequence?_rename, truthy_rename,
        isObj_rename, hasType_rename]
      split
      · rfl
      · split <;> rfl
  | _ => rfl

/-- A scope of a renamed node is as strict as before. -/
@[simp] theorem isStrict?_rename (o : Options) (kind : ScopeKind) (n : Node) (upperStrict : Bool) :
    isStrict? o kind (n.rename ρ) upperStrict = isStrict? o kind n upperStrict := by
  have hprologue : ((prologueOf? kind n).map (List.map (Node.rename ρ))).bind
      (Directive.prologue? o.directive.truthy) =
        (prologueOf? kind n).bind (Directive.prologue? o.directive.truthy) := by
    cases prologueOf? kind n with
    | none => rfl
    | some ns => exact Directive.prologue?_rename ρ _ ns
  rw [isStrict?, isStrict?, prologueOf?_rename, hprologue]

/-! ### Events -/

/-- A definition with its nodes renamed. -/
def Definition.rename (d : Definition) : Definition :=
  { d with
    name := d.name.rename ρ
    node := d.node.rename ρ
    parent := d.parent.rename ρ
    declarationKind := d.declarationKind.rename ρ (d.parent.path ++ [.member "kind"]) }

/-- A candidate with its nodes renamed. -/
def Candidate.rename (c : Candidate) : Candidate := ⟨c.pattern.rename ρ, c.node.rename ρ⟩

/-- A use with its nodes renamed. -/
def Use.rename (u : Use) : Use :=
  { u with
    identifier := u.identifier.rename ρ
    writeExpr := u.writeExpr.rename ρ
    candidate := u.candidate.map (Candidate.rename ρ) }

namespace Walk

mutual

/-- An event with its nodes renamed. -/
def Event.rename (ρ : Renaming) : Event → Event
  | .define target n d => .define target (n.rename ρ) (d.rename ρ)
  | .refer u => .refer (u.rename ρ)
  | .within kind n inside => .within kind (n.rename ρ) (renameAll ρ inside)
  | .closeOwned n => .closeOwned (n.rename ρ)
  | e => e

/-- Events with their nodes renamed. -/
def renameAll (ρ : Renaming) : List Event → List Event
  | [] => []
  | e :: rest => e.rename ρ :: renameAll ρ rest

end

@[simp] theorem renameAll_nil : renameAll ρ [] = [] := rfl

@[simp] theorem renameAll_cons (e : Event) (rest : List Event) :
    renameAll ρ (e :: rest) = e.rename ρ :: renameAll ρ rest := rfl

@[simp] theorem renameAll_append (a b : List Event) :
    renameAll ρ (a ++ b) = renameAll ρ a ++ renameAll ρ b := by
  induction a with
  | nil => rfl
  | cons e a ih => rw [List.cons_append, renameAll_cons, renameAll_cons, ih, List.cons_append]

theorem renameAll_flatMap {α : Type} (l : List α) (f : α → List Event) :
    renameAll ρ (l.flatMap f) = l.flatMap fun a => renameAll ρ (f a) := by
  induction l with
  | nil => rfl
  | cons a l ih => rw [List.flatMap_cons, renameAll_append, ih, List.flatMap_cons]

/-! ### Parts of rules -/

/-- A way to get the events of a node that commutes with renaming. -/
def Follows (visit : Visit) : Prop := ∀ n, visit (n.rename ρ) = renameAll ρ (visit n)

variable {ρ} {visit : Visit}

theorem Follows.flatMap (hv : Follows ρ visit) (ns : List Node) :
    (ns.map (Node.rename ρ)).flatMap visit = renameAll ρ (ns.flatMap visit) := by
  rw [List.flatMap_map, renameAll_flatMap]
  exact List.flatMap_congr fun n _ => hv n

theorem Follows.children (hv : Follows ρ visit) (n : Node) :
    visitChildren visit (n.rename ρ) = renameAll ρ (visitChildren visit n) := by
  rw [visitChildren, children_rename, hv.flatMap]
  rfl

theorem Follows.embedded (hv : Follows ρ visit) (n : Node) :
    visitEmbedded visit (n.rename ρ) = renameAll ρ (visitEmbedded visit n) := by
  rw [visitEmbedded, Pattern.embedded_rename, hv.flatMap]
  rfl

theorem forBound_rename {each each' : Node → List Event}
    (h : ∀ p, each' (p.rename ρ) = renameAll ρ (each p)) (n : Node) :
    forBound (n.rename ρ) each' = renameAll ρ (forBound n each) := by
  rw [forBound, forBound, Pattern.items_rename, List.flatMap_map, renameAll_flatMap]
  refine List.flatMap_congr fun item _ => ?_
  cases item with
  | bound p => exact h p
  | embedded p => rfl
  | broken => rfl

theorem forSequence_rename {each each' : List Node → List Event}
    (h : ∀ ns, each' (ns.map (Node.rename ρ)) = renameAll ρ (each ns)) (n : Node) :
    forSequence (n.rename ρ) each' = renameAll ρ (forSequence n each) := by
  rw [forSequence, forSequence, sequence?_rename]
  cases n.sequence? with
  | none => rfl
  | some ns => exact h ns

/-- Nodes with their indices, renamed. -/
theorem flatMap_zipIdx_rename {each each' : Node × Nat → List Event}
    (h : ∀ n i, each' (n.rename ρ, i) = renameAll ρ (each (n, i))) (ns : List Node) :
    (ns.map (Node.rename ρ)).zipIdx.flatMap each' = renameAll ρ (ns.zipIdx.flatMap each) := by
  rw [List.zipIdx_map, List.flatMap_map, renameAll_flatMap]
  exact List.flatMap_congr fun m _ => h m.1 m.2

theorem foldr_within_rename (n : Node) (kinds : List ScopeKind) (inside : List Event) :
    renameAll ρ (kinds.foldr (fun kind inside => [.within kind n inside]) inside) =
      kinds.foldr (fun kind inside => [.within kind (n.rename ρ) inside]) (renameAll ρ inside) := by
  induction kinds with
  | nil => rfl
  | cons kind kinds ih => rw [List.foldr_cons, List.foldr_cons, ← ih]; rfl

theorem nested_rename (n : Node) (isMethod : Bool) (inside : List Event) :
    nested (n.rename ρ) isMethod (renameAll ρ inside) = renameAll ρ (nested n isMethod inside) := by
  rw [nested, nested, scopeKinds?_rename]
  cases scopeKinds? n isMethod with
  | none => rfl
  | some kinds =>
      rw [renameAll_append, foldr_within_rename]
      rfl

theorem nestedIf_rename (condition : Bool) (n : Node) (inside : List Event) :
    nestedIf condition (n.rename ρ) (renameAll ρ inside) =
      renameAll ρ (nestedIf condition n inside) := by
  rw [nestedIf, nestedIf]
  split
  · exact nested_rename n false inside
  · rw [renameAll_append]
    rfl

/-! ### Rules -/

theorem initialWrite_rename (pattern p value : Node) :
    initialWrite (pattern.rename ρ) (p.rename ρ) (value.rename ρ) =
      (initialWrite pattern p value).rename ρ := by
  rw [initialWrite, Pattern.isWhole_rename]
  rfl

theorem bindDeclarator_rename (target : Target) (kind : DefinitionKind) (n : Node) (i : Nat)
    (d : Node) : bindDeclarator target kind (n.rename ρ) i (d.rename ρ) =
      renameAll ρ (bindDeclarator target kind n i d) := by
  simp (disch := decide) only [bindDeclarator, get_rename, isNull_rename]
  refine forBound_rename (fun p => ?_) _
  rw [renameAll_cons]
  split
  · rfl
  · rw [initialWrite_rename]
    rfl

theorem assignTo_rename (pattern value n : Node) :
    assignTo (pattern.rename ρ) (value.rename ρ) (n.rename ρ) =
      renameAll ρ (assignTo pattern value n) := by
  refine forBound_rename (fun p => ?_) pattern
  rw [Pattern.isWhole_rename]
  rfl

theorem declarator?_rename (n : Node) (i : Nat) :
    declarator? (n.rename ρ) i = (declarator? n i).map (Node.rename ρ) := by
  simp (disch := decide) only [declarator?, get_rename, items_rename, List.getElem?_map]
  cases (n.get "declarations").items[i]? with
  | none => rfl
  | some d =>
      simp only [Option.map_some, Option.filter_some, isObj_rename]
      split <;> rfl

theorem writeHead_rename (n head : Node) :
    writeHead (n.rename ρ) (head.rename ρ) = renameAll ρ (writeHead n head) := by
  rw [writeHead, writeHead, declarator?_rename]
  cases declarator? head 0 with
  | none => rfl
  | some d =>
      simp (disch := decide) only [Option.map_some, get_rename]
      refine forBound_rename (fun p => ?_) _
      rw [initialWrite_rename]
      rfl

theorem bindHead_rename (kind : DefinitionKind) (head : Node) :
    bindHead kind (head.rename ρ) = renameAll ρ (bindHead kind head) := by
  rw [bindHead, bindHead, declarator?_rename]
  cases declarator? head 0 with
  | none => rfl
  | some d => exact bindDeclarator_rename .here kind head 0 d

theorem isLexical_rename (n : Node) : isLexical (n.rename ρ) = isLexical n := by
  simp (disch := decide) only [isLexical, hasType_rename, get_rename, value_rename,
    ne_eq, Tree.rename_eq_str]

theorem Follows.declare (hv : Follows ρ visit) (n : Node) :
    declare visit (n.rename ρ) = renameAll ρ (declare visit n) := by
  simp (disch := decide) only [Walk.declare, get_rename, value_rename, Tree.rename_eq_str,
    renameAll_append]
  congr 1
  · split <;> rfl
  · refine forSequence_rename (fun ds => flatMap_zipIdx_rename (fun d i => ?_) ds) _
    simp (disch := decide) only [isObj_rename, get_rename]
    split
    · rfl
    · rw [renameAll_append, renameAll_append, bindDeclarator_rename, hv.embedded, hv]

theorem Follows.assign (hv : Follows ρ visit) (n : Node) :
    assign visit (n.rename ρ) = renameAll ρ (assign visit n) := by
  simp (disch := decide) only [Walk.assign, get_rename, Pattern.isPattern?_rename, value_rename,
    Tree.rename_eq_str, hv _, hv.embedded, assignTo_rename]
  split
  · rfl
  · rw [renameAll_append]
  · split
    · rw [renameAll_append, renameAll_append]
    · rfl

theorem Follows.update (hv : Follows ρ visit) (n : Node) :
    update visit (n.rename ρ) = renameAll ρ (update visit n) := by
  simp (disch := decide) only [Walk.update, get_rename, isIdentifier_rename, hv.children]
  split <;> rfl

theorem bindParameters_rename (n : Node) (params : List Node) :
    bindParameters (n.rename ρ) (params.map (Node.rename ρ)) =
      renameAll ρ (bindParameters n params) :=
  flatMap_zipIdx_rename (fun param _ => forBound_rename (fun _ => rfl) param) params

theorem Follows.functionBody (hv : Follows ρ visit) (n : Node) :
    functionBody visit (n.rename ρ) = renameAll ρ (functionBody visit n) := by
  rw [Walk.functionBody, Walk.functionBody, hasType_rename, hv.children, hv]
  split <;> rfl

theorem Follows.function (hv : Follows ρ visit) (n : Node) (isMethod : Bool) :
    function visit (n.rename ρ) isMethod = renameAll ρ (function visit n isMethod) := by
  have hinside : (forSequence ((n.get "params").rename ρ) fun params =>
      bindParameters (n.rename ρ) params ++ params.flatMap (visitEmbedded visit) ++
        Walk.functionBody visit ((n.get "body").rename ρ)) =
      renameAll ρ (forSequence (n.get "params") fun params =>
        bindParameters n params ++ params.flatMap (visitEmbedded visit) ++
          Walk.functionBody visit (n.get "body")) := by
    refine forSequence_rename (fun params => ?_) _
    rw [renameAll_append, renameAll_append, bindParameters_rename, hv.functionBody,
      List.flatMap_map, renameAll_flatMap]
    congr 2
    exact List.flatMap_congr fun param _ => hv.embedded param
  simp (disch := decide) only [Walk.function, get_rename, hasType_rename, hinside, nested_rename,
    renameAll_append]
  congr 1
  split
  · simp (disch := decide) only [renameAll_cons, Event.rename, Definition.ofFunction, get_rename]
    rfl
  · rfl

theorem Follows.classDefinition (hv : Follows ρ visit) (n : Node) :
    classDefinition visit (n.rename ρ) = renameAll ρ (classDefinition visit n) := by
  simp (disch := decide) only [Walk.classDefinition, get_rename, hasType_rename, truthy_rename,
    hv _, renameAll_append, ← nested_rename]
  congr 2
  · split <;> rfl
  · split <;> rfl

theorem Follows.property (hv : Follows ρ visit) (n : Node) :
    property visit (n.rename ρ) = renameAll ρ (property visit n) := by
  simp (disch := decide) only [Walk.property, get_rename, hasType_rename, truthy_rename,
    isArrow_rename, hv _, hv.function, renameAll_append]
  congr 1
  · split <;> rfl
  · split <;> rfl

theorem Follows.program (hv : Follows ρ visit) (g : Gates) (n : Node) :
    program g visit (n.rename ρ) = renameAll ρ (program g visit n) := by
  rw [Walk.program, Walk.program, hv.children, ← nested_rename]
  congr 1
  split <;> rfl

theorem Follows.switch (hv : Follows ρ visit) (g : Gates) (n : Node) :
    switch g visit (n.rename ρ) = renameAll ρ (switch g visit n) := by
  simp (disch := decide) only [Walk.switch, get_rename, hv _, nestedIf_rename, renameAll_append]

theorem Follows.withObject (hv : Follows ρ visit) (n : Node) :
    withObject visit (n.rename ρ) = renameAll ρ (withObject visit n) := by
  simp (disch := decide) only [Walk.withObject, get_rename, hv _, nested_rename, renameAll_append]

theorem Follows.catchClause (hv : Follows ρ visit) (n : Node) :
    catchClause visit (n.rename ρ) = renameAll ρ (catchClause visit n) := by
  simp (disch := decide) only [Walk.catchClause, get_rename, hv _, hv.embedded, ← nested_rename,
    renameAll_append]
  congr 3
  exact forBound_rename (fun _ => rfl) _

theorem Follows.loop (hv : Follows ρ visit) (g : Gates) (n : Node) :
    loop g visit (n.rename ρ) = renameAll ρ (loop g visit n) := by
  simp (disch := decide) only [Walk.loop, get_rename, isLexical_rename, hv.children,
    nestedIf_rename]

theorem Follows.visitHead (hv : Follows ρ visit) (head : Node) :
    visitHead visit (head.rename ρ) = renameAll ρ (visitHead visit head) := by
  rw [Walk.visitHead, Walk.visitHead, declarator?_rename]
  cases declarator? head 0 with
  | none => rfl
  | some d => simp (disch := decide) only [Option.map_some, get_rename, hv.embedded]

theorem Follows.lexicalIteration (hv : Follows ρ visit) (n : Node) :
    lexicalIteration visit (n.rename ρ) = renameAll ρ (lexicalIteration visit n) := by
  simp (disch := decide) only [Walk.lexicalIteration, get_rename, hv _, hv.visitHead,
    bindHead_rename, writeHead_rename, renameAll_append, renameAll_cons, renameAll_nil,
    Event.rename, ← nested_rename]

theorem Follows.iteration (hv : Follows ρ visit) (g : Gates) (n : Node) :
    iteration g visit (n.rename ρ) = renameAll ρ (iteration g visit n) := by
  simp (disch := decide) only [Walk.iteration, get_rename, isLexical_rename, hasType_rename,
    Pattern.isPattern?_rename, hv _, hv.embedded, hv.lexicalIteration, assignTo_rename,
    writeHead_rename]
  split
  · rfl
  · rw [renameAll_append, renameAll_append]
    congr 2
    split
    · rw [renameAll_append]
    · split
      · rfl
      · rw [renameAll_append]
      · rfl

theorem Follows.access (hv : Follows ρ visit) (n : Node) :
    access visit (n.rename ρ) = renameAll ρ (access visit n) := by
  simp (disch := decide) only [Walk.access, get_rename, truthy_rename, hv _, renameAll_append]
  congr 1
  split <;> rfl

/-- Whether a call is a direct `eval` does not change: neither name is `eval`. -/
theorem Follows.call (hv : Follows ρ visit) (ho : ρ.old ≠ "eval") (hn : ρ.new ≠ "eval")
    (g : Gates) (n : Node) : call g visit (n.rename ρ) = renameAll ρ (call g visit n) := by
  have hname := name_eq_str_rename ρ (n.get "callee") ho.symm hn.symm
  simp (disch := decide) only [Walk.call, get_rename, truthy_rename, isObj_rename,
    isIdentifier_rename, hv.children, hname]
  split
  · rfl
  · split
    · rfl
    · split <;> rfl

theorem onlyInModule_rename (g : Gates) (n : Node) (events : List Event) :
    onlyInModule g (n.rename ρ) (renameAll ρ events) = renameAll ρ (onlyInModule g n events) := by
  simp only [onlyInModule, Fault.on, typeName?_rename, site?_rename]
  split <;> rfl

theorem bindImports_rename (n : Node) :
    bindImports (n.rename ρ) = renameAll ρ (bindImports n) := by
  simp (disch := decide) only [bindImports, get_rename]
  refine forSequence_rename (fun specifiers => ?_) _
  rw [List.flatMap_map, renameAll_flatMap]
  refine List.flatMap_congr fun specifier _ => ?_
  simp (disch := decide) only [get_rename, isObj_rename]
  split <;> rfl

theorem Follows.exportNamed (hv : Follows ρ visit) (n : Node) :
    exportNamed visit (n.rename ρ) = renameAll ρ (exportNamed visit n) := by
  simp (disch := decide) only [Walk.exportNamed, get_rename, truthy_rename, hv _]
  split
  · rfl
  · split <;> rfl

/-- Every rule commutes with renaming if the nodes further down do. -/
theorem Follows.rule (hv : Follows ρ visit) (ho : ρ.old ≠ "eval") (hn : ρ.new ≠ "eval")
    (g : Gates) (n : Node) (family : Family) :
    rule g visit (n.rename ρ) family = renameAll ρ (rule g visit n family) := by
  have hget : ∀ key, Tree.isPart key = true →
      visit ((n.rename ρ).get key) = renameAll ρ (visit (n.get key)) := by
    intro key hk
    rw [get_rename ρ n hk, hv]
  cases family with
  | program => exact hv.program g n
  | block =>
      show nestedIf g.es6 _ (visitChildren visit _) = _
      rw [hv.children]
      exact nestedIf_rename g.es6 n _
  | switch => exact hv.switch g n
  | withObject => exact hv.withObject n
  | catchClause => exact hv.catchClause n
  | function => exact hv.function n false
  | classDefinition => exact hv.classDefinition n
  | property => exact hv.property n
  | declaration => exact hv.declare n
  | declarator => rfl
  | assignment => exact hv.assign n
  | update => exact hv.update n
  | identifier => rfl
  | access => exact hv.access n
  | call => exact hv.call ho hn g n
  | this => rfl
  | label => exact hget "body" (by decide)
  | inert => rfl
  | loop => exact hv.loop g n
  | iteration => exact hv.iteration g n
  | lexicalIteration => exact hv.lexicalIteration n
  | importing =>
      show onlyInModule g _ (bindImports _) = _
      rw [bindImports_rename]
      exact onlyInModule_rename g n _
  | exportNamed =>
      show onlyInModule g _ (Walk.exportNamed visit _) = _
      rw [hv.exportNamed]
      exact onlyInModule_rename g n _
  | exportDefault =>
      show onlyInModule g _ (visit _) = _
      rw [hget "declaration" (by decide)]
      exact onlyInModule_rename g n _
  | exportAll => exact onlyInModule_rename g n []
  | exportSpecifier => exact hget "local" (by decide)
  | plain => exact hv.children n

theorem Follows.step (hv : Follows ρ visit) (ho : ρ.old ≠ "eval") (hn : ρ.new ≠ "eval")
    (g : Gates) : Follows ρ (step g visit) := by
  intro n
  have hrule := fun type : String => hv.rule ho hn g n (.ofType type)
  have htype := typeName?_rename ρ n
  obtain ⟨p, t⟩ := n
  cases t with
  | arr ts =>
      -- A list has no type; its items are visited one after the other.
      show (Node.items (Node.rename ρ ⟨p, .arr ts⟩)).flatMap visit = _
      rw [items_rename, hv.flatMap]
      rfl
  | _ =>
      simp only [Walk.step, value_rename, Tree.rename, htype]
      split
      · exact hrule _
      · rfl

/-- **The walk over a renamed node is the walk over the node, renamed.** -/
theorem plan_rename (ho : ρ.old ≠ "eval") (hn : ρ.new ≠ "eval") (g : Gates) (n : Node) :
    plan g (n.rename ρ) = renameAll ρ (plan g n) := by
  have hall : ∀ depth, Follows ρ (planAt g depth) := by
    intro depth
    induction depth with
    | zero => exact fun _ => rfl
    | succ depth ih => exact ih.step ho hn g
  rw [plan, height_rename]
  exact hall n.height n

end Walk

end LexScope
