import LexScope.Proofs.Sites

/-!
# Proofs — Leaves — what a walk does where, for any tree

Events are a tree, and its *leaves* are the single things that happen, entering a scope among them,
each with the scopes around it (`Leaf`).  A rule has leaves of its own, and it visits nodes further
down, in scopes of its own (`calls`).  What is visited on the way from a node, each with the scopes
around it, are its *visits* (`visits`).  Nothing is asked of the tree here.

* `splits_step`: the leaves of a rule are its own and those of the nodes it visits.
* `leaves_plan`: **the leaves of a node are those of its visits' own.**
-/

namespace LexScope.Walk

open Grammar (inside)

/-! ### Leaves -/

/-- A single thing that happens in a walk, and the scopes around it, innermost first.  Entering a
scope is told without what happens inside. -/
structure Leaf where
  around : Around
  event : Event

mutual

/-- The leaves of an event. -/
def Event.leaves (c : Around) : Event → List Leaf
  | .within kind n inside => ⟨c, .within kind n []⟩ :: leavesOf ((kind, n) :: c) inside
  | e => [⟨c, e⟩]

/-- The leaves of events, one after the other. -/
def leavesOf (c : Around) : List Event → List Leaf
  | [] => []
  | e :: rest => e.leaves c ++ leavesOf c rest

end

section Leaves

variable {c : Around}

@[simp] theorem leavesOf_nil : leavesOf c [] = [] := rfl

@[simp] theorem leavesOf_cons (e : Event) (rest : List Event) :
    leavesOf c (e :: rest) = e.leaves c ++ leavesOf c rest := rfl

@[simp] theorem leavesOf_append (a b : List Event) :
    leavesOf c (a ++ b) = leavesOf c a ++ leavesOf c b := by
  induction a with
  | nil => rfl
  | cons e a ih => rw [List.cons_append, leavesOf_cons, ih, leavesOf_cons, List.append_assoc]

theorem leavesOf_flatMap {α : Type} (l : List α) (f : α → List Event) :
    leavesOf c (l.flatMap f) = l.flatMap fun x => leavesOf c (f x) := by
  induction l with
  | nil => rfl
  | cons x l ih => rw [List.flatMap_cons, leavesOf_append, ih, List.flatMap_cons]

end Leaves

/-! ### Calls -/

/-- A node that is visited, and the scopes in which that happens, innermost first. -/
structure Call where
  around : Around
  node : Node
  deriving Repr, DecidableEq

/-- A call seen from further out. -/
def Call.under (c : Around) (k : Call) : Call := ⟨k.around ++ c, k.node⟩

/-- Nodes that are visited in no scope of the rule's own. -/
def walks (l : List Node) : List Call := l.map fun m => ⟨[], m⟩

/-- The calls of what happens in the scopes that a node introduces. -/
def nestedCalls (n : Node) (isMethod : Bool) (calls : List Call) : List Call :=
  match scopeKinds? n isMethod with
  | some kinds => calls.map (.under (inside [] n kinds))
  | none => []

/-- The calls of what happens in the scope of a node, if it has one. -/
def nestedIfCalls (condition : Bool) (n : Node) (calls : List Call) : List Call :=
  if condition then nestedCalls n false calls else calls

/-- The nodes that a declarator has visited: its pattern is only read. -/
def declaratorNodes (d : Node) : List Node :=
  if d.isObj then Pattern.embedded (d.get "id") ++ [d.get "init"] else []

/-- The nodes that a declaration has visited. -/
def declarationNodes (n : Node) : List Node :=
  ((n.get "declarations").sequence?.getD []).flatMap declaratorNodes

/-- The nodes that an assignment has visited. -/
def assignmentNodes (n : Node) : List Node :=
  match Pattern.isPattern? (n.get "left") with
  | none => []
  | some false => [n.get "left", n.get "right"]
  | some true =>
      if (n.get "operator").value = .str "=" then
        Pattern.embedded (n.get "left") ++ [n.get "right"]
      else [n.get "right"]

/-- The nodes that the body of a function has visited. -/
def bodyNodes (body : Node) : List Node :=
  if body.hasType "BlockStatement" then body.children else [body]

/-- The calls of a function. -/
def functionCalls (n : Node) (isMethod : Bool) : List Call :=
  nestedCalls n isMethod <| walks <|
    match (n.get "params").sequence? with
    | some params => params.flatMap Pattern.embedded ++ bodyNodes (n.get "body")
    | none => []

/-- The calls of a property or a method. -/
def propertyCalls (n : Node) : List Call :=
  let value := n.get "value"
  let isMethod := n.hasType "MethodDefinition" || (n.get "method").truthy
  let isFunction := value.hasType "FunctionExpression" || value.isArrow
  walks (if (n.get "computed").truthy then [n.get "key"] else []) ++
    if isMethod && isFunction then functionCalls value true else walks [value]

/-- The nodes that a declared head has visited. -/
def headNodes (head : Node) : List Node :=
  match declarator? head 0 with
  | some d => Pattern.embedded (d.get "id")
  | none => []

/-- The calls of an iteration with a lexical head. -/
def lexicalIterationCalls (n : Node) : List Call :=
  (walks [n.get "right"]).map (.under [(.deadZone, n)]) ++
    nestedCalls n false (walks (headNodes (n.get "left") ++ [n.get "body"]))

/-- The nodes that the head of any other iteration has visited. -/
def targetNodes (left : Node) : List Node :=
  if left.hasType "VariableDeclaration" then [left]
  else
    match Pattern.isPattern? left with
    | none => []
    | some true => Pattern.embedded left
    | some false => [left]

/-- The calls of an iteration. -/
def iterationCalls (g : Gates) (n : Node) : List Call :=
  if g.es6 && isLexical (n.get "left") then lexicalIterationCalls n
  else walks (targetNodes (n.get "left") ++ [n.get "right", n.get "body"])

/-- The nodes that a call has visited. -/
def calleeNodes (g : Gates) (n : Node) : List Node :=
  if g.ignoreEval then n.children
  else if (n.get "callee").truthy && !(n.get "callee").isObj then [] else n.children

/-- The nodes that an export of names has visited. -/
def exportNodes (n : Node) : List Node :=
  if (n.get "source").truthy then []
  else if (n.get "declaration").truthy then [n.get "declaration"]
  else [n.get "specifiers"]

/-- The calls of a node of a family. -/
def ruleCalls (g : Gates) (n : Node) : Family → List Call
  | .program => nestedCalls n false
      ((walks n.children).map (.under (if g.isModule then [(.moduleTop, n)] else [])))
  | .block => nestedIfCalls g.es6 n (walks n.children)
  | .switch => walks [n.get "discriminant"] ++ nestedIfCalls g.es6 n (walks [n.get "cases"])
  | .withObject => walks [n.get "object"] ++ nestedCalls n false (walks [n.get "body"])
  | .catchClause =>
      nestedCalls n false (walks (Pattern.embedded (n.get "param") ++ [n.get "body"]))
  | .function => functionCalls n false
  | .classDefinition => walks [n.get "superClass"] ++ nestedCalls n false (walks [n.get "body"])
  | .property => propertyCalls n
  | .declaration => walks (declarationNodes n)
  | .assignment => walks (assignmentNodes n)
  | .update => walks (if (n.get "argument").isIdentifier then [] else n.children)
  | .access => walks
      (n.get "object" :: if (n.get "computed").truthy then [n.get "property"] else [])
  | .call => walks (calleeNodes g n)
  | .label => walks [n.get "body"]
  | .loop => nestedIfCalls (g.es6 && isLexical (n.get "init")) n (walks n.children)
  | .iteration => iterationCalls g n
  | .lexicalIteration => lexicalIterationCalls n
  | .exportNamed => walks (if g.isModule then exportNodes n else [])
  | .exportDefault => walks (if g.isModule then [n.get "declaration"] else [])
  | .exportSpecifier => walks [n.get "local"]
  | .plain => walks n.children
  | .declarator | .identifier | .this | .inert | .importing | .exportAll => []

/-- The calls of any value. -/
def calls (g : Gates) (n : Node) : List Call :=
  match n.value with
  | .arr _ => walks n.items
  | _ =>
      match n.typeName? with
      | some type => ruleCalls g n (.ofType type)
      | none => []

/-- What a rule does itself. -/
def own (g : Gates) (n : Node) : List Event := step g (fun _ => []) n

/-- What is visited on the way from a node, down to a given depth. -/
def visitsAt (g : Gates) : Nat → Node → List Call
  | 0, _ => []
  | depth + 1, n =>
      ⟨[], n⟩ :: (calls g n).flatMap fun k => (visitsAt g depth k.node).map (.under k.around)

/-- All that is visited on the way from a node, itself first. -/
def visits (g : Gates) (n : Node) : List Call := visitsAt g (n.height + 1) n

/-! ### Splitting -/

/-- The leaves of something that visits nodes are those that there are anyway and those of the nodes
it visits. -/
def Splits (events : Visit → List Event) (calls : List Call) : Prop :=
  ∀ c visit, (leavesOf c (events visit)).Perm (leavesOf c (events fun _ => []) ++
    calls.flatMap fun k => leavesOf (k.around ++ c) (visit k.node))

namespace Splits

variable {F G : Visit → List Event} {K L : List Call} {n : Node} {kind : ScopeKind}

theorem const (events : List Event) : Splits (fun _ => events) [] := fun c visit => by simp

theorem visit (m : Node) : Splits (fun visit => visit m) (walks [m]) := fun c visit => by
  simp [walks]

theorem append (hF : Splits F K) (hG : Splits G L) :
    Splits (fun visit => F visit ++ G visit) (K ++ L) := fun c visit => by
  simp only [leavesOf_append, List.flatMap_append, List.append_assoc]
  refine ((hF c visit).append (hG c visit)).trans ?_
  rw [List.append_assoc]
  refine List.Perm.append_left _ ?_
  rw [← List.append_assoc, ← List.append_assoc]
  exact List.perm_append_comm.append_right _

/-- What happens before changes nothing. -/
theorem after (events : List Event) (hF : Splits F K) : Splits (fun visit => events ++ F visit) K :=
  (const events).append hF

/-- Nor does what happens afterwards. -/
theorem before (hF : Splits F K) (events : List Event) :
    Splits (fun visit => F visit ++ events) K := by
  simpa using hF.append (const events)

theorem flatMap {α : Type} {F : α → Visit → List Event} {K : α → List Call} {l : List α}
    (h : ∀ x ∈ l, Splits (F x) (K x)) :
    Splits (fun visit => l.flatMap fun x => F x visit) (l.flatMap K) := by
  induction l with
  | nil => exact const []
  | cons x l ih =>
      simp only [List.flatMap_cons]
      exact (h x List.mem_cons_self).append (ih fun y hy => h y (List.mem_cons_of_mem x hy))

/-- Nodes that are just visited, one after the other. -/
theorem walks (l : List Node) : Splits (fun visit => l.flatMap visit) (walks l) := by
  have h := flatMap (l := l) fun m _ => visit m
  simp only [Walk.walks, List.map_cons, List.map_nil] at h
  rwa [← List.map_eq_flatMap] at h

theorem within (h : Splits F K) : Splits (fun visit => [.within kind n (F visit)])
    (K.map (.under [(kind, n)])) := fun c visit => by
  simp only [leavesOf_cons, leavesOf_nil, Event.leaves, List.append_nil, List.cons_append,
    List.flatMap_map, Call.under, List.append_assoc, List.nil_append]
  exact (h ((kind, n) :: c) visit).cons _

/-- What happens in several scopes of one node, one in the other. -/
theorem withinAll (h : Splits F K) (kinds : List ScopeKind) :
    Splits (fun visit => kinds.foldr (fun kind inside => [.within kind n inside]) (F visit))
      (K.map (.under (inside [] n kinds))) := by
  induction kinds with
  | nil =>
      have hself : (Call.under (inside [] n [])) = id := by
        funext k
        simp [Call.under, inside]
      rw [hself, List.map_id]
      exact h
  | cons kind kinds ih =>
      have hcomp : (K.map (Call.under (inside [] n (kind :: kinds)))) =
          (K.map (Call.under (inside [] n kinds))).map (.under [(kind, n)]) := by
        simp [Call.under, inside]
      rw [hcomp]
      exact ih.within

theorem nested {isMethod : Bool} (h : Splits F K) :
    Splits (fun visit => nested n isMethod (F visit)) (nestedCalls n isMethod K) := by
  unfold Walk.nested nestedCalls
  cases scopeKinds? n isMethod with
  | none => exact const _
  | some kinds => exact (h.withinAll kinds).before _

theorem nestedIf {condition : Bool} (h : Splits F K) :
    Splits (fun visit => nestedIf condition n (F visit)) (nestedIfCalls condition n K) := by
  unfold Walk.nestedIf nestedIfCalls
  cases condition with
  | false => exact h.before _
  | true => exact h.nested

/-! ### Rules -/

theorem ite {condition : Prop} [Decidable condition] (hF : condition → Splits F K)
    (hG : ¬ condition → Splits G L) : Splits (fun visit => if condition then F visit else G visit)
      (if condition then K else L) := by
  split
  · rename_i h
    exact hF h
  · rename_i h
    exact hG h

theorem embedded (pattern : Node) :
    Splits (fun visit => visitEmbedded visit pattern) (Walk.walks (Pattern.embedded pattern)) :=
  walks _

theorem children (n : Node) : Splits (fun visit => visitChildren visit n) (Walk.walks n.children) :=
  walks _

theorem walks_append (l m : List Node) : Walk.walks (l ++ m) = Walk.walks l ++ Walk.walks m :=
  List.map_append

theorem walks_flatMap {α : Type} (l : List α) (f : α → List Node) :
    Walk.walks (l.flatMap f) = l.flatMap fun x => Walk.walks (f x) := List.map_flatMap

theorem declare (n : Node) :
    Splits (fun visit => declare visit n) (Walk.walks (declarationNodes n)) := by
  unfold Walk.declare forSequence declarationNodes
  refine after _ ?_
  cases (n.get "declarations").sequence? with
  | none => exact const _
  | some ds =>
      rw [Option.getD_some, walks_flatMap]
      have hzip : (ds.flatMap fun d => Walk.walks (declaratorNodes d)) =
          ds.zipIdx.flatMap fun d => Walk.walks (declaratorNodes d.1) := by
        conv_lhs => rw [← List.zipIdx_map_fst 0 ds, List.flatMap_map]
      rw [hzip]
      refine flatMap fun d _ => ?_
      obtain ⟨d, i⟩ := d
      unfold declaratorNodes
      dsimp only
      cases hd : d.isObj with
      | false => exact const _
      | true =>
          rw [if_pos rfl, walks_append]
          exact ((embedded _).after _).append (visit _)

theorem assign (n : Node) :
    Splits (fun visit => assign visit n) (Walk.walks (assignmentNodes n)) := by
  unfold Walk.assign assignmentNodes
  dsimp only
  cases Pattern.isPattern? (n.get "left") with
  | none => exact const _
  | some isPattern =>
      cases isPattern with
      | false => exact (visit _).append (visit _)
      | true =>
          dsimp only
          split
          · rw [walks_append]
            exact ((embedded _).after _).append (visit _)
          · exact (visit _).after [_]

theorem functionBody (body : Node) :
    Splits (fun visit => functionBody visit body) (Walk.walks (bodyNodes body)) := by
  unfold Walk.functionBody bodyNodes
  split
  · exact children body
  · exact visit body

theorem function (n : Node) (isMethod : Bool) :
    Splits (fun visit => function visit n isMethod) (functionCalls n isMethod) := by
  unfold Walk.function forSequence functionCalls
  refine after _ (nested ?_)
  cases (n.get "params").sequence? with
  | none => exact const _
  | some params =>
      dsimp only
      rw [walks_append, walks_flatMap]
      exact ((flatMap fun param _ => embedded param).after _).append (functionBody _)

theorem property (n : Node) : Splits (fun visit => property visit n) (propertyCalls n) := by
  unfold Walk.property propertyCalls
  refine append ?_ (ite (fun _ => function _ true) fun _ => visit _)
  split
  · exact visit _
  · exact const []

theorem classDefinition (n : Node) : Splits (fun visit => classDefinition visit n)
    (Walk.walks [n.get "superClass"] ++ nestedCalls n false (Walk.walks [n.get "body"])) := by
  unfold Walk.classDefinition
  exact ((visit _).after _).append (nested ((visit _).after _))

theorem program (g : Gates) (n : Node) :
    Splits (fun visit => program g visit n) (ruleCalls g n .program) := by
  unfold Walk.program ruleCalls
  refine nested ?_
  split
  · exact (children n).within
  · have hself : Call.under [] = id := by
      funext k
      simp [Call.under]
    rw [hself, List.map_id]
    exact children n

theorem head (head : Node) :
    Splits (fun visit => visitHead visit head) (Walk.walks (headNodes head)) := by
  unfold visitHead headNodes
  cases declarator? head 0 with
  | none => exact const _
  | some d => exact embedded _

theorem lexicalIteration (n : Node) :
    Splits (fun visit => lexicalIteration visit n) (lexicalIterationCalls n) := by
  have hright : Splits (fun visit => bindHead .deadZone (n.get "left") ++
      .phase .visitRight :: visit (n.get "right") ++ [.phase .closeDeadZone])
      (Walk.walks [n.get "right"]) := (((visit _).after [_]).after _).before _
  have hbody : Splits (fun visit => bindHead .variable (n.get "left") ++ writeHead n (n.get "left") ++
      visitHead visit (n.get "left") ++ .phase .visitBody :: visit (n.get "body") ++
      [.phase .closeIteration]) (Walk.walks (headNodes (n.get "left") ++ [n.get "body"])) := by
    rw [walks_append]
    exact (((head _).after _).append ((visit _).after [_])).before _
  have hzone : Splits (fun visit => [.within .deadZone n (bindHead .deadZone (n.get "left") ++
      .phase .visitRight :: visit (n.get "right") ++ [.phase .closeDeadZone])])
      ((Walk.walks [n.get "right"]).map (.under [(.deadZone, n)])) := hright.within
  exact ((hzone.before [_]).after [_]).append hbody.nested

theorem targets (n left : Node) : Splits (fun visit =>
    if left.hasType "VariableDeclaration" then visit left ++ writeHead n left
    else
      match Pattern.isPattern? left with
      | none => [.fail .malformed]
      | some true => assignTo left (n.get "right") n ++ visitEmbedded visit left
      | some false => visit left) (Walk.walks (targetNodes left)) := by
  unfold targetNodes
  split
  · exact (visit left).before _
  · cases Pattern.isPattern? left with
    | none => exact const _
    | some isPattern =>
        cases isPattern with
        | true => exact (embedded left).after _
        | false => exact visit left

theorem iteration (g : Gates) (n : Node) :
    Splits (fun visit => iteration g visit n) (iterationCalls g n) := by
  unfold Walk.iteration iterationCalls
  refine ite (fun _ => lexicalIteration n) fun _ => ?_
  rw [List.append_cons, walks_append, walks_append]
  exact ((targets n _).append (visit _)).append (visit _)

theorem call (g : Gates) (n : Node) :
    Splits (fun visit => call g visit n) (Walk.walks (calleeNodes g n)) := by
  unfold Walk.call calleeNodes
  dsimp only
  split
  · exact children n
  · split
    · exact const _
    · split
      · exact (children n).after [_]
      · exact children n

theorem onlyInModule {g : Gates} {l : List Node} {n : Node} (h : Splits F (Walk.walks l)) :
    Splits (fun visit => onlyInModule g n (F visit)) (Walk.walks (if g.isModule then l else [])) := by
  unfold Walk.onlyInModule
  split
  · exact h
  · exact const _

theorem exportNamed (n : Node) :
    Splits (fun visit => exportNamed visit n) (Walk.walks (exportNodes n)) := by
  unfold Walk.exportNamed exportNodes
  split
  · exact const _
  · split
    · exact visit _
    · exact visit _

/-- The leaves of a node of a family are its own and those of the nodes it visits. -/
theorem rule (g : Gates) (n : Node) (family : Family) :
    Splits (fun visit => rule g visit n family) (ruleCalls g n family) := by
  cases family with
  | program => exact program g n
  | block => exact (children n).nestedIf
  | switch => exact (visit _).append (visit _).nestedIf
  | withObject => exact (visit _).append (visit _).nested
  | catchClause =>
      have hinside := (((embedded (n.get "param")).after
        (forBound (n.get "param") fun p =>
          [.define .here p { kind := .catchClause, name := p, node := n }])).append
        (visit (n.get "body")))
      rw [← walks_append] at hinside
      exact hinside.nested
  | function => exact function n false
  | classDefinition => exact classDefinition n
  | property => exact property n
  | declaration => exact declare n
  | declarator => exact const _
  | assignment => exact assign n
  | update =>
      unfold Walk.rule Walk.update ruleCalls
      dsimp only
      split
      · exact const _
      · exact children n
  | identifier => exact const _
  | access =>
      unfold Walk.rule Walk.access ruleCalls
      dsimp only
      rw [← List.singleton_append, walks_append]
      refine (visit _).append ?_
      split
      · exact visit _
      · exact const []
  | call => exact call g n
  | this => exact const _
  | label => exact visit _
  | inert => exact const _
  | loop => exact (children n).nestedIf
  | iteration => exact iteration g n
  | lexicalIteration => exact lexicalIteration n
  | importing => exact const _
  | exportNamed => exact (exportNamed n).onlyInModule
  | exportDefault => exact (visit _).onlyInModule
  | exportAll => exact const _
  | exportSpecifier => exact visit _
  | plain => exact children n

end Splits

/-- **The leaves of a rule are its own and those of the nodes it visits.** -/
theorem splits_step (g : Gates) (n : Node) : Splits (fun visit => step g visit n) (calls g n) := by
  cases hv : n.value with
  | arr ts =>
      simp only [step, calls, hv]
      exact .walks _
  | _ =>
      simp only [step, calls, hv]
      cases n.typeName? with
      | none => exact .const []
      | some type => exact .rule g n _

/-! ### What is called stands further down -/

variable {g : Gates} {n m : Node} {k j : Call} {K : List Call} {l : List Node}

/-- A property of nodes that passes on to whatever is read from them. -/
structure Passes (Q : Node → Prop) : Prop where
  get : ∀ {m}, Q m → ∀ key, Q (m.get key)
  items : ∀ {m c}, Q m → c ∈ m.items → Q c
  sequence : ∀ {m c ns}, Q m → m.sequence? = some ns → c ∈ ns → Q c
  children : ∀ {m c}, Q m → c ∈ m.children → Q c
  embedded : ∀ {m c}, Q m → c ∈ Pattern.embedded m → Q c

/-- What every value of a kind hands on is passed on by its nodes. -/
theorem passes_of_hereditary {P : Tree → Prop} (hP : Tree.Hereditary P) :
    Passes fun m => P m.value where
  get h key := hP.get h key
  items h hc := hP.items h hc
  sequence h hs hc := hP.sequence h hs hc
  children h hc := hP.children h hc
  embedded h hc := hP.embedded h hc

/-- Being below a node is passed on. -/
theorem passes_below (n : Node) : Passes n.Below where
  get h key := h.get key
  items h hc := h.trans (Node.below_of_mem_items hc)
  sequence h hs hc := h.trans (Node.below_of_mem_sequence hs hc)
  children h hc := h.trans (Node.below_of_mem_children hc)
  embedded h hc := h.trans_atOrBelow (Pattern.atOrBelow_of_mem_embedded hc)

theorem mem_walks : k ∈ walks l ↔ k.around = [] ∧ k.node ∈ l := by
  obtain ⟨c, m⟩ := k
  simp only [walks, List.mem_map, Call.mk.injEq]
  constructor
  · rintro ⟨m', hm, rfl, rfl⟩
    exact ⟨rfl, hm⟩
  · rintro ⟨rfl, hm⟩
    exact ⟨m, hm, rfl, rfl⟩

/-- What is called in the scopes of a node. -/
theorem mem_nestedCalls {isMethod : Bool} : k ∈ nestedCalls n isMethod K ↔
    ∃ kinds, scopeKinds? n isMethod = some kinds ∧ ∃ j ∈ K, j.under (inside [] n kinds) = k := by
  unfold nestedCalls
  cases scopeKinds? n isMethod <;> simp

theorem node_of_mem_nestedCalls {isMethod : Bool} (h : k ∈ nestedCalls n isMethod K) :
    ∃ j ∈ K, j.node = k.node := by
  obtain ⟨-, -, j, hj, rfl⟩ := mem_nestedCalls.1 h
  exact ⟨j, hj, rfl⟩

theorem node_of_mem_nestedIfCalls {condition : Bool} (h : k ∈ nestedIfCalls condition n K) :
    ∃ j ∈ K, j.node = k.node := by
  unfold nestedIfCalls at h
  split at h
  · exact node_of_mem_nestedCalls h
  · exact ⟨k, h, rfl⟩

section Passes

variable {Q : Node → Prop} (hQ : Passes Q)

theorem forall_walks : (∀ k ∈ walks l, Q k.node) ↔ ∀ m ∈ l, Q m := by
  simp [walks]

theorem forall_nestedCalls {isMethod : Bool} (h : ∀ k ∈ K, Q k.node) :
    ∀ k ∈ nestedCalls n isMethod K, Q k.node := fun k hk => by
  obtain ⟨j, hj, hjk⟩ := node_of_mem_nestedCalls hk
  exact hjk ▸ h j hj

theorem forall_nestedIfCalls {condition : Bool} (h : ∀ k ∈ K, Q k.node) :
    ∀ k ∈ nestedIfCalls condition n K, Q k.node := fun k hk => by
  obtain ⟨j, hj, hjk⟩ := node_of_mem_nestedIfCalls hk
  exact hjk ▸ h j hj

include hQ

theorem Passes.declaration (h : Q (n.get "declarations")) : ∀ m ∈ declarationNodes n, Q m := by
  intro m hm
  obtain ⟨d, hd, hm⟩ := List.mem_flatMap.1 hm
  have hQd : Q d := by
    cases hs : (n.get "declarations").sequence? with
    | none => rw [hs] at hd; cases hd
    | some ds => rw [hs] at hd; exact hQ.sequence h hs hd
  unfold declaratorNodes at hm
  split at hm
  · rcases List.mem_append.1 hm with hm | hm
    · exact hQ.embedded (hQ.get hQd _) hm
    · rw [List.mem_singleton.1 hm]
      exact hQ.get hQd _
  · cases hm

theorem Passes.assignment (h : ∀ key, Q (n.get key)) : ∀ m ∈ assignmentNodes n, Q m := by
  intro m hm
  unfold assignmentNodes at hm
  split at hm
  · cases hm
  · rcases List.mem_pair.1 hm with rfl | rfl <;> exact h _
  · split at hm
    · rcases List.mem_append.1 hm with hm | hm
      · exact hQ.embedded (h _) hm
      · rw [List.mem_singleton.1 hm]
        exact h _
    · rw [List.mem_singleton.1 hm]
      exact h _

theorem Passes.function (h : ∀ key, Q (n.get key)) (isMethod : Bool) :
    ∀ k ∈ functionCalls n isMethod, Q k.node := by
  refine forall_nestedCalls (forall_walks.2 fun m hm => ?_)
  split at hm
  · rename_i params hs
    rcases List.mem_append.1 hm with hm | hm
    · obtain ⟨param, hparam, hm⟩ := List.mem_flatMap.1 hm
      exact hQ.embedded (hQ.sequence (h _) hs hparam) hm
    · unfold bodyNodes at hm
      split at hm
      · exact hQ.children (h _) hm
      · rw [List.mem_singleton.1 hm]
        exact h _
  · cases hm

theorem Passes.property (h : ∀ key, Q (n.get key)) : ∀ k ∈ propertyCalls n, Q k.node := by
  intro k hk
  rcases List.mem_append.1 hk with hk | hk
  · obtain ⟨-, hm⟩ := mem_walks.1 hk
    split at hm
    · rw [List.mem_singleton.1 hm]
      exact h _
    · cases hm
  · split at hk
    · exact hQ.function (fun key => hQ.get (h _) key) true k hk
    · rw [List.mem_singleton.1 (mem_walks.1 hk).2]
      exact h _

theorem Passes.declarator {head d : Node} {i : Nat} (h : Q head) (hd : declarator? head i = some d) :
    Q d := by
  obtain ⟨hd, -⟩ := Option.filter_eq_some_iff.1 hd
  exact hQ.items (hQ.get h _) (List.mem_of_getElem? hd)

theorem Passes.head {head : Node} (h : Q head) : ∀ m ∈ headNodes head, Q m := by
  intro m hm
  unfold headNodes at hm
  split at hm
  · exact hQ.embedded (hQ.get (hQ.declarator h ‹_›) _) hm
  · cases hm

theorem Passes.lexicalIteration (h : ∀ key, Q (n.get key)) :
    ∀ k ∈ lexicalIterationCalls n, Q k.node := by
  intro k hk
  rcases List.mem_append.1 hk with hk | hk
  · obtain ⟨j, hj, rfl⟩ := List.mem_map.1 hk
    show Q j.node
    rw [List.mem_singleton.1 (mem_walks.1 hj).2]
    exact h _
  · refine forall_nestedCalls (forall_walks.2 fun m hm => ?_) k hk
    rcases List.mem_append.1 hm with hm | hm
    · exact hQ.head (h _) m hm
    · rw [List.mem_singleton.1 hm]
      exact h _

theorem Passes.targets {left : Node} (h : Q left) : ∀ m ∈ targetNodes left, Q m := by
  intro m hm
  unfold targetNodes at hm
  split at hm
  · exact List.mem_singleton.1 hm ▸ h
  · split at hm
    · cases hm
    · exact hQ.embedded h hm
    · exact List.mem_singleton.1 hm ▸ h

theorem Passes.iteration (h : ∀ key, Q (n.get key)) : ∀ k ∈ iterationCalls g n, Q k.node := by
  intro k hk
  unfold iterationCalls at hk
  split at hk
  · exact hQ.lexicalIteration h k hk
  · rcases List.mem_append.1 (mem_walks.1 hk).2 with hm | hm
    · exact hQ.targets (h _) _ hm
    · rcases List.mem_pair.1 hm with hm | hm <;> exact hm ▸ h _

/-- What a rule calls has every property that is passed on to what the node holds. -/
theorem Passes.rule (h : ∀ key, Q (n.get key)) (hc : ∀ c ∈ n.children, Q c) (family : Family) :
    ∀ k ∈ ruleCalls g n family, Q k.node := by
  have hchildren : ∀ k ∈ walks n.children, Q k.node := forall_walks.2 hc
  have hone : ∀ key, ∀ k ∈ walks [n.get key], Q k.node := fun key =>
    forall_walks.2 fun m hm => List.mem_singleton.1 hm ▸ h key
  cases family with
  | program =>
      refine forall_nestedCalls fun k hk => ?_
      obtain ⟨j, hj, rfl⟩ := List.mem_map.1 hk
      exact hchildren j hj
  | block => exact forall_nestedIfCalls hchildren
  | switch =>
      exact fun k hk => (List.mem_append.1 hk).elim (hone _ k)
        (forall_nestedIfCalls (hone _) k)
  | withObject =>
      exact fun k hk => (List.mem_append.1 hk).elim (hone _ k) (forall_nestedCalls (hone _) k)
  | catchClause =>
      refine forall_nestedCalls (forall_walks.2 fun m hm => ?_)
      rcases List.mem_append.1 hm with hm | hm
      · exact hQ.embedded (h _) hm
      · exact List.mem_singleton.1 hm ▸ h _
  | function => exact hQ.function h false
  | classDefinition =>
      exact fun k hk => (List.mem_append.1 hk).elim (hone _ k) (forall_nestedCalls (hone _) k)
  | property => exact hQ.property h
  | declaration => exact forall_walks.2 (hQ.declaration (h _))
  | assignment => exact forall_walks.2 (hQ.assignment h)
  | update =>
      refine forall_walks.2 fun m hm => ?_
      split at hm
      · cases hm
      · exact hc m hm
  | access =>
      refine forall_walks.2 fun m hm => ?_
      rcases List.mem_cons.1 hm with rfl | hm
      · exact h _
      · split at hm
        · exact List.mem_singleton.1 hm ▸ h _
        · cases hm
  | call =>
      refine forall_walks.2 fun m hm => ?_
      unfold calleeNodes at hm
      split_ifs at hm
      · exact hc m hm
      · cases hm
      · exact hc m hm
  | label => exact hone _
  | loop => exact forall_nestedIfCalls hchildren
  | iteration => exact hQ.iteration h
  | lexicalIteration => exact hQ.lexicalIteration h
  | exportNamed =>
      refine forall_walks.2 fun m hm => ?_
      unfold exportNodes at hm
      split_ifs at hm
      all_goals first | exact List.mem_singleton.1 hm ▸ h _ | cases hm
  | exportDefault =>
      refine forall_walks.2 fun m hm => ?_
      split_ifs at hm
      · exact List.mem_singleton.1 hm ▸ h _
      · cases hm
  | exportSpecifier => exact hone _
  | plain => exact hchildren
  | declarator => exact nofun
  | identifier => exact nofun
  | this => exact nofun
  | inert => exact nofun
  | importing => exact nofun
  | exportAll => exact nofun

theorem Passes.calls (h : ∀ key, Q (n.get key)) (hi : ∀ c ∈ n.items, Q c)
    (hc : ∀ c ∈ n.children, Q c) : ∀ k ∈ calls g n, Q k.node := by
  unfold Walk.calls
  split
  · exact forall_walks.2 hi
  · split
    · exact hQ.rule h hc _
    · exact nofun

end Passes

/-- **What is called stands below what calls it.** -/
theorem below_of_mem_calls (h : k ∈ calls g n) : n.Below k.node :=
  (passes_below n).calls (fun key => Node.below_get n key) (fun _ => Node.below_of_mem_items)
    (fun _ => Node.below_of_mem_children) k h

theorem height_lt_of_mem_calls (h : k ∈ calls g n) : k.node.height < n.height := by
  obtain ⟨b, hb⟩ : ∃ b, n.height = b + 1 := by
    refine Nat.exists_eq_succ_of_ne_zero fun h0 => ?_
    unfold calls at h
    split at h
    · rename_i ts hv
      rw [Node.height, hv, Tree.height] at h0
      omega
    · split at h
      · rename_i ht
        exact absurd h0 (Node.height_pos (isObj_of_typeName? ht)).ne'
      · cases h
  rw [hb, Nat.lt_succ_iff]
  exact (passes_of_hereditary (Tree.hereditary_height b)).calls
    (fun key => Node.height_get hb.le key) (fun _ => Node.height_of_mem_items hb.le)
    (fun _ => Node.height_of_mem_children hb.le) k h

/-! ### Visits -/

theorem visits_descends (g : Gates) : Descends (fun n : Node => n.height + 1)
    (fun walk n => ⟨[], n⟩ :: (calls g n).flatMap fun k => (walk k.node).map (.under k.around))
    (visitsAt g) := by
  refine ⟨fun _ _ => rfl, fun _ _ h => (Nat.succ_ne_zero _ h).elim,
    fun b n walk walk' hb hw => ?_⟩
  congr 1
  refine List.flatMap_congr fun k hk => ?_
  have hlt := height_lt_of_mem_calls hk
  rw [hw k.node (by omega)]

/-- What is visited on the way from a node is the node and what is visited on the way from the nodes
it calls. -/
theorem visits_eq (g : Gates) (n : Node) : visits g n =
    ⟨[], n⟩ :: (calls g n).flatMap fun k => (visits g k.node).map (.under k.around) :=
  (visits_descends g).unfold n

/-- What holds of a node if it holds of the nodes it calls holds of every node. -/
theorem calls_induction {motive : Node → Prop}
    (h : ∀ n, (∀ k ∈ calls g n, motive k.node) → motive n) (n : Node) : motive n := by
  induction hb : n.height using Nat.strongRecOn generalizing n with
  | ind b ih => exact h n fun k hk => ih _ (hb ▸ height_lt_of_mem_calls hk) k.node rfl

theorem mem_visits : k ∈ visits g n ↔
    k = ⟨[], n⟩ ∨ ∃ j ∈ calls g n, ∃ k' ∈ visits g j.node, k'.under j.around = k := by
  rw [visits_eq, List.mem_cons, List.mem_flatMap]
  simp only [List.mem_map]

theorem self_mem_visits (g : Gates) (n : Node) : ⟨[], n⟩ ∈ visits g n := mem_visits.2 (.inl rfl)

theorem under_under (c d : Around) (k : Call) : (k.under c).under d = k.under (c ++ d) := by
  simp [Call.under]

/-- What a visited node calls is visited. -/
theorem mem_visits_of_mem_calls (h : k ∈ visits g n) (hj : j ∈ calls g k.node) :
    j.under k.around ∈ visits g n := by
  induction n using calls_induction (g := g) generalizing k with
  | h n ih =>
      rcases mem_visits.1 h with rfl | ⟨i, hi, k', hk', rfl⟩
      · refine mem_visits.2 (.inr ⟨j, hj, ⟨[], j.node⟩, self_mem_visits g j.node, ?_⟩)
        simp [Call.under]
      · refine mem_visits.2 (.inr ⟨i, hi, j.under k'.around, ih i hi hk' hj, ?_⟩)
        exact under_under ..

/-- What holds at first, and of what is called by what it holds of, holds of all that is visited. -/
theorem visits_induction {motive : Call → Prop} (h : motive ⟨[], n⟩)
    (hcall : ∀ k ∈ visits g n, motive k → ∀ j ∈ calls g k.node, motive (j.under k.around)) :
    ∀ k ∈ visits g n, motive k := by
  suffices hall : ∀ m c, (Call.mk c m) ∈ visits g n → motive ⟨c, m⟩ →
      ∀ k ∈ visits g m, k.under c ∈ visits g n ∧ motive (k.under c) by
    intro k hk
    have hk' := (hall n [] (self_mem_visits g n) h k hk).2
    rwa [show k.under [] = k by simp [Call.under]] at hk'
  intro m
  induction m using calls_induction (g := g) with
  | h m ih =>
      intro c hm hmotive k hk
      rcases mem_visits.1 hk with rfl | ⟨j, hj, k', hk', rfl⟩
      · exact ⟨hm, hmotive⟩
      · rw [under_under]
        exact ih j hj (j.around ++ c) (mem_visits_of_mem_calls hm hj) (hcall _ hm hmotive j hj) k'
          hk'

/-- What is passed on to what a node holds has reached everything that is visited. -/
theorem Passes.visits {Q : Node → Prop} (hQ : Passes Q) (h : Q n) :
    ∀ k ∈ visits g n, Q k.node :=
  visits_induction (motive := fun k => Q k.node) h fun _ _ hk j hj =>
    hQ.calls (fun key => hQ.get hk key) (fun _ => hQ.items hk) (fun _ => hQ.children hk) j hj

/-- **The leaves of a node are those that its visits have of their own.** -/
theorem leaves_plan (g : Gates) (n : Node) (c : Around) : (leavesOf c (plan g n)).Perm
    ((visits g n).flatMap fun k => leavesOf (k.around ++ c) (own g k.node)) := by
  induction n using calls_induction (g := g) generalizing c with
  | h n ih =>
      rw [plan_eq, visits_eq, List.flatMap_cons, List.flatMap_assoc]
      refine (splits_step g n c (plan g)).trans (List.Perm.append_left _ ?_)
      refine List.Perm.flatMap_left _ fun k hk => (ih k hk (k.around ++ c)).trans (.of_eq ?_)
      rw [List.flatMap_map]
      exact List.flatMap_congr fun j _ => by simp [Call.under]

theorem mem_leaves_plan {l : Leaf} : l ∈ leavesOf [] (plan g n) ↔
    ∃ k ∈ visits g n, l ∈ leavesOf k.around (own g k.node) := by
  rw [(leaves_plan g n []).mem_iff, List.mem_flatMap]
  simp only [List.append_nil]

end LexScope.Walk
