import LexScope.Proofs.Trace

/-!
# Proofs — Paired — the two scopes of an iteration

An iteration with a lexical head has two scopes, and they are opened one after the other in the same
scopes: first the dead zone, then the block.  Nothing else opens a dead zone.  So wherever in a walk
a dead zone is opened, a block for the same node is opened later on (`Paired`).

* `paired_plan`: **the events of a node are paired**, whatever the tree holds.
-/

namespace LexScope.Walk

/-- Whether a node is an iteration over properties or values. -/
def isIteration (n : Node) : Bool := n.hasType "ForInStatement" || n.hasType "ForOfStatement"

/-- Wherever the dead zone of an iteration is opened, its block is opened later, in the same
scopes. -/
structure Paired (events : List Event) : Prop where
  later : ∀ c d n, isIteration n = true → ⟨d, .opens .deadZone n⟩ ∈ sitesOf c events →
    [⟨d, .opens .deadZone n⟩, ⟨d, .opens .block n⟩].Sublist (sitesOf c events)

/-- Whether no scope is entered by an event. -/
def Event.isLeaf : Event → Bool
  | .within .. => false
  | _ => true

variable {g : Gates} {visit : Visit} {n : Node} {events : List Event}

/-! ### What keeps events paired -/

theorem sitesOf_one_within {c : Around} {kind : ScopeKind} {inside : List Event} :
    sitesOf c [.within kind n inside] =
      ⟨c, .opens kind n⟩ :: sitesOf ((kind, n) :: c) inside := by
  rw [sitesOf_cons, sitesOf_nil, List.append_nil, Event.sites]

namespace Paired

variable {a b inside : List Event}

theorem append (ha : Paired a) (hb : Paired b) : Paired (a ++ b) := ⟨fun c d n hn h => by
  rw [sitesOf_append] at h ⊢
  rcases List.mem_append.1 h with h | h
  · exact (ha.later c d n hn h).trans (List.sublist_append_left ..)
  · exact (hb.later c d n hn h).trans (List.sublist_append_right ..)⟩

theorem nil : Paired [] := ⟨nofun⟩

theorem leaf {e : Event} (h : e.isLeaf = true) : Paired [e] := ⟨fun c d n _ hmem => by
  rw [sitesOf_cons, sitesOf_nil, List.append_nil] at hmem
  cases e with
  | define target _ _ => cases target <;> simp [Event.sites] at hmem
  | within => cases h
  | _ => simp [Event.sites] at hmem⟩

theorem cons {e : Event} (h : e.isLeaf = true) (hb : Paired b) : Paired (e :: b) :=
  (leaf h).append hb

theorem flatMap {α : Type} {l : List α} {f : α → List Event} (h : ∀ x ∈ l, Paired (f x)) :
    Paired (l.flatMap f) := by
  induction l with
  | nil => exact nil
  | cons x l ih =>
      exact (h x List.mem_cons_self).append (ih fun y hy => h y (List.mem_cons_of_mem _ hy))

theorem ite {p : Prop} [Decidable p] (ha : Paired a) (hb : Paired b) :
    Paired (if p then a else b) := by
  split
  · exact ha
  · exact hb

/-- A scope of any other kind. -/
theorem within {kind : ScopeKind} (hk : kind ≠ .deadZone) (h : Paired inside) :
    Paired [.within kind n inside] := ⟨fun c d m hm hmem => by
  rw [sitesOf_one_within] at hmem ⊢
  rcases List.mem_cons.1 hmem with he | hmem
  · cases he
    exact absurd rfl hk
  · exact (h.later _ d m hm hmem).cons _⟩

theorem scopes {kinds : List ScopeKind} (hk : ∀ kind ∈ kinds, kind ≠ .deadZone)
    (h : Paired inside) :
    Paired (kinds.foldr (fun kind inside => [.within kind n inside]) inside) := by
  induction kinds with
  | nil => exact h
  | cons kind kinds ih =>
      exact within (hk kind List.mem_cons_self) (ih fun k hk' => hk k (List.mem_cons_of_mem _ hk'))

end Paired

theorem ofType_ne_deadZone (t : Tree) : ScopeKind.ofType t ≠ .deadZone := by
  unfold ScopeKind.ofType
  split <;> nofun

/-- No node introduces a dead zone. -/
theorem ne_deadZone_of_scopeKinds? {isMethod : Bool} {kinds : List ScopeKind} {kind : ScopeKind}
    (h : scopeKinds? n isMethod = some kinds) (hk : kind ∈ kinds) : kind ≠ .deadZone := by
  obtain ⟨k, hof, rfl⟩ := Option.map_eq_some_iff.1 h
  have hne : k ≠ .deadZone := by
    rw [ScopeKind.ofNode?] at hof
    split at hof <;> cases hof
    exact ofType_ne_deadZone _
  split at hk <;> simp at hk
  · rcases hk with rfl | rfl
    · decide
    · exact hne
  · exact hk ▸ hne

/-- An iteration introduces a block. -/
theorem scopeKinds?_of_isIteration (h : isIteration n = true) :
    scopeKinds? n false = some [.block] := by
  have htype : n.type = .str "ForInStatement" ∨ n.type = .str "ForOfStatement" := by
    simpa [isIteration, Node.hasType] using h
  have hkind : ScopeKind.ofNode? n = some .block := by
    rcases htype with ht | ht
    all_goals
      have hobj : n.isObj = true := isObj_of_typeName? (by rw [Node.typeName?, ht])
      rw [ScopeKind.ofNode?, hobj, ht]
      rfl
  rw [scopeKinds?, hkind]
  rfl

theorem paired_nested {isMethod : Bool} (h : Paired events) : Paired (nested n isMethod events) := by
  rw [nested]
  split
  · rename_i kinds hk
    exact (Paired.scopes (fun _ => ne_deadZone_of_scopeKinds? hk) h).append (.leaf rfl)
  · exact .leaf rfl

theorem paired_nestedIf {condition : Bool} (h : Paired events) :
    Paired (nestedIf condition n events) :=
  .ite (paired_nested h) (h.append (.leaf rfl))

theorem paired_forBound {each : Node → List Event} (h : ∀ p, Paired (each p)) :
    Paired (forBound n each) := .flatMap fun item _ => by
  cases item with
  | bound p => exact h p
  | embedded _ => exact .nil
  | broken => exact .leaf rfl

theorem paired_forSequence {each : List Node → List Event} (h : ∀ ns, Paired (each ns)) :
    Paired (forSequence n each) := by
  rw [forSequence]
  split
  · exact h _
  · exact .leaf rfl

theorem paired_onlyInModule (h : Paired events) : Paired (onlyInModule g n events) :=
  .ite h (.leaf rfl)

/-! ### Rules -/

theorem paired_bindDeclarator (target : Target) (kind : DefinitionKind) (n : Node) (i : Nat)
    (d : Node) : Paired (bindDeclarator target kind n i d) :=
  paired_forBound fun _ => .cons rfl (.ite .nil (.leaf rfl))

theorem paired_assignTo (pattern value n : Node) : Paired (assignTo pattern value n) :=
  paired_forBound fun _ => .leaf rfl

theorem paired_writeHead (n head : Node) : Paired (writeHead n head) := by
  rw [writeHead]
  split
  · exact paired_forBound fun _ => .leaf rfl
  · exact .leaf rfl

theorem paired_bindHead (kind : DefinitionKind) (head : Node) : Paired (bindHead kind head) := by
  rw [bindHead]
  split
  · exact paired_bindDeclarator ..
  · exact .leaf rfl

theorem paired_bindImports : Paired (bindImports n) :=
  paired_forSequence fun _ => .flatMap fun _ _ => .ite (.leaf rfl) (.leaf rfl)

/-- What is asked of the nodes further down. -/
def PairedVisit (visit : Visit) : Prop := ∀ n, Paired (visit n)

namespace PairedVisit

variable (hv : PairedVisit visit)
include hv

theorem children (n : Node) : Paired (visitChildren visit n) := .flatMap fun c _ => hv c

theorem embedded (n : Node) : Paired (visitEmbedded visit n) := .flatMap fun c _ => hv c

theorem head (n : Node) : Paired (visitHead visit n) := by
  rw [visitHead]
  split
  · exact hv.embedded _
  · exact .nil

theorem declare (n : Node) : Paired (declare visit n) :=
  .append (.ite (.leaf rfl) .nil) <| paired_forSequence fun _ => .flatMap fun _ _ =>
    .ite (.leaf rfl) (((paired_bindDeclarator ..).append (hv.embedded _)).append (hv _))

theorem assign (n : Node) : Paired (assign visit n) := by
  rw [Walk.assign]
  split
  · exact .leaf rfl
  · exact (hv _).append (hv _)
  · exact .ite (((paired_assignTo ..).append (hv.embedded _)).append (hv _)) (.cons rfl (hv _))

theorem functionBody (n : Node) : Paired (functionBody visit n) := .ite (hv.children n) (hv n)

theorem function (n : Node) (isMethod : Bool) : Paired (function visit n isMethod) :=
  .append (.ite (.leaf rfl) .nil) <| paired_nested <| paired_forSequence fun _ =>
    .append
      (.append (.flatMap fun _ _ => paired_forBound fun _ => .leaf rfl)
        (.flatMap fun c _ => hv.embedded c))
      (hv.functionBody _)

theorem classDefinition (n : Node) : Paired (classDefinition visit n) :=
  .append (.append (.ite (.leaf rfl) .nil) (hv _)) <|
    paired_nested (.append (.ite (.leaf rfl) .nil) (hv _))

theorem property (n : Node) : Paired (property visit n) :=
  .append (.ite (hv _) .nil) (.ite (hv.function _ true) (hv _))

theorem call (n : Node) : Paired (call g visit n) :=
  .ite (hv.children n) <| .ite (.leaf rfl) <| .ite (.cons rfl (hv.children n)) (hv.children n)

/-- The dead zone of an iteration is opened, and then its block. -/
theorem lexicalIteration (n : Node) : Paired (lexicalIteration visit n) := by
  have hzone : Paired (bindHead .deadZone (n.get "left") ++
      .phase .visitRight :: visit (n.get "right") ++ [.phase .closeDeadZone]) :=
    ((paired_bindHead ..).append (.cons rfl (hv _))).append (.leaf rfl)
  have hturn : Paired (bindHead .variable (n.get "left") ++ writeHead n (n.get "left") ++
      visitHead visit (n.get "left") ++ .phase .visitBody :: visit (n.get "body") ++
      [.phase .closeIteration]) :=
    ((((paired_bindHead ..).append (paired_writeHead ..)).append (hv.head _)).append
      (.cons rfl (hv _))).append (.leaf rfl)
  refine ⟨fun c d m hm hmem => ?_⟩
  have hsites : ∀ zone turn, sitesOf c ([.phase .openDeadZone, .within .deadZone n zone,
      .phase .openIteration] ++ nested n false turn) = ⟨c, .opens .deadZone n⟩ ::
        (sitesOf ((.deadZone, n) :: c) zone ++ sitesOf c (nested n false turn)) :=
    fun zone turn => by simp [Event.sites]
  rw [Walk.lexicalIteration, hsites] at hmem ⊢
  rcases List.mem_cons.1 hmem with he | hmem
  · cases he
    refine List.Sublist.cons_cons _ (.trans ?_ (List.sublist_append_right ..))
    rw [nested, scopeKinds?_of_isIteration hm, sitesOf_append]
    exact List.singleton_sublist.2 (List.mem_append_left _ (by simp [Event.sites]))
  · refine .cons _ ?_
    rcases List.mem_append.1 hmem with hmem | hmem
    · exact (hzone.later _ d m hm hmem).trans (List.sublist_append_left ..)
    · exact ((paired_nested hturn).later c d m hm hmem).trans (List.sublist_append_right ..)

theorem iteration (n : Node) : Paired (iteration g visit n) := by
  rw [Walk.iteration]
  refine .ite (hv.lexicalIteration n) (.append (.append (.ite ?_ ?_) (hv _)) (hv _))
  · exact (hv _).append (paired_writeHead ..)
  · split
    · exact .leaf rfl
    · exact (paired_assignTo ..).append (hv.embedded _)
    · exact hv _

/-- Every rule makes paired events if the nodes further down do. -/
theorem rule (n : Node) (family : Family) : Paired (rule g visit n family) := by
  cases family with
  | program =>
      exact paired_nested (.ite (.within nofun (hv.children n)) (hv.children n))
  | block => exact paired_nestedIf (hv.children n)
  | switch => exact (hv _).append (paired_nestedIf (hv _))
  | withObject => exact (hv _).append (paired_nested (hv _))
  | catchClause =>
      exact paired_nested (((paired_forBound fun _ => .leaf rfl).append (hv.embedded _)).append
        (hv _))
  | function => exact hv.function n false
  | classDefinition => exact hv.classDefinition n
  | property => exact hv.property n
  | declaration => exact hv.declare n
  | declarator => exact .leaf rfl
  | assignment => exact hv.assign n
  | update => exact .ite (.leaf rfl) (hv.children n)
  | identifier => exact .leaf rfl
  | access => exact (hv _).append (.ite (hv _) .nil)
  | call => exact hv.call n
  | this => exact .leaf rfl
  | label => exact hv _
  | inert => exact .nil
  | loop => exact paired_nestedIf (hv.children n)
  | iteration => exact hv.iteration n
  | lexicalIteration => exact hv.lexicalIteration n
  | importing => exact paired_onlyInModule paired_bindImports
  | exportNamed => exact paired_onlyInModule (.ite .nil (.ite (hv _) (hv _)))
  | exportDefault => exact paired_onlyInModule (hv _)
  | exportAll => exact paired_onlyInModule .nil
  | exportSpecifier => exact hv _
  | plain => exact hv.children n

theorem step (g : Gates) : PairedVisit (step g visit) := fun n => by
  rw [Walk.step]
  split
  · exact .flatMap fun c _ => hv c
  · split
    · exact hv.rule n _
    · exact .nil

end PairedVisit

theorem pairedVisit_planAt (g : Gates) (depth : Nat) : PairedVisit (planAt g depth) := by
  induction depth with
  | zero => exact fun _ => .nil
  | succ depth ih => exact ih.step g

/-- **The events of a node are paired.** -/
theorem paired_plan (g : Gates) (n : Node) : Paired (plan g n) := pairedVisit_planAt g _ n

end LexScope.Walk
