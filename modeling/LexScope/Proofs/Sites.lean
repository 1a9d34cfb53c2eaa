import LexScope.Proofs.Parts
import LexScope.Proofs.Trace

/-!
# Proofs — Sites — what happens at each part of a program

The rules of the walk reach what stands below a node in three ways: they go over its children, they
visit some of its members, and they read patterns.  Each part of a program has something that happens
for it and for nothing else, its *own* sites (`Part.own`): the scopes it opens, the names it binds
in them, and the use that it is.  What the walk of a phrase comes to (`phraseSites`) is merged from
its own sites and from what the phrases at its slots come to (`Stepped`).

* `stepped_pattern`, `stepped_patternMember`: patterns, each name where it is met.
* `stepped_function`: functions, with all scopes that they have.
* `stepped_children`: whatever just has its children walked.
-/

namespace LexScope

/-! ### Merging -/

/-- A list is put together from others, in whatever order. -/
structure Merges {α : Type} (whole : List α) (pieces : List (List α)) : Prop where
  perm : whole.Perm pieces.flatten

namespace Merges

variable {α β : Type} {a b x : List α} {ps qs : List (List α)} {l : List β}

theorem nil : Merges ([] : List α) [] := ⟨.nil⟩

theorem single (a : List α) : Merges a [a] := ⟨by simp⟩

theorem append (h : Merges a ps) (k : Merges b qs) : Merges (a ++ b) (ps ++ qs) :=
  ⟨List.flatten_append ▸ h.perm.append k.perm⟩

theorem cons (x : List α) (h : Merges a ps) : Merges (x ++ a) (x :: ps) := (single x).append h

theorem congr (h : Merges a ps) (k : ps.Perm qs) : Merges a qs := ⟨h.perm.trans k.flatten⟩

theorem of_perm (h : Merges a ps) (k : b.Perm a) : Merges b ps := ⟨k.trans h.perm⟩

/-- Nothing can be merged with anything. -/
theorem cons_nil (h : Merges a ps) : Merges a ([] :: ps) := ⟨by simpa using h.perm⟩

theorem snoc_nil (h : Merges a ps) : Merges a (ps ++ [[]]) :=
  h.cons_nil.congr (List.perm_append_singleton _ _).symm

theorem append_nils (h : Merges a ps) (hq : ∀ q ∈ qs, q = []) : Merges a (qs ++ ps) := by
  induction qs with
  | nil => exact h
  | cons q qs ih =>
      rw [hq q List.mem_cons_self]
      exact (ih fun r hr => hq r (List.mem_cons_of_mem _ hr)).cons_nil

/-- Nothing can be merged after the first piece. -/
theorem cons_append_nils (h : Merges a (x :: ps)) (hq : ∀ q ∈ qs, q = []) :
    Merges a (x :: (qs ++ ps)) := (h.append_nils hq).congr List.perm_middle

theorem flatMap (l : List β) (f : β → List α) : Merges (l.flatMap f) (l.map f) :=
  ⟨by rw [List.flatMap_def]⟩

/-- Pieces that come in two kinds: those of the one kind are taken together. -/
theorem interleave {w f g : β → List α} (h : ∀ y ∈ l, Merges (w y) [f y, g y]) :
    Merges (l.flatMap w) (l.flatMap f :: l.map g) := by
  induction l with
  | nil => exact nil.cons_nil
  | cons y l ih =>
      have ih := ih fun z hz => h z (List.mem_cons_of_mem _ hz)
      have hperm := (h y List.mem_cons_self).perm.append ih.perm
      simp only [List.flatten_cons, List.flatten_nil, List.append_nil, List.append_assoc]
        at hperm
      refine ⟨?_⟩
      simp only [List.flatMap_cons, List.map_cons, List.flatten_cons, List.append_assoc]
      refine hperm.trans (List.Perm.append_left _ ?_)
      rw [← List.append_assoc, ← List.append_assoc]
      exact List.perm_append_comm.append_right _

/-- The first parts of some pieces may come before all the second ones. -/
theorem split (l : List β) (f g : β → List α) :
    Merges (l.flatMap f ++ l.flatMap g) (l.map fun y => f y ++ g y) := by
  refine ⟨?_⟩
  induction l with
  | nil => exact .nil
  | cons y l ih =>
      simp only [List.flatMap_cons, List.map_cons, List.flatten_cons, List.append_assoc]
      refine List.Perm.append_left _ ?_
      rw [← List.append_assoc]
      refine (List.perm_append_comm.append_right _).trans ?_
      rw [List.append_assoc]
      exact ih.append_left _

/-- All pieces but the first are taken together. -/
theorem join (h : Merges a (x :: ps)) : Merges a [x, ps.flatten] := ⟨by simpa using h.perm⟩

/-- What is put together piece by piece is put together from the first parts of all pieces and from
the second ones. -/
theorem zip (l : List β) (f g : β → List α) :
    Merges (l.flatMap fun y => f y ++ g y) [l.flatMap f, l.flatMap g] :=
  ⟨by simpa [List.flatMap_def] using (split l f g).perm.symm⟩

/-- Something may come in the midst of a piece. -/
theorem around {y : List α} (h : Merges b ps) (k : Merges y qs) (a x : List α) :
    Merges (a ++ b ++ (x ++ y)) ((a ++ x) :: (ps ++ qs)) := by
  refine ((h.append k).cons (a ++ x)).of_perm ?_
  simp only [List.append_assoc]
  rw [← List.append_assoc b, ← List.append_assoc x]
  exact (List.perm_append_comm.append_right y).append_left a

/-- Pieces are put together from others in turn. -/
theorem expand {f : β → List α} {g : β → List (List α)} (h : Merges a (x :: l.map f))
    (k : ∀ y ∈ l, Merges (f y) (g y)) : Merges a (x :: l.flatMap g) := by
  refine ⟨h.perm.trans ?_⟩
  rw [List.flatten_cons, List.flatten_cons]
  refine List.Perm.append_left _ ?_
  rw [← List.flatMap_id (L := l.flatMap g), List.flatMap_assoc, ← List.flatMap_def]
  exact List.Perm.flatMap_left _ fun y hy => by
    rw [List.flatMap_id]
    exact (k y hy).perm

end Merges

namespace Grammar

open Walk

/-! ### Scopes around a part -/

/-- The kinds of scopes that a function has, outermost first. -/
def functionScopes (n : Node) (isMethod : Bool) : List ScopeKind :=
  if n.namesItself && !isMethod then [.functionName, .function] else [.function]

/-- Whether an iteration has a scope for its head. -/
def isLexicalIteration (g : Gates) (n : Node) : Bool := g.es6 && isLexical (n.get "left")

/-- The kinds of scopes that a node of a family has around what stands at one of its members,
outermost first. -/
def walkedScopes (g : Gates) (n : Node) (key : String) : Family → List ScopeKind
  | .program => if g.isModule then [.global, .moduleTop] else [.global]
  | .block => if g.es6 then [.block] else []
  | .switch => if g.es6 && key = "cases" then [.switch] else []
  | .withObject => if key = "body" then [.withObject] else []
  | .catchClause => [.catchClause]
  | .function => functionScopes n false
  | .classDefinition => if key = "body" then [.classBody] else []
  | .loop => if g.es6 && isLexical (n.get "init") then [.block] else []
  | .iteration =>
      if isLexicalIteration g n then if key = "right" then [.deadZone] else [.block] else []
  | _ => []

/-- The kinds of scopes that a phrase has around what stands at one of its members. -/
def scopes (g : Gates) (φ : Phrase) (n : Node) (key : String) : List ScopeKind :=
  match φ with
  | .walked _ => (n.typeName?.map fun type => walkedScopes g n key (.ofType type)).getD []
  | .method => functionScopes n true
  | _ => []

/-- What is inside scopes of one node. -/
def inside (c : Around) (n : Node) (kinds : List ScopeKind) : Around :=
  kinds.reverse.map (·, n) ++ c

/-- The scopes that a station puts around what it leads to. -/
def Station.around (g : Gates) (t : Station) (c : Around) : Around :=
  inside c t.node (scopes g t.phrase t.node t.key)

/-- The scopes around a part. -/
def Part.around (g : Gates) (p : Part) : Around := p.above.foldr (Station.around g) []

/-! ### The sites of its own -/

/-- Scopes of one node are opened one in the other. -/
def enters (c : Around) (n : Node) : List ScopeKind → List Site
  | [] => []
  | kind :: kinds => ⟨c, .opens kind n⟩ :: enters ((kind, n) :: c) n kinds

/-- The identifiers of a pattern are bound. -/
def binds (c : Around) (pattern : Node) (d : Node → Definition) : List Site :=
  (Pattern.bound pattern).map fun p => ⟨c, .binds p (d p)⟩

/-- The definition of a name of a declarator. -/
def declaratorDefinition (kind : DefinitionKind) (declaration : Node) (d : Node × Nat) (p : Node) :
    Definition :=
  { kind, name := p, node := d.1, parent := declaration, index := .int d.2,
    declarationKind := (declaration.get "kind").value }

/-- The names of a declaration are bound. -/
def declares (kind : DefinitionKind) (c : Around) (n : Node) : List Site :=
  (n.get "declarations").items.zipIdx.flatMap fun d =>
    binds c (d.1.get "id") (declaratorDefinition kind n d)

/-- The names of a declaration are bound where it stands, unless they are bound further up. -/
def declaresHere (c : Around) (n : Node) : List Site :=
  if (n.get "kind").value = .str "var" then [] else declares .variable c n

/-- What happens for a function and for nothing in it. -/
def functionSites (c : Around) (n : Node) (isMethod : Bool) : List Site :=
  let kinds := functionScopes n isMethod
  (if n.hasType "FunctionDeclaration" then [⟨c, .binds (n.get "id") (.ofFunction n)⟩] else []) ++
    enters c n kinds ++
    (n.get "params").items.zipIdx.flatMap fun param =>
      binds (inside c n kinds) param.1 fun p =>
        { kind := .parameter, name := p, node := n, index := .int param.2 }

/-- What happens for a class and for nothing in it. -/
def classSites (c : Around) (n : Node) : List Site :=
  let bind (c : Around) : Site :=
    ⟨c, .binds (n.get "id") { kind := .className, name := n.get "id", node := n }⟩
  (if n.hasType "ClassDeclaration" then [bind c] else []) ++ ⟨c, .opens .classBody n⟩ ::
    if (n.get "id").truthy then [bind ((.classBody, n) :: c)] else []

/-- What happens for an iteration with a lexical head and for nothing in it. -/
def lexicalIterationSites (c : Around) (n : Node) : List Site :=
  ⟨c, .opens .deadZone n⟩ :: declares .deadZone ((.deadZone, n) :: c) (n.get "left") ++
    ⟨c, .opens .block n⟩ :: declares .variable ((.block, n) :: c) (n.get "left")

/-- What happens for a node that is walked and for nothing below it. -/
def walkedSites (g : Gates) (c : Around) (n : Node) : Family → List Site
  | .program => enters c n (walkedScopes g n "body" .program)
  | .block => enters c n (walkedScopes g n "body" .block)
  | .switch => enters c n (walkedScopes g n "cases" .switch)
  | .withObject => enters c n [.withObject]
  | .catchClause =>
      ⟨c, .opens .catchClause n⟩ :: binds ((.catchClause, n) :: c) (n.get "param") fun p =>
        { kind := .catchClause, name := p, node := n }
  | .function => functionSites c n false
  | .classDefinition => classSites c n
  | .declaration => declaresHere c n
  | .identifier => [⟨c, .uses n⟩]
  | .loop => enters c n (walkedScopes g n "body" .loop)
  | .iteration => if isLexicalIteration g n then lexicalIterationSites c n else []
  | .importing => (n.get "specifiers").items.map fun specifier =>
      ⟨c, .binds (specifier.get "local")
        { kind := .importBinding, name := specifier.get "local", node := specifier, parent := n }⟩
  | _ => []

/-- An identifier is used as often as its role says. -/
def useSites (c : Around) (ρ : Role) (n : Node) : List Site :=
  (List.replicate ρ.uses ⟨c, .uses n⟩).filter fun _ => n.isIdentifier

/-- What happens for a phrase and for nothing below it. -/
def ownSites (g : Gates) (c : Around) (φ : Phrase) (n : Node) : List Site :=
  match φ with
  | .walked _ => (n.typeName?.map fun type => walkedSites g c n (.ofType type)).getD []
  | .word ρ _ | .pattern ρ => useSites c ρ n
  | .method => functionSites c n true
  | .head => if g.es6 then [] else declaresHere c n
  | _ => []

/-! ### What a phrase comes to -/

/-- The names of a pattern are written as often as their role says. -/
def boundSites (c : Around) (ρ : Role) (items : List Pattern.Item) : List Site :=
  (items.filterMap Pattern.Item.bound?).flatMap fun p => List.replicate ρ.uses ⟨c, .uses p⟩

/-- The expressions embedded in a pattern are visited. -/
def embeddedSites (g : Gates) (c : Around) (items : List Pattern.Item) : List Site :=
  (items.filterMap Pattern.Item.embedded?).flatMap fun m => sitesOf c (plan g m)

/-- The sites of a pattern, or of a part of one. -/
def itemSites (g : Gates) (c : Around) (ρ : Role) (items : List Pattern.Item) : List Site :=
  boundSites c ρ items ++ embeddedSites g c items

/-- The sites of a declarator, but for what it binds. -/
def declaratorSites (g : Gates) (c : Around) (inHead : Bool) (n : Node) : List Site :=
  itemSites g c (declaratorRole n inHead) (Pattern.items (n.get "id")) ++
    sitesOf c (plan g (n.get "init"))

/-- What the walk of a phrase comes to. -/
def phraseSites (g : Gates) (c : Around) (φ : Phrase) (n : Node) : List Site :=
  match φ with
  | .walked _ => sitesOf c (plan g n)
  | .word ρ _ => useSites c ρ n
  | .pattern ρ => itemSites g c ρ (Pattern.items n)
  | .patternMember ρ => itemSites g c ρ (Pattern.property Pattern.items n)
  | .declarator => declaratorSites g c false n
  | .headDeclarator => declaratorSites g c true n
  | .head => (if g.es6 then [] else declaresHere c n) ++
      (n.get "declarations").items.flatMap (declaratorSites g c true)
  | .method => sitesOf c (function (plan g) n true)
  | .body => sitesOf c (functionBody (plan g) n)
  | .importSpecifier | .foreignSpecifier => []

namespace Part

/-- What happens for a part and for nothing below it. -/
def own (g : Gates) (p : Part) : List Site := ownSites g (p.around g) p.phrase p.node

/-- What the walk of a part comes to. -/
def told (g : Gates) (p : Part) : List Site := phraseSites g (p.around g) p.phrase p.node

end Part

/-! ### Reading conforming parts -/

variable {g : Gates} {c : Around} {n m : Node} {kinds : List ScopeKind} {p q : Part} {s : Slot}
  {slots : List Slot} {type : String}

/-- The kind of scope that nodes of a family introduce. -/
def kindOf : Family → ScopeKind
  | .program => .global
  | .catchClause => .catchClause
  | .withObject => .withObject
  | .classDefinition => .classBody
  | .switch => .switch
  | .block | .loop | .iteration => .block
  | _ => .function

theorem ofType_eq_kindOf (h : type ∉ familyNames) :
    ScopeKind.ofType (.str type) = kindOf (.ofType type) := by
  unfold Family.ofType
  split <;> first | rfl | exact absurd (by decide) h | skip
  unfold ScopeKind.ofType kindOf
  split <;> first | rfl | (rename_i he; cases he; simp at *)

theorem type_eq (ht : n.typeName? = some type) : n.type = .str type := by
  rw [Node.typeName?] at ht
  split at ht
  · rename_i s hs
    rw [hs, Option.some.inj ht]
  · cases ht

/-- The scopes that a node introduces. -/
theorem scopeKinds?_eq (ht : n.typeName? = some type) (hn : type ∉ familyNames)
    (isMethod : Bool) : scopeKinds? n isMethod = some
      (if kindOf (.ofType type) = .function then functionScopes n isMethod
        else [kindOf (.ofType type)]) := by
  rw [scopeKinds?, ScopeKind.ofNode?, isObj_of_typeName? ht, type_eq ht, ofType_eq_kindOf hn]
  simp only [Tree.isScalar, Bool.and_self, if_true, Option.map_some, functionScopes,
    Bool.and_eq_true, decide_eq_true_eq]
  by_cases hk : kindOf (.ofType type) = .function <;> simp [hk]

theorem inside_cons (kind : ScopeKind) :
    inside c n (kind :: kinds) = inside ((kind, n) :: c) n kinds := by
  simp [inside]

theorem sitesOf_within (kinds : List ScopeKind) (events : List Event) :
    sitesOf c (kinds.foldr (fun kind events => [.within kind n events]) events) =
      enters c n kinds ++ sitesOf (inside c n kinds) events := by
  induction kinds generalizing c with
  | nil => rfl
  | cons kind kinds ih =>
      rw [List.foldr_cons, sitesOf_cons, sitesOf_nil, List.append_nil, Event.sites, ih,
        inside_cons]
      rfl

/-- What happens in the scopes that a node introduces. -/
theorem sitesOf_nested {isMethod : Bool} {events : List Event}
    (h : scopeKinds? n isMethod = some kinds) : sitesOf c (nested n isMethod events) =
      enters c n kinds ++ sitesOf (inside c n kinds) events := by
  rw [nested, h]
  dsimp only
  rw [sitesOf_append, sitesOf_within]
  simp [Event.sites]

theorem sitesOf_nestedIf {condition : Bool} {kind : ScopeKind} {events : List Event}
    (h : scopeKinds? n false = some [kind]) : sitesOf c (nestedIf condition n events) =
      enters c n (if condition then [kind] else []) ++
        sitesOf (inside c n (if condition then [kind] else [])) events := by
  cases condition with
  | true => exact sitesOf_nested h
  | false =>
      show sitesOf c (events ++ [.closeOwned n]) = _
      simp [Event.sites, enters, inside]

/-- The plan of a node that is walked. -/
theorem plan_rule (ht : n.typeName? = some type) :
    plan g n = rule g (plan g) n (.ofType type) := by
  have hobj := isObj_of_typeName? ht
  rw [plan_eq, step, ht]
  split
  · rename_i ts hv
    rw [Node.isObj, hv] at hobj
    cases hobj
  · rfl

theorem plan_null (h : n.isNull = true) : plan g n = [] := by
  have hv : n.value = .null := of_decide_eq_true h
  rw [plan, Node.height, hv]
  rfl

theorem plan_list {l : Node} {ts : List Tree} (h : l.value = .arr ts) :
    plan g l = l.items.flatMap (plan g) := by
  rw [plan_eq, step, h]

theorem sequence?_list {l : Node} {ts : List Tree} (h : l.value = .arr ts) :
    l.sequence? = some l.items := by
  rw [Node.sequence?, Node.items, h]
  cases ts <;> simp [Tree.truthy, Node.itemsFrom]

theorem forSequence_list {l : Node} {ts : List Tree} (h : l.value = .arr ts)
    (each : List Node → List Event) : forSequence l each = each l.items := by
  rw [forSequence, sequence?_list h]

namespace Part

/-- What stands at a slot of a part comes to. -/
theorem told_standing (p : Part) (s : Slot) : (p.standing s).map (told g) =
    (s.nodes p.node).map
      (phraseSites g (inside (p.around g) p.node (scopes g p.phrase p.node s.key)) s.phrase) := by
  rw [standing, List.map_map]
  rfl

/-- What stands below a part comes to. -/
theorem told_below (h : p.slots = slots) : p.below.map (told g) =
    slots.flatMap fun s => (s.nodes p.node).map
      (phraseSites g (inside (p.around g) p.node (scopes g p.phrase p.node s.key)) s.phrase) := by
  rw [below, h, List.map_flatMap]
  exact List.flatMap_congr fun s _ => told_standing p s

end Part

/-- What a phrase comes to is merged from its own sites and what stands at its slots comes to. -/
def Stepped (g : Gates) (c : Around) (φ : Phrase) (n : Node) (slots : List Slot) : Prop :=
  Merges (phraseSites g c φ n) (ownSites g c φ n :: slots.flatMap fun s =>
    (s.nodes n).map (phraseSites g (inside c n (scopes g φ n s.key)) s.phrase))

variable {φ : Phrase} {ρ : Role}

/-! ### Patterns -/

/-- What stands alone at a member. -/
theorem Holds.get (h : Holds φ n) (hs : slots? φ n = some slots) {key : String} {ψ : Phrase}
    (hsl : ⟨key, .one, ψ⟩ ∈ slots) : Holds ψ (n.get key) :=
  h.below hs hsl (List.mem_singleton_self _)

theorem itemSites_flatMap {α : Type} (l : List α) (f : α → List Pattern.Item) :
    Merges (itemSites g c ρ (l.flatMap f)) (l.map fun m => itemSites g c ρ (f m)) := by
  have hbound : boundSites c ρ (l.flatMap f) = l.flatMap fun m => boundSites c ρ (f m) := by
    simp only [boundSites, List.filterMap_flatMap, List.flatMap_assoc]
  have hembedded : embeddedSites g c (l.flatMap f) = l.flatMap fun m =>
      embeddedSites g c (f m) := by
    simp only [embeddedSites, List.filterMap_flatMap, List.flatMap_assoc]
  rw [itemSites, hbound, hembedded]
  exact Merges.split ..

theorem itemSites_append (a b : List Pattern.Item) :
    Merges (itemSites g c ρ (a ++ b)) [itemSites g c ρ a, itemSites g c ρ b] := by
  have h := itemSites_flatMap (g := g) (c := c) (ρ := ρ) [a, b] id
  rwa [show [a, b].flatMap id = a ++ b by simp] at h

@[simp] theorem itemSites_nil : itemSites g c ρ [] = [] := by
  simp [itemSites, boundSites, embeddedSites]

@[simp] theorem itemSites_embedded (m : Node) :
    itemSites g c ρ [.embedded m] = sitesOf c (plan g m) := by
  simp [itemSites, boundSites, embeddedSites, Pattern.Item.bound?, Pattern.Item.embedded?]

theorem itemSites_bound (h : m.isIdentifier = true) :
    itemSites g c ρ [.bound m] = useSites c ρ m := by
  simp [itemSites, boundSites, embeddedSites, useSites, Pattern.Item.bound?,
    Pattern.Item.embedded?, h]

/-- What is no object holds no names. -/
theorem items_of_isNull (h : m.isNull = true) : Pattern.items m = [] := by
  have hv : m.value = .null := of_decide_eq_true h
  rw [Pattern.items, Node.height, hv]
  rfl

theorem parts_list {l : Node} {ts : List Tree} (h : l.value = .arr ts)
    (each : Node → List Pattern.Item) : Pattern.parts l each = l.items.flatMap each := by
  rw [Pattern.parts, sequence?_list h]

/-- Gaps hold no names. -/
theorem flatMap_items_filter (l : List Node) :
    (l.filter fun m => !m.isNull).flatMap Pattern.items = l.flatMap Pattern.items := by
  induction l with
  | nil => rfl
  | cons m l ih =>
      cases hm : m.isNull with
      | false => simp [hm, ih]
      | true => simp [hm, ih, items_of_isNull hm]

theorem Holds.not_isNull (h : Holds φ n) : n.isNull = false := by
  cases hn : n.isNull with
  | false => rfl
  | true =>
      obtain ⟨type, ht, -⟩ := h.typeName?
      have := Node.not_isTyped_of_isNull hn
      rw [Node.isTyped, ht] at this
      cases this

/-- What stands at a slot of a pattern has no scopes of the pattern around it. -/
theorem stepped_iff {whole own : List Site} (hw : phraseSites g c φ n = whole)
    (ho : ownSites g c φ n = own) (hk : ∀ key, scopes g φ n key = []) :
    Stepped g c φ n slots ↔ Merges whole (own :: slots.flatMap fun s =>
      (s.nodes n).map (phraseSites g c s.phrase)) := by
  rw [Stepped, hw, ho]
  simp only [hk, inside, List.reverse_nil, List.map_nil, List.nil_append]

/-- A member access visits its object, and its property if that is computed. -/
theorem merges_access (n : Node) : Merges (sitesOf c (access (plan g) n))
    ((accessSlots n).flatMap fun s => (s.nodes n).map (phraseSites g c s.phrase)) := by
  rw [access, sitesOf_append, accessSlots, List.flatMap_cons, List.flatMap_singleton, isComputed]
  refine .cons _ ?_
  cases (n.get "computed").truthy
  · exact Merges.nil.cons_nil
  · exact .single _

/-- What stands at a member where something may be missing. -/
theorem merges_optional (key : String) (types : List String) :
    Merges (sitesOf c (plan g (n.get key)))
      (((Slot.mk key .optional (.walked types)).nodes n).map
        (phraseSites g c (.walked types))) := by
  show Merges _ ((if (n.get key).isNull then [] else [n.get key]).map _)
  cases hnull : (n.get key).isNull with
  | false => exact .single _
  | true =>
      rw [plan_null hnull]
      exact .nil

/-- A pattern is read part by part. -/
theorem stepped_pattern (h : Holds (.pattern ρ) n) (hs : slots? (.pattern ρ) n = some slots) :
    Stepped g c (.pattern ρ) n slots := by
  obtain ⟨type, ht, -, -, hp⟩ := slots?_eq_some.1 hs
  have hp : patternSlots? ρ n type = some slots := hp
  have hstep := Pattern.items_eq n
  rw [Pattern.step, h.isObj] at hstep
  rw [stepped_iff rfl rfl fun _ => rfl, phraseSites, ownSites]
  have hnot : type ≠ "Identifier" → useSites c ρ n = [] := fun hne => by
    have hid : n.isIdentifier = false := by
      rw [Node.isIdentifier, ← Bool.not_eq_true, hasType_iff, ht]
      exact fun he => hne (Option.some.inj he)
    rw [useSites, hid]
    simp
  unfold patternSlots? at hp
  split at hp
  · obtain rfl := Option.some.inj hp
    replace hstep : Pattern.items n = [.bound n] := by rw [hstep, ht]; rfl
    rw [hstep, itemSites_bound (hasType_iff.2 ht)]
    exact .single _
  · obtain rfl := Option.some.inj hp
    replace hstep : Pattern.items n = [.embedded n] := by rw [hstep, ht]; rfl
    rw [hstep, hnot (by decide), itemSites_embedded, plan_rule ht]
    exact (merges_access n).cons_nil
  · obtain rfl := Option.some.inj hp
    replace hstep : Pattern.items n =
        Pattern.parts (n.get "properties") (Pattern.property Pattern.items) := by rw [hstep, ht]; rfl
    obtain ⟨ts, hv⟩ := Part.value_of_fits (h.fits hs List.mem_cons_self) (.inl rfl)
    rw [hstep, hnot (by decide), parts_list hv]
    rw [List.flatMap_singleton]
    exact (itemSites_flatMap (n.get "properties").items (Pattern.property Pattern.items)).cons_nil
  · obtain rfl := Option.some.inj hp
    replace hstep : Pattern.items n = Pattern.parts (n.get "elements") Pattern.items := by
      rw [hstep, ht]; rfl
    obtain ⟨ts, hv⟩ := Part.value_of_fits (h.fits hs List.mem_cons_self) (.inr rfl)
    rw [hstep, hnot (by decide), parts_list hv, ← flatMap_items_filter]
    rw [List.flatMap_singleton]
    exact (itemSites_flatMap ((n.get "elements").items.filter fun m => !m.isNull)
      Pattern.items).cons_nil
  · obtain rfl := Option.some.inj hp
    replace hstep : Pattern.items n = Pattern.items (n.get "argument") := by rw [hstep, ht]; rfl
    rw [hstep, hnot (by decide)]
    exact (Merges.single _).cons_nil
  · obtain rfl := Option.some.inj hp
    have hholds : Holds _ (n.get "right") :=
      h.get hs (List.mem_cons_of_mem _ List.mem_cons_self)
    have hright : (n.get "right").isNull = false := hholds.not_isNull
    replace hstep : Pattern.items n =
        Pattern.items (n.get "left") ++ [.embedded (n.get "right")] := by
      rw [hstep, ht]
      show Pattern.items (n.get "left") ++ (if (n.get "right").isNull then [] else _) = _
      rw [hright]
      rfl
    rw [hstep, hnot (by decide)]
    have hm := itemSites_append (g := g) (c := c) (ρ := ρ) (Pattern.items (n.get "left"))
      [.embedded (n.get "right")]
    rw [itemSites_embedded] at hm
    exact hm.cons_nil
  · cases hp

/-- A word that is not used comes to nothing. -/
theorem useSites_of_unused (h : ρ.uses = 0) : useSites c ρ n = [] := by simp [useSites, h]

theorem hasType_of_types (h : Holds φ n) (ht : φ.types = [type]) : n.hasType type = true := by
  obtain ⟨t, hn, hmem, -⟩ := h.typeName?
  rw [ht, List.mem_singleton] at hmem
  exact hasType_iff.2 (hmem ▸ hn)

/-- What is read off a member of an object pattern: first a computed key, then the target, which is
the key itself in a shorthand without a default. -/
theorem property_eq (h : Holds (.patternMember ρ) n)
    (hs : slots? (.patternMember ρ) n = some slots) : Pattern.property Pattern.items n =
      (if isComputed n then [.embedded (n.get "key")] else []) ++
        if (n.get "shorthand").truthy && !(n.get "value").hasType "AssignmentPattern" then
          [.bound (n.get "key")]
        else Pattern.items (n.get "value") := by
  have hvalue : (n.get "value").isObj = true := by
    obtain ⟨type, -, -, -, hslots⟩ := slots?_eq_some.1 hs
    have hslots : patternMemberSlots? ρ n = some slots := hslots
    unfold patternMemberSlots? at hslots
    split_ifs at hslots <;> obtain rfl := Option.some.inj hslots <;>
      exact (h.get hs (List.mem_cons_of_mem _ List.mem_cons_self)).isObj
  rw [Pattern.property, h.isObj, hasType_of_types h rfl, Pattern.target, hvalue, Bool.not_true,
    Bool.and_false]
  cases (n.get "shorthand").truthy <;> cases (n.get "value").hasType "AssignmentPattern" <;> rfl

/-- The member of an object pattern. -/
theorem stepped_patternMember (h : Holds (.patternMember ρ) n)
    (hs : slots? (.patternMember ρ) n = some slots) : Stepped g c (.patternMember ρ) n slots := by
  obtain ⟨type, -, -, -, hp⟩ := slots?_eq_some.1 hs
  refine (stepped_iff (show _ = itemSites g c ρ (Pattern.property Pattern.items n) from rfl)
    (show _ = [] from rfl) fun _ => rfl).2 (Merges.cons_nil ?_)
  have hp : patternMemberSlots? ρ n = some slots := hp
  rw [property_eq h hs]
  unfold patternMemberSlots? keySlot at hp
  split_ifs at hp with hshort hcomp hdefault hcomp <;> obtain rfl := Option.some.inj hp <;>
    rw [List.flatMap_cons, List.flatMap_singleton]
  · -- A shorthand with a default: what is bound stands in the value.
    rw [if_neg hcomp, hdefault]
    simp only [Bool.not_true, Bool.and_false, Bool.false_eq_true, if_false, List.nil_append]
    exact (Merges.single _).cons_nil
  · -- A shorthand: the key is bound, and the value repeats it.
    have hkey : Holds _ (n.get "key") := h.get hs List.mem_cons_self
    rw [if_neg hcomp, if_pos (by simp [hshort, hdefault])]
    show Merges (itemSites g c ρ [.bound (n.get "key")]) [useSites c ρ (n.get "key"), []]
    rw [itemSites_bound (hasType_of_types hkey rfl)]
    exact (Merges.single _).snoc_nil
  · rw [if_pos hcomp, if_neg (by simp [hshort])]
    have hm := itemSites_append (g := g) (c := c) (ρ := ρ) [.embedded (n.get "key")]
      (Pattern.items (n.get "value"))
    rw [itemSites_embedded] at hm
    exact hm
  · rw [if_neg hcomp, if_neg (by simp [hshort])]
    exact (Merges.single _).cons_nil

/-- Whether an item of a pattern can be read, and is an identifier if it is bound. -/
def isLegible : Pattern.Item → Bool
  | .bound m => m.isIdentifier
  | .embedded _ => true
  | .broken => false

/-- Whether the items of a pattern can be read. -/
def Legible (items : List Pattern.Item) : Prop := ∀ item ∈ items, isLegible item = true

theorem legible_one {item : Pattern.Item} (h : isLegible item = true) : Legible [item] :=
  fun _ hi => List.mem_singleton.1 hi ▸ h

theorem legible_append {a b : List Pattern.Item} (ha : Legible a) (hb : Legible b) :
    Legible (a ++ b) := fun item hi => (List.mem_append.1 hi).elim (ha item) (hb item)

theorem legible_flatMap {l : List Node} {f : Node → List Pattern.Item}
    (h : ∀ m ∈ l, Legible (f m)) : Legible (l.flatMap f) := fun item hi => by
  obtain ⟨m, hm, hi⟩ := List.mem_flatMap.1 hi
  exact h m hm item hi

/-- A pattern can be read if the phrases below it can be. -/
theorem legible_pattern (h : Holds (.pattern ρ) n) (hs : slots? (.pattern ρ) n = some slots)
    (hp : ∀ m, ∀ s ∈ slots, s.phrase = .pattern ρ → m ∈ s.nodes n → Legible (Pattern.items m))
    (hm : ∀ m, ∀ s ∈ slots, s.phrase = .patternMember ρ → m ∈ s.nodes n →
      Legible (Pattern.property Pattern.items m)) : Legible (Pattern.items n) := by
  obtain ⟨type, ht, -, -, hslots⟩ := slots?_eq_some.1 hs
  have hslots : patternSlots? ρ n type = some slots := hslots
  rw [Pattern.items_eq, Pattern.step, h.isObj, ht]
  unfold patternSlots? at hslots
  split at hslots
  · exact legible_one (hasType_iff.2 ht)
  · exact legible_one rfl
  · obtain rfl := Option.some.inj hslots
    obtain ⟨ts, hv⟩ := Part.value_of_fits (h.fits hs List.mem_cons_self) (.inl rfl)
    show Legible (Pattern.parts (n.get "properties") _)
    rw [parts_list hv]
    exact legible_flatMap fun m hmem => hm m _ List.mem_cons_self rfl hmem
  · obtain rfl := Option.some.inj hslots
    obtain ⟨ts, hv⟩ := Part.value_of_fits (h.fits hs List.mem_cons_self) (.inr rfl)
    show Legible (Pattern.parts (n.get "elements") _)
    rw [parts_list hv, ← flatMap_items_filter]
    exact legible_flatMap fun m hmem => hp m _ List.mem_cons_self rfl hmem
  · obtain rfl := Option.some.inj hslots
    exact hp _ _ List.mem_cons_self rfl (List.mem_singleton_self _)
  · obtain rfl := Option.some.inj hslots
    refine legible_append (hp _ _ List.mem_cons_self rfl (List.mem_singleton_self _)) ?_
    split
    · exact List.forall_mem_nil _
    · exact legible_one rfl
  · cases hslots

/-- A member of an object pattern can be read if its target can be. -/
theorem legible_patternMember (h : Holds (.patternMember ρ) n)
    (hs : slots? (.patternMember ρ) n = some slots)
    (hp : ∀ m, ∀ s ∈ slots, s.phrase = .pattern ρ → m ∈ s.nodes n → Legible (Pattern.items m)) :
    Legible (Pattern.property Pattern.items n) := by
  obtain ⟨type, -, -, -, hslots⟩ := slots?_eq_some.1 hs
  have hslots : patternMemberSlots? ρ n = some slots := hslots
  rw [property_eq h hs]
  refine legible_append ?_ ?_
  · split
    · exact legible_one rfl
    · exact nofun
  unfold patternMemberSlots? at hslots
  split_ifs at hslots with hshort hcomp hdefault <;> obtain rfl := Option.some.inj hslots
  · rw [if_neg (by simp [hdefault])]
    exact hp _ _ (List.mem_cons_of_mem _ List.mem_cons_self) rfl (List.mem_singleton_self _)
  · have hkey : Holds _ (n.get "key") := h.get hs List.mem_cons_self
    rw [if_pos (by simp [hshort, hdefault])]
    exact legible_one (hasType_of_types hkey rfl)
  · rw [if_neg (by simp [hshort])]
    exact hp _ _ (List.mem_cons_of_mem _ List.mem_cons_self) rfl (List.mem_singleton_self _)

/-- **A pattern of the grammar can be read**, and what it binds are identifiers. -/
theorem Holds.legible (h : Holds (.pattern ρ) n) : Legible (Pattern.items n) := by
  refine (Holds.induction (motive := fun φ n => (∀ ρ, φ = .pattern ρ → Legible (Pattern.items n)) ∧
    ∀ ρ, φ = .patternMember ρ → Legible (Pattern.property Pattern.items n))
    (fun φ n slots h hs ih => ⟨?_, ?_⟩) h).1 ρ rfl
  · rintro ρ rfl
    exact legible_pattern h hs (fun m s hsl he hm => (ih s hsl m hm).1 ρ he)
      fun m s hsl he hm => (ih s hsl m hm).2 ρ he
  · rintro ρ rfl
    exact legible_patternMember h hs fun m s hsl he hm => (ih s hsl m hm).1 ρ he

theorem not_broken (h : Holds (.pattern ρ) n) : .broken ∉ Pattern.items n := fun hb =>
  Bool.false_ne_true (h.legible _ hb)

theorem isIdentifier_of_bound (h : Holds (.pattern ρ) n) (hm : m ∈ Pattern.bound n) :
    m.isIdentifier = true := by
  obtain ⟨item, hi, hb⟩ := List.mem_filterMap.1 hm
  have hlegible := h.legible item hi
  cases item with
  | bound p => cases hb; exact hlegible
  | _ => cases hb

/-- Something for each name of a pattern that can be read. -/
theorem forBound_eq (h : Holds (.pattern ρ) n) (each : Node → List Event) :
    forBound n each = (Pattern.bound n).flatMap each := by
  have hb := not_broken h
  rw [forBound, Pattern.bound]
  generalize Pattern.items n = items at hb
  induction items with
  | nil => rfl
  | cons item items ih =>
      have ih := ih fun hm => hb (List.mem_cons_of_mem _ hm)
      cases item with
      | bound p =>
          rw [List.flatMap_cons, ih]
          rfl
      | embedded p =>
          rw [List.flatMap_cons, ih]
          rfl
      | broken => exact absurd List.mem_cons_self hb

/-! ### Declarators -/

theorem merges_declarator (n : Node) (inHead : Bool) : Merges (declaratorSites g c inHead n)
    ((declaratorSlots n inHead).flatMap fun s => (s.nodes n).map (phraseSites g c s.phrase)) := by
  rw [declaratorSites, declaratorSlots, List.flatMap_cons, List.flatMap_singleton]
  exact .cons _ (merges_optional "init" expressions)

theorem stepped_declarator (hs : slots? .declarator n = some slots) :
    Stepped g c .declarator n slots := by
  obtain ⟨type, -, -, -, hp⟩ := slots?_eq_some.1 hs
  obtain rfl := Option.some.inj hp
  exact (stepped_iff rfl (show _ = [] from rfl) fun _ => rfl).2 (merges_declarator n false).cons_nil

theorem stepped_headDeclarator (hs : slots? .headDeclarator n = some slots) :
    Stepped g c .headDeclarator n slots := by
  obtain ⟨type, -, -, -, hp⟩ := slots?_eq_some.1 hs
  obtain rfl := Option.some.inj hp
  exact (stepped_iff rfl (show _ = [] from rfl) fun _ => rfl).2 (merges_declarator n true).cons_nil

theorem stepped_head (hs : slots? .head n = some slots) : Stepped g c .head n slots := by
  obtain ⟨type, -, -, -, hp⟩ := slots?_eq_some.1 hs
  refine (stepped_iff rfl rfl fun _ => rfl).2 ?_
  rw [typeSlots?] at hp
  split at hp
  · obtain rfl := Option.some.inj hp
    rw [List.flatMap_singleton]
    exact .cons _ (.flatMap ..)
  · cases hp

/-! ### Words -/

theorem stepped_word {types : List String} (hs : slots? (.word ρ types) n = some slots) :
    Stepped g c (.word ρ types) n slots := by
  obtain ⟨type, -, -, -, hp⟩ := slots?_eq_some.1 hs
  obtain rfl := Option.some.inj hp
  exact .single _

theorem stepped_importSpecifier (hs : slots? .importSpecifier n = some slots) :
    Stepped g c .importSpecifier n slots := by
  obtain ⟨type, -, -, -, hp⟩ := slots?_eq_some.1 hs
  rw [typeSlots?] at hp
  obtain rfl := Option.some.inj hp
  split
  · exact Merges.nil.cons_nil.cons_nil.cons_nil
  · exact Merges.nil.cons_nil.cons_nil

theorem stepped_foreignSpecifier (hs : slots? .foreignSpecifier n = some slots) :
    Stepped g c .foreignSpecifier n slots := by
  obtain ⟨type, -, -, -, hp⟩ := slots?_eq_some.1 hs
  obtain rfl := Option.some.inj hp
  exact Merges.nil.cons_nil.cons_nil.cons_nil

/-! ### Children -/

/-- Where everything at the slots is walked, and in the same scopes, the children are what is
visited. -/
theorem merges_children (h : Holds φ n) (hs : slots? φ n = some slots)
    (hw : ∀ s ∈ slots, ∀ m ∈ s.nodes n,
      phraseSites g (inside c n (scopes g φ n s.key)) s.phrase m =
        sitesOf (inside c n kinds) (plan g m)) :
    Merges (sitesOf (inside c n kinds) (visitChildren (plan g) n)) (slots.flatMap fun s =>
      (s.nodes n).map (phraseSites g (inside c n (scopes g φ n s.key)) s.phrase)) := by
  have hperm := h.children_perm hs
  have hpieces : (slots.flatMap fun s =>
      (s.nodes n).map (phraseSites g (inside c n (scopes g φ n s.key)) s.phrase)) =
      (slots.flatMap (·.nodes n)).map fun m => sitesOf (inside c n kinds) (plan g m) := by
    rw [List.map_flatMap]
    exact List.flatMap_congr fun s hsl => List.map_congr_left (hw s hsl)
  rw [hpieces, visitChildren, sitesOf_flatMap]
  exact (Merges.flatMap ..).congr (hperm.map _)

/-! ### Functions -/

theorem sitesOf_map {α : Type} (l : List α) (f : α → Event) :
    sitesOf c (l.flatMap fun x => [f x]) = l.flatMap fun x => (f x).sites c := by
  rw [sitesOf_flatMap]
  exact List.flatMap_congr fun x _ => by simp

theorem sitesOf_visitEmbedded : sitesOf c (visitEmbedded (plan g) n) =
    embeddedSites g c (Pattern.items n) := sitesOf_flatMap ..

theorem itemSites_of_unused {items : List Pattern.Item} (h : ρ.uses = 0) :
    itemSites g c ρ items = embeddedSites g c items := by
  simp [itemSites, boundSites, h]

/-- What is bound for each name of a pattern. -/
theorem sitesOf_forBound (h : Holds (.pattern ρ) n) (d : Node → Definition) :
    sitesOf c (forBound n fun p => [.define .here p (d p)]) = binds c n d := by
  rw [forBound_eq h, sitesOf_map, binds, List.map_eq_flatMap]
  rfl

theorem sitesOf_bindParameters {params : List Node}
    (h : ∀ param ∈ params, Holds (.pattern .parameter) param) :
    sitesOf c (bindParameters n params) = params.zipIdx.flatMap fun param =>
      binds c param.1 fun p =>
        { kind := .parameter, name := p, node := n, index := .int param.2 } := by
  rw [bindParameters, sitesOf_flatMap]
  exact List.flatMap_congr fun param hp =>
    sitesOf_forBound (h param.1 (List.fst_mem_of_mem_zipIdx hp)) _

theorem sitesOf_ite_define {condition : Prop} [Decidable condition] {d : Definition} :
    sitesOf c (if condition then [.define .here n d] else []) =
      if condition then [⟨c, .binds n d⟩] else [] := by
  split <;> rfl

theorem stepped_function {isMethod : Bool} {φ : Phrase} (h : Holds φ n)
    (ht : n.typeName? = some type) (hn : type ∉ familyNames)
    (hf : Family.ofType type = .function)
    (hs : slots? φ n = some slots) (hsl : walkedSlots? n type .function = some slots)
    (hw : phraseSites g c φ n = sitesOf c (function (plan g) n isMethod))
    (ho : ownSites g c φ n = functionSites c n isMethod)
    (hk : ∀ key, scopes g φ n key = functionScopes n isMethod) : Stepped g c φ n slots := by
  obtain rfl := Option.some.inj hsl
  have hkinds : scopeKinds? n isMethod = some (functionScopes n isMethod) := by
    rw [scopeKinds?_eq ht hn, hf]
    rfl
  obtain ⟨ts, hv⟩ := Part.value_of_fits (h.fits hs (List.mem_cons_of_mem _ List.mem_cons_self))
    (.inl rfl)
  have hparams : ∀ param ∈ (n.get "params").items, Holds (.pattern .parameter) param :=
    fun param hp => h.below hs (List.mem_cons_of_mem _ List.mem_cons_self) hp
  rw [Stepped, hw, ho, Walk.function]
  simp only [hk]
  rw [sitesOf_append, sitesOf_nested hkinds, forSequence_list hv, sitesOf_append, sitesOf_append,
    sitesOf_bindParameters hparams, sitesOf_ite_define, ← List.append_assoc, ← List.append_assoc,
    ← List.append_assoc, List.append_assoc _ (sitesOf _ _), List.flatMap_cons, List.flatMap_cons,
    List.flatMap_singleton]
  refine Merges.cons _ (Merges.append_nils ?_ fun q hq => ?_)
  · rw [sitesOf_flatMap]
    refine .append ?_ ?_
    · refine (Merges.flatMap ..).congr (.of_eq (List.map_congr_left fun param hp => ?_))
      rw [sitesOf_visitEmbedded]
      exact (itemSites_of_unused (ρ := .parameter) rfl).symm
    · show Merges _ [phraseSites g _ (if _ then _ else _) _]
      split
      · rename_i hbody
        rw [functionBody, if_neg (by simp_all)]
        exact .single _
      · exact .single _
  · obtain ⟨m, -, rfl⟩ := List.mem_map.1 hq
    exact useSites_of_unused (ρ := .functionName) rfl

theorem stepped_method (h : Holds .method n) (hs : slots? .method n = some slots) :
    Stepped g c .method n slots := by
  obtain ⟨type, ht, hmem, hn, hsl⟩ := slots?_eq_some.1 hs
  obtain rfl : type = "FunctionExpression" := List.mem_singleton.1 hmem
  exact stepped_function h ht hn rfl hs hsl rfl rfl fun _ => rfl

/-! ### Nodes that are walked -/

/-- Whether a phrase is walked by the rule of its type. -/
def Phrase.isWalked : Phrase → Bool
  | .walked _ => true
  | _ => false

/-- Where the children are walked, in the same scopes, and something happens before. -/
theorem stepped_children (h : Holds φ n) (hs : slots? φ n = some slots) (kinds : List ScopeKind)
    (hw : ∀ s ∈ slots, s.phrase.isWalked = true)
    (hk : ∀ s ∈ slots, scopes g φ n s.key = kinds)
    (he : phraseSites g c φ n =
      ownSites g c φ n ++ sitesOf (inside c n kinds) (visitChildren (plan g) n)) :
    Stepped g c φ n slots := by
  rw [Stepped, he]
  refine .cons _ (merges_children h hs fun s hsl m _ => ?_)
  have hwalked := hw s hsl
  rw [hk s hsl]
  cases hφ : s.phrase <;> rw [hφ] at hwalked <;> first | rfl | cases hwalked

theorem stepped_body (h : Holds .body n) (hs : slots? .body n = some slots) :
    Stepped g c .body n slots := by
  obtain ⟨type, ht, hmem, hn, hsl⟩ := slots?_eq_some.1 hs
  obtain rfl : type = "BlockStatement" := List.mem_singleton.1 hmem
  have hsl : walkedSlots? n "BlockStatement" .block = some slots := hsl
  cases hsl
  refine stepped_children h hs [] (by decide) (fun _ _ => rfl) ?_
  show sitesOf c (functionBody (plan g) n) = [] ++ _
  rw [functionBody, if_pos (hasType_iff.2 ht)]
  rfl

/-- What stands at a member that is a list. -/
theorem merges_many {ts : List Tree} {l : Node} (hv : l.value = .arr ts) (types : List String) :
    Merges (sitesOf c (plan g l)) (l.items.map (phraseSites g c (.walked types))) := by
  rw [plan_list hv, sitesOf_flatMap]
  exact .flatMap ..

section Walked

variable {types : List String} {family : Family} (h : Holds (.walked types) n)
  (hs : slots? (.walked types) n = some slots) (ht : n.typeName? = some type)
  (hn : type ∉ familyNames) (hf : Family.ofType type = family)

include ht hf

theorem scopes_walked (key : String) :
    scopes g (.walked types) n key = walkedScopes g n key family := by
  rw [scopes, ht, Option.map_some, hf]
  rfl

/-- What a node that is walked comes to. -/
theorem stepped_walked_iff : Stepped g c (.walked types) n slots ↔
    Merges (sitesOf c (rule g (plan g) n family)) (walkedSites g c n family ::
      slots.flatMap fun s => (s.nodes n).map
        (phraseSites g (inside c n (walkedScopes g n s.key family)) s.phrase)) := by
  rw [Stepped, phraseSites, plan_rule ht, ownSites, ht, Option.map_some, Option.getD_some, hf]
  simp only [scopes_walked ht hf]

include h hs in
theorem stepped_walked_children (kinds : List ScopeKind)
    (hw : ∀ s ∈ slots, s.phrase.isWalked = true)
    (hk : ∀ s ∈ slots, walkedScopes g n s.key family = kinds)
    (he : sitesOf c (rule g (plan g) n family) = walkedSites g c n family ++
      sitesOf (inside c n kinds) (visitChildren (plan g) n)) :
    Stepped g c (.walked types) n slots := by
  refine stepped_children h hs kinds hw (fun s hsl => ?_) ?_
  · rw [scopes_walked ht hf, hk s hsl]
  · rw [phraseSites, plan_rule ht, ownSites, ht, Option.map_some, Option.getD_some, hf, he]

include hn in
/-- The scopes that a node of a family introduces. -/
theorem scopeKinds?_family (hk : kindOf family ≠ .function) :
    scopeKinds? n false = some [kindOf family] := by
  rw [scopeKinds?_eq ht hn, hf, if_neg hk]

end Walked

end Grammar

end LexScope
