import LexScope.Proofs.Order

/-!
# Proofs — Source — what a walk names stands in the program

A property of values is *hereditary* when it passes on to everything that is read from a value
(`Tree.Hereditary`).  Whatever the events of a node name — identifiers that are bound or used, nodes
that scopes belong to — has every hereditary property of the node (`Event.Sourced`).  The events say
two more things about the program: a global scope belongs to a program node, and a use carries a
candidate only for itself, on behalf of an assignment or an iteration that writes to it
(`Use.Imputes`).

* `allSourced_plan`: **the events of a node are sourced**, whatever the tree holds.
* `Good.sourced`: so are, at every moment of a walk, the scopes and references of the store.
-/

namespace LexScope

/-- A property of values that passes on to whatever is read from them. -/
structure Tree.Hereditary (P : Tree → Prop) : Prop where
  null : P .null
  str : ∀ s, P (.str s)
  item : ∀ items t, P (.arr items) → t ∈ items → P t
  member : ∀ members k t, P (.obj members) → (k, t) ∈ members → P t

/-- No property at all passes on. -/
theorem Tree.hereditary_true : Hereditary fun _ => True :=
  ⟨trivial, fun _ => trivial, fun _ _ _ _ => trivial, fun _ _ _ _ _ => trivial⟩

namespace Tree.Hereditary

variable {P : Tree → Prop} {n c : Node}

theorem get (hP : Hereditary P) (h : P n.value) (key : String) : P (n.get key).value := by
  show P (n.value.get key)
  cases hv : n.value with
  | obj members =>
      rw [hv] at h
      rw [Tree.get]
      cases hl : members.lookup key with
      | none => exact hP.null
      | some t => exact hP.member members key t h (mem_of_lookup hl)
  | _ => exact hP.null

theorem of_mem_itemsFrom {p : Path} {i : Nat} {ts : List Tree} (h : c ∈ Node.itemsFrom p i ts) :
    c.value ∈ ts := by
  induction ts generalizing i with
  | nil => cases h
  | cons t ts ih =>
      rcases List.mem_cons.1 h with rfl | h
      · exact List.mem_cons_self
      · exact List.mem_cons_of_mem _ (ih h)

theorem items (hP : Hereditary P) (h : P n.value) (hc : c ∈ n.items) : P c.value := by
  rw [Node.items] at hc
  split at hc
  · rename_i ts hv
    exact hP.item ts _ (hv ▸ h) (of_mem_itemsFrom hc)
  · cases hc

theorem sequence {ns : List Node} (hP : Hereditary P) (h : P n.value)
    (hs : n.sequence? = some ns) (hc : c ∈ ns) : P c.value := by
  rw [Node.sequence?] at hs
  split at hs
  · cases hs; cases hc
  · split at hs
    · rename_i ts hv
      cases hs
      exact hP.item ts _ (hv ▸ h) (of_mem_itemsFrom hc)
    · cases hs
      obtain ⟨s, -, hs⟩ := List.mem_map.1 (of_mem_itemsFrom hc)
      exact hs ▸ hP.str _
    · cases hs
      obtain ⟨m, -, hm⟩ := List.mem_map.1 (of_mem_itemsFrom hc)
      exact hm ▸ hP.str _
    · cases hs

theorem typedAt (hP : Hereditary P) (h : P n.value) (hc : c ∈ n.typedAt) : P c.value := by
  rw [Node.typedAt] at hc
  split at hc
  · rename_i ts hv
    exact hP.item ts _ (hv ▸ h) (of_mem_itemsFrom (List.mem_filter.1 hc).1)
  · split at hc
    · rw [List.mem_singleton.1 hc]
      exact h
    · cases hc

theorem children (hP : Hereditary P) (h : P n.value) (hc : c ∈ n.children) : P c.value := by
  rw [Node.children] at hc
  split at hc
  · rename_i members hv
    obtain ⟨⟨key, t⟩, hm, hc⟩ := List.mem_flatMap.1 hc
    rw [hv] at h
    exact hP.typedAt (n := ⟨n.path ++ [.member key], t⟩)
      (hP.member members key t h (List.mem_filter.1 hm).1) hc
  · cases hc

/-! ### Patterns -/

open Pattern in
/-- Every item is about a node that has the property. -/
def Items (P : Tree → Prop) (l : List Item) : Prop :=
  ∀ item ∈ l, ∀ m, item.node? = some m → P m.value

open Pattern

variable {walk : Node → List Item}

theorem items_one {item : Item} (h : ∀ m, item.node? = some m → P m.value) : Items P [item] := by
  intro i hi
  rw [List.mem_singleton.1 hi]
  exact h

theorem items_append {l k : List Item} (hl : Items P l) (hk : Items P k) : Items P (l ++ k) :=
  fun item hi => (List.mem_append.1 hi).elim (hl item) (hk item)

theorem items_parts {each : Node → List Item} (hP : Hereditary P)
    (he : ∀ c, P c.value → Items P (each c)) (h : P n.value) : Items P (parts n each) := by
  rw [parts]
  split
  · rename_i ns hs
    intro item hi
    obtain ⟨d, hd, hi⟩ := List.mem_flatMap.1 hi
    exact he d (hP.sequence h hs hd) item hi
  · exact items_one fun m hm => by cases hm

theorem items_target (hP : Hereditary P) (hw : ∀ c, P c.value → Items P (walk c))
    (h : P n.value) : Items P (target walk n) := by
  have hvalue := hw _ (hP.get h "value")
  unfold target
  split
  · dsimp only
    split
    · exact items_one nofun
    · split
      · exact hvalue
      · exact items_one (by rintro m ⟨rfl⟩; exact hP.get h _)
  · exact hvalue

theorem items_property (hP : Hereditary P) (hw : ∀ c, P c.value → Items P (walk c))
    (h : P n.value) : Items P (property walk n) := by
  rw [property]
  split
  · exact items_one fun m hm => by cases hm
  · split
    · exact hw n h
    · dsimp only
      refine items_append ?_ (items_target hP hw h)
      split
      · exact items_one (by rintro m ⟨rfl⟩; exact hP.get h _)
      · exact List.forall_mem_nil _

theorem items_step (hP : Hereditary P) (hw : ∀ c, P c.value → Items P (walk c))
    (h : P n.value) : Items P (step walk n) := by
  rw [step]
  split
  · exact List.forall_mem_nil _
  · split
    · exact items_one (by rintro m ⟨rfl⟩; exact h)
    · exact items_parts hP (fun c => items_property hP hw) (hP.get h _)
    · exact items_parts hP hw (hP.get h _)
    · exact hw _ (hP.get h _)
    · exact hw _ (hP.get h _)
    · dsimp only
      refine items_append (hw _ (hP.get h _)) ?_
      split
      · exact List.forall_mem_nil _
      · exact items_one (by rintro m ⟨rfl⟩; exact hP.get h _)
    · exact items_one (by rintro m ⟨rfl⟩; exact h)

theorem items_pattern (hP : Hereditary P) (h : P n.value) : Items P (Pattern.items n) := by
  have hdepth : ∀ depth c, P c.value → Items P (itemsAt depth c) := by
    intro depth
    induction depth with
    | zero => exact fun _ _ => nofun
    | succ depth ih => exact fun c => items_step hP ih
  exact hdepth n.height n h

theorem embedded (hP : Hereditary P) (h : P n.value) (hc : c ∈ Pattern.embedded n) :
    P c.value := by
  obtain ⟨item, hi, he⟩ := List.mem_filterMap.1 hc
  refine items_pattern hP h item hi c ?_
  cases item with
  | embedded m => exact he
  | _ => cases he

end Tree.Hereditary

theorem ScopeKind.eq_of_ofType_global {t : Tree} (h : ScopeKind.ofType t = .global) :
    t = .str "Program" := by
  unfold ScopeKind.ofType at h
  split at h <;> first | rfl | cases h

/-! ### Sourced events -/

/-- A candidate is for the identifier it stands with, on behalf of an assignment or an iteration
that writes to it. -/
def Use.Imputes (u : Use) : Prop := ∀ c, u.candidate = some c →
  c.pattern = u.identifier ∧ u.identifier ∈ Pattern.bound (c.node.get "left") ∧
    ∃ type, c.node.typeName? = some type ∧
      (Walk.Family.ofType type = .assignment ∨ Walk.Family.ofType type = .iteration)

open LexScope.Tree (Hereditary)

namespace Walk

mutual

/-- What an event names has a property, and what it says about the program is so. -/
def Event.Sourced (P : Tree → Prop) : Event → Prop
  | .define _ n _ => P n.value
  | .refer u => P u.identifier.value ∧ u.Imputes
  | .within kind n inside =>
      P n.value ∧ (kind = .global → n.hasType "Program" = true) ∧ AllSourced P inside
  | _ => True

/-- What all events name has a property. -/
def AllSourced (P : Tree → Prop) : List Event → Prop
  | [] => True
  | e :: rest => e.Sourced P ∧ AllSourced P rest

end

variable {P : Tree → Prop} {n m c : Node} {events : List Event}

theorem allSourced_iff : AllSourced P events ↔ ∀ e ∈ events, e.Sourced P := by
  induction events with
  | nil => simp [AllSourced]
  | cons e rest ih => simp [AllSourced, ih]

theorem allSourced_append {a b : List Event} :
    AllSourced P (a ++ b) ↔ AllSourced P a ∧ AllSourced P b := by
  simp only [allSourced_iff, List.mem_append, or_imp, forall_and]

theorem allSourced_flatMap {α : Type} {l : List α} {f : α → List Event} :
    AllSourced P (l.flatMap f) ↔ ∀ a ∈ l, AllSourced P (f a) := by
  simp only [allSourced_iff, List.mem_flatMap, forall_exists_index, and_imp]
  exact ⟨fun h a ha e he => h e a ha he, fun h e a ha he => h a ha e he⟩

theorem allSourced_one {e : Event} : AllSourced P [e] ↔ e.Sourced P := by
  simp [AllSourced]

theorem allSourced_malformed : AllSourced P [.fail .malformed] := ⟨trivial, trivial⟩

theorem Use.imputes_of_none {u : Use} (h : u.candidate = none) : u.Imputes := by
  intro c hc
  rw [h] at hc
  cases hc

/-! ### Parts of rules -/

/-- What is asked of the nodes further down. -/
def SourcedVisit (P : Tree → Prop) (visit : Visit) : Prop :=
  ∀ n, P n.value → AllSourced P (visit n)

variable {visit : Visit} (hP : Hereditary P) (hv : SourcedVisit P visit)

include hP

theorem allSourced_forBound {each : Node → List Event} (h : P n.value)
    (he : ∀ p ∈ Pattern.bound n, P p.value → AllSourced P (each p)) :
    AllSourced P (forBound n each) := by
  refine allSourced_flatMap.2 fun item hi => ?_
  cases item with
  | bound p =>
      exact he p (List.mem_filterMap.2 ⟨_, hi, rfl⟩) (hP.items_pattern h _ hi p rfl)
  | embedded p => trivial
  | broken => exact allSourced_malformed

theorem allSourced_forSequence {each : List Node → List Event} (h : P n.value)
    (he : ∀ ns, (∀ c ∈ ns, P c.value) → AllSourced P (each ns)) :
    AllSourced P (forSequence n each) := by
  rw [forSequence]
  split
  · rename_i ns hs
    exact he ns fun c hc => hP.sequence h hs hc
  · exact allSourced_malformed

omit hP in
theorem hasType_of_global {isMethod : Bool} {kinds : List ScopeKind}
    (h : scopeKinds? n isMethod = some kinds) (hk : .global ∈ kinds) :
    n.hasType "Program" = true := by
  obtain ⟨kind, hkind, rfl⟩ := Option.map_eq_some_iff.1 h
  have hglobal : kind = .global := by
    split at hk
    · rcases List.mem_cons.1 hk with hk | hk
      · cases hk
      · exact (List.mem_singleton.1 hk).symm
    · exact (List.mem_singleton.1 hk).symm
  rw [ScopeKind.ofNode?] at hkind
  split at hkind
  · rw [hglobal, Option.some.injEq] at hkind
    exact decide_eq_true (ScopeKind.eq_of_ofType_global hkind)
  · cases hkind

omit hP in
theorem allSourced_nested {isMethod : Bool} (h : P n.value) (hin : AllSourced P events) :
    AllSourced P (nested n isMethod events) := by
  have hwithin : ∀ kinds : List ScopeKind, (.global ∈ kinds → n.hasType "Program" = true) →
      AllSourced P (kinds.foldr (fun kind inside => [.within kind n inside]) events) := by
    intro kinds hk
    induction kinds with
    | nil => exact hin
    | cons kind kinds ih =>
        refine allSourced_one.2 ⟨h, ?_, ih fun hk' => hk (List.mem_cons_of_mem _ hk')⟩
        rintro rfl
        exact hk List.mem_cons_self
  rw [nested]
  split
  · rename_i kinds hk
    exact allSourced_append.2 ⟨hwithin kinds (hasType_of_global hk), allSourced_one.2 trivial⟩
  · exact allSourced_malformed

omit hP in
theorem allSourced_nestedIf {condition : Bool} (h : P n.value) (hin : AllSourced P events) :
    AllSourced P (nestedIf condition n events) := by
  rw [nestedIf]
  split
  · exact allSourced_nested h hin
  · exact allSourced_append.2 ⟨hin, allSourced_one.2 trivial⟩

include hv

theorem SourcedVisit.get (h : P n.value) (key : String) : AllSourced P (visit (n.get key)) :=
  hv _ (hP.get h key)

theorem SourcedVisit.children (h : P n.value) : AllSourced P (visitChildren visit n) :=
  allSourced_flatMap.2 fun _ hc => hv _ (hP.children h hc)

theorem SourcedVisit.embedded (h : P n.value) : AllSourced P (visitEmbedded visit n) :=
  allSourced_flatMap.2 fun _ hc => hv _ (hP.embedded h hc)

/-! ### Rules -/

omit hv in
theorem allSourced_bindDeclarator (target : Target) (kind : DefinitionKind) (declaration : Node)
    (i : Nat) (h : P n.value) : AllSourced P (bindDeclarator target kind declaration i n) := by
  refine allSourced_forBound hP (hP.get h _) fun p _ hp => ⟨hp, ?_⟩
  split
  · trivial
  · exact allSourced_one.2 ⟨hp, Use.imputes_of_none rfl⟩

omit hv in
/-- A write that may create what it writes to imputes itself. -/
theorem allSourced_assignTo {type : String} (value : Node) (h : P n.value)
    (ht : n.typeName? = some type)
    (hf : Family.ofType type = .assignment ∨ Family.ofType type = .iteration) :
    AllSourced P (assignTo (n.get "left") value n) := by
  refine allSourced_forBound hP (hP.get h _) fun p hp hpv => allSourced_one.2 ⟨hpv, ?_⟩
  rintro c ⟨rfl⟩
  exact ⟨rfl, hp, type, ht, hf⟩

omit hv in
theorem sourced_of_declarator {i : Nat} (h : P n.value) (hd : declarator? n i = some c) :
    P c.value := by
  obtain ⟨hd, -⟩ := Option.filter_eq_some_iff.1 hd
  exact hP.items (hP.get h _) (List.mem_of_getElem? hd)

omit hv in
theorem allSourced_writeHead (h : P c.value) : AllSourced P (writeHead n c) := by
  rw [writeHead]
  split
  · exact allSourced_forBound hP (hP.get (sourced_of_declarator hP h ‹_›) _) fun p _ hp =>
      allSourced_one.2 ⟨hp, Use.imputes_of_none rfl⟩
  · exact allSourced_malformed

omit hv in
theorem allSourced_bindHead (kind : DefinitionKind) (h : P n.value) :
    AllSourced P (bindHead kind n) := by
  rw [bindHead]
  split
  · exact allSourced_bindDeclarator hP _ _ _ _ (sourced_of_declarator hP h ‹_›)
  · exact allSourced_malformed

theorem SourcedVisit.declare (h : P n.value) : AllSourced P (declare visit n) := by
  rw [Walk.declare]
  dsimp only
  refine allSourced_append.2 ⟨?_, allSourced_forSequence hP (hP.get h _) fun ds hds =>
    allSourced_flatMap.2 ?_⟩
  · split
    · exact allSourced_one.2 trivial
    · trivial
  · rintro ⟨d, i⟩ hd
    have hdv := hds d (List.fst_mem_of_mem_zipIdx hd)
    dsimp only
    split
    · exact allSourced_malformed
    · exact allSourced_append.2 ⟨allSourced_append.2
        ⟨allSourced_bindDeclarator hP _ _ _ _ hdv, hv.embedded hP (hP.get hdv _)⟩, hv.get hP hdv _⟩

theorem SourcedVisit.assign {type : String} (h : P n.value) (ht : n.typeName? = some type)
    (hf : Family.ofType type = .assignment) : AllSourced P (assign visit n) := by
  unfold Walk.assign
  dsimp only
  split
  · exact allSourced_malformed
  · exact allSourced_append.2 ⟨hv.get hP h _, hv.get hP h _⟩
  · split
    · exact allSourced_append.2 ⟨allSourced_append.2
        ⟨allSourced_assignTo hP _ h ht (.inl hf), hv.embedded hP (hP.get h _)⟩, hv.get hP h _⟩
    · exact ⟨⟨hP.get h _, Use.imputes_of_none rfl⟩, hv.get hP h _⟩

theorem SourcedVisit.update (h : P n.value) : AllSourced P (update visit n) := by
  unfold Walk.update
  dsimp only
  split
  · exact allSourced_one.2 ⟨hP.get h _, Use.imputes_of_none rfl⟩
  · exact hv.children hP h

theorem SourcedVisit.functionBody (h : P n.value) : AllSourced P (functionBody visit n) := by
  rw [Walk.functionBody]
  split
  · exact hv.children hP h
  · exact hv n h

theorem SourcedVisit.function (h : P n.value) (isMethod : Bool) :
    AllSourced P (function visit n isMethod) := by
  unfold Walk.function
  dsimp only
  refine allSourced_append.2 ⟨?_, allSourced_nested h (allSourced_forSequence hP (hP.get h _)
    fun params hps => allSourced_append.2 ⟨allSourced_append.2 ⟨?_, ?_⟩, ?_⟩)⟩
  · split
    · exact allSourced_one.2 (hP.get h _)
    · trivial
  · refine allSourced_flatMap.2 fun ⟨param, i⟩ hp => ?_
    exact allSourced_forBound hP (hps param (List.fst_mem_of_mem_zipIdx hp)) fun p _ hpv =>
      allSourced_one.2 hpv
  · exact allSourced_flatMap.2 fun p hp => hv.embedded hP (hps p hp)
  · exact hv.functionBody hP (hP.get h _)

theorem SourcedVisit.classDefinition (h : P n.value) : AllSourced P (classDefinition visit n) := by
  unfold Walk.classDefinition
  dsimp only
  refine allSourced_append.2 ⟨allSourced_append.2 ⟨?_, hv.get hP h _⟩,
    allSourced_nested h (allSourced_append.2 ⟨?_, hv.get hP h _⟩)⟩
  · split
    · exact allSourced_one.2 (hP.get h _)
    · trivial
  · split
    · exact allSourced_one.2 (hP.get h _)
    · trivial

theorem SourcedVisit.property (h : P n.value) : AllSourced P (property visit n) := by
  unfold Walk.property
  dsimp only
  refine allSourced_append.2 ⟨?_, ?_⟩
  · split
    · exact hv.get hP h _
    · trivial
  · split
    · exact hv.function hP (hP.get h _) true
    · exact hv.get hP h _

theorem SourcedVisit.program (g : Gates) (h : P n.value) : AllSourced P (program g visit n) := by
  refine allSourced_nested h ?_
  split
  · exact allSourced_one.2 ⟨h, nofun, hv.children hP h⟩
  · exact hv.children hP h

theorem SourcedVisit.catchClause (h : P n.value) : AllSourced P (catchClause visit n) := by
  refine allSourced_nested h (allSourced_append.2 ⟨allSourced_append.2 ⟨?_, ?_⟩, hv.get hP h _⟩)
  · exact allSourced_forBound hP (hP.get h _) fun p _ hp => allSourced_one.2 hp
  · exact hv.embedded hP (hP.get h _)

theorem SourcedVisit.visitHead (h : P n.value) : AllSourced P (visitHead visit n) := by
  rw [Walk.visitHead]
  split
  · exact hv.embedded hP (hP.get (sourced_of_declarator hP h ‹_›) _)
  · trivial

theorem SourcedVisit.lexicalIteration (h : P n.value) :
    AllSourced P (lexicalIteration visit n) := by
  unfold Walk.lexicalIteration
  dsimp only
  have hleft := hP.get h "left"
  refine allSourced_append.2 ⟨⟨trivial, ⟨h, nofun, ?_⟩, trivial, trivial⟩, allSourced_nested h ?_⟩
  · exact allSourced_append.2 ⟨allSourced_append.2
      ⟨allSourced_bindHead hP _ hleft, trivial, hv.get hP h _⟩, allSourced_one.2 trivial⟩
  · exact allSourced_append.2 ⟨allSourced_append.2 ⟨allSourced_append.2 ⟨allSourced_append.2
      ⟨allSourced_bindHead hP _ hleft, allSourced_writeHead hP hleft⟩, hv.visitHead hP hleft⟩,
      trivial, hv.get hP h _⟩, allSourced_one.2 trivial⟩

theorem SourcedVisit.iteration (g : Gates) {type : String} (h : P n.value)
    (ht : n.typeName? = some type) (hf : Family.ofType type = .iteration) :
    AllSourced P (iteration g visit n) := by
  rw [Walk.iteration]
  dsimp only
  split
  · exact hv.lexicalIteration hP h
  · refine allSourced_append.2 ⟨allSourced_append.2 ⟨?_, hv.get hP h _⟩, hv.get hP h _⟩
    split
    · exact allSourced_append.2 ⟨hv.get hP h _, allSourced_writeHead hP (hP.get h _)⟩
    · split
      · exact allSourced_malformed
      · exact allSourced_append.2
          ⟨allSourced_assignTo hP _ h ht (.inr hf), hv.embedded hP (hP.get h _)⟩
      · exact hv.get hP h _

theorem SourcedVisit.call (g : Gates) (h : P n.value) : AllSourced P (call g visit n) := by
  unfold Walk.call
  dsimp only
  have hbody := hv.children hP h
  split
  · exact hbody
  · split
    · exact allSourced_malformed
    · split
      · exact ⟨trivial, hbody⟩
      · exact hbody

omit hP hv in
theorem allSourced_onlyInModule {g : Gates} (h : AllSourced P events) :
    AllSourced P (onlyInModule g n events) := by
  rw [onlyInModule]
  split
  · exact h
  · exact allSourced_one.2 trivial

omit hv in
theorem allSourced_bindImports (h : P n.value) : AllSourced P (bindImports n) := by
  refine allSourced_forSequence hP (hP.get h _) fun specifiers hs =>
    allSourced_flatMap.2 fun specifier hsp => ?_
  split
  · exact allSourced_malformed
  · exact allSourced_one.2 (hP.get (hs specifier hsp) _)

theorem SourcedVisit.exportNamed (h : P n.value) : AllSourced P (exportNamed visit n) := by
  rw [Walk.exportNamed]
  split
  · trivial
  · split
    · exact hv.get hP h _
    · exact hv.get hP h _

/-- Every rule makes sourced events if the nodes further down do. -/
theorem SourcedVisit.rule (g : Gates) {type : String} (h : P n.value)
    (ht : n.typeName? = some type) : AllSourced P (rule g visit n (.ofType type)) := by
  generalize hf : Family.ofType type = family
  cases family with
  | program => exact hv.program hP g h
  | block => exact allSourced_nestedIf h (hv.children hP h)
  | switch => exact allSourced_append.2 ⟨hv.get hP h _, allSourced_nestedIf h (hv.get hP h _)⟩
  | withObject => exact allSourced_append.2 ⟨hv.get hP h _, allSourced_nested h (hv.get hP h _)⟩
  | catchClause => exact hv.catchClause hP h
  | function => exact hv.function hP h false
  | classDefinition => exact hv.classDefinition hP h
  | property => exact hv.property hP h
  | declaration => exact hv.declare hP h
  | declarator => exact allSourced_malformed
  | assignment => exact hv.assign hP h ht hf
  | update => exact hv.update hP h
  | identifier => exact allSourced_one.2 ⟨h, Use.imputes_of_none rfl⟩
  | access =>
      refine allSourced_append.2 ⟨hv.get hP h _, ?_⟩
      split
      · exact hv.get hP h _
      · trivial
  | call => exact hv.call hP g h
  | this => exact allSourced_one.2 trivial
  | label => exact hv.get hP h _
  | inert => trivial
  | loop => exact allSourced_nestedIf h (hv.children hP h)
  | iteration => exact hv.iteration hP g h ht hf
  | lexicalIteration => exact hv.lexicalIteration hP h
  | importing => exact allSourced_onlyInModule (allSourced_bindImports hP h)
  | exportNamed => exact allSourced_onlyInModule (hv.exportNamed hP h)
  | exportDefault => exact allSourced_onlyInModule (hv.get hP h _)
  | exportAll => exact allSourced_onlyInModule trivial
  | exportSpecifier => exact hv.get hP h _
  | plain => exact hv.children hP h

theorem SourcedVisit.step (g : Gates) : SourcedVisit P (step g visit) := by
  intro n h
  rw [Walk.step]
  split
  · exact allSourced_flatMap.2 fun c hc => hv c (hP.items h hc)
  · split
    · exact hv.rule hP g h ‹_›
    · trivial

omit hv in
theorem sourcedVisit_planAt (g : Gates) (depth : Nat) : SourcedVisit P (planAt g depth) := by
  induction depth with
  | zero => exact fun _ _ => trivial
  | succ depth ih => exact ih.step hP g

omit hv in
/-- **The events of a node are sourced.** -/
theorem allSourced_plan (g : Gates) (h : P n.value) : AllSourced P (plan g n) :=
  sourcedVisit_planAt hP g n.height n h

end Walk

/-! ### A whole walk -/

open Store LexScope.Action

namespace Store

/-- What references and scopes name has a property, and what they say about the program is so. -/
structure Sourced (P : Tree → Prop) (s : Store) : Prop where
  reference : ∀ r ref, s.referenceAt? r = some ref →
    P ref.identifier.value ∧ ref.identifier.isIdentifier = true ∧ ref.toUse.Imputes
  scope : ∀ i a, s.scopeAt? i = some a →
    P a.block.value ∧ a.block.isObj = true ∧ (a.kind = .global → a.block.hasType "Program" = true)

end Store

namespace Action

variable {s s' : Store} {i : ScopeId} {n : Node} {kind : ScopeKind} {upper : Option ScopeId}

/-- The scope that is entered. -/
theorem enter_scopeAt? (hs : s.Sound) (h : (enter kind n upper).outcome s = (.ok i, s')) :
    ∃ b, s'.scopeAt? s.scopes.size = some b ∧ b.kind = kind ∧ b.block = n := by
  obtain ⟨rfl, -, b, strict, hb, hf⟩ := enter_frame hs h
  exact ⟨b, hb, Scope.kind_of_frame hf, Scope.block_of_frame hf⟩

end Action

namespace Walk

variable {P : Tree → Prop} {m m' : Moment} {op : Option Operation} {ops : List Operation}

/-- What is still to happen at a moment, and what has happened, is sourced. -/
structure Moment.Sourced (P : Tree → Prop) (m : Moment) : Prop where
  events : ∀ f ∈ m.frames, AllSourced P f.todo
  store : m.store.Sourced P

theorem Moment.Sourced.head (h : m.Sourced P) {c : Option ScopeId} {e : Event}
    {todo : List Event} {rest : List Frame} (hf : m.frames = ⟨c, e :: todo⟩ :: rest) :
    e.Sourced P ∧ AllSourced P todo :=
  h.events ⟨c, e :: todo⟩ (hf ▸ List.mem_cons_self)

/-- The events that a step leaves are among those there were. -/
theorem Step.todo (hs : Step m op m') : ∀ f ∈ m'.frames,
    (∃ g ∈ m.frames, f.scope = g.scope ∧ f.todo <:+ g.todo) ∨
      ∃ c kind n inside todo rest, m.frames = ⟨c, .within kind n inside :: todo⟩ :: rest ∧
        f.todo = inside ∧ f.scope ≠ none := by
  have htail : ∀ {c : Option ScopeId} {e : Event} {todo : List Event} {rest : List Frame},
      ∀ f ∈ (⟨c, todo⟩ : Frame) :: rest, ∃ g ∈ (⟨c, e :: todo⟩ : Frame) :: rest,
        f.scope = g.scope ∧ f.todo <:+ g.todo := by
    intro c e todo rest f hf
    rcases List.mem_cons.1 hf with rfl | hf
    · exact ⟨_, List.mem_cons_self, rfl, List.suffix_cons _ _⟩
    · exact ⟨f, List.mem_cons_of_mem _ hf, rfl, List.suffix_rfl⟩
  cases hs with
  | act _ _ => exact fun f hf => .inl (htail f hf)
  | enter _ =>
      intro f hf
      rcases List.mem_cons.1 hf with rfl | hf
      · exact .inr ⟨_, _, _, _, _, _, rfl, rfl, nofun⟩
      · exact .inl (htail f hf)
  | leave _ => exact fun f hf => .inl ⟨f, List.mem_cons_of_mem _ hf, rfl, List.suffix_rfl⟩
  | needScope => exact fun f hf => .inl (htail f hf)
  | phase => exact fun f hf => .inl (htail f hf)
  | keep _ => exact fun f hf => .inl (htail f hf)

/-- What a step leaves to happen is sourced. -/
theorem Moment.Sourced.events_step (h : m.Sourced P) (hs : Step m op m') :
    ∀ f ∈ m'.frames, AllSourced P f.todo := by
  intro f hf
  rcases hs.todo f hf with ⟨g, hg, -, hsuffix⟩ | ⟨c, kind, n, inside, todo, rest, hm, hin, -⟩
  · exact allSourced_iff.2 fun e he => allSourced_iff.1 (h.events g hg) e (hsuffix.subset he)
  · exact hin ▸ (h.head hm).1.2.2

/-- A walk enters a scope only where the next event says so. -/
theorem Attempts.frames_of_enter {kind : ScopeKind} {n : Node} {c : Option ScopeId}
    (h : Attempts m (.enter kind n c)) :
    ∃ inside todo rest, m.frames = ⟨c, .within kind n inside :: todo⟩ :: rest := by
  generalize ho : Operation.enter kind n c = o at h
  cases h with
  | @act c e todo rest s o he =>
      subst ho
      cases e with
      | define target n d => obtain ⟨j, -, hj⟩ := Option.map_eq_some_iff.1 he; cases hj
      | refer u => obtain ⟨j, -, hj⟩ := Option.map_eq_some_iff.1 he; cases hj
      | callEval => obtain ⟨j, -, hj⟩ := Option.map_eq_some_iff.1 he; cases hj
      | useThis => obtain ⟨j, -, hj⟩ := Option.map_eq_some_iff.1 he; cases hj
      | _ => cases he
  | enter =>
      obtain ⟨rfl, rfl, rfl⟩ := Operation.enter.inj ho
      exact ⟨_, _, _, rfl⟩
  | leave => cases ho

/-- A step opens a scope only where the next event enters it. -/
theorem Moment.Good.opened_step (h : m.Good) (hs : Step m op m') {i : ScopeId} {b : Scope}
    (hn : m.store.scopes.size ≤ i) (hb : m'.store.scopeAt? i = some b) :
    ∃ c kind n inside todo rest, m.frames = ⟨c, .within kind n inside :: todo⟩ :: rest ∧
      i = m.store.scopes.size ∧ n.isObj = true ∧ b.kind = kind ∧ b.block = n ∧ b.upper = c := by
  have hsound := h.disciplined.sound
  obtain ⟨o, out, rfl, ho, hop, -⟩ | ⟨-, -, heq | ⟨entry, heq⟩⟩ := h.step_cases hs
  · rcases Disciplined.steady ho hop with ⟨hst, -⟩ | ⟨kind, n, c, rfl⟩ | ⟨j, rfl⟩
    · exact absurd (hst.size ▸ scopeAt?_lt hb) (Nat.not_lt.2 hn)
    · obtain ⟨inside, todo, rest, hf⟩ := hs.attempts.frames_of_enter
      obtain ⟨j, -, he⟩ := bind_pure_ok_iff.1 hop
      obtain ⟨rfl, hobj, hsize, -, -, b₁, hb₁, hup, -⟩ := enter_opened hsound he
      obtain ⟨b₂, hb₂, hkind, hblock⟩ := enter_scopeAt? hsound he
      obtain rfl := Option.some.inj (hb₁.symm.trans hb₂)
      obtain rfl : i = m.store.scopes.size :=
        Nat.le_antisymm (Nat.lt_succ_iff.1 ((scopeAt?_lt hb).trans_eq hsize)) hn
      obtain rfl := Option.some.inj (hb.symm.trans hb₁)
      exact ⟨c, kind, n, inside, todo, rest, hf, rfl, hobj, hkind, hblock, hup⟩
    · obtain ⟨up, -, hc⟩ := Operation.applyTo_close_ok.1 hop
      exact absurd ((close_isOpen_iff hsound hc j).1 ▸ scopeAt?_lt hb) (Nat.not_lt.2 hn)
  all_goals
    rw [heq] at hb
    exact absurd (scopeAt?_lt hb) (Nat.not_lt.2 hn)

theorem Moment.Sourced.step (h : m.Sourced P) (hg : m.Good) (hs : Step m op m') :
    m'.Sourced P := by
  have hE := (hg.changes hs).evolves hg.disciplined.sound
  refine ⟨h.events_step hs, ?_, ?_⟩
  · intro r ref href
    cases hr : m.store.referenceAt? r with
    | some ref₀ =>
        obtain ⟨ref', href', huse, -⟩ := hE.reference r ref₀ hr
        obtain rfl : ref = ref' := Option.some.inj (href.symm.trans href')
        rw [huse]
        exact h.store.reference r ref₀ hr
    | none =>
        obtain ⟨c, u, todo, rest, a, hf, -, hid, rfl⟩ := hg.made_step hs hr href
        have hu : P u.identifier.value ∧ u.Imputes := (h.head hf).1
        cases a.strict with
        | true => exact ⟨hu.1, hid, Use.imputes_of_none rfl⟩
        | false => exact ⟨hu.1, hid, hu.2⟩
  · intro i b hb
    by_cases hi : i < m.store.scopes.size
    · obtain ⟨a, ha, hev⟩ := hE.scope_of_lt hi hb
      rw [Scope.kind_of_frame hev.frame, Scope.block_of_frame hev.frame]
      exact h.store.scope i a ha
    · obtain ⟨c, kind, n, inside, todo, rest, hf, -, hobj, rfl, rfl, -⟩ :=
        hg.opened_step hs (Nat.not_lt.1 hi) hb
      have he := (h.head hf).1
      exact ⟨he.1, hobj, he.2.1⟩

/-- **At every moment of a walk, what there is is sourced.** -/
theorem Moment.Good.sourced (hg : m.Good) (h : m.Sourced P) (hs : Steps m ops m') :
    m'.Sourced P := by
  induction hs with
  | refl => exact h
  | more hs _ ih => exact ih (hg.step hs) (h.step hg hs)

theorem Moment.start_sourced (hP : Hereditary P) (o : Options) {tree : Tree} (h : P tree) :
    (Moment.start o tree).Sourced P := by
  refine ⟨fun f hf => ?_, fun r ref href => ?_, fun i a ha => ?_⟩
  · rw [List.mem_singleton.1 hf]
    exact allSourced_plan hP _ h
  · rw [show (Moment.start o tree).store.referenceAt? r = none from rfl] at href
    cases href
  · rw [show (Moment.start o tree).store.scopeAt? i = none from rfl] at ha
    cases ha

end Walk

end LexScope
