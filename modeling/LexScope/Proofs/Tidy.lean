import LexScope.Proofs.Moment

/-!
# Proofs — Tidy — the events of a program leave alone what is not theirs

Some rules end by closing what belongs to their node whether or not they have opened a scope for it.
A scope is safe from that as long as no event inside it names the node that owns it.  Events are
*tidy* for an owner when they never do, and nor do the events inside a scope for its own node
(`Event.Tidy`).  Nor do they define anything under another identifier than the one they bind, and
an event that stops the walk names no fault of closing or of referring (`Error.OfTree`).

* `allTidy_plan`: **the events of a node are tidy** for any owner that is not at the node or below
  it.  Every rule is covered, whatever the tree holds.
-/

namespace LexScope

/-- The errors that a tree can be to blame for. -/
def Error.OfTree : Error → Prop
  | .malformed => True
  | .analysis (.outsideModule _) _ => True
  | _ => False

namespace Node

/-- A node stands strictly below another one. -/
def Below (n c : Node) : Prop := ∃ q, q ≠ [] ∧ c.path = n.path ++ q

/-- A node stands at another one or below it. -/
def AtOrBelow (n c : Node) : Prop := ∃ q, c.path = n.path ++ q

variable {n m c : Node}

theorem below_get (n : Node) (key : String) : n.Below (n.get key) := ⟨_, List.cons_ne_nil _ _, rfl⟩

theorem Below.atOrBelow (h : n.Below c) : n.AtOrBelow c :=
  let ⟨q, _, hq⟩ := h
  ⟨q, hq⟩

theorem atOrBelow_self (n : Node) : n.AtOrBelow n := ⟨[], (List.append_nil _).symm⟩

theorem Below.trans_atOrBelow (h : n.Below m) (k : m.AtOrBelow c) : n.Below c := by
  obtain ⟨q, hq, hm⟩ := h
  obtain ⟨q', hc⟩ := k
  exact ⟨q ++ q', by simp [hq], by rw [hc, hm, List.append_assoc]⟩

theorem AtOrBelow.trans (h : n.AtOrBelow m) (k : m.AtOrBelow c) : n.AtOrBelow c := by
  obtain ⟨q, hm⟩ := h
  obtain ⟨q', hc⟩ := k
  exact ⟨q ++ q', by rw [hc, hm, List.append_assoc]⟩

theorem Below.trans (h : n.Below m) (k : m.Below c) : n.Below c := h.trans_atOrBelow k.atOrBelow

theorem Below.get (h : n.Below m) (key : String) : n.Below (m.get key) := h.trans (below_get m key)

theorem place_of_isObj (h : n.isObj = true) : n.place = some n.path := by
  rw [place, isNull]
  rw [if_neg]
  intro hn
  rw [isObj, of_decide_eq_true hn] at h
  cases h

/-! ### What reading a node gives is below it -/

theorem below_of_mem_itemsFrom {p : Path} {i : Nat} {ts : List Tree} (h : c ∈ itemsFrom p i ts) :
    ∃ q, q ≠ [] ∧ c.path = p ++ q := by
  induction ts generalizing i with
  | nil => cases h
  | cons t ts ih =>
      rcases List.mem_cons.1 h with rfl | h
      · exact ⟨_, List.cons_ne_nil _ _, rfl⟩
      · exact ih h

theorem below_of_mem_items (h : c ∈ n.items) : n.Below c := by
  rw [items] at h
  split at h
  · exact below_of_mem_itemsFrom h
  · cases h

theorem below_of_mem_sequence {ns : List Node} (hs : n.sequence? = some ns) (h : c ∈ ns) :
    n.Below c := by
  rw [sequence?] at hs
  split at hs
  · cases hs; cases h
  · split at hs
    · cases hs; exact below_of_mem_itemsFrom h
    · cases hs; exact below_of_mem_itemsFrom h
    · cases hs; exact below_of_mem_itemsFrom h
    · cases hs

theorem atOrBelow_of_mem_typedAt (h : c ∈ n.typedAt) : n.AtOrBelow c := by
  rw [typedAt] at h
  split at h
  · obtain ⟨q, -, hq⟩ := below_of_mem_itemsFrom (List.mem_filter.1 h).1
    exact ⟨q, hq⟩
  · split at h
    · rw [List.mem_singleton.1 h]; exact atOrBelow_self n
    · cases h

theorem below_of_mem_children (h : c ∈ n.children) : n.Below c := by
  rw [children] at h
  split at h
  · obtain ⟨⟨key, t⟩, -, hc⟩ := List.mem_flatMap.1 h
    have hm : n.Below ⟨n.path ++ [.member key], t⟩ := ⟨_, List.cons_ne_nil _ _, rfl⟩
    exact hm.trans_atOrBelow (atOrBelow_of_mem_typedAt hc)
  · cases h

end Node

namespace Pattern

open Node

/-- The node an item is about. -/
def Item.node? : Item → Option Node
  | .bound n | .embedded n => some n
  | .broken => none

/-- Every item is about a node that stands where the pattern does or below. -/
def Stays (n : Node) (l : List Item) : Prop :=
  ∀ item ∈ l, ∀ m, item.node? = some m → n.AtOrBelow m

variable {n m : Node}

theorem Stays.mono {l : List Item} (h : n.AtOrBelow m) (hl : Stays m l) : Stays n l :=
  fun item hi c hc => h.trans (hl item hi c hc)

theorem Stays.append {l k : List Item} (hl : Stays n l) (hk : Stays n k) : Stays n (l ++ k) :=
  fun item hi => (List.mem_append.1 hi).elim (hl item) (hk item)

theorem stays_nil : Stays n [] := nofun

theorem stays_broken : Stays n [.broken] := by
  rintro item hi c hc
  rw [List.mem_singleton.1 hi] at hc
  cases hc

theorem stays_bound (h : n.AtOrBelow m) : Stays n [.bound m] := by
  rintro item hi c hc
  rw [List.mem_singleton.1 hi] at hc
  cases hc
  exact h

theorem stays_embedded (h : n.AtOrBelow m) : Stays n [.embedded m] := by
  rintro item hi c hc
  rw [List.mem_singleton.1 hi] at hc
  cases hc
  exact h

variable {walk : Node → List Item}

theorem stays_parts {each : Node → List Item} (h : ∀ c, Stays c (each c)) :
    Stays n (parts n each) := by
  rw [parts]
  split
  · rename_i ns hs
    rintro item hi c hc
    obtain ⟨d, hd, hi⟩ := List.mem_flatMap.1 hi
    exact (below_of_mem_sequence hs hd).atOrBelow.trans (h d item hi c hc)
  · exact stays_broken

theorem stays_target (h : ∀ c, Stays c (walk c)) (p : Node) : Stays p (target walk p) := by
  have hvalue : Stays p (walk (p.get "value")) := (h _).mono (below_get p _).atOrBelow
  unfold target
  split
  · dsimp only
    split
    · exact stays_broken
    · split
      · exact hvalue
      · exact stays_bound (below_get p _).atOrBelow
  · exact hvalue

theorem stays_property (h : ∀ c, Stays c (walk c)) (p : Node) : Stays p (property walk p) := by
  rw [property]
  split
  · exact stays_broken
  · split
    · exact h p
    · dsimp only
      refine .append ?_ (stays_target h p)
      split
      · exact stays_embedded (below_get p _).atOrBelow
      · exact stays_nil

theorem stays_step (h : ∀ c, Stays c (walk c)) (n : Node) : Stays n (step walk n) := by
  rw [step]
  split
  · exact stays_nil
  · split
    · exact stays_bound (atOrBelow_self n)
    · exact (stays_parts (stays_property h)).mono (below_get n _).atOrBelow
    · exact (stays_parts h).mono (below_get n _).atOrBelow
    · exact (h _).mono (below_get n _).atOrBelow
    · exact (h _).mono (below_get n _).atOrBelow
    · dsimp only
      refine .append ((h _).mono (below_get n _).atOrBelow) ?_
      split
      · exact stays_nil
      · exact stays_embedded (below_get n _).atOrBelow
    · exact stays_embedded (atOrBelow_self n)

theorem stays_itemsAt (depth : Nat) (n : Node) : Stays n (itemsAt depth n) := by
  induction depth generalizing n with
  | zero => exact stays_nil
  | succ depth ih => exact stays_step ih n

theorem atOrBelow_of_mem_embedded (h : m ∈ embedded n) : n.AtOrBelow m := by
  obtain ⟨item, hi, he⟩ := List.mem_filterMap.1 h
  refine stays_itemsAt n.height n item hi m ?_
  cases item with
  | embedded c => exact he
  | _ => cases he

end Pattern

namespace Walk

/-! ### Tidy events -/

mutual

/-- An event leaves alone what its owner has opened. -/
def Event.Tidy (owner : Option Path) : Event → Prop
  | .define _ n d => d.name = n
  | .within _ n inside => AllTidy n.place inside
  | .closeOwned n => n.place ≠ owner
  | .fail e => e.OfTree
  | _ => True

/-- Events all leave alone what their owner has opened. -/
def AllTidy (owner : Option Path) : List Event → Prop
  | [] => True
  | e :: rest => e.Tidy owner ∧ AllTidy owner rest

end

variable {owner : Option Path} {n m c : Node} {events : List Event}

theorem allTidy_iff : AllTidy owner events ↔ ∀ e ∈ events, e.Tidy owner := by
  induction events with
  | nil => simp [AllTidy]
  | cons e rest ih => simp [AllTidy, ih]

theorem allTidy_append {a b : List Event} :
    AllTidy owner (a ++ b) ↔ AllTidy owner a ∧ AllTidy owner b := by
  simp only [allTidy_iff, List.mem_append, or_imp, forall_and]

theorem allTidy_flatMap {α : Type} {l : List α} {f : α → List Event} :
    AllTidy owner (l.flatMap f) ↔ ∀ a ∈ l, AllTidy owner (f a) := by
  simp only [allTidy_iff, List.mem_flatMap, forall_exists_index, and_imp]
  exact ⟨fun h a ha e he => h e a ha he, fun h e a ha he => h a ha e he⟩

theorem allTidy_nil : AllTidy owner [] := trivial

theorem allTidy_one {e : Event} : AllTidy owner [e] ↔ e.Tidy owner := by
  simp [AllTidy]

theorem allTidy_malformed : AllTidy owner [.fail .malformed] := ⟨trivial, trivial⟩

/-- Nothing strictly below a node is or is above the owner. -/
def Outside (owner : Option Path) (n : Node) : Prop :=
  ∀ c p, n.Below c → owner = some p → ¬ c.path <+: p

/-- Neither a node nor anything below it is or is above the owner. -/
def Apart (owner : Option Path) (n : Node) : Prop := ∀ p, owner = some p → ¬ n.path <+: p

theorem Apart.below (h : Apart owner n) (hc : n.AtOrBelow c) : Apart owner c := by
  rintro p hp hcp
  obtain ⟨q, hq⟩ := hc
  exact h p hp ((hq ▸ List.prefix_append n.path q).trans hcp)

theorem Outside.apart (h : Outside owner n) (hc : n.Below c) : Apart owner c :=
  fun p hp => h c p hc hp

theorem Apart.outside (h : Apart owner n) : Outside owner n :=
  fun _ p hc hp => (h.below hc.atOrBelow) p hp

/-- A node is outside itself. -/
theorem outside_self (n : Node) : Outside (some n.path) n := by
  rintro c p ⟨q, hq, hc⟩ hp hcp
  cases hp
  have := hcp.length_le
  rw [hc, List.length_append] at this
  exact hq (List.length_eq_zero_iff.1 (by omega))

theorem Apart.place_ne (h : Apart owner n) (ho : n.isObj = true) : n.place ≠ owner := by
  rw [Node.place_of_isObj ho]
  rintro rfl
  exact h n.path rfl List.prefix_rfl

/-! ### Parts of rules -/

/-- What is asked of the nodes further down. -/
def TidyVisit (visit : Visit) : Prop := ∀ owner n, Apart owner n → AllTidy owner (visit n)

variable {visit : Visit}

theorem TidyVisit.below (hv : TidyVisit visit) (h : Outside owner n) (hc : n.Below c) :
    AllTidy owner (visit c) := hv owner c (h.apart hc)

theorem TidyVisit.get (hv : TidyVisit visit) (h : Outside owner n) (key : String) :
    AllTidy owner (visit (n.get key)) := hv.below h (Node.below_get n key)

theorem TidyVisit.children (hv : TidyVisit visit) (h : Outside owner n) :
    AllTidy owner (visitChildren visit n) :=
  allTidy_flatMap.2 fun _ hc => hv.below h (Node.below_of_mem_children hc)

theorem TidyVisit.embedded (hv : TidyVisit visit) (h : Outside owner n) (hc : n.Below c) :
    AllTidy owner (visitEmbedded visit c) :=
  allTidy_flatMap.2 fun _ hm =>
    hv.below h (hc.trans_atOrBelow (Pattern.atOrBelow_of_mem_embedded hm))

theorem allTidy_forBound {each : Node → List Event} (h : ∀ p, AllTidy owner (each p)) :
    AllTidy owner (forBound n each) := by
  refine allTidy_flatMap.2 fun item _ => ?_
  cases item with
  | bound p => exact h p
  | embedded p => exact allTidy_nil
  | broken => exact allTidy_malformed

theorem allTidy_forSequence {each : List Node → List Event}
    (h : ∀ ns, n.sequence? = some ns → AllTidy owner (each ns)) :
    AllTidy owner (forSequence n each) := by
  rw [forSequence]
  split
  · exact h _ ‹_›
  · exact allTidy_malformed

theorem allTidy_foldr_within {kinds : List ScopeKind} (h : AllTidy n.place events) :
    AllTidy n.place (kinds.foldr (fun kind inside => [.within kind n inside]) events) := by
  induction kinds with
  | nil => exact h
  | cons kind kinds ih => exact allTidy_one.2 ih

theorem scopeKinds?_ne_nil {isMethod : Bool} : scopeKinds? n isMethod ≠ some [] := by
  intro h
  obtain ⟨kind, -, hk⟩ := Option.map_eq_some_iff.1 h
  split at hk <;> cases hk

/-- Scopes for a node are tidy for any owner if their inside is tidy for that node. -/
theorem allTidy_nested {isMethod : Bool} (h : Apart owner n) (ho : n.isObj = true)
    (hin : AllTidy n.place events) : AllTidy owner (nested n isMethod events) := by
  rw [nested]
  split
  · rename_i kinds hk
    refine allTidy_append.2 ⟨?_, allTidy_one.2 (h.place_ne ho)⟩
    cases kinds with
    | nil => exact absurd hk scopeKinds?_ne_nil
    | cons kind kinds =>
        -- All scopes opened for a node belong to it, so what is inside has the node as owner.
        have hrest : AllTidy n.place
            (kinds.foldr (fun kind inside => [.within kind n inside]) events) :=
          allTidy_foldr_within hin
        exact allTidy_one.2 hrest
  · exact allTidy_malformed

theorem allTidy_nestedIf {condition : Bool} (h : Apart owner n) (ho : n.isObj = true)
    (hin : ∀ owner, Outside owner n → AllTidy owner events) :
    AllTidy owner (nestedIf condition n events) := by
  rw [nestedIf]
  split
  · refine allTidy_nested h ho ?_
    rw [Node.place_of_isObj ho]
    exact hin _ (outside_self n)
  · exact allTidy_append.2 ⟨hin owner h.outside, allTidy_one.2 (h.place_ne ho)⟩

/-! ### Rules -/

theorem allTidy_bindDeclarator (target : Target) (kind : DefinitionKind) (n : Node) (i : Nat)
    (d : Node) : AllTidy owner (bindDeclarator target kind n i d) := by
  refine allTidy_forBound fun p => ⟨rfl, ?_⟩
  split
  · exact allTidy_nil
  · exact allTidy_one.2 trivial

theorem allTidy_assignTo (pattern value n : Node) : AllTidy owner (assignTo pattern value n) :=
  allTidy_forBound fun _ => allTidy_one.2 trivial

theorem allTidy_writeHead (n head : Node) : AllTidy owner (writeHead n head) := by
  rw [writeHead]
  split
  · exact allTidy_forBound fun _ => allTidy_one.2 trivial
  · exact allTidy_malformed

theorem allTidy_bindHead (kind : DefinitionKind) (head : Node) :
    AllTidy owner (bindHead kind head) := by
  rw [bindHead]
  split
  · exact allTidy_bindDeclarator ..
  · exact allTidy_malformed

theorem below_of_declarator {i : Nat} {d : Node} (h : declarator? n i = some d) : n.Below d := by
  obtain ⟨hd, -⟩ := Option.filter_eq_some_iff.1 h
  exact (Node.below_get n _).trans (Node.below_of_mem_items (List.mem_of_getElem? hd))

theorem TidyVisit.declare (hv : TidyVisit visit) (h : Outside owner n) :
    AllTidy owner (declare visit n) := by
  rw [Walk.declare]
  dsimp only
  refine allTidy_append.2 ⟨?_, allTidy_forSequence fun ds hds => allTidy_flatMap.2 ?_⟩
  · split
    · exact allTidy_one.2 trivial
    · exact allTidy_nil
  · rintro ⟨d, i⟩ hd
    have hb : n.Below d := (Node.below_get n _).trans (Node.below_of_mem_sequence hds
      (List.fst_mem_of_mem_zipIdx hd))
    dsimp only
    split
    · exact allTidy_malformed
    · refine allTidy_append.2 ⟨allTidy_append.2 ⟨allTidy_bindDeclarator .., ?_⟩, ?_⟩
      · exact hv.embedded h (hb.get "id")
      · exact hv.below h (hb.get "init")

theorem TidyVisit.assign (hv : TidyVisit visit) (h : Outside owner n) :
    AllTidy owner (assign visit n) := by
  unfold Walk.assign
  dsimp only
  split
  · exact allTidy_malformed
  · exact allTidy_append.2 ⟨hv.get h _, hv.get h _⟩
  · split
    · exact allTidy_append.2 ⟨allTidy_append.2
        ⟨allTidy_assignTo .., hv.embedded h (Node.below_get n _)⟩, hv.get h _⟩
    · exact ⟨trivial, hv.get h _⟩

theorem TidyVisit.update (hv : TidyVisit visit) (h : Outside owner n) :
    AllTidy owner (update visit n) := by
  unfold Walk.update
  dsimp only
  split
  · exact allTidy_one.2 trivial
  · exact hv.children h

theorem TidyVisit.functionBody (hv : TidyVisit visit) (h : Outside owner n) (hc : n.Below c) :
    AllTidy owner (functionBody visit c) := by
  rw [Walk.functionBody]
  split
  · exact allTidy_flatMap.2 fun d hd => hv.below h (hc.trans (Node.below_of_mem_children hd))
  · exact hv.below h hc

theorem TidyVisit.function (hv : TidyVisit visit) (h : Apart owner n) (ho : n.isObj = true)
    (isMethod : Bool) : AllTidy owner (function visit n isMethod) := by
  unfold Walk.function
  dsimp only
  refine allTidy_append.2 ⟨?_, allTidy_nested h ho ?_⟩
  · split
    · exact allTidy_one.2 rfl
    · exact allTidy_nil
  · rw [Node.place_of_isObj ho]
    have hself := outside_self n
    refine allTidy_forSequence fun params hps =>
      allTidy_append.2 ⟨allTidy_append.2 ⟨?_, allTidy_flatMap.2 ?_⟩, ?_⟩
    · refine allTidy_flatMap.2 fun ⟨param, i⟩ _ => allTidy_forBound fun _ => allTidy_one.2 rfl
    · intro p hp
      exact hv.embedded hself ((Node.below_get n _).trans (Node.below_of_mem_sequence hps hp))
    · exact hv.functionBody hself (Node.below_get n _)

theorem TidyVisit.classDefinition (hv : TidyVisit visit) (h : Apart owner n)
    (ho : n.isObj = true) : AllTidy owner (classDefinition visit n) := by
  unfold Walk.classDefinition
  dsimp only
  refine allTidy_append.2 ⟨allTidy_append.2 ⟨?_, hv.get h.outside _⟩, allTidy_nested h ho ?_⟩
  · split
    · exact allTidy_one.2 rfl
    · exact allTidy_nil
  · rw [Node.place_of_isObj ho]
    refine allTidy_append.2 ⟨?_, hv.get (outside_self n) _⟩
    split
    · exact allTidy_one.2 rfl
    · exact allTidy_nil

theorem isObj_of_hasType {type : String} (h : n.hasType type = true) : n.isObj = true := by
  cases hv : n.value with
  | obj members => rw [Node.isObj, hv]; rfl
  | _ =>
      simp only [Node.hasType, Node.type, hv, Tree.get] at h
      cases of_decide_eq_true h

theorem TidyVisit.property (hv : TidyVisit visit) (h : Outside owner n) :
    AllTidy owner (property visit n) := by
  unfold Walk.property
  dsimp only
  refine allTidy_append.2 ⟨?_, ?_⟩
  · split
    · exact hv.get h _
    · exact allTidy_nil
  · split
    · rename_i hf
      simp only [Bool.and_eq_true, Bool.or_eq_true] at hf
      exact hv.function (h.apart (Node.below_get n _))
        (hf.2.elim isObj_of_hasType isObj_of_hasType) true
    · exact hv.get h _

theorem TidyVisit.program (hv : TidyVisit visit) (g : Gates) (h : Apart owner n)
    (ho : n.isObj = true) : AllTidy owner (program g visit n) := by
  refine allTidy_nested h ho ?_
  have hbody : AllTidy n.place (visitChildren visit n) := by
    rw [Node.place_of_isObj ho]
    exact hv.children (outside_self n)
  split
  · exact allTidy_one.2 hbody
  · exact hbody

theorem TidyVisit.catchClause (hv : TidyVisit visit) (h : Apart owner n) (ho : n.isObj = true) :
    AllTidy owner (catchClause visit n) := by
  refine allTidy_nested h ho ?_
  rw [Node.place_of_isObj ho]
  have hself := outside_self n
  exact allTidy_append.2 ⟨allTidy_append.2 ⟨allTidy_forBound fun _ => allTidy_one.2 rfl,
    hv.embedded hself (Node.below_get n _)⟩, hv.get hself _⟩

theorem TidyVisit.visitHead (hv : TidyVisit visit) (h : Outside owner n) (hc : n.Below c) :
    AllTidy owner (visitHead visit c) := by
  rw [Walk.visitHead]
  split
  · exact hv.embedded h ((hc.trans (below_of_declarator ‹_›)).get _)
  · exact allTidy_nil

theorem TidyVisit.lexicalIteration (hv : TidyVisit visit) (h : Apart owner n)
    (ho : n.isObj = true) : AllTidy owner (lexicalIteration visit n) := by
  unfold Walk.lexicalIteration
  dsimp only
  have hself := outside_self n
  refine allTidy_append.2 ⟨⟨trivial, ?_, trivial, trivial⟩, allTidy_nested h ho ?_⟩
  · show AllTidy n.place _
    rw [Node.place_of_isObj ho]
    exact allTidy_append.2 ⟨allTidy_append.2 ⟨allTidy_bindHead .., trivial, hv.get hself _⟩,
      allTidy_one.2 trivial⟩
  · rw [Node.place_of_isObj ho]
    exact allTidy_append.2 ⟨allTidy_append.2 ⟨allTidy_append.2 ⟨allTidy_append.2
      ⟨allTidy_bindHead .., allTidy_writeHead ..⟩, hv.visitHead hself (Node.below_get n _)⟩,
      trivial, hv.get hself _⟩, allTidy_one.2 trivial⟩

theorem TidyVisit.iteration (hv : TidyVisit visit) (g : Gates) (h : Apart owner n)
    (ho : n.isObj = true) : AllTidy owner (iteration g visit n) := by
  rw [Walk.iteration]
  dsimp only
  have hout := h.outside
  split
  · exact hv.lexicalIteration h ho
  · refine allTidy_append.2 ⟨allTidy_append.2 ⟨?_, hv.get hout _⟩, hv.get hout _⟩
    split
    · exact allTidy_append.2 ⟨hv.get hout _, allTidy_writeHead ..⟩
    · split
      · exact allTidy_malformed
      · exact allTidy_append.2 ⟨allTidy_assignTo .., hv.embedded hout (Node.below_get n _)⟩
      · exact hv.get hout _

theorem TidyVisit.call (hv : TidyVisit visit) (g : Gates) (h : Outside owner n) :
    AllTidy owner (call g visit n) := by
  unfold Walk.call
  dsimp only
  have hbody := hv.children h
  split
  · exact hbody
  · split
    · exact allTidy_malformed
    · split
      · exact ⟨trivial, hbody⟩
      · exact hbody

theorem allTidy_onlyInModule {g : Gates} (h : AllTidy owner events) :
    AllTidy owner (onlyInModule g n events) := by
  rw [onlyInModule]
  split
  · exact h
  · refine allTidy_one.2 ?_
    show ((Fault.outsideModule _).on n).OfTree
    rw [Fault.on]
    split <;> trivial

theorem allTidy_bindImports (n : Node) : AllTidy owner (bindImports n) := by
  refine allTidy_forSequence fun specifiers _ => allTidy_flatMap.2 fun specifier _ => ?_
  split
  · exact allTidy_malformed
  · exact allTidy_one.2 rfl

theorem TidyVisit.exportNamed (hv : TidyVisit visit) (h : Outside owner n) :
    AllTidy owner (exportNamed visit n) := by
  rw [Walk.exportNamed]
  split
  · exact allTidy_nil
  · split
    · exact hv.get h _
    · exact hv.get h _

/-- Every rule makes tidy events if the nodes further down do. -/
theorem TidyVisit.rule (hv : TidyVisit visit) (g : Gates) (h : Apart owner n)
    (ho : n.isObj = true) (family : Family) : AllTidy owner (rule g visit n family) := by
  have hout := h.outside
  cases family with
  | program => exact hv.program g h ho
  | block => exact allTidy_nestedIf h ho fun _ => hv.children
  | switch =>
      exact allTidy_append.2 ⟨hv.get hout _, allTidy_nestedIf h ho fun _ ho => hv.get ho _⟩
  | withObject =>
      refine allTidy_append.2 ⟨hv.get hout _, allTidy_nested h ho ?_⟩
      rw [Node.place_of_isObj ho]
      exact hv.get (outside_self n) _
  | catchClause => exact hv.catchClause h ho
  | function => exact hv.function h ho false
  | classDefinition => exact hv.classDefinition h ho
  | property => exact hv.property hout
  | declaration => exact hv.declare hout
  | declarator => exact allTidy_malformed
  | assignment => exact hv.assign hout
  | update => exact hv.update hout
  | identifier => exact allTidy_one.2 trivial
  | access =>
      refine allTidy_append.2 ⟨hv.get hout _, ?_⟩
      split
      · exact hv.get hout _
      · exact allTidy_nil
  | call => exact hv.call g hout
  | this => exact allTidy_one.2 trivial
  | label => exact hv.get hout _
  | inert => exact allTidy_nil
  | loop => exact allTidy_nestedIf h ho fun _ => hv.children
  | iteration => exact hv.iteration g h ho
  | lexicalIteration => exact hv.lexicalIteration h ho
  | importing => exact allTidy_onlyInModule (allTidy_bindImports n)
  | exportNamed => exact allTidy_onlyInModule (hv.exportNamed hout)
  | exportDefault => exact allTidy_onlyInModule (hv.get hout _)
  | exportAll => exact allTidy_onlyInModule allTidy_nil
  | exportSpecifier => exact hv.get hout _
  | plain => exact hv.children hout

theorem isObj_of_typeName? {type : String} (h : n.typeName? = some type) : n.isObj = true := by
  have ht : n.hasType type = true := by
    rw [Node.typeName?] at h
    split at h
    · rename_i s hs
      rw [Node.hasType, hs, Option.some.inj h]
      exact decide_eq_true rfl
    · cases h
  exact isObj_of_hasType ht

theorem TidyVisit.step (hv : TidyVisit visit) (g : Gates) : TidyVisit (step g visit) := by
  intro owner n h
  rw [Walk.step]
  split
  · exact allTidy_flatMap.2 fun c hc => hv.below h.outside (Node.below_of_mem_items hc)
  · split
    · rename_i type ht
      exact hv.rule g h (isObj_of_typeName? ht) _
    · exact allTidy_nil

/-- **The events of a node are tidy** for any owner that is not at the node or below it. -/
theorem allTidy_plan (g : Gates) (n : Node) (h : Apart owner n) : AllTidy owner (plan g n) := by
  have hv : ∀ depth, TidyVisit (planAt g depth) := by
    intro depth
    induction depth with
    | zero => exact fun _ _ _ => allTidy_nil
    | succ depth ih => exact ih.step g
  exact hv n.height owner n h

end Walk

end LexScope
