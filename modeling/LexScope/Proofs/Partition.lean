import LexScope.Proofs.Apart

/-!
# Proofs — Partition — a pattern falls into what it binds and what it evaluates

A pattern has *leaves*: the identifiers that it binds, the expressions in it, the keys of properties
that are no names in the program, and the second copies of names that are written once
(`Pattern.Leaf`).  `Pattern.Reads` says what a pattern is and which leaves it has, in the order of
the source.  A walk meets the leaves of the first two sorts, and passes over the others.

Every identifier of a pattern is a leaf or in an expression, and leaves stand apart.  So an
identifier has one fate (`Pattern.Fate`).

* `calls_eq`: what a walk reports does not depend on whether expressions are collected.
* `Reads.items`: a walk meets the leaves.
* `Reads.inOrder`: leaves are in the order of the source.
* `Reads.covers`: every identifier is a leaf or in one.
* `Reads.fate`: **what a walk makes of an identifier**, told by the leaf that it is in.
-/

namespace LexScope

open Node

/-! ### Places in the order of the source -/

/-- One way down from a node comes before another one in the source. -/
def Step.Before : Step → Step → Prop
  | .item i, .item j => i < j
  | .member x, .member y => x = "key" ∧ y = "value" ∨ x = "left" ∧ y = "right"
  | _, _ => False

theorem Step.Before.ne {x y : Step} (h : x.Before y) : x ≠ y := by
  rintro rfl
  cases x with
  | item i => exact lt_irrefl i h
  | member x => rcases h with ⟨rfl, h⟩ | ⟨rfl, h⟩ <;> exact absurd h (by decide)

namespace Node

variable {n m c d : Node}

/-- One of two places that stand apart comes before the other in the source. -/
def Precedes (a b : Path) : Prop :=
  ∃ p x y q r, Step.Before x y ∧ a = p ++ x :: q ∧ b = p ++ y :: r

theorem Precedes.diverge {a b : Path} (h : Precedes a b) : Diverge a b := by
  obtain ⟨p, x, y, q, r, hxy, rfl, rfl⟩ := h
  exact diverge_append hxy.ne

theorem Precedes.atOrBelow (h : Precedes n.path m.path) (hc : n.AtOrBelow c) (hd : m.AtOrBelow d) :
    Precedes c.path d.path := by
  obtain ⟨p, x, y, q, r, hxy, hn, hm⟩ := h
  obtain ⟨q', hc⟩ := hc
  obtain ⟨r', hd⟩ := hd
  exact ⟨p, x, y, q ++ q', r ++ r', hxy, by rw [hc, hn]; simp, by rw [hd, hm]; simp⟩

theorem precedes_get {x y : String} (h : Step.Before (.member x) (.member y)) (n : Node) :
    Precedes (n.get x).path (n.get y).path := ⟨n.path, _, _, [], [], h, rfl, rfl⟩

/-- The items of a list are in the order of the source. -/
theorem precedes_items (n : Node) : n.items.Pairwise fun a b => Precedes a.path b.path := by
  have hfrom : ∀ i ts, (itemsFrom n.path i ts).Pairwise fun a b => Precedes a.path b.path := by
    intro i ts
    induction ts generalizing i with
    | nil => exact .nil
    | cons t ts ih =>
        refine .cons (fun m hm => ?_) (ih _)
        obtain ⟨j, hj, hm⟩ := path_of_mem_itemsFrom hm
        exact ⟨n.path, .item i, .item j, [], [], Nat.lt_of_succ_le hj, rfl, hm⟩
  rw [items]
  split
  · exact hfrom _ _
  · exact .nil

/-! ### Children -/

/-- A node is reached from another one through children. -/
abbrev Reaches : Node → Node → Prop := Relation.ReflTransGen fun a b => b ∈ a.children

/-- What is offered to be walked at a member is a child. -/
theorem mem_children_of_typedAt {key : String} (hkey : key ∉ metadata)
    (h : c ∈ (n.get key).typedAt) : c ∈ n.children := by
  cases hv : n.value with
  | obj members =>
      cases hl : members.lookup key with
      | none =>
          rw [typedAt_of_isNull] at h
          · cases h
          · simp [isNull, get, hv, Tree.get, hl]
      | some t =>
          have hget : n.get key = ⟨n.path ++ [.member key], t⟩ := by
            simp [get, hv, Tree.get, hl]
          rw [hget] at h
          rw [children, hv]
          refine List.mem_flatMap.2 ⟨(key, t), List.mem_filter.2 ⟨Tree.mem_of_lookup hl, ?_⟩, h⟩
          simpa using hkey
  | _ =>
      rw [typedAt_of_isNull] at h
      · cases h
      · simp [isNull, get, hv, Tree.get]

/-- The typed items of a member are children. -/
theorem mem_children_of_items {key : String} {ts : List Tree} (hkey : key ∉ metadata)
    (hlist : (n.get key).value = .arr ts) (hc : c ∈ (n.get key).items) (ht : c.isTyped = true) :
    c ∈ n.children := by
  refine mem_children_of_typedAt hkey ?_
  rw [items, hlist] at hc
  rw [typedAt, hlist]
  exact List.mem_filter.2 ⟨hc, ht⟩

/-- A typed member is a child. -/
theorem get_mem_children {key : String} (hkey : key ∉ metadata) (ht : (n.get key).isTyped = true) :
    n.get key ∈ n.children := by
  refine mem_children_of_typedAt hkey ?_
  rw [typedAt]
  split
  · rename_i ts hv
    have hobj := isObj_of_isTyped ht
    rw [isObj, hv] at hobj
    cases hobj
  · rw [if_pos ht]
    exact List.mem_singleton_self _

theorem Reaches.atOrBelow (h : n.Reaches m) : n.AtOrBelow m := by
  induction h with
  | refl => exact atOrBelow_self n
  | tail _ hc ih => exact ih.trans (below_of_mem_children hc).atOrBelow

end Node

namespace Pattern

variable {n m p : Node} {collect : Bool}

/-! ### Walks that collect expressions and walks that do not -/

/-- The items of a member of an object pattern, without its key if expressions are not collected. -/
def visitProperty (collect : Bool) (walk : Node → List Item) (p : Node) : List Item :=
  if !p.isObj then [.broken]
  else if !p.hasType "Property" then walk p
  else
    let key := if (p.get "computed").truthy && collect then [.embedded (p.get "key")] else []
    key ++ target walk p

/-- The items of a node, without the expressions if these are not collected. -/
def visitStep (collect : Bool) (walk : Node → List Item) (n : Node) : List Item :=
  if !n.isObj then []
  else if n.hasType "Identifier" then [.bound n]
  else if n.hasType "ObjectPattern" then parts (n.get "properties") (visitProperty collect walk)
  else if n.hasType "ArrayPattern" then parts (n.get "elements") walk
  else if n.hasType "RestElement" || n.hasType "SpreadElement" then walk (n.get "argument")
  else if n.hasType "AssignmentPattern" then
    let right := n.get "right"
    walk (n.get "left") ++ (if collect && !right.isNull then [.embedded right] else [])
  else if collect then [.embedded n] else []

/-- What a walk meets down to a given depth. -/
def visitAt (collect : Bool) : Nat → Node → List Item
  | 0, _ => []
  | depth + 1, n => visitStep collect (visitAt collect depth) n

/-- The identifiers that are reported for a node, and whether each of them is all of it. -/
def calls (collect : Bool) (n : Node) : List (Node × Bool) :=
  if n.isIdentifier then [(n, true)]
  else ((visitAt collect n.height n).filterMap Item.bound?).map (·, false)

/-- Whether an item is met by a walk. -/
def Item.isMet (collect : Bool) (item : Item) : Bool := collect || item.embedded?.isNone

theorem parts_filter {each : Node → List Item} {f : Item → Bool} (hf : f .broken = true) :
    (parts n each).filter f = parts n fun c => (each c).filter f := by
  rw [parts, parts]
  split
  · exact List.filter_flatMap
  · simp [hf]

theorem isMet_of_embedded {item : Item} (h : item.embedded? = none) :
    item.isMet collect = true := by
  simp [Item.isMet, h]

/-- An expression is met if it is collected. -/
theorem filter_embedded (condition : Bool) (m : Node) :
    (if condition then [Item.embedded m] else []).filter (Item.isMet collect) =
      if condition && collect then [.embedded m] else [] := by
  cases condition <;> cases collect <;> rfl

/-- What is no pattern is an expression. -/
theorem step_other {walk : Node → List Item} (hobj : n.isObj = true)
    (hother : ∀ type ∈ types, n.hasType type = false) : step walk n = [.embedded n] := by
  have hne : ∀ type ∈ types, n.typeName? ≠ some type := fun type ht he => by
    have hno := hother type ht
    rw [Grammar.hasType_iff.2 he] at hno
    cases hno
  rw [step, hobj]
  simp only [types, List.mem_cons, List.not_mem_nil, or_false, forall_eq_or_imp, forall_eq] at hne
  split <;> simp_all

section Step

variable {walk walk' : Node → List Item}
  (h : ∀ c, walk' c = (walk c).filter (Item.isMet collect))

include h

theorem target_filter (p : Node) :
    target walk' p = (target walk p).filter (Item.isMet collect) := by
  have hall : ∀ item : Item, item.embedded? = none →
      [item] = [item].filter (Item.isMet collect) := fun item he => by
    rw [List.filter_cons_of_pos (isMet_of_embedded he), List.filter_nil]
  rw [target, target, h]
  split_ifs
  · exact hall _ rfl
  · rfl
  · exact hall _ rfl
  · rfl

theorem visitProperty_eq (p : Node) :
    visitProperty collect walk' p = (property walk p).filter (Item.isMet collect) := by
  rw [visitProperty, property]
  split
  · rw [List.filter_cons_of_pos (isMet_of_embedded rfl), List.filter_nil]
  · split
    · exact h p
    · dsimp only
      rw [List.filter_append, ← target_filter h, filter_embedded]

theorem visitStep_eq (n : Node) :
    visitStep collect walk' n = (step walk n).filter (Item.isMet collect) := by
  have hbroken : Item.isMet collect .broken = true := isMet_of_embedded rfl
  have hstep : ∀ {type : String}, n.hasType type = true →
      n.isObj = true ∧ n.typeName? = some type := fun ht =>
    ⟨Walk.isObj_of_hasType ht, Grammar.hasType_iff.1 ht⟩
  rw [visitStep]
  split_ifs with hobj hname hobject harray hrest hassignment hcollect
  · rw [step, if_pos hobj, List.filter_nil]
  · rw [step, (hstep hname).1, (hstep hname).2]
    show [Item.bound n] = [Item.bound n].filter _
    rw [List.filter_cons_of_pos (isMet_of_embedded rfl), List.filter_nil]
  · rw [step, (hstep hobject).1, (hstep hobject).2]
    exact (congrArg (parts _) (funext (visitProperty_eq h))).trans (parts_filter hbroken).symm
  · rw [step, (hstep harray).1, (hstep harray).2]
    exact (congrArg (parts _) (funext h)).trans (parts_filter hbroken).symm
  · rcases Bool.or_eq_true_iff.1 hrest with hrest | hrest
    all_goals
      rw [step, (hstep hrest).1, (hstep hrest).2]
      exact h _
  · rw [step, (hstep hassignment).1, (hstep hassignment).2]
    show walk' (n.get "left") ++ _ = List.filter _ (walk (n.get "left") ++ _)
    rw [List.filter_append, h]
    cases (n.get "right").isNull <;> cases collect <;> rfl
  · rw [step_other (by simpa using hobj) (by simp_all [types]), hcollect]
    rfl
  · rw [step_other (by simpa using hobj) (by simp_all [types]), Bool.eq_false_iff.2 hcollect]
    rfl

end Step

/-- A walk meets what there is, except that it may pass over the expressions. -/
theorem visitAt_eq (collect : Bool) (depth : Nat) (n : Node) :
    visitAt collect depth n = (itemsAt depth n).filter (Item.isMet collect) := by
  induction depth generalizing n with
  | zero => rfl
  | succ depth ih => exact visitStep_eq ih n

/-- **What is reported does not depend on whether expressions are collected**: it is what the
pattern binds. -/
theorem calls_eq (collect : Bool) (n : Node) :
    calls collect n = (bound n).map (·, isWhole n) := by
  rw [calls, isWhole]
  split
  · rename_i h
    have hitems : items n = [.bound n] := by
      rw [items_eq, step, Walk.isObj_of_hasType h, Grammar.hasType_iff.1 h]
      rfl
    rw [bound, hitems, h]
    rfl
  · rename_i h
    rw [Bool.eq_false_iff.2 h, visitAt_eq, List.filterMap_filter, bound, items]
    congr 1
    refine List.filterMap_congr fun item _ => ?_
    cases item <;> cases collect <;> rfl

/-! ### What a pattern is -/

/-- What a pattern comes down to. -/
inductive Leaf where
  /-- An identifier that is bound. -/
  | name (n : Node)
  /-- An expression: a default value, a computed key or a target that is no pattern. -/
  | expression (n : Node)
  /-- The key of a property with a value of its own, not computed. -/
  | key (n : Node)
  /-- A name that is written once and stands in the tree twice, where it is not bound. -/
  | copy (n : Node)
  deriving DecidableEq

/-- The node of a leaf. -/
def Leaf.node : Leaf → Node
  | .name n | .expression n | .key n | .copy n => n

/-- What a walk meets of a leaf. -/
def Leaf.item? : Leaf → Option Item
  | .name n => some (.bound n)
  | .expression n => some (.embedded n)
  | _ => none

/-- Where a part of a pattern stands: as something to bind to, in an array pattern, or as a member
of an object pattern. -/
inductive Place where
  | target
  | element
  | member

/-- Whether a property is written as a name only, perhaps with a default value. -/
def IsShorthand (p : Node) : Prop := p.hasType "Property" = true ∧ (p.get "shorthand").truthy = true

/-- Whether a property has a key and a value of its own. -/
def IsPair (p : Node) : Prop := p.hasType "Property" = true ∧ (p.get "shorthand").truthy = false

/-- A node is a part of a pattern and has given leaves, in the order of the source.  Beside the
parts that are named here it has no children. -/
inductive Reads : Place → Node → List Leaf → Prop
  | name {n : Node} (h : n.hasType "Identifier" = true) (hleaf : n.children = []) :
      Reads .target n [.name n]
  | object {n : Node} {ts : List Tree} {each : Node → List Leaf}
      (h : n.hasType "ObjectPattern" = true) (hlist : (n.get "properties").value = .arr ts)
      (hparts : ∀ p ∈ (n.get "properties").items, Reads .member p (each p))
      (honly : ∀ c ∈ n.children, c ∈ (n.get "properties").items) :
      Reads .target n ((n.get "properties").items.flatMap each)
  | array {n : Node} {ts : List Tree} {each : Node → List Leaf}
      (h : n.hasType "ArrayPattern" = true) (hlist : (n.get "elements").value = .arr ts)
      (hparts : ∀ c ∈ (n.get "elements").items, Reads .element c (each c))
      (honly : ∀ c ∈ n.children, c ∈ (n.get "elements").items) :
      Reads .target n ((n.get "elements").items.flatMap each)
  | element {n : Node} {l : List Leaf} (hpart : Reads .target n l) : Reads .element n l
  | hole {n : Node} (h : n.isNull = true) : Reads .element n []
  | rest {place : Place} {n : Node} {l : List Leaf}
      (h : n.hasType "RestElement" = true ∨ n.hasType "SpreadElement" = true)
      (hpart : Reads .target (n.get "argument") l)
      (honly : ∀ c ∈ n.children, c = n.get "argument") : Reads place n l
  | assignment {n : Node} {l : List Leaf} (h : n.hasType "AssignmentPattern" = true)
      (hpart : Reads .target (n.get "left") l) (hright : (n.get "right").isTyped = true)
      (honly : ∀ c ∈ n.children, c = n.get "left" ∨ c = n.get "right") :
      Reads .target n (l ++ [.expression (n.get "right")])
  | expression {n : Node} (h : n.isTyped = true) (hother : isPattern? n = some false) :
      Reads .target n [.expression n]
  | shorthand {p : Node} (h : IsShorthand p) (hcomputed : (p.get "computed").truthy = false)
      (hkey : (p.get "key").hasType "Identifier" = true) (hleaf : (p.get "key").children = [])
      (hvalue : (p.get "value").hasType "Identifier" = true)
      (hleaf' : (p.get "value").children = [])
      (hname : (p.get "value").value.get "name" = (p.get "key").value.get "name")
      (honly : ∀ c ∈ p.children, c = p.get "key" ∨ c = p.get "value") :
      Reads .member p [.name (p.get "key"), .copy (p.get "value")]
  | shorthandDefault {p : Node} {l : List Leaf} (h : IsShorthand p)
      (hcomputed : (p.get "computed").truthy = false)
      (hkey : (p.get "key").hasType "Identifier" = true) (hleaf : (p.get "key").children = [])
      (hvalue : (p.get "value").hasType "AssignmentPattern" = true)
      (hpart : Reads .target (p.get "value") l)
      (honly : ∀ c ∈ p.children, c = p.get "key" ∨ c = p.get "value") :
      Reads .member p (.copy (p.get "key") :: l)
  | computed {p : Node} {l : List Leaf} (h : IsPair p)
      (hcomputed : (p.get "computed").truthy = true) (hkey : (p.get "key").isTyped = true)
      (hpart : Reads .target (p.get "value") l)
      (honly : ∀ c ∈ p.children, c = p.get "key" ∨ c = p.get "value") :
      Reads .member p (.expression (p.get "key") :: l)
  | pair {p : Node} {l : List Leaf} (h : IsPair p) (hcomputed : (p.get "computed").truthy = false)
      (hleaf : (p.get "key").children = []) (hpart : Reads .target (p.get "value") l)
      (honly : ∀ c ∈ p.children, c = p.get "key" ∨ c = p.get "value") :
      Reads .member p (.key (p.get "key") :: l)

/-- A node is a pattern. -/
def Formed (n : Node) : Prop := ∃ l, Reads .target n l

variable {place : Place} {l : List Leaf} {a b : Leaf}

/-! ### What a walk meets -/

/-- The items of a part of a pattern. -/
def Place.items : Place → Node → List Item
  | .target, n | .element, n => Pattern.items n
  | .member, p => property Pattern.items p

theorem items_of_hasType {type : String} (h : n.hasType type = true) :
    items n = step items n ∧ n.isObj = true ∧ n.typeName? = some type :=
  ⟨items_eq n, Walk.isObj_of_hasType h, Grammar.hasType_iff.1 h⟩

theorem items_expression (h : n.isTyped = true) (hother : isPattern? n = some false) :
    items n = [.embedded n] := by
  have hobj := isObj_of_isTyped h
  obtain ⟨type, ht⟩ := Option.isSome_iff_exists.1 h
  have htypes : type ∉ types := by
    have hscalar : n.type.isScalar = true := by rw [Grammar.type_eq ht]; rfl
    rw [isPattern?, hobj, hscalar, ht] at hother
    simpa using hother
  rw [items_eq, step_other hobj fun other hmem => Bool.eq_false_iff.2 fun he => ?_]
  obtain rfl := Option.some.inj (ht.symm.trans (Grammar.hasType_iff.1 he))
  exact htypes hmem

theorem items_of_isNull (h : n.isNull = true) : items n = [] := by
  have hv : n.value = .null := of_decide_eq_true h
  rw [items, Node.height, hv]
  rfl

theorem items_rest (h : n.hasType "RestElement" = true ∨ n.hasType "SpreadElement" = true) :
    items n = items (n.get "argument") ∧ property items n = items (n.get "argument") := by
  rcases h with h | h
  all_goals
    obtain ⟨he, hobj, ht⟩ := items_of_hasType h
    have hitems : items n = items (n.get "argument") := by
      rw [he, step, hobj, ht]
      rfl
    have hno : n.hasType "Property" = false := by
      rw [Node.hasType, Grammar.type_eq ht]
      rfl
    rw [property, hobj, hno]
    exact ⟨hitems, hitems⟩

theorem property_eq (h : p.hasType "Property" = true) : property items p =
    (if (p.get "computed").truthy then [.embedded (p.get "key")] else []) ++ target items p := by
  rw [property, h, Walk.isObj_of_hasType h]
  rfl

theorem target_pair (h : IsPair p) : target items p = items (p.get "value") := by
  rw [target, h.2]
  rfl

theorem target_shorthand (h : IsShorthand p) (hobj : (p.get "value").isObj = true) :
    target items p = if (p.get "value").hasType "AssignmentPattern" then items (p.get "value")
      else [.bound (p.get "key")] := by
  rw [target, h.2, hobj, if_pos rfl, Bool.not_true, Bool.and_false, if_neg Bool.false_ne_true]

/-- **A walk meets the leaves of a pattern**, except for those that are no names or expressions. -/
theorem Reads.items (h : Reads place n l) : place.items n = l.filterMap Leaf.item? := by
  induction h with
  | name h hleaf =>
      obtain ⟨he, hobj, ht⟩ := items_of_hasType h
      rw [Place.items, he, step, hobj, ht]
      rfl
  | @object n ts each h hlist hparts honly ih =>
      obtain ⟨he, hobj, ht⟩ := items_of_hasType h
      rw [Place.items, he, step, hobj, ht]
      show parts _ _ = _
      rw [parts, Grammar.sequence?_list hlist, List.filterMap_flatMap]
      exact List.flatMap_congr ih
  | @array n ts each h hlist hparts honly ih =>
      obtain ⟨he, hobj, ht⟩ := items_of_hasType h
      rw [Place.items, he, step, hobj, ht]
      show parts _ _ = _
      rw [parts, Grammar.sequence?_list hlist, List.filterMap_flatMap]
      exact List.flatMap_congr ih
  | element hpart ih => exact ih
  | hole h => exact items_of_isNull h
  | @rest place n l h hpart honly ih =>
      obtain ⟨ht, hm⟩ := items_rest h
      cases place with
      | target | element => exact ht.trans ih
      | member => exact hm.trans ih
  | @assignment n l h hpart hright honly ih =>
      obtain ⟨he, hobj, ht⟩ := items_of_hasType h
      have hnull : (n.get "right").isNull = false := by
        by_contra hnull
        rw [not_isTyped_of_isNull (by simpa using hnull)] at hright
        cases hright
      rw [Place.items, he, step, hobj, ht]
      show Pattern.items (n.get "left") ++ (if (n.get "right").isNull then _ else _) = _
      rw [hnull, List.filterMap_append, ← ih]
      rfl
  | expression h hother => exact items_expression h hother
  | @shorthand p h hcomputed hkey hleaf hvalue hleaf' hname honly =>
      have hno : (p.get "value").hasType "AssignmentPattern" = false := by
        rw [Node.hasType, Grammar.type_eq (Grammar.hasType_iff.1 hvalue)]
        rfl
      rw [Place.items, property_eq h.1, hcomputed,
        target_shorthand h (Walk.isObj_of_hasType hvalue), hno]
      rfl
  | shorthandDefault h hcomputed hkey hleaf hvalue hpart honly ih =>
      rw [Place.items, property_eq h.1, hcomputed,
        target_shorthand h (Walk.isObj_of_hasType hvalue), if_pos hvalue]
      exact ih
  | computed h hcomputed hkey hpart honly ih =>
      rw [Place.items, property_eq h.1, hcomputed, target_pair h, List.filterMap_cons, ← ih]
      rfl
  | pair h hcomputed hleaf hpart honly ih =>
      rw [Place.items, property_eq h.1, hcomputed, target_pair h]
      exact ih

/-! ### Leaves stand apart -/

/-- The leaves of a part stand in it. -/
theorem Reads.atOrBelow (h : Reads place n l) (ha : a ∈ l) : n.AtOrBelow a.node := by
  induction h generalizing a with
  | name h hleaf =>
      rw [List.mem_singleton.1 ha]
      exact atOrBelow_self _
  | object h hlist hparts honly ih | array h hlist hparts honly ih =>
      obtain ⟨c, hc, ha⟩ := List.mem_flatMap.1 ha
      exact ((below_get _ _).trans (below_of_mem_items hc)).atOrBelow.trans (ih c hc ha)
  | element hpart ih => exact ih ha
  | hole h => cases ha
  | rest h hpart honly ih => exact (below_get _ _).atOrBelow.trans (ih ha)
  | assignment h hpart hright honly ih =>
      rcases List.mem_append.1 ha with ha | ha
      · exact (below_get _ _).atOrBelow.trans (ih ha)
      · rw [List.mem_singleton.1 ha]
        exact (below_get _ _).atOrBelow
  | expression h hother =>
      rw [List.mem_singleton.1 ha]
      exact atOrBelow_self _
  | shorthand h hcomputed hkey hleaf hvalue hleaf' hname honly =>
      rcases List.mem_pair.1 ha with rfl | rfl
      · exact (below_get _ _).atOrBelow
      · exact (below_get _ _).atOrBelow
  | shorthandDefault h hcomputed hkey hleaf hvalue hpart honly ih
  | computed h hcomputed hkey hpart honly ih
  | pair h hcomputed hleaf hpart honly ih =>
      rcases List.mem_cons.1 ha with rfl | ha
      · exact (below_get _ _).atOrBelow
      · exact (below_get _ _).atOrBelow.trans (ih ha)

/-- One leaf comes before another one in the source. -/
def Leaf.InOrder (a b : Leaf) : Prop := Precedes a.node.path b.node.path

/-- A key comes before what stands in the value of its property. -/
theorem inOrder_value (hpart : Reads .target (p.get "value") l) (ha : a.node = p.get "key") :
    ∀ b ∈ l, a.InOrder b := fun _ hb =>
  (precedes_get (.inl ⟨rfl, rfl⟩) p).atOrBelow (ha ▸ atOrBelow_self _) (hpart.atOrBelow hb)

theorem inOrder_items {each : Node → List Leaf}
    (heach : ∀ c ∈ n.items, (each c).Pairwise Leaf.InOrder)
    (hbelow : ∀ c ∈ n.items, ∀ a ∈ each c, c.AtOrBelow a.node) :
    (n.items.flatMap each).Pairwise Leaf.InOrder := by
  refine List.pairwise_flatMap.2 ⟨heach, List.Pairwise.imp_of_mem ?_ (precedes_items n)⟩
  exact fun {c d} hc hd h a ha b hb => h.atOrBelow (hbelow c hc a ha) (hbelow d hd b hb)

/-- **The leaves of a pattern are in the order of the source.** -/
theorem Reads.inOrder (h : Reads place n l) : l.Pairwise Leaf.InOrder := by
  induction h with
  | name | expression => exact List.pairwise_singleton ..
  | object h hlist hparts honly ih | array h hlist hparts honly ih =>
      exact inOrder_items ih fun c hc a ha => (hparts c hc).atOrBelow ha
  | element hpart ih => exact ih
  | hole h => exact .nil
  | rest h hpart honly ih => exact ih
  | @assignment n l h hpart hright honly ih =>
      refine List.pairwise_append.2 ⟨ih, List.pairwise_singleton .., fun a ha b hb => ?_⟩
      rw [List.mem_singleton.1 hb]
      exact (precedes_get (.inr ⟨rfl, rfl⟩) n).atOrBelow (hpart.atOrBelow ha) (atOrBelow_self _)
  | @shorthand p =>
      refine List.pairwise_pair.2 ?_
      exact precedes_get (.inl ⟨rfl, rfl⟩) p
  | shorthandDefault h hcomputed hkey hleaf hvalue hpart honly ih
  | computed h hcomputed hkey hpart honly ih
  | pair h hcomputed hleaf hpart honly ih => exact .cons (inOrder_value hpart rfl) ih

/-- No node is in two leaves. -/
theorem Reads.sole (h : Reads place n l) (ha : a ∈ l) (hb : b ∈ l) (ham : a.node.AtOrBelow m)
    (hbm : b.node.AtOrBelow m) : a = b := by
  by_contra hne
  have : Std.Symm fun a b : Leaf => Diverge a.node.path b.node.path := ⟨fun _ _ h => h.symm⟩
  have hd := (h.inOrder.imp Precedes.diverge).forall ha hb hne
  exact (hd.atOrBelow ham hbm).1 (List.prefix_refl _)

/-! ### What leaves are -/

theorem isTyped_of_hasType {type : String} (h : n.hasType type = true) : n.isTyped = true := by
  rw [isTyped, Grammar.hasType_iff.1 h]
  rfl

/-- What has a leaf is a node of the program. -/
theorem Reads.isTyped (h : Reads place n l) (ha : a ∈ l) : n.isTyped = true := by
  induction h with
  | name h | object h | array h | assignment h => exact isTyped_of_hasType h
  | element hpart ih => exact ih ha
  | hole h => cases ha
  | rest h => exact h.elim isTyped_of_hasType isTyped_of_hasType
  | expression h => exact h
  | shorthand h | shorthandDefault h | computed h | pair h => exact isTyped_of_hasType h.1

/-- What a leaf of a pattern with given leaves is. -/
def Leaf.Stems (n : Node) (l : List Leaf) : Leaf → Prop
  | .name m => n.Reaches m ∧ m.hasType "Identifier" = true
  | .expression m => n.Reaches m
  | .key m => ∃ p, n.Reaches p ∧ IsPair p ∧ (p.get "computed").truthy = false ∧ m = p.get "key"
  | .copy m => ∃ p, n.Reaches p ∧ IsShorthand p ∧
      ((p.get "value").hasType "AssignmentPattern" = true ∧ m = p.get "key" ∨
        m = p.get "value" ∧ .name (p.get "key") ∈ l ∧
          m.value.get "name" = (p.get "key").value.get "name")

/-- What a leaf of a part is, it is for the whole. -/
theorem Leaf.Stems.mono {c : Node} {k : List Leaf} (hc : n.Reaches c) (hl : ∀ a ∈ k, a ∈ l)
    (h : a.Stems c k) : a.Stems n l := by
  cases a with
  | name m => exact ⟨hc.trans h.1, h.2⟩
  | expression m => exact hc.trans h
  | key m =>
      obtain ⟨p, hp, h⟩ := h
      exact ⟨p, hc.trans hp, h⟩
  | copy m =>
      obtain ⟨p, hp, hs, h⟩ := h
      exact ⟨p, hc.trans hp, hs, h.imp_right fun ⟨hm, hk, hname⟩ => ⟨hm, hl _ hk, hname⟩⟩

theorem reaches_get {key : String} (hkey : key ∉ metadata) (ht : (n.get key).isTyped = true) :
    n.Reaches (n.get key) := .single (get_mem_children hkey ht)

/-- What the leaves of a list of parts are. -/
theorem stems_items {key : String} {ts : List Tree} {each : Node → List Leaf} {part : Place}
    (hkey : key ∉ metadata) (hlist : (n.get key).value = .arr ts)
    (hparts : ∀ c ∈ (n.get key).items, Reads part c (each c))
    (h : ∀ c ∈ (n.get key).items, ∀ a ∈ each c, a.Stems c (each c))
    (ha : a ∈ (n.get key).items.flatMap each) : a.Stems n ((n.get key).items.flatMap each) := by
  obtain ⟨c, hc, ha⟩ := List.mem_flatMap.1 ha
  have hchild := mem_children_of_items hkey hlist hc ((hparts c hc).isTyped ha)
  exact (h c hc a ha).mono (.single hchild) fun b hb => List.mem_flatMap.2 ⟨c, hc, hb⟩

/-- **What the leaves of a pattern are.** -/
theorem Reads.stems (h : Reads place n l) : ∀ a ∈ l, a.Stems n l := by
  induction h with
  | name h hleaf =>
      intro a ha
      rw [List.mem_singleton.1 ha]
      exact ⟨.refl, h⟩
  | object h hlist hparts honly ih =>
      exact fun a ha => stems_items (by decide) hlist hparts ih ha
  | array h hlist hparts honly ih =>
      exact fun a ha => stems_items (by decide) hlist hparts ih ha
  | element hpart ih => exact ih
  | hole h => nofun
  | rest h hpart honly ih =>
      exact fun a ha => (ih a ha).mono (reaches_get (by decide) (hpart.isTyped ha)) fun _ hb => hb
  | assignment h hpart hright honly ih =>
      intro a ha
      rcases List.mem_append.1 ha with ha | ha
      · exact (ih a ha).mono (reaches_get (by decide) (hpart.isTyped ha)) fun _ hb =>
          List.mem_append_left _ hb
      · rw [List.mem_singleton.1 ha]
        exact reaches_get (by decide) hright
  | expression h hother =>
      intro a ha
      rw [List.mem_singleton.1 ha]
      exact .refl
  | @shorthand p h hcomputed hkey hleaf hvalue hleaf' hname honly =>
      intro a ha
      rcases List.mem_pair.1 ha with rfl | rfl
      · exact ⟨reaches_get (by decide) (isTyped_of_hasType hkey), hkey⟩
      · exact ⟨p, .refl, h, .inr ⟨rfl, List.mem_cons_self, hname⟩⟩
  | @shorthandDefault p l h hcomputed hkey hleaf hvalue hpart honly ih =>
      intro a ha
      rcases List.mem_cons.1 ha with rfl | ha
      · exact ⟨p, .refl, h, .inl ⟨hvalue, rfl⟩⟩
      · exact (ih a ha).mono (reaches_get (by decide) (hpart.isTyped ha)) fun _ hb =>
          List.mem_cons_of_mem _ hb
  | computed h hcomputed hkey hpart honly ih =>
      intro a ha
      rcases List.mem_cons.1 ha with rfl | ha
      · exact reaches_get (by decide) hkey
      · exact (ih a ha).mono (reaches_get (by decide) (hpart.isTyped ha)) fun _ hb =>
          List.mem_cons_of_mem _ hb
  | @pair p l h hcomputed hleaf hpart honly ih =>
      intro a ha
      rcases List.mem_cons.1 ha with rfl | ha
      · exact ⟨p, .refl, h, hcomputed, rfl⟩
      · exact (ih a ha).mono (reaches_get (by decide) (hpart.isTyped ha)) fun _ hb =>
          List.mem_cons_of_mem _ hb

/-! ### Every identifier is in a leaf -/

/-- An identifier is in a leaf: it is the leaf itself, or in an expression. -/
def Leaf.Covers (a : Leaf) (m : Node) : Prop :=
  a.node.AtOrBelow m ∧ (a.node = m ∨ ∃ e, a = .expression e)

theorem covers_self (h : a.node = m) : a.Covers m := ⟨h ▸ atOrBelow_self _, .inl h⟩

/-- From a node without children, nothing else is reached. -/
theorem eq_of_reaches_leaf (hleaf : n.children = []) (h : n.Reaches m) : n = m := by
  rcases h.cases_head with he | ⟨c, hc, -⟩
  · exact he
  · rw [hleaf] at hc
    cases hc

/-- An identifier in a node of another type is in a child of the node. -/
theorem reaches_child {type : String} (h : n.hasType type = true) (hne : type ≠ "Identifier")
    (hm : n.Reaches m) (hid : m.hasType "Identifier" = true) : ∃ c ∈ n.children, c.Reaches m := by
  rcases hm.cases_head with rfl | hc
  · rw [Grammar.hasType_iff] at h hid
    exact absurd (Option.some.inj (h.symm.trans hid)) hne
  · exact hc

/-- An identifier in a property is its key, or in its value. -/
theorem reaches_property (h : p.hasType "Property" = true) (hleaf : (p.get "key").children = [])
    (honly : ∀ c ∈ p.children, c = p.get "key" ∨ c = p.get "value") (hm : p.Reaches m)
    (hid : m.hasType "Identifier" = true) : p.get "key" = m ∨ (p.get "value").Reaches m := by
  obtain ⟨c, hc, hcm⟩ := reaches_child h (by decide) hm hid
  rcases honly c hc with rfl | rfl
  · exact .inl (eq_of_reaches_leaf hleaf hcm)
  · exact .inr hcm

/-- **Every identifier of a pattern is in a leaf.** -/
theorem Reads.covers (h : Reads place n l) (hm : n.Reaches m)
    (hid : m.hasType "Identifier" = true) : ∃ a ∈ l, a.Covers m := by
  induction h with
  | name h hleaf => exact ⟨_, List.mem_singleton_self _, covers_self (eq_of_reaches_leaf hleaf hm)⟩
  | object h hlist hparts honly ih | array h hlist hparts honly ih =>
      obtain ⟨c, hc, hcm⟩ := reaches_child h (by decide) hm hid
      obtain ⟨a, ha, hcovers⟩ := ih c (honly c hc) hcm
      exact ⟨a, List.mem_flatMap.2 ⟨c, honly c hc, ha⟩, hcovers⟩
  | element hpart ih => exact ih hm
  | @hole n h =>
      have hv : n.value = .null := of_decide_eq_true h
      have hleaf : n.children = [] := by rw [children, hv]
      obtain rfl := eq_of_reaches_leaf hleaf hm
      rw [hasType, type, hv] at hid
      cases hid
  | rest h hpart honly ih =>
      obtain ⟨c, hc, hcm⟩ := h.elim (fun h => reaches_child h (by decide) hm hid)
        fun h => reaches_child h (by decide) hm hid
      exact ih (honly c hc ▸ hcm)
  | assignment h hpart hright honly ih =>
      obtain ⟨c, hc, hcm⟩ := reaches_child h (by decide) hm hid
      rcases honly c hc with rfl | rfl
      · obtain ⟨a, ha, hcovers⟩ := ih hcm
        exact ⟨a, List.mem_append_left _ ha, hcovers⟩
      · exact ⟨_, List.mem_append_right _ (List.mem_singleton_self _), hcm.atOrBelow,
          .inr ⟨_, rfl⟩⟩
  | expression h hother => exact ⟨_, List.mem_singleton_self _, hm.atOrBelow, .inr ⟨_, rfl⟩⟩
  | shorthand h hcomputed hkey hleaf hvalue hleaf' hname honly =>
      rcases reaches_property h.1 hleaf honly hm hid with hk | hv
      · exact ⟨_, List.mem_cons_self, covers_self hk⟩
      · exact ⟨_, List.mem_cons_of_mem _ (List.mem_singleton_self _),
          covers_self (eq_of_reaches_leaf hleaf' hv)⟩
  | shorthandDefault h hcomputed hkey hleaf hvalue hpart honly ih =>
      rcases reaches_property h.1 hleaf honly hm hid with hk | hv
      · exact ⟨_, List.mem_cons_self, covers_self hk⟩
      · obtain ⟨a, ha, hcovers⟩ := ih hv
        exact ⟨a, List.mem_cons_of_mem _ ha, hcovers⟩
  | computed h hcomputed hkey hpart honly ih =>
      obtain ⟨c, hc, hcm⟩ := reaches_child h.1 (by decide) hm hid
      rcases honly c hc with rfl | rfl
      · exact ⟨_, List.mem_cons_self, hcm.atOrBelow, .inr ⟨_, rfl⟩⟩
      · obtain ⟨a, ha, hcovers⟩ := ih hcm
        exact ⟨a, List.mem_cons_of_mem _ ha, hcovers⟩
  | pair h hcomputed hleaf hpart honly ih =>
      rcases reaches_property h.1 hleaf honly hm hid with hk | hv
      · exact ⟨_, List.mem_cons_self, covers_self hk⟩
      · obtain ⟨a, ha, hcovers⟩ := ih hv
        exact ⟨a, List.mem_cons_of_mem _ ha, hcovers⟩

/-! ### What a walk makes of a pattern -/

/-- What becomes of an identifier of a pattern. -/
inductive Fate (n m : Node) : Prop
  /-- It is reported once. -/
  | reported (h : (bound n).count m = 1) (he : ∀ e ∈ embedded n, ¬ e.AtOrBelow m)
  /-- It is in one of the expressions. -/
  | inside (h : m ∉ bound n) (he : ∃! e, e ∈ embedded n ∧ e.AtOrBelow m)
  /-- It is the key of a property with a value of its own, not computed. -/
  | key (h : m ∉ bound n) (he : ∀ e ∈ embedded n, ¬ e.AtOrBelow m)
      (hk : ∃ p, n.Reaches p ∧ IsPair p ∧ (p.get "computed").truthy = false ∧ m = p.get "key")
  /-- It is the key of a shorthand with a default value, or repeats one that is reported. -/
  | copy (h : m ∉ bound n) (he : ∀ e ∈ embedded n, ¬ e.AtOrBelow m)
      (hk : ∃ p, n.Reaches p ∧ IsShorthand p ∧
        ((p.get "value").hasType "AssignmentPattern" = true ∧ m = p.get "key" ∨
          m = p.get "value" ∧ p.get "key" ∈ bound n ∧
            m.value.get "name" = (p.get "key").value.get "name"))

/-- What a walk reports of a pattern and which expressions it collects. -/
structure Partitioned (n : Node) : Prop where
  readable : isBroken n = false
  /-- Whether or not expressions are collected, what is bound is reported. -/
  calls : ∀ collect, calls collect n = (bound n).map (·, isWhole n)
  toplevel : ∀ collect, ∀ c ∈ Pattern.calls collect n, c.2 = true →
    n.isIdentifier = true ∧ Pattern.calls collect n = [(n, true)]
  identifiers : ∀ m ∈ bound n, n.Reaches m ∧ m.isIdentifier = true
  distinct : (bound n).Pairwise fun a b => Diverge a.path b.path
  disjoint : (embedded n).Pairwise fun a b => Diverge a.path b.path
  inOrder : (embedded n).Pairwise fun a b => Precedes a.path b.path
  apart : ∀ m ∈ bound n, ∀ e ∈ embedded n, ¬ e.AtOrBelow m
  fate : ∀ m, n.Reaches m → m.isIdentifier = true → Fate n m

theorem bound_whole (h : n.isIdentifier = true) : bound n = [n] := by
  obtain ⟨he, hobj, ht⟩ := items_of_hasType h
  rw [bound, he, step, hobj, ht]
  rfl

theorem Reads.mem_items (h : Reads .target n l) {item : Item} :
    item ∈ Pattern.items n ↔ ∃ a ∈ l, a.item? = some item := by
  rw [show Pattern.items n = l.filterMap Leaf.item? from h.items, List.mem_filterMap]

theorem Reads.mem_bound (h : Reads .target n l) : m ∈ bound n ↔ .name m ∈ l := by
  rw [mem_bound_iff, h.mem_items]
  constructor
  · rintro ⟨a, ha, he⟩
    cases a <;> cases he
    exact ha
  · exact fun ha => ⟨_, ha, rfl⟩

theorem Reads.mem_embedded (h : Reads .target n l) : m ∈ embedded n ↔ .expression m ∈ l := by
  rw [mem_embedded_iff, h.mem_items]
  constructor
  · rintro ⟨a, ha, he⟩
    cases a <;> cases he
    exact ha
  · exact fun ha => ⟨_, ha, rfl⟩

/-- What a walk meets is in the order of the source. -/
theorem Reads.inOrder_filterMap (h : Reads .target n l) {f : Item → Option Node}
    (hf : ∀ item m, f item = some m → item.node? = some m) :
    ((Pattern.items n).filterMap f).Pairwise fun a b => Precedes a.path b.path := by
  have hnode : ∀ (a : Leaf) item m, a.item? = some item → f item = some m → a.node = m := by
    intro a item m ha hm
    have hitem := hf item m hm
    cases a <;> cases ha
    · exact Option.some.inj hitem
    · exact Option.some.inj hitem
  rw [show Pattern.items n = l.filterMap Leaf.item? from h.items]
  refine List.pairwise_filterMap.2 (List.pairwise_filterMap.2 (h.inOrder.imp ?_))
  intro a b hab x hx y hy m hm k hk
  rw [← hnode a x m hx hm, ← hnode b y k hy hk]
  exact hab

theorem Reads.inOrder_bound (h : Reads .target n l) :
    (bound n).Pairwise fun a b => Precedes a.path b.path :=
  h.inOrder_filterMap fun item m hm => by cases item <;> cases hm; rfl

theorem Reads.inOrder_embedded (h : Reads .target n l) :
    (embedded n).Pairwise fun a b => Precedes a.path b.path :=
  h.inOrder_filterMap fun item m hm => by cases item <;> cases hm; rfl

/-- **What becomes of an identifier** is told by the leaf that it is in. -/
theorem Reads.fate (h : Reads .target n l) (hm : n.Reaches m)
    (hid : m.hasType "Identifier" = true) : Fate n m := by
  obtain ⟨a, ha, hbelow, hcovers⟩ := h.covers hm hid
  have hsole : ∀ b ∈ l, b.node.AtOrBelow m → b = a := fun b hb hbm => h.sole hb ha hbm hbelow
  -- If the leaf is of another sort, the identifier is not bound, and in no expression.
  have hfree : a ≠ .name m → m ∉ bound n := fun hne hbound =>
    hne (hsole _ (h.mem_bound.1 hbound) (atOrBelow_self m)).symm
  have hclear : (∀ e, a ≠ .expression e) → ∀ e ∈ embedded n, ¬ e.AtOrBelow m :=
    fun hne e he hem => hne e (hsole _ (h.mem_embedded.1 he) hem).symm
  have hself : (∀ e, a ≠ .expression e) → a.node = m := fun hne =>
    hcovers.resolve_right fun ⟨e, he⟩ => hne e he
  have hstems := h.stems a ha
  cases a with
  | name x =>
      obtain rfl : x = m := hself nofun
      have hnodup : (bound n).Nodup :=
        h.inOrder_bound.imp fun hd he => hd.diverge.ne (congrArg _ he)
      exact .reported (List.count_eq_one_of_mem hnodup (h.mem_bound.2 ha)) (hclear nofun)
  | expression e =>
      refine .inside (hfree nofun) ⟨e, ⟨h.mem_embedded.2 ha, hbelow⟩, fun e' he => ?_⟩
      exact Leaf.expression.inj (hsole _ (h.mem_embedded.1 he.1) he.2)
  | key x =>
      obtain rfl : x = m := hself nofun
      exact .key (hfree nofun) (hclear nofun) hstems
  | copy x =>
      obtain rfl : x = m := hself nofun
      obtain ⟨p, hp, hs, hor⟩ := hstems
      exact .copy (hfree nofun) (hclear nofun)
        ⟨p, hp, hs, hor.imp_right fun ⟨he, hk, hname⟩ => ⟨he, h.mem_bound.2 hk, hname⟩⟩

/-- **A walk partitions a pattern**: every identifier has one fate, and what is reported and what is
collected stand apart. -/
theorem Formed.partitioned (h : Formed n) : Partitioned n := by
  obtain ⟨l, h⟩ := h
  refine ⟨?_, fun collect => calls_eq collect n, fun collect c hc htop => ?_, fun m hm => ?_,
    h.inOrder_bound.imp Precedes.diverge, h.inOrder_embedded.imp Precedes.diverge,
    h.inOrder_embedded, fun m hm e he hem => ?_, fun m hm hid => h.fate hm hid⟩
  · rw [isBroken, Bool.eq_false_iff, ne_eq, List.contains_iff_mem, h.mem_items]
    rintro ⟨a, -, ha⟩
    cases a <;> cases ha
  · rw [calls_eq] at hc
    obtain ⟨m, -, rfl⟩ := List.mem_map.1 hc
    have hwhole : n.isIdentifier = true := htop
    rw [calls_eq, bound_whole hwhole, isWhole, hwhole]
    exact ⟨rfl, rfl⟩
  · exact h.stems _ (h.mem_bound.1 hm)
  · have heq := h.sole (h.mem_bound.1 hm) (h.mem_embedded.1 he) (atOrBelow_self m) hem
    cases heq

/-- `{a, b: c = d}` -/
def memberPattern : Node :=
  let name (text : String) : Tree := .obj [("type", .str "Identifier"), ("name", .str text)]
  .root (.obj [("type", .str "ObjectPattern"), ("properties", .arr [
    .obj [("type", .str "Property"), ("shorthand", .bool true), ("key", name "a"),
      ("value", name "a")],
    .obj [("type", .str "Property"), ("shorthand", .bool false), ("key", name "b"),
      ("value", .obj [("type", .str "AssignmentPattern"), ("left", name "c"),
        ("right", name "d")])]])])

/-- The property of `memberPattern` at an index. -/
def memberAt (i : Nat) : Node := (memberPattern.get "properties").items.getD i .absent

theorem formed_memberPattern : Formed memberPattern := by
  have hitems : (memberPattern.get "properties").items = [memberAt 0, memberAt 1] := rfl
  have hparts : ∀ p ∈ (memberPattern.get "properties").items, ∃ l, Reads .member p l := by
    rw [hitems]
    intro p hp
    rcases List.mem_pair.1 hp with rfl | rfl
    · exact ⟨_, .shorthand ⟨rfl, rfl⟩ rfl rfl rfl rfl rfl rfl (by decide +kernel)⟩
    · exact ⟨_, .pair ⟨rfl, rfl⟩ rfl rfl (.assignment rfl (.name rfl rfl) rfl (by decide +kernel))
        (by decide +kernel)⟩
  choose! each heach using hparts
  exact ⟨_, .object rfl rfl heach (by decide +kernel)⟩

/-- In `memberPattern`, the first name is reported and not repeated, the key is passed over, and the
default value is collected. -/
theorem partitioned_sample : Formed memberPattern ∧ Partitioned memberPattern ∧
    bound memberPattern = [(memberAt 0).get "key", ((memberAt 1).get "value").get "left"] ∧
    embedded memberPattern = [((memberAt 1).get "value").get "right"] :=
  ⟨formed_memberPattern, formed_memberPattern.partitioned, by decide +kernel, by decide +kernel⟩

end Pattern

end LexScope
