import LexScope.Proofs.Origins

/-!
# Proofs — Apart — a walk never comes to a place twice

Two places are apart when neither is in the other (`Node.Diverge`).  The nodes that a rule visits
stand apart, and so do those that a pattern embeds, as long as no object has two members of one name
(`Tree.DistinctKeys`).  So no scope is opened twice for one node and in one way.

* `Pattern.separate_items`: what is met in a pattern stands apart; only a computed shorthand is both
  evaluated and bound.
* `separated_calls`: **the nodes that a rule visits stand apart.**
* `around_injective`: **two scopes of a finished store differ in what is around them.**
-/

namespace LexScope

open Node

namespace Tree

/-- Whether no two members of an object have one name. -/
def hasDistinctKeys : Tree → Bool
  | .obj members => decide (members.map (·.1)).Nodup
  | _ => true

/-- No object in a tree has two members of one name. -/
def DistinctKeys (t : Tree) : Prop := t.allObjects hasDistinctKeys = true

instance (t : Tree) : Decidable t.DistinctKeys := inferInstanceAs (Decidable (_ = _))

theorem DistinctKeys.keys {members : List (String × Tree)} (h : (Tree.obj members).DistinctKeys) :
    (members.map (·.1)).Nodup := by
  rw [DistinctKeys, allObjects, Bool.and_eq_true] at h
  exact of_decide_eq_true h.1

end Tree

/-! ### Nodes that stand apart -/

namespace Node

variable {n m c d : Node} {l k : List Node}

theorem Diverge.symm {a b : Path} (h : Diverge a b) : Diverge b a := ⟨h.2, h.1⟩

theorem AtOrBelow.isPrefix (h : n.AtOrBelow m) : n.path <+: m.path := by
  obtain ⟨q, hq⟩ := h
  exact ⟨q, hq.symm⟩

/-- What is at or below nodes that stand apart stands apart. -/
theorem Diverge.atOrBelow (h : Diverge n.path m.path) (hc : n.AtOrBelow c) (hd : m.AtOrBelow d) :
    Diverge c.path d.path := Diverge.of_prefix h hc.isPrefix hd.isPrefix

/-- Different members of a node stand apart. -/
theorem diverge_get {x y : String} (h : x ≠ y) : Diverge (n.get x).path (n.get y).path :=
  diverge_append fun he => h (Step.member.inj he)

/-- What is strictly below a node is not above it. -/
theorem Below.not_isPrefix (h : n.Below m) : ¬ m.path <+: n.path := by
  obtain ⟨q, hq, hm⟩ := h
  intro hp
  have hlength := hp.length_le
  rw [hm, List.length_append] at hlength
  exact hq (List.length_eq_zero_iff.1 (by omega))

/-- Nodes of which none is in another. -/
def Separated (l : List Node) : Prop := l.Pairwise fun a b => Diverge a.path b.path

theorem Separated.append (hl : Separated l) (hk : Separated k)
    (h : ∀ a ∈ l, ∀ b ∈ k, Diverge a.path b.path) : Separated (l ++ k) :=
  List.pairwise_append.2 ⟨hl, hk, h⟩

theorem separated_nil : Separated [] := List.Pairwise.nil

theorem separated_one (n : Node) : Separated [n] := List.pairwise_singleton ..

/-- Nodes below others that stand apart. -/
theorem Separated.flatMap {f : Node → List Node} (hl : Separated l) (hf : ∀ n ∈ l, Separated (f n))
    (hb : ∀ n ∈ l, ∀ m ∈ f n, n.AtOrBelow m) : Separated (l.flatMap f) := by
  refine List.pairwise_flatMap.2 ⟨hf, ?_⟩
  refine List.Pairwise.imp_of_mem ?_ hl
  exact fun {a b} ha hb' h c hc d hd => h.atOrBelow (hb a ha c hc) (hb b hb' d hd)

theorem separated_items (n : Node) : Separated n.items := by
  rw [items]
  split
  · exact pairwise_itemsFrom ..
  · exact separated_nil

theorem separated_sequence {ns : List Node} (h : n.sequence? = some ns) : Separated ns := by
  rw [sequence?] at h
  split at h
  · cases h
    exact separated_nil
  · split at h
    · cases h
      exact pairwise_itemsFrom ..
    · cases h
      exact pairwise_itemsFrom ..
    · cases h
      exact pairwise_itemsFrom ..
    · cases h

theorem separated_typedAt (n : Node) : Separated n.typedAt := by
  rw [typedAt]
  split
  · exact List.Pairwise.filter _ (pairwise_itemsFrom ..)
  · split
    · exact separated_one n
    · exact separated_nil

/-- The children of a node stand apart if its members have different names. -/
theorem separated_children (h : n.value.DistinctKeys) : Separated n.children := by
  cases hv : n.value with
  | obj members =>
      rw [hv] at h
      rw [children_eq hv h.keys]
      refine List.pairwise_flatMap.2 ⟨fun key _ => separated_typedAt _, ?_⟩
      refine (List.Pairwise.filter _ h.keys).imp fun {x y} hne c hc d hd => ?_
      exact (diverge_get hne).atOrBelow (atOrBelow_of_mem_typedAt hc) (atOrBelow_of_mem_typedAt hd)
  | _ =>
      rw [children, hv]
      exact separated_nil

end Node

/-! ### Patterns -/

namespace Pattern

/-- Two items are about nodes that stand apart, or about one node that is bound and embedded. -/
def Separate (a b : Item) : Prop := ∀ m k, a.node? = some m → b.node? = some k →
  Diverge m.path k.path ∨ m = k ∧ (a.embedded? = none ∨ b.embedded? = none)

variable {walk : Node → List Item} {n m p : Node}

theorem Separate.symm {a b : Item} (h : Separate a b) : Separate b a := fun m k hm hk =>
  (h k m hk hm).elim (fun hd => .inl hd.symm) fun ⟨he, ho⟩ => .inr ⟨he.symm, ho.symm⟩

theorem separate_of_stays {l k : List Item} (hl : Stays n l) (hk : Stays m k)
    (h : Diverge n.path m.path) : ∀ a ∈ l, ∀ b ∈ k, Separate a b := fun a ha b hb c d hc hd =>
  .inl (h.atOrBelow (hl a ha c hc) (hk b hb d hd))

/-- What each of several nodes offers stands apart. -/
theorem separate_parts {each : Node → List Item} (h : ∀ c, (each c).Pairwise Separate)
    (hs : ∀ c, Stays c (each c)) : (parts n each).Pairwise Separate := by
  rw [parts]
  split
  · rename_i ns hns
    refine List.pairwise_flatMap.2 ⟨fun c _ => h c, (separated_sequence hns).imp ?_⟩
    exact fun {c d} hd => separate_of_stays (hs c) (hs d) hd
  · exact List.pairwise_singleton ..

theorem separate_property (h : ∀ c, (walk c).Pairwise Separate) (hs : ∀ c, Stays c (walk c))
    (p : Node) : (property walk p).Pairwise Separate := by
  rw [property]
  split
  · exact List.pairwise_singleton ..
  split
  · exact h p
  refine List.pairwise_append.2 ⟨?_, ?_, ?_⟩
  · split
    · exact List.pairwise_singleton ..
    · exact .nil
  · rw [target]
    split_ifs
    · exact List.pairwise_singleton ..
    · exact h _
    · exact List.pairwise_singleton ..
    · exact h _
  · intro a ha b hb
    split at ha
    · rw [List.mem_singleton.1 ha]
      have hvalue : b ∈ walk (p.get "value") → Separate (.embedded (p.get "key")) b := fun hb =>
        separate_of_stays (stays_embedded (atOrBelow_self _)) (hs _)
          (diverge_get (by decide)) _ List.mem_cons_self b hb
      rw [target] at hb
      split_ifs at hb
      · rw [List.mem_singleton.1 hb]
        rintro m k - ⟨⟩
      · exact hvalue hb
      · -- A computed shorthand is evaluated and bound.
        rw [List.mem_singleton.1 hb]
        rintro m k hm hk
        cases hm
        cases hk
        exact .inr ⟨rfl, .inr rfl⟩
      · exact hvalue hb
    · cases ha

theorem separate_step (h : ∀ c, (walk c).Pairwise Separate) (hs : ∀ c, Stays c (walk c))
    (n : Node) : (step walk n).Pairwise Separate := by
  rw [step]
  split
  · exact .nil
  split
  · exact List.pairwise_singleton ..
  · exact separate_parts (separate_property h hs) (stays_property hs)
  · exact separate_parts h hs
  · exact h _
  · exact h _
  · refine List.pairwise_append.2 ⟨h _, ?_, ?_⟩
    · split
      · exact .nil
      · exact List.pairwise_singleton ..
    · intro a ha b hb
      split at hb
      · cases hb
      · exact separate_of_stays (hs _) (stays_embedded (atOrBelow_self _))
          (diverge_get (by decide)) a ha b hb
  · exact List.pairwise_singleton ..

/-- **What is met in a pattern stands apart.** -/
theorem separate_items (n : Node) : (items n).Pairwise Separate := by
  have hall : ∀ depth n, (itemsAt depth n).Pairwise Separate := by
    intro depth
    induction depth with
    | zero => exact fun _ => .nil
    | succ depth ih => exact separate_step ih (stays_itemsAt depth)
  exact hall _ n

theorem mem_embedded_iff : m ∈ embedded n ↔ .embedded m ∈ items n := by
  rw [embedded, List.mem_filterMap]
  constructor
  · rintro ⟨item, hi, he⟩
    cases item <;> cases he
    exact hi
  · exact fun h => ⟨_, h, rfl⟩

theorem mem_bound_iff : m ∈ bound n ↔ .bound m ∈ items n := by
  rw [bound, List.mem_filterMap]
  constructor
  · rintro ⟨item, hi, he⟩
    cases item <;> cases he
    exact hi
  · exact fun h => ⟨_, h, rfl⟩

theorem atOrBelow_of_mem_bound (h : m ∈ bound n) : n.AtOrBelow m :=
  stays_itemsAt _ n _ (mem_bound_iff.1 h) m rfl

theorem separated_embedded (n : Node) : Separated (embedded n) := by
  refine List.pairwise_filterMap.2 ((separate_items n).imp fun {a b} h c hc d hd => ?_)
  have hnode : ∀ {item : Item} {m}, item.embedded? = some m → item.node? = some m := fun he => by
    rename_i item m
    cases item <;> cases he
    rfl
  rcases h c d (hnode hc) (hnode hd) with h | ⟨-, h | h⟩
  · exact h
  · rw [h] at hc
    cases hc
  · rw [h] at hd
    cases hd

/-- What a pattern binds is apart from what it embeds, unless both are one. -/
theorem diverge_bound_embedded (hp : p ∈ bound n) (hm : m ∈ embedded n) :
    Diverge p.path m.path ∨ p = m := by
  have : Std.Symm Separate := ⟨fun _ _ h => h.symm⟩
  have h := (separate_items n).forall (mem_bound_iff.1 hp) (mem_embedded_iff.1 hm) nofun
  exact (h p m rfl rfl).imp_right And.left

end Pattern

/-! ### What a rule visits -/

namespace Walk

open Grammar (inside)

variable {g : Gates} {n m : Node} {k j : Call} {K : List Call} {l : List Node}

/-- Nodes that are visited stand apart. -/
def SeparatedCalls (calls : List Call) : Prop := Separated (calls.map (·.node))

theorem separatedCalls_walks (h : Separated l) : SeparatedCalls (walks l) := by
  rw [SeparatedCalls, walks, List.map_map]
  exact (List.map_id l).symm ▸ h

theorem SeparatedCalls.under (h : SeparatedCalls K) (c : Around) :
    SeparatedCalls (K.map (.under c)) := by
  rw [SeparatedCalls, List.map_map]
  exact h

theorem SeparatedCalls.nested (h : SeparatedCalls K) (n : Node) (isMethod : Bool) :
    SeparatedCalls (nestedCalls n isMethod K) := by
  unfold nestedCalls
  split
  · exact h.under _
  · exact separated_nil

theorem SeparatedCalls.nestedIf (h : SeparatedCalls K) (condition : Bool) (n : Node) :
    SeparatedCalls (nestedIfCalls condition n K) := by
  unfold nestedIfCalls
  split
  · exact h.nested n false
  · exact h

theorem SeparatedCalls.append {L : List Call} (hK : SeparatedCalls K) (hL : SeparatedCalls L)
    (h : ∀ a ∈ K, ∀ b ∈ L, Diverge a.node.path b.node.path) : SeparatedCalls (K ++ L) := by
  rw [SeparatedCalls, List.map_append]
  refine Separated.append hK hL fun a ha b hb => ?_
  obtain ⟨k, hk, rfl⟩ := List.mem_map.1 ha
  obtain ⟨j, hj, rfl⟩ := List.mem_map.1 hb
  exact h k hk j hj

/-- Embedded expressions and a member of the same node that is apart from their pattern. -/
theorem separated_embedded_append {pattern : Node} (h : Diverge pattern.path m.path) :
    Separated (Pattern.embedded pattern ++ [m]) :=
  (Pattern.separated_embedded _).append (separated_one m) fun a ha b hb => by
    rw [List.mem_singleton.1 hb]
    exact h.atOrBelow (Pattern.atOrBelow_of_mem_embedded ha) (atOrBelow_self m)

theorem separated_two {x y : String} (h : x ≠ y) : Separated [n.get x, n.get y] :=
  .cons (fun _ hm => List.mem_singleton.1 hm ▸ diverge_get h) (separated_one _)

theorem separated_declaratorNodes (d : Node) : Separated (declaratorNodes d) := by
  unfold declaratorNodes
  split
  · exact separated_embedded_append (diverge_get (by decide))
  · exact separated_nil

theorem atOrBelow_of_mem_declaratorNodes {d : Node} (h : m ∈ declaratorNodes d) :
    d.AtOrBelow m := by
  unfold declaratorNodes at h
  split at h
  · rcases List.mem_append.1 h with h | h
    · exact (below_get d _).atOrBelow.trans (Pattern.atOrBelow_of_mem_embedded h)
    · rw [List.mem_singleton.1 h]
      exact (below_get d _).atOrBelow
  · cases h

theorem separated_declarationNodes (n : Node) : Separated (declarationNodes n) := by
  unfold declarationNodes
  refine Separated.flatMap ?_ (fun d _ => separated_declaratorNodes d) fun d _ m hm =>
    atOrBelow_of_mem_declaratorNodes hm
  cases hs : (n.get "declarations").sequence? with
  | none => exact separated_nil
  | some ds => exact separated_sequence hs

theorem separated_assignmentNodes (n : Node) : Separated (assignmentNodes n) := by
  unfold assignmentNodes
  split
  · exact separated_nil
  · exact separated_two (by decide)
  · split
    · exact separated_embedded_append (diverge_get (by decide))
    · exact separated_one _

theorem atOrBelow_of_mem_bodyNodes {body : Node} (h : m ∈ bodyNodes body) : body.AtOrBelow m := by
  unfold bodyNodes at h
  split at h
  · exact (below_of_mem_children h).atOrBelow
  · rw [List.mem_singleton.1 h]
    exact atOrBelow_self body

theorem separatedCalls_function (h : n.value.DistinctKeys) (isMethod : Bool) :
    SeparatedCalls (functionCalls n isMethod) := by
  refine (separatedCalls_walks ?_).nested n isMethod
  split
  · rename_i params hs
    refine Separated.append ((separated_sequence hs).flatMap
      (fun p _ => Pattern.separated_embedded p)
      fun p _ m hm => Pattern.atOrBelow_of_mem_embedded hm) ?_ fun a ha b hb => ?_
    · unfold bodyNodes
      split
      · exact separated_children ((Tree.hereditary_allObjects _).get h "body")
      · exact separated_one _
    · obtain ⟨p, hp, ha⟩ := List.mem_flatMap.1 ha
      have hpa : (n.get "params").AtOrBelow a :=
        (below_of_mem_sequence hs hp).atOrBelow.trans (Pattern.atOrBelow_of_mem_embedded ha)
      exact (diverge_get (by decide)).atOrBelow hpa (atOrBelow_of_mem_bodyNodes hb)
  · exact separated_nil

theorem below_of_mem_functionCalls {isMethod : Bool} (h : k ∈ functionCalls n isMethod) :
    n.Below k.node :=
  (passes_below n).function (fun key => below_get n key) isMethod k h

theorem separatedCalls_property (h : n.value.DistinctKeys) : SeparatedCalls (propertyCalls n) := by
  unfold propertyCalls
  dsimp only
  have hvalue := (Tree.hereditary_allObjects Tree.hasDistinctKeys).get h "value"
  refine SeparatedCalls.append ?_ ?_ fun a ha b hb => ?_
  · split
    · exact separatedCalls_walks (separated_one _)
    · exact separatedCalls_walks separated_nil
  · split
    · exact separatedCalls_function hvalue true
    · exact separatedCalls_walks (separated_one _)
  · have hkey : (n.get "key").AtOrBelow a.node := by
      have hm := (mem_walks.1 ha).2
      split at hm
      · rw [List.mem_singleton.1 hm]
        exact atOrBelow_self _
      · cases hm
    refine (diverge_get (by decide)).atOrBelow hkey (m := n.get "value") ?_
    split at hb
    · exact (below_of_mem_functionCalls hb).atOrBelow
    · rw [List.mem_singleton.1 (mem_walks.1 hb).2]
      exact atOrBelow_self _

theorem atOrBelow_of_mem_headNodes {head : Node} (h : m ∈ headNodes head) : head.AtOrBelow m := by
  unfold headNodes at h
  split at h
  · rename_i d hd
    exact ((below_of_declarator hd).get "id").atOrBelow.trans
      (Pattern.atOrBelow_of_mem_embedded h)
  · cases h

theorem separated_headNodes (head : Node) : Separated (headNodes head) := by
  unfold headNodes
  split
  · exact Pattern.separated_embedded _
  · exact separated_nil

theorem separatedCalls_lexicalIteration (n : Node) : SeparatedCalls (lexicalIterationCalls n) := by
  unfold lexicalIterationCalls
  refine SeparatedCalls.append ((separatedCalls_walks (separated_one _)).under _)
    ((separatedCalls_walks ?_).nested n false) fun a ha b hb => ?_
  · refine (separated_headNodes _).append (separated_one _) fun a ha b hb => ?_
    rw [List.mem_singleton.1 hb]
    exact (diverge_get (by decide)).atOrBelow (atOrBelow_of_mem_headNodes ha) (atOrBelow_self _)
  · obtain ⟨k, hk, rfl⟩ := List.mem_map.1 ha
    obtain ⟨b', hb', hbb⟩ := node_of_mem_nestedCalls hb
    show Diverge k.node.path b.node.path
    rw [List.mem_singleton.1 (mem_walks.1 hk).2, ← hbb]
    rcases List.mem_append.1 (mem_walks.1 hb').2 with hm | hm
    · exact (diverge_get (by decide)).atOrBelow (atOrBelow_self _) (atOrBelow_of_mem_headNodes hm)
    · rw [List.mem_singleton.1 hm]
      exact diverge_get (by decide)

theorem atOrBelow_of_mem_targetNodes {left : Node} (h : m ∈ targetNodes left) :
    left.AtOrBelow m := by
  unfold targetNodes at h
  split at h
  · rw [List.mem_singleton.1 h]
    exact atOrBelow_self _
  · split at h
    · cases h
    · exact Pattern.atOrBelow_of_mem_embedded h
    · rw [List.mem_singleton.1 h]
      exact atOrBelow_self _

theorem separated_targetNodes (left : Node) : Separated (targetNodes left) := by
  unfold targetNodes
  split
  · exact separated_one _
  · split
    · exact separated_nil
    · exact Pattern.separated_embedded _
    · exact separated_one _

theorem separatedCalls_iteration (g : Gates) (n : Node) : SeparatedCalls (iterationCalls g n) := by
  unfold iterationCalls
  split
  · exact separatedCalls_lexicalIteration n
  · refine separatedCalls_walks ((separated_targetNodes _).append (separated_two (by decide))
      fun a ha b hb => ?_)
    rcases List.mem_pair.1 hb with rfl | rfl <;>
      exact (diverge_get (by decide)).atOrBelow (atOrBelow_of_mem_targetNodes ha) (atOrBelow_self _)

/-- One member is visited outside, and others in the scopes of the node. -/
theorem separatedCalls_outside {x y : String} (h : x ≠ y) {L : List Call}
    (hL : ∀ b ∈ L, ∃ j ∈ walks [n.get y], j.node = b.node) (ha : SeparatedCalls L) :
    SeparatedCalls (walks [n.get x] ++ L) := by
  refine SeparatedCalls.append (separatedCalls_walks (separated_one _)) ha fun a hax b hb => ?_
  obtain ⟨j, hj, hjb⟩ := hL b hb
  rw [List.mem_singleton.1 (mem_walks.1 hax).2, ← hjb, List.mem_singleton.1 (mem_walks.1 hj).2]
  exact diverge_get h

/-- The nodes that a rule visits stand apart. -/
theorem separatedCalls_rule (h : n.value.DistinctKeys) (family : Family) :
    SeparatedCalls (ruleCalls g n family) := by
  have hchildren := separatedCalls_walks (separated_children h)
  have hone : ∀ key, SeparatedCalls (walks [n.get key]) :=
    fun key => separatedCalls_walks (separated_one _)
  cases family with
  | program => exact (hchildren.under _).nested n false
  | block => exact hchildren.nestedIf _ n
  | switch =>
      exact separatedCalls_outside (by decide) (fun b hb => node_of_mem_nestedIfCalls hb)
        ((hone _).nestedIf _ n)
  | withObject =>
      exact separatedCalls_outside (by decide) (fun b hb => node_of_mem_nestedCalls hb)
        ((hone _).nested n false)
  | catchClause =>
      exact (separatedCalls_walks
        (separated_embedded_append (diverge_get (by decide)))).nested n false
  | function => exact separatedCalls_function h false
  | classDefinition =>
      exact separatedCalls_outside (by decide) (fun b hb => node_of_mem_nestedCalls hb)
        ((hone _).nested n false)
  | property => exact separatedCalls_property h
  | declaration => exact separatedCalls_walks (separated_declarationNodes n)
  | assignment => exact separatedCalls_walks (separated_assignmentNodes n)
  | update =>
      refine separatedCalls_walks ?_
      split
      · exact separated_nil
      · exact separated_children h
  | access =>
      refine separatedCalls_walks ?_
      split
      · exact separated_two (by decide)
      · exact separated_one _
  | call =>
      refine separatedCalls_walks ?_
      unfold calleeNodes
      split_ifs
      · exact separated_children h
      · exact separated_nil
      · exact separated_children h
  | label => exact hone _
  | loop => exact hchildren.nestedIf _ n
  | iteration => exact separatedCalls_iteration g n
  | lexicalIteration => exact separatedCalls_lexicalIteration n
  | exportNamed =>
      refine separatedCalls_walks ?_
      unfold exportNodes
      split_ifs
      all_goals first | exact separated_one _ | exact separated_nil
  | exportDefault =>
      refine separatedCalls_walks ?_
      split_ifs
      · exact separated_one _
      · exact separated_nil
  | exportSpecifier => exact hone _
  | plain => exact hchildren
  | declarator => exact separated_nil
  | identifier => exact separated_nil
  | this => exact separated_nil
  | inert => exact separated_nil
  | importing => exact separated_nil
  | exportAll => exact separated_nil

/-- **The nodes that are visited from a node stand apart.** -/
theorem separated_calls (g : Gates) (h : n.value.DistinctKeys) : SeparatedCalls (calls g n) := by
  unfold calls
  split
  · exact separatedCalls_walks (separated_items n)
  · split
    · exact separatedCalls_rule h _
    · exact separated_nil

end Walk

end LexScope
