import LexScope.Proofs.Source

/-!
# Proofs — Unfold — the equations of plans and patterns

`plan` and `Pattern.items` go down to a given depth, and the depth that a node is given is its
height.  A greater depth makes no difference, because no rule looks at anything that is not lower
than its node.  So both satisfy the equations that they would be defined by if they called
themselves.

* `items_eq`: the items of a pattern are read off those of the nodes below it.
* `plan_eq`: **the events of a node are those of its rule**, which visits with `plan`.
-/

namespace LexScope

/-- A value that is not higher than a given height; nor is anything read from it. -/
theorem Tree.hereditary_height (k : Nat) : Hereditary fun t => t.height ≤ k := by
  refine ⟨by simp [height], fun s => by simp [height], fun items t h ht => ?_,
    fun members key t h ht => ?_⟩
  · exact (height_le_heightItems ht).trans (Nat.le_of_succ_le h)
  · exact (height_le_heightMembers ht).trans (Nat.le_of_succ_le h)

namespace Node

variable {n c : Node} {k : Nat}

theorem height_get (h : n.height ≤ k + 1) (key : String) : (n.get key).height ≤ k := by
  cases ho : n.isObj with
  | true => exact Nat.le_of_lt_succ ((Tree.height_get_lt ho key).trans_le h)
  | false =>
      have hnull : n.value.get key = .null := by
        rw [isObj] at ho
        unfold Tree.get
        split
        · rename_i members hv
          rw [hv] at ho
          cases ho
        · rfl
      show (n.value.get key).height ≤ k
      rw [hnull]
      exact Nat.zero_le k

theorem height_of_mem_items (h : n.height ≤ k + 1) (hc : c ∈ n.items) : c.height ≤ k := by
  rw [items] at hc
  split at hc
  · rename_i ts hv
    rw [height, hv] at h
    exact (Tree.height_le_heightItems (Tree.Hereditary.of_mem_itemsFrom hc)).trans
      (Nat.le_of_succ_le_succ h)
  · cases hc

theorem height_of_mem_children (h : n.height ≤ k + 1) (hc : c ∈ n.children) : c.height ≤ k := by
  rw [children] at hc
  split at hc
  · rename_i members hv
    obtain ⟨⟨key, t⟩, hm, hc⟩ := List.mem_flatMap.1 hc
    rw [height, hv] at h
    exact (Tree.hereditary_height k).typedAt (n := ⟨n.path ++ [.member key], t⟩)
      ((Tree.height_le_heightMembers (List.mem_filter.1 hm).1).trans
        (Nat.le_of_succ_le_succ h)) hc
  · cases hc

theorem height_pos (h : n.isObj = true) : 0 < n.height := by
  rw [isObj] at h
  rw [height]
  cases hv : n.value <;> rw [hv] at h
  case obj members => rw [Tree.height]; exact Nat.succ_pos _
  all_goals cases h

end Node

/-! ### Depth -/

/-- How a function that goes down to a given depth makes one step: it calls itself on what is lower
only. -/
structure Descends {α β : Type} (height : α → Nat) (step : (α → β) → α → β)
    (f : Nat → α → β) : Prop where
  succ : ∀ depth x, f (depth + 1) x = step (f depth) x
  zero : ∀ walk x, height x = 0 → step walk x = f 0 x
  congr : ∀ k x walk walk', height x ≤ k + 1 → (∀ y, height y ≤ k → walk y = walk' y) →
    step walk x = step walk' x

namespace Descends

variable {α β : Type} {height : α → Nat} {step : (α → β) → α → β} {f : Nat → α → β}

/-- At any depth that is enough the function is the same. -/
theorem enough (h : Descends height step f) {k : Nat} {x : α} (hk : height x ≤ k) :
    f k x = f (height x) x := by
  suffices hall : ∀ k l x, height x ≤ k → height x ≤ l → f k x = f l x from hall k _ x hk le_rfl
  have hfrom : ∀ l (x : α), height x = 0 → f 0 x = f l x := by
    intro l x hx
    cases l with
    | zero => rfl
    | succ l => rw [h.succ, h.zero _ x hx]
  intro k
  induction k with
  | zero => exact fun l x hk _ => hfrom l x (Nat.le_zero.1 hk)
  | succ k ih =>
      intro l x hk hl
      cases l with
      | zero => exact (hfrom _ x (Nat.le_zero.1 hl)).symm
      | succ l =>
          rw [h.succ, h.succ]
          refine h.congr (min k l) x _ _ (by omega) fun y hy => ?_
          exact ih l y (hy.trans (min_le_left _ _)) (hy.trans (min_le_right _ _))

/-- At the depth that is the height, the function calls itself. -/
theorem unfold (h : Descends height step f) (x : α) :
    f (height x) x = step (fun y => f (height y) y) x := by
  rcases Nat.eq_zero_or_pos (height x) with hx | hx
  · rw [h.zero _ x hx, hx]
  · obtain ⟨k, hk⟩ := Nat.exists_eq_succ_of_ne_zero hx.ne'
    rw [hk, h.succ]
    exact h.congr k x _ _ hk.le fun y hy => h.enough hy

end Descends

/-! ### Patterns -/

namespace Pattern

variable {walk walk' : Node → List Item} {n : Node} {P : Tree → Prop}

theorem parts_congr {each each' : Node → List Item} (hP : Tree.Hereditary P) (h : P n.value)
    (he : ∀ c, P c.value → each c = each' c) : parts n each = parts n each' := by
  rw [parts, parts]
  split
  · rename_i ns hs
    exact List.flatMap_congr fun c hc => he c (hP.sequence h hs hc)
  · rfl

theorem property_congr (hP : Tree.Hereditary P) (h : P n.value)
    (hw : ∀ c, P c.value → walk c = walk' c) : property walk n = property walk' n := by
  rw [property, property, target, target, hw n h, hw _ (hP.get h _)]

/-- What is read off a pattern depends on what is read off lower nodes only. -/
theorem step_congr (hP : Tree.Hereditary P) (hget : ∀ key, P (n.get key).value)
    (hw : ∀ c, P c.value → walk c = walk' c) : step walk n = step walk' n := by
  simp only [step, parts_congr hP (hget "properties") fun c hc => property_congr hP hc hw,
    parts_congr hP (hget "elements") hw, hw _ (hget _)]

theorem descends : Descends Node.height step itemsAt := by
  refine ⟨fun _ _ => rfl, fun walk n hn => ?_, fun k n walk walk' hn hw => ?_⟩
  · rw [step, if_pos]
    · rfl
    · cases ho : n.isObj with
      | false => rfl
      | true => exact absurd hn (Node.height_pos ho).ne'
  · exact step_congr (Tree.hereditary_height k) (Node.height_get hn) hw

/-- The items of a pattern are read off those of the nodes below it. -/
theorem items_eq (n : Node) : items n = step items n := descends.unfold n

end Pattern

/-! ### Plans -/

namespace Walk

variable {visit visit' : Visit} {n : Node} {P : Tree → Prop} (hP : Tree.Hereditary P)
  (hv : ∀ m : Node, P m.value → visit m = visit' m)

section Congruence

include hP hv

theorem visitEmbedded_congr (h : P n.value) : visitEmbedded visit n = visitEmbedded visit' n :=
  List.flatMap_congr fun c hc => hv c (hP.embedded h hc)

omit hP in
theorem visitChildren_congr (h : ∀ c ∈ n.children, P c.value) :
    visitChildren visit n = visitChildren visit' n :=
  List.flatMap_congr fun c hc => hv c (h c hc)

omit hv in
theorem forSequence_congr {each each' : List Node → List Event} (h : P n.value)
    (he : ∀ ns, (∀ c ∈ ns, P c.value) → each ns = each' ns) :
    forSequence n each = forSequence n each' := by
  rw [forSequence, forSequence]
  split
  · rename_i ns hs
    exact he ns fun c hc => hP.sequence h hs hc
  · rfl

variable (hget : ∀ key, P (n.get key).value)

include hget

theorem declare_congr : declare visit n = declare visit' n := by
  unfold declare
  dsimp only
  congr 1
  refine forSequence_congr hP (hget _) fun ds hds => List.flatMap_congr fun x hx => ?_
  have hd := hds x.1 (List.fst_mem_of_mem_zipIdx hx)
  rw [visitEmbedded_congr hP hv (hP.get hd _), hv _ (hP.get hd _)]

theorem function_congr (isMethod : Bool) :
    function visit n isMethod = function visit' n isMethod := by
  have hbody : functionBody visit (n.get "body") = functionBody visit' (n.get "body") := by
    rw [functionBody, functionBody, hv _ (hget _),
      visitChildren_congr hv fun c hc => hP.children (hget _) hc]
  unfold function
  dsimp only
  rw [hbody]
  congr 2
  refine forSequence_congr hP (hget _) fun ps hps => ?_
  congr 2
  exact List.flatMap_congr fun p hp => visitEmbedded_congr hP hv (hps p hp)

omit hget in
theorem visitHead_congr (h : P n.value) : visitHead visit n = visitHead visit' n := by
  rw [visitHead, visitHead]
  split
  · rename_i d hd
    exact visitEmbedded_congr hP hv (hP.get (sourced_of_declarator hP h hd) _)
  · rfl

/-- A rule depends on what is visited by it only. -/
theorem rule_congr (g : Gates) (hch : ∀ c ∈ n.children, P c.value) (family : Family) :
    rule g visit n family = rule g visit' n family := by
  have hall := visitChildren_congr hv hch
  have hkey : ∀ key, visit (n.get key) = visit' (n.get key) := fun key => hv _ (hget key)
  have hemb : ∀ key, visitEmbedded visit (n.get key) = visitEmbedded visit' (n.get key) :=
    fun key => visitEmbedded_congr hP hv (hget key)
  have hfun := function_congr hP hv hget
  have hmethod : function visit (n.get "value") true = function visit' (n.get "value") true :=
    function_congr hP hv (fun key => hP.get (hget "value") key) true
  have hhead : visitHead visit (n.get "left") = visitHead visit' (n.get "left") :=
    visitHead_congr hP hv (hget "left")
  have hdecl := declare_congr hP hv hget
  cases family <;>
    simp only [rule, program, switch, withObject, catchClause, classDefinition, property, assign,
      update, access, call, loop, iteration, lexicalIteration, exportNamed, hall, hkey, hemb, hfun,
      hmethod, hhead, hdecl]

end Congruence

theorem descends (g : Gates) : Descends Node.height (step g) (planAt g) := by
  refine ⟨fun _ _ => rfl, fun visit n hn => ?_, fun k n visit visit' hn hv => ?_⟩
  · rw [Node.height] at hn
    rw [step]
    split
    · rename_i ts hts
      rw [hts, Tree.height] at hn
      cases hn
    · split
      · exact absurd hn (Node.height_pos (isObj_of_typeName? ‹_›)).ne'
      · rfl
  · rw [step, step]
    split
    · exact List.flatMap_congr fun c hc => hv c (Node.height_of_mem_items hn hc)
    · split
      · exact rule_congr (Tree.hereditary_height k) hv (Node.height_get hn) g
          (fun c hc => Node.height_of_mem_children hn hc) _
      · rfl

/-- **The events of a node are those of its rule.** -/
theorem plan_eq (g : Gates) (n : Node) : plan g n = step g (plan g) n := (descends g).unfold n

end Walk

end LexScope
