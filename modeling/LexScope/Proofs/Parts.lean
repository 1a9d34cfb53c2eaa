import LexScope.Proofs.Grammar
import Mathlib.Data.List.Perm.Basic
import Mathlib.Logic.Relation

/-!
# Proofs — Parts — the parts of a program are its nodes

The walk finds the children of a node by going over its members, and the grammar says at which
members phrases stand.  In a tree that conforms both come to the same.

* `children_perm`: what could be walked below a part is what stands below it.
* `Conforms.covers`, `Conforms.reaches`: **the parts of a program are the nodes that can be reached
  from it.**
* `parts_unique`: **no two parts of a program stand at one place.**
-/

namespace LexScope

/-! ### Lists -/

theorem flatMap_filter_mem {α β : Type} [DecidableEq α] {l m : List α} {F : α → List β}
    (h : ∀ x ∈ l, x ∉ m → F x = []) : (l.filter (· ∈ m)).flatMap F = l.flatMap F := by
  induction l with
  | nil => rfl
  | cons x l ih =>
      have ih := ih fun y hy => h y (List.mem_cons_of_mem _ hy)
      by_cases hx : x ∈ m
      · rw [List.filter_cons_of_pos (by simpa using hx), List.flatMap_cons, List.flatMap_cons, ih]
      · rw [List.filter_cons_of_neg (by simpa using hx), List.flatMap_cons, ih,
          h x List.mem_cons_self hx, List.nil_append]

/-- What is put together from two lists without repetition that differ only in what adds nothing. -/
theorem flatMap_perm_of_support {α β : Type} [DecidableEq α] {l m : List α} {F : α → List β}
    (hl : l.Nodup) (hm : m.Nodup) (hlm : ∀ x ∈ l, x ∉ m → F x = [])
    (hml : ∀ x ∈ m, x ∉ l → F x = []) : (l.flatMap F).Perm (m.flatMap F) := by
  rw [← flatMap_filter_mem hlm, ← flatMap_filter_mem hml]
  refine List.Perm.flatMap_right _ ((List.perm_ext_iff_of_nodup (hl.filter _) (hm.filter _)).2 ?_)
  intro x
  simp only [List.mem_filter, decide_eq_true_eq]
  exact and_comm

namespace Node

variable {n m : Node}

/-! ### What could be walked at a node -/

theorem typedAt_of_isObj (h : n.isObj = true) :
    n.typedAt = if n.isTyped then [n] else [] := by
  rw [Node.isObj] at h
  rw [Node.typedAt]
  split
  · rename_i ts hv
    rw [hv] at h
    cases h
  · rfl

theorem isObj_of_isTyped (h : n.isTyped = true) : n.isObj = true := by
  obtain ⟨type, ht⟩ := Option.isSome_iff_exists.1 h
  exact Walk.isObj_of_typeName? ht

theorem not_isTyped_of_isNull (h : n.isNull = true) : n.isTyped = false := by
  have hv : n.value = .null := of_decide_eq_true h
  cases ht : n.isTyped with
  | false => rfl
  | true =>
      have hobj := isObj_of_isTyped ht
      rw [Node.isObj, hv] at hobj
      cases hobj

theorem typedAt_of_isNull (h : n.isNull = true) : n.typedAt = [] := by
  have hv : n.value = .null := of_decide_eq_true h
  rw [Node.typedAt, hv, not_isTyped_of_isNull h]
  rfl

theorem lookup_of_mem {key : String} {t : Tree} {members : List (String × Tree)}
    (hm : (members.map (·.1)).Nodup) (h : (key, t) ∈ members) : members.lookup key = some t := by
  induction members with
  | nil => cases h
  | cons e members ih =>
      rw [List.map_cons, List.nodup_cons] at hm
      rcases List.mem_cons.1 h with rfl | h
      · simp
      · have hne : (key == e.1) = false := by
          rw [beq_eq_false_iff_ne]
          rintro rfl
          exact hm.1 (List.mem_map.2 ⟨_, h, rfl⟩)
        rw [List.lookup_cons, hne]
        exact ih hm.2 h

theorem children_eq {members : List (String × Tree)} (hv : n.value = .obj members)
    (hm : (members.map (·.1)).Nodup) : n.children =
      ((members.map (·.1)).filter fun key => !Node.metadata.contains key).flatMap fun key =>
        (n.get key).typedAt := by
  rw [Node.children, hv, List.filter_map, List.flatMap_map]
  refine List.flatMap_congr fun e he => ?_
  have hget : n.get e.1 = ⟨n.path ++ [.member e.1], e.2⟩ := by
    rw [Node.get, hv]
    show Node.mk _ ((members.lookup e.1).getD .null) = _
    rw [lookup_of_mem hm (List.mem_of_mem_filter he)]
    rfl
  rw [hget]

/-! ### Places -/

theorem path_of_mem_itemsFrom {path : Path} {i : Nat} {ts : List Tree} {m : Node}
    (h : m ∈ Node.itemsFrom path i ts) : ∃ j, i ≤ j ∧ m.path = path ++ [.item j] := by
  induction ts generalizing i with
  | nil => cases h
  | cons t ts ih =>
      rcases List.mem_cons.1 h with rfl | h
      · exact ⟨i, le_rfl, rfl⟩
      · obtain ⟨j, hj, hm⟩ := ih h
        exact ⟨j, Nat.le_of_succ_le hj, hm⟩

/-- Two places of which neither is in the other. -/
def Diverge (a b : Path) : Prop := ¬ a <+: b ∧ ¬ b <+: a

/-- What is in one of two places that are apart is not in the other. -/
theorem Diverge.of_prefix {a b c d : Path} (h : Diverge a b) (hc : a <+: c) (hd : b <+: d) :
    Diverge c d := by
  constructor
  · intro hcd
    exact (List.prefix_or_prefix_of_prefix (hc.trans hcd) hd).elim h.1 h.2
  · intro hdc
    exact (List.prefix_or_prefix_of_prefix hc (hd.trans hdc)).elim h.1 h.2

theorem Diverge.ne {a b : Path} (h : Diverge a b) : a ≠ b := by
  rintro rfl
  exact h.1 (List.prefix_refl a)

theorem diverge_append {a : Path} {x y : Step} {b c : Path} (h : x ≠ y) :
    Diverge (a ++ x :: b) (a ++ y :: c) := by
  constructor <;> rw [List.prefix_append_right_inj, List.cons_prefix_cons] <;> rintro ⟨rfl, -⟩ <;>
    exact h rfl

theorem pairwise_itemsFrom (path : Path) (i : Nat) (ts : List Tree) :
    (Node.itemsFrom path i ts).Pairwise fun a b => Diverge a.path b.path := by
  induction ts generalizing i with
  | nil => exact .nil
  | cons t ts ih =>
      refine .cons (fun m hm => ?_) (ih _)
      obtain ⟨j, hj, hm⟩ := path_of_mem_itemsFrom hm
      rw [hm]
      exact diverge_append fun h => by cases h; omega

end Node

namespace Grammar

open Node

namespace Part

variable {p q r : Part} {s : Slot}

theorem isFormed_iff : p.isFormed = true ↔ ∃ slots, slots? p.phrase p.node = some slots ∧
    p.keys.Nodup ∧ (∀ s ∈ slots, s.fits p.node = true) ∧
    ∀ key ∈ p.keys, key ∈ Node.metadata ∨ key ∈ slots.map (·.key) ∨ (p.node.get key).typedAt = [] := by
  rw [isFormed]
  cases hs : slots? p.phrase p.node with
  | none => simp
  | some slots =>
      simp only [Bool.and_eq_true, decide_eq_true_eq, List.all_eq_true, Bool.or_eq_true,
        List.contains_iff_mem, List.any_eq_true, List.isEmpty_iff, List.mem_map, and_assoc,
        or_assoc, Option.some.injEq, exists_eq_left']

theorem isTyped_of_isFormed (h : p.isFormed = true) : p.node.isTyped = true := by
  obtain ⟨slots, hs, -⟩ := isFormed_iff.1 h
  obtain ⟨type, ht, -⟩ := slots?_eq_some.1 hs
  rw [Node.isTyped, ht]
  rfl

theorem slots_eq {slots : List Slot} (h : slots? p.phrase p.node = some slots) :
    p.slots = slots := by
  rw [Part.slots, h]
  rfl

theorem value_of_fits {n : Node} (h : s.fits n = true) (ha : s.arity = .many ∨ s.arity = .sparse) :
    ∃ ts, (n.get s.key).value = .arr ts := by
  rw [Slot.fits] at h
  rcases ha with ha | ha <;> rw [ha] at h <;> dsimp only at h <;> split at h <;>
    first | exact ⟨_, ‹_›⟩ | cases h

/-- What stands at a slot is what could be walked there. -/
theorem nodes_eq {n : Node} (hf : s.fits n = true) (ht : ∀ m ∈ s.nodes n, m.isTyped = true) :
    s.nodes n = (n.get s.key).typedAt := by
  have hone : (n.get s.key).isTyped = true → (n.get s.key).typedAt = [n.get s.key] := fun h => by
    rw [typedAt_of_isObj (isObj_of_isTyped h), if_pos h]
  have hlist : s.arity = .many ∨ s.arity = .sparse →
      (n.get s.key).typedAt = (n.get s.key).items.filter Node.isTyped := by
    intro ha
    obtain ⟨ts, hv⟩ := value_of_fits hf ha
    rw [Node.typedAt, Node.items, hv]
  rw [Slot.nodes] at ht ⊢
  split at ht
  · exact (hone (ht _ (List.mem_singleton_self _))).symm
  · split at ht
    · rename_i hnull
      rw [if_pos hnull, typedAt_of_isNull hnull]
    · rename_i hnull
      rw [if_neg hnull, hone (ht _ (List.mem_singleton_self _))]
  · rename_i ha
    rw [hlist (.inl ha), List.filter_eq_self.2 ht]
  · rename_i ha
    rw [hlist (.inr ha)]
    refine List.filter_congr fun m hm => ?_
    cases hnull : m.isNull with
    | false => exact (ht m (List.mem_filter.2 ⟨hm, by simp [hnull]⟩)).symm
    | true => rw [not_isTyped_of_isNull hnull]; rfl

/-- **What could be walked below a part is what stands below it.** -/
theorem children_perm (h : p.isFormed = true) (hb : ∀ q ∈ p.below, q.isFormed = true) :
    p.node.children.Perm (p.below.map (·.node)) := by
  obtain ⟨slots, hs, hkeys, hfits, hrest⟩ := isFormed_iff.1 h
  have hslots := slots_eq hs
  have hsound := sound_slots hs
  have hnodes : p.below.map (·.node) =
      (slots.map (·.key)).flatMap fun key => (p.node.get key).typedAt := by
    rw [below, hslots, List.map_flatMap, List.flatMap_map]
    refine List.flatMap_congr fun s hsl => ?_
    rw [standing, List.map_map]
    refine (List.map_id _).trans (nodes_eq (hfits s hsl) fun m hm => ?_)
    exact isTyped_of_isFormed (hb _ (mem_below.2 ⟨s, hslots ▸ hsl, List.mem_map.2 ⟨m, hm, rfl⟩⟩))
  have hobj := isObj_of_slots? hs
  rw [Node.isObj] at hobj
  cases hv : p.node.value with
  | obj members =>
      rw [keys, hv] at hkeys hrest
      rw [hnodes, children_eq hv hkeys]
      refine flatMap_perm_of_support (hkeys.filter _) hsound.1 (fun key hk hns => ?_)
        fun key hk hnk => ?_
      · obtain ⟨hk, hmeta⟩ := List.mem_filter.1 hk
        exact ((hrest key hk).resolve_left (by simpa using hmeta)).resolve_left hns
      · obtain ⟨s, hs, rfl⟩ := List.mem_map.1 hk
        have hnone : members.lookup s.key = none := by
          rw [List.lookup_eq_none_iff]
          intro e he
          rw [bne_iff_ne]
          rintro heq
          refine hnk (List.mem_filter.2 ⟨List.mem_map.2 ⟨e, he, heq.symm⟩, ?_⟩)
          simpa using (hsound.2 s hs).1
        refine typedAt_of_isNull (decide_eq_true ?_)
        show p.node.value.get s.key = .null
        rw [hv]
        show (members.lookup s.key).getD .null = .null
        rw [hnone]
        rfl
  | _ => rw [hv] at hobj; cases hobj

/-- **In a tree that conforms, every node that can be reached is a part.** -/
theorem Conforms.covers (h : p.Conforms) {n : Node}
    (hn : Relation.ReflTransGen (fun a b : Node => b ∈ a.children) p.node n) :
    ∃ q ∈ p.parts, q.node = n := by
  induction hn with
  | refl => exact ⟨p, self_mem_parts p, rfl⟩
  | tail _ hc ih =>
      obtain ⟨q, hq, rfl⟩ := ih
      have hconf := h.of_mem hq
      obtain ⟨r, hr, rfl⟩ := List.mem_map.1
        ((children_perm hconf.isFormed fun r hr => (hconf.below hr).isFormed).subset hc)
      exact ⟨r, mem_parts_of_below hq hr, rfl⟩

/-- **Every part of a tree that conforms can be reached.** -/
theorem Conforms.reaches (h : p.Conforms) (hq : q ∈ p.parts) :
    Relation.ReflTransGen (fun a b : Node => b ∈ a.children) p.node q.node := by
  refine parts_induction (p := p) (motive := fun q => Relation.ReflTransGen _ p.node q.node)
    .refl (fun q hq ih r hr => ih.tail ?_) q hq
  have hconf := h.of_mem hq
  exact (children_perm hconf.isFormed fun r hr => (hconf.below hr).isFormed).mem_iff.2
    (List.mem_map_of_mem hr)

end Part

/-! ### Phrases that hold -/

/-- A node is a phrase, and everything below it is what it should be. -/
def Holds (φ : Phrase) (n : Node) : Prop := ∃ above, (Part.mk above φ n).Conforms

namespace Holds

variable {φ : Phrase} {n : Node} {slots : List Slot} {s : Slot}

theorem exists_slots (h : Holds φ n) : ∃ slots, slots? φ n = some slots := by
  obtain ⟨above, h⟩ := h
  obtain ⟨slots, hs, -⟩ := Part.isFormed_iff.1 h.isFormed
  exact ⟨slots, hs⟩

theorem fits (h : Holds φ n) (hs : slots? φ n = some slots) (hsl : s ∈ slots) :
    s.fits n = true := by
  obtain ⟨above, h⟩ := h
  obtain ⟨slots', hs', -, hfits, -⟩ := Part.isFormed_iff.1 h.isFormed
  obtain rfl := Option.some.inj (hs.symm.trans hs')
  exact hfits s hsl

theorem below (h : Holds φ n) (hs : slots? φ n = some slots) (hsl : s ∈ slots) {m : Node}
    (hm : m ∈ s.nodes n) : Holds s.phrase m := by
  obtain ⟨above, h⟩ := h
  refine ⟨_, h.below (Part.mem_below.2 ⟨s, ?_, List.mem_map.2 ⟨m, hm, rfl⟩⟩)⟩
  rw [Part.slots_eq hs]
  exact hsl

/-- The children of a phrase are what stands at its slots. -/
theorem children_perm (h : Holds φ n) (hs : slots? φ n = some slots) :
    n.children.Perm (slots.flatMap (·.nodes n)) := by
  obtain ⟨above, h⟩ := h
  have hperm := Part.children_perm h.isFormed fun q hq => (h.below hq).isFormed
  rw [Part.below, Part.slots_eq (p := ⟨above, φ, n⟩) hs, List.map_flatMap] at hperm
  refine hperm.trans (.of_eq (List.flatMap_congr fun s _ => ?_))
  rw [Part.standing, List.map_map]
  exact List.map_id _

theorem typeName? (h : Holds φ n) : ∃ type, n.typeName? = some type ∧ type ∈ φ.types ∧
    type ∉ familyNames := by
  obtain ⟨slots, hs⟩ := h.exists_slots
  obtain ⟨type, ht, hmem, hn, -⟩ := slots?_eq_some.1 hs
  exact ⟨type, ht, hmem, hn⟩

theorem isObj (h : Holds φ n) : n.isObj = true :=
  let ⟨_, ht, _⟩ := h.typeName?
  Walk.isObj_of_typeName? ht

/-- What holds of a phrase if it holds of the phrases below it holds of every phrase. -/
theorem induction {motive : Phrase → Node → Prop}
    (h : ∀ φ n slots, Holds φ n → slots? φ n = some slots →
      (∀ s ∈ slots, ∀ m ∈ s.nodes n, motive s.phrase m) → motive φ n) (hn : Holds φ n) :
    motive φ n := by
  obtain ⟨above, hn⟩ := hn
  suffices hall : ∀ p : Part, p.Conforms → motive p.phrase p.node from hall ⟨above, φ, n⟩ hn
  intro p
  induction p using Part.below_induction with
  | h p ih =>
      intro hp
      obtain ⟨slots, hs⟩ := Holds.exists_slots ⟨p.above, hp⟩
      refine h _ _ slots ⟨_, hp⟩ hs fun s hsl m hm => ?_
      have hq : Part.mk (⟨p.phrase, p.node, s.key⟩ :: p.above) s.phrase m ∈ p.below :=
        Part.mem_below.2 ⟨s, Part.slots_eq hs ▸ hsl, List.mem_map.2 ⟨m, hm, rfl⟩⟩
      exact ih _ hq (hp.below hq)

end Holds

/-! ### No two parts stand at one place -/

namespace Part

variable {p q r : Part} {s : Slot}

/-- The way down from a part to one directly below it. -/
theorem path_of_mem_standing (h : q ∈ p.standing s) :
    q.node.path = p.node.path ++ [.member s.key] ∨
      ∃ i, q.node.path = p.node.path ++ [.member s.key, .item i] := by
  rcases Slot.mem_nodes (mem_standing.1 h).1 with hq | hq
  · exact .inl (by rw [hq]; rfl)
  · rw [Node.items] at hq
    split at hq
    · obtain ⟨i, -, hi⟩ := path_of_mem_itemsFrom hq
      exact .inr ⟨i, by rw [hi]; simp [Node.get]⟩
    · cases hq

theorem pairwise_nodes (s : Slot) (n : Node) :
    (s.nodes n).Pairwise fun a b => Diverge a.path b.path := by
  have hitems : (n.get s.key).items.Pairwise fun a b => Diverge a.path b.path := by
    rw [Node.items]
    split
    · exact pairwise_itemsFrom ..
    · exact .nil
  rw [Slot.nodes]
  split
  · exact List.pairwise_singleton ..
  · split
    · exact .nil
    · exact List.pairwise_singleton ..
  · exact hitems
  · exact hitems.filter _

/-- What stands directly below a part stands apart. -/
theorem pairwise_below (p : Part) :
    p.below.Pairwise fun q r => Diverge q.node.path r.node.path := by
  rw [below, List.pairwise_flatMap]
  refine ⟨fun s _ => ?_, ?_⟩
  · rw [standing, List.pairwise_map]
    exact pairwise_nodes s p.node
  · have hkeys : (p.slots.map (·.key)).Nodup := by
      rw [slots]
      cases hs : slots? p.phrase p.node with
      | none => exact List.nodup_nil
      | some slots => exact (sound_slots hs).1
    refine (List.pairwise_map.1 hkeys).imp fun {s t} hne q hq r hr => ?_
    have hstep : Step.member s.key ≠ .member t.key := fun h => hne (Step.member.inj h)
    rcases path_of_mem_standing hq with hq | ⟨i, hq⟩ <;>
      rcases path_of_mem_standing hr with hr | ⟨j, hr⟩ <;> rw [hq, hr] <;>
      exact diverge_append hstep

theorem prefix_of_mem_below (h : q ∈ p.below) : p.node.path <+: q.node.path := by
  obtain ⟨s, -, hq⟩ := mem_below.1 h
  rcases path_of_mem_standing hq with hq | ⟨i, hq⟩ <;> rw [hq] <;> exact List.prefix_append ..

theorem prefix_of_mem_parts (h : q ∈ p.parts) : p.node.path <+: q.node.path :=
  parts_induction (motive := fun q => p.node.path <+: q.node.path) (List.prefix_refl _)
    (fun _ _ hq _ hr => hq.trans (prefix_of_mem_below hr)) q h

theorem ne_of_mem_below (h : q ∈ p.below) : p.node.path ≠ q.node.path := by
  obtain ⟨s, -, hq⟩ := mem_below.1 h
  rcases path_of_mem_standing hq with hq | ⟨i, hq⟩ <;> rw [hq] <;> simp

/-- **No two parts stand at one place.** -/
theorem pairwise_parts (p : Part) : p.parts.Pairwise fun q r => q.node.path ≠ r.node.path := by
  induction p using below_induction with
  | h p ih =>
      rw [parts_eq, List.pairwise_cons, List.pairwise_flatMap]
      refine ⟨fun r hr => ?_, ih, ?_⟩
      · obtain ⟨q, hq, hr⟩ := List.mem_flatMap.1 hr
        intro heq
        refine ne_of_mem_below hq ((prefix_of_mem_below hq).eq_of_length_le ?_)
        rw [heq]
        exact (prefix_of_mem_parts hr).length_le
      · exact (pairwise_below p).imp fun {q q'} h r hr r' hr' =>
          (h.of_prefix (prefix_of_mem_parts hr) (prefix_of_mem_parts hr')).ne

theorem parts_unique (hq : q ∈ p.parts) (hr : r ∈ p.parts) (h : q.node.path = r.node.path) :
    q = r :=
  List.inj_on_of_nodup_map (f := fun q : Part => q.node.path)
    (List.pairwise_map.2 (pairwise_parts p)) hq hr h

end Part

end Grammar

end LexScope
