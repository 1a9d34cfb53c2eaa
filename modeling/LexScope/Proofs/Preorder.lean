import LexScope.Proofs.Editions
import LexScope.Proofs.Schedule

/-!
# Proofs — Preorder — scopes are numbered as a report goes down

A walk enters a scope below the one it is in, and leaves a scope only after all below it.  So the
scopes that are open are those around the last one, and a new scope is below one of them
(`Store.Preordered`).  Going down from the first scope through `children` therefore meets the scopes
in the order in which they were opened.

* `Preordered.mem_chain`: what is below a scope comes without a gap.
* `Preordered.preorder_eq`: **where all scopes are below the first, they are met in their order**.
-/

namespace LexScope

open LexScope.Action

namespace Store

variable {A : ScopeId → Prop} {s t : Store} {current : Option ScopeId} {op : Operation}
  {out : Outcome} {i j c d u : Nat} {fuel : Nat}

/-- A scope and the scopes below it, each before those below it, `fuel` levels of them. -/
def preorderFrom (s : Store) : Nat → ScopeId → List ScopeId
  | 0, _ => []
  | fuel + 1, i => i :: (s.childrenAt i).flatMap (s.preorderFrom fuel)

/-- The open scopes are around the last one, and every scope was put below one around the scope
before it. -/
structure Preordered (s : Store) : Prop where
  rooted : s.Rooted
  last : ∀ i, s.IsOpen i → i ∈ s.chain (s.scopes.size - 1)
  next : ∀ j u : Nat, s.upperOf (j + 1) = some u → u ∈ s.chain j

/-! ### Every operation keeps the order -/

theorem Preordered.record (h : s.Preordered) (entry : LogRecord) :
    (s.record entry).Preordered := by
  refine ⟨h.rooted, fun i hi => ?_, fun j u hu => ?_⟩
  · rw [chain_record h.rooted]
    exact h.last i hi
  · rw [chain_record h.rooted]
    exact h.next j u hu

theorem size_of_upperOf (h : s.upperOf i = some u) : i < s.scopes.size := by
  obtain ⟨a, ha, -⟩ := Option.bind_eq_some_iff.1 h
  exact scopeAt?_lt ha

/-- Where no scope is opened, the order stays. -/
theorem Preordered.of_size (h : s.Preordered) (hE : Evolves A s t) (hs : s.Sound) (ht : t.Sound)
    (hsize : t.scopes.size = s.scopes.size) (hopen : ∀ i, t.IsOpen i → s.IsOpen i) :
    t.Preordered := by
  refine ⟨ht.rooted, fun i hi => ?_, fun j u hu => ?_⟩
  · have hi := hopen i hi
    rw [hsize, hE.chain hs ht (Nat.sub_lt (Nat.zero_lt_of_lt hi.lt) Nat.one_pos)]
    exact h.last i hi
  · have hj := hsize ▸ size_of_upperOf hu
    rw [hE.upperOf hj] at hu
    rw [hE.chain hs ht (Nat.lt_of_succ_lt hj)]
    exact h.next j u hu

/-- **Every operation of a walk keeps the order of scopes.** -/
theorem Preordered.apply (h : s.Preordered) (hd : s.Disciplined current)
    (ho : op.Orderly s current) (hop : op.applyTo s = (.ok out, t)) : t.Preordered := by
  have hE := (hd.changes ho hop).evolves hd.sound
  have hnext := hd.step ho hop
  have ht := hnext.sound
  rcases Disciplined.steady ho hop with ⟨hsteady, -⟩ | ⟨kind, n, upper, rfl⟩ | ⟨i, rfl⟩
  · exact h.of_size hE hd.sound ht hsteady.size fun i => (hsteady.isOpen_iff hE).1
  · -- What is open now is the new scope and what is around it.
    obtain rfl : upper = current := ho
    obtain ⟨hsize, hupper, hopen⟩ := hd.enter_isOpen_iff hop
    refine ⟨ht.rooted, fun i hi => ?_, fun j u hu => ?_⟩
    · rw [hsize, Nat.add_sub_cancel]
      exact (hnext.isOpen i).1 hi
    · have hj : j + 1 < s.scopes.size + 1 := hsize ▸ size_of_upperOf hu
      rw [hE.chain hd.sound ht (Nat.lt_of_succ_lt_succ hj)]
      rcases Nat.lt_or_eq_of_le (Nat.le_of_lt_succ hj) with hlt | hnew
      · exact h.next j u (hE.upperOf hlt ▸ hu)
      · obtain rfl : upper = some u := by rw [← hupper, ← hnew, hu]
        have hlast := h.last u (hd.open_of_mem (self_mem_chain s u))
        rwa [← hnew, Nat.add_sub_cancel] at hlast
  · obtain ⟨up, -, hc⟩ := Operation.applyTo_close_ok.1 hop
    exact h.of_size hE hd.sound ht (close_isOpen_iff hd.sound hc 0).1 fun j hj =>
      ((close_isOpen_iff hd.sound hc j).2.1 hj).1

theorem preordered_new (o : Options) : (Store.new o).Preordered :=
  ⟨fun _ _ hu => (nomatch hu), fun _ ⟨_, ha, _⟩ => (nomatch ha), fun _ _ hu => (nomatch hu)⟩

/-! ### What is below a scope -/

/-- What is around a scope that comes later is around all scopes in between. -/
theorem Preordered.mem_chain (h : s.Preordered) (hc : c ∈ s.chain d) {m : Nat}
    (hcm : c ≤ m) (hmd : m ≤ d) : c ∈ s.chain m := by
  induction d with
  | zero => exact Nat.le_zero.1 hmd ▸ hc
  | succ d ih =>
      rcases Nat.lt_or_eq_of_le hmd with hlt | rfl
      · refine ih ?_ (Nat.le_of_lt_succ hlt)
        cases hu : s.upperOf (d + 1) with
        | none =>
            rw [chain_top h.rooted hu, List.mem_singleton] at hc
            exact absurd (hc ▸ hcm) (Nat.not_le.2 hlt)
        | some u =>
            rw [chain_step h.rooted hu, List.mem_cons] at hc
            have hcd : c ≠ d + 1 := fun e => absurd (e ▸ hcm) (Nat.not_le.2 hlt)
            exact mem_chain_trans h.rooted (h.next d u hu) (hc.resolve_left hcd)
      · exact hc

/-- What is met below a scope is what has it on its way up. -/
theorem Preordered.mem_preorderFrom (h : s.Preordered) (ha : s.Adopted) (hi : i < s.scopes.size)
    (hf : s.scopes.size ≤ i + fuel) :
    j ∈ s.preorderFrom fuel i ↔ j < s.scopes.size ∧ i ∈ s.chain j := by
  induction fuel generalizing i with
  | zero => omega
  | succ fuel ih =>
      -- A scope below has a greater number, so the levels that are left are enough for it.
      have hbelow : ∀ {c}, c ∈ s.childrenAt i → s.upperOf c = some i ∧
          (j ∈ s.preorderFrom fuel c ↔ j < s.scopes.size ∧ c ∈ s.chain j) := fun {c} hc => by
        have hlt := ha.lt hc
        have hup := (ha.mem_iff hlt).1 hc
        have hic : i < c := h.rooted c i hup
        exact ⟨hup, ih hlt (by omega)⟩
      rw [preorderFrom, List.mem_cons, List.mem_flatMap]
      constructor
      · rintro (rfl | ⟨c, hc, hj⟩)
        · exact ⟨hi, self_mem_chain s j⟩
        · obtain ⟨hup, hiff⟩ := hbelow hc
          obtain ⟨hlt, hchain⟩ := hiff.1 hj
          exact ⟨hlt, upper_mem_chain h.rooted hchain hup⟩
      · rintro ⟨hlt, hchain⟩
        by_cases hji : j = i
        · exact .inl hji
        · obtain ⟨c, hc, hup⟩ := Rooted.exists_below h.rooted hchain hji
          have hmem := (ha.mem_iff ((le_of_mem_chain h.rooted hc).trans_lt hlt)).2 hup
          exact .inr ⟨c, hmem, (hbelow hmem).2.2 ⟨hlt, hc⟩⟩

/-- The scopes below a scope are met in their order. -/
theorem Preordered.pairwise_preorderFrom (h : s.Preordered) (ha : s.Adopted)
    (hi : i < s.scopes.size) (hf : s.scopes.size ≤ i + fuel) :
    (s.preorderFrom fuel i).Pairwise (· < ·) := by
  induction fuel generalizing i with
  | zero => omega
  | succ fuel ih =>
      have hbelow : ∀ {c}, c ∈ s.childrenAt i →
          s.upperOf c = some i ∧ i < c ∧ c < s.scopes.size ∧ s.scopes.size ≤ c + fuel :=
        fun {c} hc => by
          have hup := (ha.mem_iff (ha.lt hc)).1 hc
          have hic : i < c := h.rooted c i hup
          have hlt : c < s.scopes.size := ha.lt hc
          exact ⟨hup, hic, hlt, by omega⟩
      have hmem : ∀ {c d}, c ∈ s.childrenAt i → d ∈ s.preorderFrom fuel c → c ∈ s.chain d :=
        fun {c d} hc hd => by
          obtain ⟨-, -, hlt, hf⟩ := hbelow hc
          exact ((h.mem_preorderFrom ha hlt hf).1 hd).2
      rw [preorderFrom, List.pairwise_cons, List.pairwise_flatMap]
      refine ⟨fun d hd => ?_, fun c hc => ?_, ?_⟩
      · obtain ⟨c, hc, hd⟩ := List.mem_flatMap.1 hd
        exact (hbelow hc).2.1.trans_le (le_of_mem_chain h.rooted (hmem hc hd))
      · obtain ⟨-, -, hlt, hf⟩ := hbelow hc
        exact ih hlt hf
      · refine (ha.pairwise i).imp_of_mem fun {c c'} hc hc' hlt d hd d' hd' => ?_
        -- If what is below the one came after the other, the one would be around the other.
        refine Nat.lt_of_not_le fun hle => ?_
        have hc'd : c' ≤ d := (le_of_mem_chain h.rooted (hmem hc' hd')).trans hle
        have hin := h.mem_chain (hmem hc hd) hlt.le hc'd
        rw [chain_step h.rooted (hbelow hc').1, List.mem_cons] at hin
        have hle := le_of_mem_chain h.rooted (hin.resolve_left hlt.ne)
        exact absurd (hbelow hc).2.1 (Nat.not_lt.2 hle)

/-- **Where all scopes are below the first, they are met in the order in which they were opened.** -/
theorem Preordered.preorder_eq (h : s.Preordered) (ha : s.Adopted)
    (hroot : 0 < s.scopes.size) (hbelow : ∀ i, i < s.scopes.size → 0 ∈ s.chain i) :
    s.preorderFrom s.scopes.size 0 = List.range s.scopes.size := by
  have hpairwise := h.pairwise_preorderFrom ha hroot (Nat.le_add_left _ 0)
  refine hpairwise.eq_of_mem_iff List.pairwise_lt_range fun j => ?_
  rw [h.mem_preorderFrom ha hroot (Nat.le_add_left _ 0), List.mem_range]
  exact and_iff_left_of_imp (hbelow j)

end Store

namespace Walk

theorem kept_preordered : Kept Store.Preordered where
  record entry hI := hI.record entry
  operation hI := hI.apply

end Walk

end LexScope
