import LexScope.Proofs.View

/-!
# Proofs — Chain — the way up from a scope

A store is *rooted* when every scope has a greater number than the scope above it (`Rooted`).  In a
rooted store the chain of a scope is the scope followed by the chain of the one above
(`chain_cons`), so it falls strictly, contains no scope twice, and is the tail of every chain that
it is met on (`chain_split`).  What a chain is depends on nothing but the scopes above
(`chain_congr`).
-/

namespace LexScope.Store

variable {s t : Store} {i j k u : Nat}

/-- The scope above a scope. -/
def upperOf (s : Store) (i : ScopeId) : Option ScopeId := (s.scopeAt? i).bind (·.upper)

/-- Every scope has a greater number than the one above it. -/
def Rooted (s : Store) : Prop := ∀ i u : Nat, s.upperOf i = some u → u < i

/-- The scopes above a scope, innermost first. -/
def above (s : Store) (i : ScopeId) : List ScopeId := (s.upperOf i).elim [] s.chain

theorem upperOf_eq {scope : Scope} (h : s.scopeAt? i = some scope) :
    s.upperOf i = scope.upper := by
  rw [upperOf, h, Option.bind_some]

/-- Going up in a rooted store comes to an end. -/
theorem Rooted.induction (h : s.Rooted) {P : Nat → Prop}
    (step : ∀ i, (∀ u, s.upperOf i = some u → P u) → P i) (i : Nat) : P i := by
  induction i using Nat.strongRecOn with
  | ind i ih => exact step i fun u hu => ih u (h i u hu)

/-! ### The chain, one scope at a time -/

theorem chainFrom_succ (s : Store) (fuel : Nat) (i : ScopeId) :
    s.chainFrom (fuel + 1) (some i) = i :: s.chainFrom fuel (s.upperOf i) := rfl

theorem chainFrom_none (s : Store) (fuel : Nat) : s.chainFrom fuel none = [] := by
  cases fuel <;> rfl

theorem self_mem_chain (s : Store) (i : ScopeId) : i ∈ s.chain i := by
  rw [chain, chainFrom_succ]
  exact List.mem_cons_self

/-- More fuel than a scope's number changes nothing. -/
theorem chainFrom_eq_chain (h : s.Rooted) {fuel : Nat} (hi : i < fuel) :
    s.chainFrom fuel (some i) = s.chain i := by
  induction fuel using Nat.strongRecOn generalizing i with
  | ind fuel ih =>
      obtain ⟨fuel, rfl⟩ : ∃ f, fuel = f + 1 := ⟨fuel - 1, by omega⟩
      rw [chain, chainFrom_succ, chainFrom_succ]
      cases hu : s.upperOf i with
      | none => rw [chainFrom_none, chainFrom_none]
      | some u =>
          have hlt : u < i := h i u hu
          rw [ih fuel (Nat.lt_succ_self fuel) (hlt.trans_le (Nat.le_of_lt_succ hi)), ih i hi hlt]

theorem chain_cons (h : s.Rooted) (i : ScopeId) : s.chain i = i :: s.above i := by
  rw [chain, chainFrom_succ, above]
  cases hu : s.upperOf i with
  | none => rw [chainFrom_none, Option.elim_none]
  | some u => rw [chainFrom_eq_chain h (h i u hu), Option.elim_some]

theorem chain_top (h : s.Rooted) (hi : s.upperOf i = none) : s.chain i = [i] := by
  rw [chain_cons h, above, hi, Option.elim_none]

theorem chain_step (h : s.Rooted) (hi : s.upperOf i = some u) : s.chain i = i :: s.chain u := by
  rw [chain_cons h, above, hi, Option.elim_some]

/-! ### Order on a chain -/

theorem le_of_mem_chain (h : s.Rooted) (hj : j ∈ s.chain i) : j ≤ i := by
  induction i using h.induction with
  | step i ih =>
      cases hu : s.upperOf i with
      | none => rw [chain_top h hu, List.mem_singleton] at hj; exact hj.le
      | some u =>
          rw [chain_step h hu, List.mem_cons] at hj
          rcases hj with rfl | hj
          · exact le_rfl
          · exact (ih u hu hj).trans (h i u hu).le

theorem mem_chain_antisymm (h : s.Rooted) (hj : j ∈ s.chain i) (hi : i ∈ s.chain j) : i = j :=
  le_antisymm (le_of_mem_chain h hi) (le_of_mem_chain h hj)

theorem not_mem_chain_of_upper (h : s.Rooted) (hu : s.upperOf i = some u) : i ∉ s.chain u :=
  fun hi => absurd (le_of_mem_chain h hi) (Nat.not_le.2 (h i u hu))

theorem not_mem_above (h : s.Rooted) (i : ScopeId) : i ∉ s.above i := by
  cases hu : s.upperOf i with
  | none => simp [above, hu]
  | some u => rw [above, hu]; exact not_mem_chain_of_upper h hu

theorem nodup_chain (h : s.Rooted) (i : ScopeId) : (s.chain i).Nodup := by
  induction i using h.induction with
  | step i ih =>
      cases hu : s.upperOf i with
      | none => rw [chain_top h hu]; exact List.nodup_singleton i
      | some u =>
          rw [chain_step h hu]
          exact List.nodup_cons.2 ⟨not_mem_chain_of_upper h hu, ih u hu⟩

/-! ### Chains inside a chain -/

/-- From a scope on a chain, the rest of the chain is its own. -/
theorem chain_split (h : s.Rooted) (hj : j ∈ s.chain i) : ∃ l, s.chain i = l ++ s.chain j := by
  induction i using h.induction with
  | step i ih =>
      by_cases hij : j = i
      · subst hij; exact ⟨[], rfl⟩
      · cases hu : s.upperOf i with
        | none => rw [chain_top h hu, List.mem_singleton] at hj; exact absurd hj hij
        | some u =>
            rw [chain_step h hu, List.mem_cons] at hj
            obtain ⟨l, hl⟩ := ih u hu (hj.resolve_left hij)
            exact ⟨i :: l, by rw [chain_step h hu, hl, List.cons_append]⟩

/-- A chain that comes by a scope goes on as the chain of that scope. -/
theorem chain_of_split {l rest : List ScopeId} (h : s.Rooted)
    (hl : s.chain i = l ++ j :: rest) : s.chain j = j :: rest := by
  induction l generalizing i with
  | nil =>
      rw [List.nil_append, chain_cons h] at hl
      obtain rfl : i = j := (List.cons.inj hl).1
      rw [chain_cons h, hl]
  | cons c l ih =>
      cases hu : s.upperOf i with
      | none =>
          rw [chain_top h hu] at hl
          exact absurd (List.cons.inj hl).2.symm (List.append_ne_nil_of_right_ne_nil l nofun)
      | some u =>
          rw [chain_step h hu] at hl
          exact ih (List.cons.inj hl).2

theorem mem_chain_trans (h : s.Rooted) (hj : j ∈ s.chain i) (hk : k ∈ s.chain j) :
    k ∈ s.chain i := by
  obtain ⟨l, hl⟩ := chain_split h hj
  rw [hl]
  exact List.mem_append_right l hk

theorem upper_mem_chain (h : s.Rooted) (hj : j ∈ s.chain i) (hu : s.upperOf j = some u) :
    u ∈ s.chain i :=
  mem_chain_trans h hj (by rw [chain_step h hu]; exact List.mem_cons_of_mem _ (self_mem_chain s u))

/-- Of two scopes on one chain, the one with the smaller number is above the other. -/
theorem mem_chain_of_le (h : s.Rooted) (hj : j ∈ s.chain i) (hk : k ∈ s.chain i) (hkj : k ≤ j) :
    k ∈ s.chain j := by
  induction i using h.induction with
  | step i ih =>
      by_cases hij : j = i
      · subst hij; exact hk
      · cases hu : s.upperOf i with
        | none => rw [chain_top h hu, List.mem_singleton] at hj; exact absurd hj hij
        | some u =>
            rw [chain_step h hu, List.mem_cons] at hj hk
            have hj' := hj.resolve_left hij
            rcases hk with rfl | hk
            · exact absurd (le_of_mem_chain h hj') (by have := h k u hu; omega)
            · exact ih u hu hj' hk

/-! ### What a chain depends on -/

theorem chain_congr (hs : s.Rooted) (ht : t.Rooted)
    (h : ∀ j ∈ s.chain i, t.upperOf j = s.upperOf j) : t.chain i = s.chain i := by
  induction i using hs.induction with
  | step i ih =>
      have hi := h i (self_mem_chain s i)
      cases hu : s.upperOf i with
      | none => rw [chain_top hs hu, chain_top ht (hi.trans hu)]
      | some u =>
          have hsub : ∀ j ∈ s.chain u, j ∈ s.chain i := by
            intro j hj
            rw [chain_step hs hu]; exact List.mem_cons_of_mem _ hj
          rw [chain_step hs hu, chain_step ht (hi.trans hu),
            ih u hu fun j hj => h j (hsub j hj)]

end LexScope.Store
