import LexScope.Proofs.Building

/-!
# Proofs — Schedule — the order of closing does not matter

A *schedule* of a built store closes every scope once, each after the scopes below it.  Closes can
be exchanged wherever the scopes are not below one another, but not step by step to the same store:
references then wait above in another order, and a global scope makes its variables in another
order.  So a run is described by what holds after any of its closes, whatever came before
(`Store.Underway`):

* verdicts on references stand, and the flags of variables say what their references say;
* a closed scope has made of its table what the references ask for that arrive there from below
  (`Store.Completed`).

What arrives in a scope depends on the closed scopes below, so two runs that are over have made
variables of the same names, from the innermost scopes outwards (`Concluded.arrivals`), and the rest
follows by lookup.

* `Built.close_order`: **all schedules succeed and settle the same.**
-/

namespace LexScope

open Store LexScope.Action

/-- Close some scopes one after the other. -/
def Action.closeAll (l : List ScopeId) : Action Unit := l.forM fun i => discard (close i)

namespace Store

variable {A : ScopeId → Prop} {s t t' : Store} {i j c : ScopeId} {r : ReferenceId} {key : Name}
  {a b : Scope} {done l l' : List ScopeId}

/-- An order in which all scopes can be closed: each scope once, and none before a scope that it is
the upper one of. -/
structure Schedule (s : Store) (l : List ScopeId) : Prop where
  perm : l.Perm (List.range s.scopes.size)
  order : l.Pairwise fun i j => s.upperOf j ≠ some i

/-- When the turn of a scope has come, the scopes just below it were closed. -/
theorem Schedule.below {l₁ l₂ : List ScopeId} (h : s.Schedule (l₁ ++ i :: l₂)) (hs : s.Rooted)
    (hj : s.upperOf j = some i) : j ∈ l₁ := by
  have hlt : j < s.scopes.size := by
    cases ha : s.scopeAt? j with
    | some a => exact scopeAt?_lt ha
    | none => rw [upperOf, ha] at hj; cases hj
  have hmem := h.perm.mem_iff.2 (List.mem_range.2 hlt)
  refine (List.mem_append.1 hmem).resolve_right fun hmem => ?_
  rcases List.mem_cons.1 hmem with rfl | hmem
  · exact Nat.lt_irrefl j (hs j j hj)
  · have horder := (List.pairwise_append.1 h.order).2.1
    exact (List.pairwise_cons.1 horder).1 j hmem hj

/-! ### What arrives in a scope -/

/-- The way up to a scope from below comes to it from the scope before. -/
theorem Rooted.exists_below (h : s.Rooted) (hi : i ∈ s.chain j) (hne : j ≠ i) :
    ∃ c ∈ s.chain j, s.upperOf c = some i := by
  induction j using h.induction with
  | step j ih =>
      cases hu : s.upperOf j with
      | none =>
          rw [chain_top h hu] at hi
          exact absurd (List.mem_singleton.1 hi).symm hne
      | some u =>
          rw [chain_step h hu] at hi ⊢
          rcases List.mem_cons.1 hi with rfl | hi
          · exact absurd rfl hne
          by_cases hui : u = i
          · exact ⟨j, List.mem_cons_self, hui ▸ hu⟩
          · obtain ⟨c, hc, hci⟩ := ih u hu hi hui
            exact ⟨c, List.mem_cons_of_mem j hc, hci⟩

/-- A scope on the way up to another one is strictly below it. -/
theorem Rooted.below_of_mem (h : s.Rooted) (hl : s.chain c = l ++ s.chain i) (hj : j ∈ l) :
    i ∈ s.chain j ∧ j ≠ i := by
  obtain ⟨l₁, l₂, rfl⟩ := List.append_of_mem hj
  rw [List.append_assoc, List.cons_append] at hl
  have hj' := chain_of_split h hl
  have hi : i ∈ l₂ ++ s.chain i := List.mem_append_right _ (self_mem_chain s i)
  refine ⟨hj' ▸ List.mem_cons_of_mem j hi, ?_⟩
  rintro rfl
  have hnodup := nodup_chain h j
  rw [hj'] at hnodup
  exact (List.nodup_cons.1 hnodup).1 hi

theorem admits_iff : s.admits key i = true ↔ ∃ a, s.scopeAt? i = some a ∧
    a.isBarrier s.options = false ∧ a.table.find? key = none := by
  simp [admits, Option.any_eq_true]

/-- What arrives in a scope depends on the scopes strictly below it. -/
theorem reaches_congr (hs : s.Rooted) (ht : t.Rooted) (hchain : ∀ j, t.chain j = s.chain j)
    (hadmits : ∀ j, i ∈ s.chain j → j ≠ i → t.admits key j = s.admits key j) :
    t.reaches i key c = s.reaches i key c := by
  rw [Bool.eq_iff_iff, reaches_iff ht, reaches_iff hs, hchain, hchain]
  refine exists_congr fun l => and_congr_right fun hl => ?_
  have hsame : ∀ u : Store, u.Clear (fun _ => True) (some key) l ↔
      ∀ j ∈ l, u.admits key j = true := by
    intro u
    simp [Clear, admits_iff]
  rw [hsame, hsame]
  refine forall₂_congr fun j hj => ?_
  obtain ⟨hi, hne⟩ := hs.below_of_mem hl hj
  rw [hadmits j hi hne]

theorem candidateOf?_of_use (h : ∀ r, t.useAt? r = s.useAt? r) (r : ReferenceId) :
    t.candidateOf? r = s.candidateOf? r := by
  have hr := congrArg (Option.bind · fun p : Use × ScopeId => p.1.candidate) (h r)
  rw [useAt?, useAt?, Option.bind_map, Option.bind_map] at hr
  exact hr

theorem arrivals_congr (huse : ∀ r, t.useAt? r = s.useAt? r) (hs : s.Rooted) (ht : t.Rooted)
    (hchain : ∀ j, t.chain j = s.chain j)
    (hadmits : ∀ j, i ∈ s.chain j → j ≠ i → t.admits key j = s.admits key j) :
    t.arrivals i key = s.arrivals i key := by
  have hsize : t.references.size = s.references.size := by
    have hnone : ∀ r, s.references.size ≤ r ↔ t.references.size ≤ r := by
      intro r
      have hr := congrArg Option.isNone (huse r)
      rw [Bool.eq_iff_iff] at hr
      simpa [useAt?, referenceAt?] using hr.symm
    exact le_antisymm ((hnone _).1 le_rfl) ((hnone _).2 le_rfl)
  rw [arrivals, arrivals, hsize]
  refine List.filter_congr fun r _ => ?_
  rw [imputes, imputes]
  cases hr : s.referenceAt? r with
  | none =>
      rw [referenceAt?_eq_none_of_use (huse r) hr]
      rfl
  | some ref =>
      obtain ⟨ref', href', huse', hscope⟩ := referenceAt?_of_use (huse r) hr
      simp only [href', Option.any_some, Reference.name, huse', hscope,
        reaches_congr hs ht hchain hadmits]
      rfl

/-! ### A run of closes -/

/-- What a closed scope has made of the table that it had when closing began: variables for the
candidates that arrive there, if it is a global scope. -/
def Completed (s t : Store) (i : ScopeId) : Prop :=
  ∃ a b cs, s.scopeAt? i = some a ∧ t.Imputed i a.table cs b ∧ b.kind = a.kind ∧
    ∀ key, a.table.find? key = none → (Candidate.named cs key).Perm
      (if b.kind = .global then (t.arrivals i key).filterMap t.candidateOf? else [])

/-- What holds after some closes of a store in which nothing was closed. -/
structure Underway (s : Store) (done : List ScopeId) (t : Store) : Prop where
  books : t.Books t.pendingAt t.IsClosed
  judged : t.Judged t.pendingAt t.IsClosed
  bare : t.Bare
  stacked : t.Stacked
  changes : Changes (fun _ => True) s t
  twin : Twin (s.updateScopes done (·.shut)) t
  isOpen : ∀ i, t.IsOpen i ↔ i < s.scopes.size ∧ i ∉ done
  /-- What is above an open scope is open. -/
  upward : ∀ i, t.IsOpen i → ∀ j ∈ t.chain i, t.IsOpen j
  table : ∀ i, t.IsOpen i → (t.scopeAt? i).map (·.table) = (s.scopeAt? i).map (·.table)

theorem Unclosed.underway (h : s.Unclosed) : s.Underway [] s where
  books := h.books
  judged := h.judged
  bare i := .inl (h.implicit i)
  stacked := h.stacked
  changes := .refl
  twin := .refl s
  isOpen i := ⟨fun ho => ⟨ho.lt, List.not_mem_nil⟩, fun hi =>
    (isOpen_or_isClosed hi.1).resolve_right (h.isOpen i)⟩
  upward _ hi j hj := (isOpen_or_isClosed ((le_of_mem_chain h.sound.rooted hj).trans_lt
    hi.lt)).resolve_right (h.isOpen j)
  table _ _ := rfl

namespace Underway

theorem sound (h : s.Underway done t) : t.Sound := h.books.sound

theorem evolves (h : s.Underway done t) (hs : s.Unclosed) : Evolves (fun _ => True) s t :=
  h.changes.evolves hs.sound

theorem size (h : s.Underway done t) : t.scopes.size = s.scopes.size := by
  have hsize : (s.updateScopes done (·.shut)).scopes.size = s.scopes.size := by
    clear h
    induction done generalizing s with
    | nil => rfl
    | cons i done ih =>
        have := ih (s := s.updateScope i (·.shut))
        rw [updateScopes, List.foldl_cons, ← updateScopes, this]
        exact Array.size_modify ..
  exact h.twin.size_scopes.trans hsize

theorem use (h : s.Underway done t) (r : ReferenceId) : t.useAt? r = s.useAt? r := by
  rw [h.twin.use, useAt?, referenceAt?_updateScopes]
  rfl

theorem frame (h : s.Underway done t) (hs : s.Unclosed) (hb : t.scopeAt? i = some b) :
    ∃ a, s.scopeAt? i = some a ∧ b.frame = a.frame := by
  obtain ⟨a, ha, hev⟩ := (h.evolves hs).scope_of_lt (h.size ▸ scopeAt?_lt hb) hb
  exact ⟨a, ha, hev.frame⟩

theorem upperOf (h : s.Underway done t) (hs : s.Unclosed) (i : ScopeId) :
    t.upperOf i = s.upperOf i := by
  cases hb : t.scopeAt? i with
  | none =>
      have hnone : s.scopeAt? i = none :=
        scopeAt?_eq_none.2 (h.size ▸ scopeAt?_eq_none.1 hb)
      rw [Store.upperOf, Store.upperOf, hb, hnone]
  | some b =>
      obtain ⟨a, ha, hframe⟩ := h.frame hs hb
      rw [upperOf_eq hb, upperOf_eq ha, Scope.upper_of_frame hframe]

theorem chain (h : s.Underway done t) (hs : s.Unclosed) (i : ScopeId) : t.chain i = s.chain i :=
  chain_congr hs.sound.rooted h.sound.rooted fun j _ => h.upperOf hs j

theorem legible (h : s.Underway done t) (hs : s.Unclosed) : t.Legible := by
  refine ⟨fun r ref href => ?_, fun r ref c href hc => ?_, fun i b hb => ?_⟩
  · obtain ⟨ref₀, href₀, huse, -⟩ := referenceAt?_of_use (h.use r).symm href
    rw [Reference.name, ← huse]
    exact hs.legible.reference r ref₀ href₀
  · obtain ⟨ref₀, href₀, huse, -⟩ := referenceAt?_of_use (h.use r).symm href
    rw [← huse] at hc ⊢
    exact hs.legible.own r ref₀ c href₀ hc
  · obtain ⟨a, ha, hframe⟩ := h.frame hs hb
    exact Scope.block_of_frame hframe ▸ hs.legible.block i a ha

theorem implicitAt (h : s.Underway done t) (hi : t.IsOpen i) : t.implicitAt i = [] :=
  (h.bare i).resolve_right fun ⟨a, ha, hc, _⟩ => hi.not_isClosed ⟨a, ha, hc⟩

/-- What is below a scope is closed once all that is just below it is. -/
theorem below_closed (h : s.Underway done t) (hs : s.Unclosed)
    (hbelow : ∀ c, s.upperOf c = some i → c ∈ done) (hj : j < t.scopes.size)
    (hi : i ∈ t.chain j) (hne : j ≠ i) : t.IsClosed j := by
  refine (isOpen_or_isClosed hj).resolve_left fun ho => ?_
  obtain ⟨c, hc, hci⟩ := h.sound.rooted.exists_below hi hne
  rw [h.upperOf hs] at hci
  exact ((h.isOpen c).1 (h.upward j ho c hc)).2 (hbelow c hci)

/-- **What waits in a scope when its turn has come** is what arrives there. -/
theorem pending_perm (h : s.Underway done t) (hs : s.Unclosed) (hi : t.IsOpen i)
    (hbelow : ∀ c, s.upperOf c = some i → c ∈ done) (key : Name) :
    ((t.pendingAt i).filter (t.imputes key)).Perm (t.arrivals i key) := by
  have hnodup : (t.pendingAt i).Nodup := h.books.nodup_pendingAt i
  have hle := (t.pairwise_arrivals i key).imp fun hlt => hlt.ne
  refine (List.perm_ext_iff_of_nodup (hnodup.filter _) hle).2 fun r => ?_
  rw [List.mem_filter, mem_arrivals_iff, imputes_iff]
  constructor
  · rintro ⟨hr, ref, href, hc, hk⟩
    obtain ⟨l, hl, hclear⟩ := (h.judged r ref href).pending i hr
    exact ⟨ref, href, hc, hk, (reaches_iff h.sound.rooted).2
      ⟨l, hl, hk ▸ hclear.mono fun _ _ => trivial⟩⟩
  · rintro ⟨ref, href, hc, hk, hreach⟩
    obtain ⟨l, hl, hclear⟩ := (reaches_iff h.sound.rooted).1 hreach
    refine ⟨(h.judged r ref href).waits h.sound.rooted (h.upward i hi) hk hl fun j hj =>
      ⟨?_, (hclear j hj).2⟩, ref, href, hc, hk⟩
    obtain ⟨hij, hne⟩ := h.sound.rooted.below_of_mem hl hj
    exact h.below_closed hs hbelow ((le_of_mem_chain h.sound.rooted
      (hl ▸ List.mem_append_left _ hj)).trans_lt (h.books.home r ref href)) hij hne

/-- What arrives in a scope below which all is closed does not change with a close elsewhere. -/
theorem arrivals (h : s.Underway done t) (h' : s.Underway l t') (hs : s.Unclosed)
    (hE : Evolves A t t') (hsame : ∀ j, t.IsClosed j → t'.scopeAt? j = t.scopeAt? j)
    (hbelow : ∀ j, j < t.scopes.size → i ∈ t.chain j → j ≠ i → t.IsClosed j) (key : Name) :
    t'.arrivals i key = t.arrivals i key := by
  refine arrivals_congr (fun r => (h'.use r).trans (h.use r).symm) h.sound.rooted
    h'.sound.rooted (fun j => (h'.chain hs j).trans (h.chain hs j).symm) fun j hij hne => ?_
  rw [admits, admits, hE.options]
  rcases Nat.lt_or_ge j t.scopes.size with hj | hj
  · rw [hsame j (hbelow j hj hij hne)]
  · have hnone : t'.scopeAt? j = none := scopeAt?_eq_none.2 (by rw [h'.size, ← h.size]; exact hj)
    rw [hnone, scopeAt?_eq_none.2 hj]

/-- What a close makes of its scope. -/
theorem completes (h : s.Underway done t) (hs : s.Unclosed) (hi : t.IsOpen i)
    (hbelow : ∀ c, s.upperOf c = some i → c ∈ done) {up : Option ScopeId}
    (hc : (close i).outcome t = (.ok up, t')) : ∃ a b cs, s.scopeAt? i = some a ∧
      t'.Imputed i a.table cs b ∧ b.kind = a.kind ∧ ∀ key, a.table.find? key = none →
        (Candidate.named cs key).Perm
          (if b.kind = .global then (t.arrivals i key).filterMap t.candidateOf? else []) := by
  obtain ⟨b, u, b', hb, -, himp, hret, hb', -, hkind, -⟩ := close_retained h.sound hc
  obtain ⟨a, ha, hframe⟩ := h.frame hs hb
  have htable : b.table = a.table := by
    have := h.table i hi
    rwa [hb, ha, Option.map_some, Option.map_some, Option.some.injEq] at this
  have hsame : b.kind = a.kind := Scope.kind_of_frame hframe
  have hbare : b.implicit = [] := (implicitAt_eq hb).symm.trans (h.implicitAt hi)
  by_cases hk : b.kind = .global
  · obtain ⟨cs, x, hx, hnamed⟩ :=
      Imputed.bindImplicits h.sound (h.legible hs).own hb hk hbare himp
    obtain ⟨y, hy⟩ := hx.retained hret
    obtain rfl := Option.some.inj (hb'.symm.trans hy.scope)
    rw [htable] at hy hnamed
    refine ⟨a, b', cs, ha, hy, hkind.trans hsame, fun key hkey => ?_⟩
    rw [hnamed key hkey, if_pos (hkind.trans hk)]
    exact (h.pending_perm hs hi hbelow key).filterMap _
  · rw [Action.bindImplicits, if_neg hk] at himp
    obtain rfl := (pure_ok_iff.1 himp).2
    obtain ⟨y, hy⟩ := (Imputed.start hb hbare).retained hret
    obtain rfl := Option.some.inj (hb'.symm.trans hy.scope)
    rw [htable] at hy
    refine ⟨a, b', [], ha, hy, hkind.trans hsame, fun key _ => ?_⟩
    rw [if_neg (hkind ▸ hk)]
    exact .nil

/-- A close of an open scope freezes what is closed. -/
theorem frozen (h : s.Underway done t) (hi : t.IsOpen i) {up : Option ScopeId}
    (hc : (Action.close i).outcome t = (.ok up, t')) (hj : t.IsClosed j) : t.Frozen t' j :=
  .of_evolves ((close_changes h.sound hc).evolves h.sound)
    (fun k hk => (h.upward i hi k hk).not_isClosed) h.books (h.books.close hc) hj

/-- **A run goes on with a close** of a scope below which all is closed. -/
theorem close (h : s.Underway done t) (hs : s.Unclosed) (hi : t.IsOpen i)
    (hbelow : ∀ c, s.upperOf c = some i → c ∈ done) {up : Option ScopeId}
    (hc : (Action.close i).outcome t = (.ok up, t')) : s.Underway (done ++ [i]) t' := by
  have hchanges := close_changes h.sound hc
  have hE := hchanges.evolves h.sound
  have hbooks := h.books.close hc
  have hopen := close_isOpen_iff h.sound hc
  have hown := (h.legible hs).own
  obtain ⟨a, u, b, ha, -, himp, hret, hb, -, -, -⟩ := close_retained h.sound hc
  exact {
    books := hbooks
    judged := h.judged.close h.books hc
    bare := h.bare.close h.sound hc
    stacked := h.stacked.close h.sound hown (h.implicitAt hi) hc
    changes := h.changes.trans (hchanges.mono fun _ _ => trivial)
    twin := by
      have hshut : Twin ((s.updateScopes done (·.shut)).updateScope i (·.shut))
          (t.updateScope i (·.shut)) :=
        h.twin.updateScope i (g := fun o => { o with isClosed := true }) (fun _ => rfl)
          fun _ => rfl
      rw [updateScopes, List.foldl_append]
      exact hshut.trans (close_twin h.sound hown (h.implicitAt hi) hc)
    isOpen := fun j => by
      rw [(hopen j).2, h.isOpen, List.mem_append, List.mem_singleton, not_or, and_assoc]
    upward := fun j hj k hk => by
      obtain ⟨hjo, hne⟩ := (hopen j).2.1 hj
      rw [hE.chain h.sound hbooks.sound hjo.lt] at hk
      refine (hopen k).2.2 ⟨h.upward j hjo k hk, ?_⟩
      rintro rfl
      exact hjo.not_isClosed (h.below_closed hs hbelow hjo.lt hk hne)
    table := fun j hj => by
      obtain ⟨hjo, hne⟩ := (hopen j).2.1 hj
      rw [← h.table j hjo, hret.table]
      obtain ⟨e, he, -⟩ := hjo
      obtain ⟨e', he', -, hA⟩ :=
        ((bindImplicits_quiets h.sound himp).changes.evolves h.sound).scope j e he
      rw [he, he', hA.resolve_left hne] }

/-- What closed scopes have made of their tables stands, and the scope that is closed has made of
its table what arrives. -/
theorem completed_close (h : s.Underway done t) (hs : s.Unclosed) (hi : t.IsOpen i)
    (hbelow : ∀ c, s.upperOf c = some i → c ∈ done) (hcomp : ∀ j ∈ done, s.Completed t j)
    {up : Option ScopeId} (hc : (Action.close i).outcome t = (.ok up, t')) :
    ∀ j ∈ done ++ [i], s.Completed t' j := by
  have h' := h.close hs hi hbelow hc
  have hE := (close_changes h.sound hc).evolves h.sound
  have hsame : ∀ j, t.IsClosed j → t'.scopeAt? j = t.scopeAt? j := fun j hj =>
    (h.frozen hi hc hj).scope
  have hcandidate : t'.candidateOf? = t.candidateOf? :=
    funext (candidateOf?_of_use fun r => (h'.use r).trans (h.use r).symm)
  intro j hj
  rcases List.mem_append.1 hj with hj | hj
  · obtain ⟨a, b, cs, ha, himp, hkind, hperm⟩ := hcomp j hj
    have hjc : t.IsClosed j := by
      refine (isOpen_or_isClosed (scopeAt?_lt himp.scope)).resolve_left fun ho => ?_
      exact ((h.isOpen j).1 ho).2 hj
    have hdown : ∀ k, k < t.scopes.size → j ∈ t.chain k → k ≠ j → t.IsClosed k :=
      fun k hk hjk _ => (isOpen_or_isClosed hk).resolve_left fun ho =>
        (h.upward k ho j hjk).not_isClosed hjc
    refine ⟨a, b, cs, ha, himp.frozen h.sound (h.frozen hi hc hjc), hkind, fun key hkey => ?_⟩
    rw [h.arrivals h' hs hE hsame hdown key, hcandidate]
    exact hperm key hkey
  · obtain rfl := List.mem_singleton.1 hj
    obtain ⟨a, b, cs, ha, himp, hkind, hperm⟩ := h.completes hs hi hbelow hc
    refine ⟨a, b, cs, ha, himp, hkind, fun key hkey => ?_⟩
    rw [h.arrivals h' hs hE hsame (fun k hk hjk hne => h.below_closed hs hbelow hk hjk hne) key,
      hcandidate]
    exact hperm key hkey

end Underway

/-! ### A run that is over -/

/-- What holds after a schedule. -/
structure Concluded (s t : Store) : Prop where
  underway : ∃ l, l.Perm (List.range s.scopes.size) ∧ s.Underway l t
  completed : ∀ i, i < s.scopes.size → s.Completed t i

/-- **A schedule runs to its end.** -/
theorem Schedule.closeAll (h : s.Schedule l) (hs : s.Unclosed) :
    ∃ t, (closeAll l).outcome s = (.ok (), t) ∧ s.Concluded t := by
  have hnodup : l.Nodup := h.perm.nodup_iff.2 List.nodup_range
  have hmem : ∀ i, i ∈ l ↔ i < s.scopes.size := fun i => by
    rw [h.perm.mem_iff, List.mem_range]
  obtain ⟨t, ht, hunder, hcomp⟩ := forM_total (f := fun i => discard (Action.close i)) (l := l)
    (P := fun done t => s.Underway done t ∧ ∀ j ∈ done, s.Completed t j) ⟨hs.underway, nofun⟩
    fun done i todo t hl hinv => by
      obtain ⟨hunder, hcomp⟩ := hinv
      have hi : t.IsOpen i := by
        refine (hunder.isOpen i).2 ⟨(hmem i).1 (by simp [hl]), fun hi => ?_⟩
        rw [hl] at hnodup
        exact (List.nodup_append.1 hnodup).2.2 i hi i List.mem_cons_self rfl
      have hbelow : ∀ c, s.upperOf c = some i → c ∈ done := fun c =>
        (hl ▸ h).below hs.sound.rooted
      obtain ⟨up, t', hc⟩ := (hunder.legible hs).close_total hunder.books hi fun w hw =>
        hunder.upward i hi w (upper_mem_chain hunder.sound.rooted (self_mem_chain t i) hw)
      exact ⟨t', discard_ok_iff.2 ⟨up, hc⟩, hunder.close hs hi hbelow hc,
        hunder.completed_close hs hi hbelow hcomp hc⟩
  exact ⟨t, ht, ⟨l, h.perm, hunder⟩, fun i hi => hcomp i ((hmem i).2 hi)⟩

/-- Variables of one name in one scope. -/
def Counterparts (t t' : Store) (v v' : VariableId) : Prop :=
  ∃ i b b' key, t.scopeAt? i = some b ∧ t'.scopeAt? i = some b' ∧ b.table.find? key = some v ∧
    b'.table.find? key = some v'

theorem Counterparts.symm {v v' : VariableId} (h : Counterparts t t' v v') :
    Counterparts t' t v' v := by
  obtain ⟨i, b, b', key, hb, hb', hv, hv'⟩ := h
  exact ⟨i, b', b, key, hb', hb, hv', hv⟩

namespace Concluded

variable {b' : Scope} {v v' : VariableId}

theorem sound (h : s.Concluded t) : t.Sound := by
  obtain ⟨l, -, hl⟩ := h.underway
  exact hl.sound

theorem books (h : s.Concluded t) : t.Books t.pendingAt t.IsClosed := by
  obtain ⟨l, -, hl⟩ := h.underway
  exact hl.books

theorem closed (h : s.Concluded t) (i : ScopeId) : ¬ t.IsOpen i := by
  obtain ⟨l, hperm, hl⟩ := h.underway
  intro ho
  obtain ⟨hi, hnot⟩ := (hl.isOpen i).1 ho
  exact hnot (hperm.mem_iff.2 (List.mem_range.2 hi))

theorem distinct (h : s.Concluded t) (hs : s.Unclosed) : t.Distinct := by
  obtain ⟨l, -, hl⟩ := h.underway
  exact hs.distinct.changes hl.changes

theorem options (h : s.Concluded t) (hs : s.Unclosed) : t.options = s.options := by
  obtain ⟨l, -, hl⟩ := h.underway
  exact (hl.evolves hs).options

theorem size (h : s.Concluded t) : t.scopes.size = s.scopes.size := by
  obtain ⟨l, -, hl⟩ := h.underway
  exact hl.size

theorem chain (h : s.Concluded t) (hs : s.Unclosed) (i : ScopeId) : t.chain i = s.chain i := by
  obtain ⟨l, -, hl⟩ := h.underway
  exact hl.chain hs i

/-- **What two schedules lead to are twins.** -/
theorem twin (h : s.Concluded t) (h' : s.Concluded t') : Twin t t' := by
  obtain ⟨l, hperm, hl⟩ := h.underway
  obtain ⟨l', hperm', hl'⟩ := h'.underway
  have hnodup : l.Nodup := hperm.nodup_iff.2 List.nodup_range
  have hnodup' : l'.Nodup := hperm'.nodup_iff.2 List.nodup_range
  have hshut : Twin (s.updateScopes l (·.shut)) (s.updateScopes l' (·.shut)) := by
    have hscope : ∀ i, (s.updateScopes l' (·.shut)).scopeAt? i =
        (s.updateScopes l (·.shut)).scopeAt? i := fun i => by
      rw [scopeAt?_updateScopes _ hnodup, scopeAt?_updateScopes _ hnodup']
      simp only [hperm.mem_iff, hperm'.mem_iff]
    exact ⟨⟨s.options.optimistic, by simp⟩, fun i => by rw [outlineAt?, outlineAt?, hscope],
      fun i => by simp only [declared, hscope, variableAt?_updateScopes],
      fun r => by simp only [useAt?, referenceAt?_updateScopes], by simp⟩
  exact (hl.twin.symm.trans hshut).trans hl'.twin

theorem isBarrier (h : s.Concluded t) (h' : s.Concluded t') (hs : s.Unclosed)
    (hb : b'.outline = b.outline) : b'.isBarrier t'.options = b.isBarrier t.options := by
  have hkind : b'.kind = b.kind := congrArg Outline.kind hb
  have hdynamic : b'.dynamic = b.dynamic := congrArg Outline.dynamic hb
  rw [Scope.isBarrier, Scope.isBarrier, hkind, hdynamic, h.options hs, h'.options hs]

/-- A name has an entry exactly if it had one or something arrives for which a variable is made. -/
theorem find?_eq_none (h : s.Concluded t) (ha : s.scopeAt? i = some a)
    (hb : t.scopeAt? i = some b) : b.table.find? key = none ↔
      a.table.find? key = none ∧ (b.kind = .global → t.arrivals i key = []) := by
  obtain ⟨a', b', cs, ha', himp, -, hperm⟩ := h.completed i (scopeAt?_lt ha)
  obtain rfl := Option.some.inj (ha.symm.trans ha')
  obtain rfl := Option.some.inj (hb.symm.trans himp.scope)
  cases hf : a.table.find? key with
  | some v => simp [(himp.kept key v hf).1]
  | none =>
      rw [himp.table key hf, himp.made key hf, ← List.perm_nil, (hperm key hf).congr_left,
        List.perm_nil]
      split
      · next hk => rw [filterMap_candidateOf?_eq_nil_iff]; simp [hk]
      · next hk => simp [hk]

theorem implicit_eq_none (h : s.Concluded t) (ha : s.scopeAt? i = some a)
    (hb : t.scopeAt? i = some b) : b.implicit.find? key = none ↔
      (∃ v, a.table.find? key = some v) ∨ b.table.find? key = none := by
  obtain ⟨a', b', cs, ha', himp, -, -⟩ := h.completed i (scopeAt?_lt ha)
  obtain rfl := Option.some.inj (ha.symm.trans ha')
  obtain rfl := Option.some.inj (hb.symm.trans himp.scope)
  cases hf : a.table.find? key with
  | some v => simp [(himp.kept key v hf).2]
  | none => simp [himp.table key hf]

/-- **What arrives in a scope is the same after every schedule.** -/
theorem arrivals (h : s.Concluded t) (h' : s.Concluded t') (hs : s.Unclosed) (i : ScopeId)
    (key : Name) : t'.arrivals i key = t.arrivals i key := by
  have htwin := h.twin h'
  -- From the innermost scopes outwards: what arrives depends on what is bound further in.
  induction hn : s.scopes.size - i using Nat.strong_induction_on generalizing i with
  | _ n ih =>
      subst hn
      refine arrivals_congr htwin.use h.sound.rooted h'.sound.rooted
        (htwin.chain h.sound.rooted h'.sound.rooted) fun j hij hne => ?_
      rw [admits, admits]
      cases hb : t.scopeAt? j with
      | none =>
          have hnone : t'.scopeAt? j = none := scopeAt?_eq_none.2
            (by rw [htwin.size_scopes]; exact scopeAt?_eq_none.1 hb)
          rw [hnone]
          rfl
      | some b =>
          obtain ⟨b', hb', hbb'⟩ := htwin.scopeAt? hb
          have hj : j < s.scopes.size := h.size ▸ scopeAt?_lt hb
          obtain ⟨a, ha⟩ := scopeAt?_of_lt hj
          have hlt : i < j := Nat.lt_of_le_of_ne (le_of_mem_chain h.sound.rooted hij) (Ne.symm hne)
          have hfind : b'.table.find? key = none ↔ b.table.find? key = none := by
            have hkind : b'.kind = b.kind := congrArg Outline.kind hbb'
            rw [h.find?_eq_none ha hb, h'.find?_eq_none ha hb', hkind,
              ih _ (Nat.sub_lt_sub_left (hlt.trans hj) hlt) j rfl]
          have hnone : (b'.table.find? key).isNone = (b.table.find? key).isNone := by
            rw [Bool.eq_iff_iff, Option.isNone_iff_eq_none, Option.isNone_iff_eq_none, hfind]
          rw [hb', Option.any_some, Option.any_some, h.isBarrier h' hs hbb', hnone]

/-! ### Comparing two runs -/

theorem find?_iff (h : s.Concluded t) (h' : s.Concluded t') (hs : s.Unclosed)
    (hb : t.scopeAt? i = some b) (hb' : t'.scopeAt? i = some b') :
    b'.table.find? key = none ↔ b.table.find? key = none := by
  obtain ⟨a, ha⟩ := scopeAt?_of_lt (h.size ▸ scopeAt?_lt hb)
  obtain ⟨b'', hb'', hbb'⟩ := (h.twin h').scopeAt? hb
  obtain rfl := Option.some.inj (hb'.symm.trans hb'')
  have hkind : b'.kind = b.kind := congrArg Outline.kind hbb'
  rw [h.find?_eq_none ha hb, h'.find?_eq_none ha hb', hkind, h.arrivals h' hs]

/-- What is bound after one schedule is bound after the other. -/
theorem counterpart (h : s.Concluded t) (h' : s.Concluded t') (hs : s.Unclosed)
    (hb : t.scopeAt? i = some b) (hb' : t'.scopeAt? i = some b')
    (hv : b.table.find? key = some v) :
    ∃ v', b'.table.find? key = some v' ∧ Counterparts t t' v v' := by
  cases hv' : b'.table.find? key with
  | none =>
      rw [(h.find?_iff h' hs hb hb').1 hv'] at hv
      cases hv
  | some v' => exact ⟨v', rfl, i, b, b', key, hb, hb', hv, hv'⟩

theorem names_perm (h : s.Concluded t) (h' : s.Concluded t') (hs : s.Unclosed)
    (hb : t.scopeAt? i = some b) (hb' : t'.scopeAt? i = some b') :
    b'.table.names.Perm b.table.names := by
  refine (List.perm_ext_iff_of_nodup (h'.distinct hs i b' hb') (h.distinct hs i b hb)).2
    fun key => ?_
  rw [Table.mem_names_iff, Table.mem_names_iff, ← Option.ne_none_iff_exists',
    ← Option.ne_none_iff_exists', Ne, Ne, h.find?_iff h' hs hb hb']

theorem implicit_names_perm (h : s.Concluded t) (h' : s.Concluded t') (hs : s.Unclosed)
    (hb : t.scopeAt? i = some b) (hb' : t'.scopeAt? i = some b') :
    b'.implicit.names.Perm b.implicit.names := by
  obtain ⟨a, c, cs, ha, himp, -⟩ := h.completed i (h.size ▸ scopeAt?_lt hb)
  obtain ⟨a', c', cs', -, himp', -⟩ := h'.completed i (h'.size ▸ scopeAt?_lt hb')
  obtain rfl := Option.some.inj (hb.symm.trans himp.scope)
  obtain rfl := Option.some.inj (hb'.symm.trans himp'.scope)
  refine (List.perm_ext_iff_of_nodup himp'.names himp.names).2 fun key => ?_
  rw [Table.mem_names_iff, Table.mem_names_iff, ← Option.ne_none_iff_exists',
    ← Option.ne_none_iff_exists', Ne, Ne, h.implicit_eq_none ha hb, h'.implicit_eq_none ha hb',
    h.find?_iff h' hs hb hb']

/-- Looking a name up leads to the same variable after both schedules, or to none after both. -/
theorem lookupAlong (h : s.Concluded t) (h' : s.Concluded t') (hs : s.Unclosed) (key : Name)
    (l : List ScopeId) : (t.lookupAlong key l = none ∧ t'.lookupAlong key l = none) ∨
      ∃ v v', t.lookupAlong key l = some v ∧ t'.lookupAlong key l = some v' ∧
        Counterparts t t' v v' := by
  have htwin := h.twin h'
  induction l with
  | nil => exact .inl ⟨rfl, rfl⟩
  | cons i l ih =>
      rw [Store.lookupAlong, Store.lookupAlong]
      cases hb : t.scopeAt? i with
      | none =>
          have hnone : t'.scopeAt? i = none := scopeAt?_eq_none.2
            (by rw [htwin.size_scopes]; exact scopeAt?_eq_none.1 hb)
          rw [hnone]
          exact .inl ⟨rfl, rfl⟩
      | some b =>
          obtain ⟨b', hb', hbb'⟩ := htwin.scopeAt? hb
          simp only [hb', h.isBarrier h' hs hbb']
          cases b.isBarrier t.options with
          | true => exact .inl ⟨rfl, rfl⟩
          | false =>
              cases hv : b.table.find? key with
              | none =>
                  rw [(h.find?_iff h' hs hb hb').2 hv]
                  exact ih
              | some v =>
                  obtain ⟨v', hv', hc⟩ := h.counterpart h' hs hb hb' hv
                  rw [hv']
                  exact .inr ⟨v, v', rfl, rfl, hc⟩

/-- **A reference is resolved to the same variable** after both schedules, or to none after both. -/
theorem resolved {ref ref' : Reference} (h : s.Concluded t) (h' : s.Concluded t')
    (hs : s.Unclosed) (href : t.referenceAt? r = some ref) (href' : t'.referenceAt? r = some ref') :
    (ref.resolved = none ∧ ref'.resolved = none) ∨
      ∃ v v', ref.resolved = some v ∧ ref'.resolved = some v' ∧ Counterparts t t' v v' := by
  obtain ⟨l, -, hl⟩ := h.underway
  obtain ⟨l', -, hl'⟩ := h'.underway
  obtain ⟨ref'', href'', huse, hscope⟩ := (h.twin h').referenceAt? href
  obtain rfl := Option.some.inj (href'.symm.trans href'')
  have hname : ref'.name = ref.name := by rw [Reference.name, huse]; rfl
  rw [(hl.judged r ref href).eq_lookup h.closed, (hl'.judged r ref' href').eq_lookup h'.closed,
    lookup?, lookup?, hname, hscope, h.chain hs, h'.chain hs]
  cases Name.ofTree? ref.name with
  | none => exact .inl ⟨rfl, rfl⟩
  | some key => exact h.lookupAlong h' hs key _

/-- A variable has one counterpart. -/
theorem counterpart_unique {w' : VariableId} (h : s.Concluded t) (hc : Counterparts t t' v v')
    (hc' : Counterparts t t' v w') : w' = v' := by
  obtain ⟨i, b, b', key, hb, hb', hv, hv'⟩ := hc
  obtain ⟨j, c, c', key', hcj, hcj', hw, hw'⟩ := hc'
  obtain ⟨rfl, rfl⟩ :=
    h.sound.entry_unique hb (Table.mem_of_find? hv) hcj (Table.mem_of_find? hw)
  obtain rfl := Option.some.inj (hb'.symm.trans hcj')
  exact Option.some.inj (hw'.symm.trans hv')

theorem resolved_iff {ref ref' : Reference} (h : s.Concluded t) (h' : s.Concluded t')
    (hs : s.Unclosed) (href : t.referenceAt? r = some ref) (href' : t'.referenceAt? r = some ref')
    (hc : Counterparts t t' v v') : ref'.resolved = some v' ↔ ref.resolved = some v := by
  obtain ⟨hn, hn'⟩ | ⟨w, w', hw, hw', hcw⟩ := h.resolved h' hs href href'
  · simp [hn, hn']
  · rw [hw, hw', Option.some.injEq, Option.some.injEq]
    constructor
    · rintro rfl
      exact h'.counterpart_unique hc.symm hcw.symm
    · rintro rfl
      exact h.counterpart_unique hc hcw

theorem links_perm (h : s.Concluded t) (h' : s.Concluded t') (hs : s.Unclosed)
    (hc : Counterparts t t' v v') : (t'.linksOf v').Perm (t.linksOf v) := by
  refine (List.perm_ext_iff_of_nodup (h'.books.nodup_linksOf v') (h.books.nodup_linksOf v)).2
    fun r => ?_
  have huse := (h.twin h').use r
  cases href : t.referenceAt? r with
  | none =>
      have href' := referenceAt?_eq_none_of_use huse href
      rw [← List.count_pos_iff, ← List.count_pos_iff, (h.books.unused r href).2.2,
        (h'.books.unused r href').2.2]
  | some ref =>
      obtain ⟨ref', href', -⟩ := referenceAt?_of_use huse href
      rw [h.books.mem_linksOf_iff href, h'.books.mem_linksOf_iff href',
        h.resolved_iff h' hs href href' hc]

/-- Where all is closed, a reference was resolved or has escaped. -/
theorem account {ref : Reference} (h : s.Concluded t) (href : t.referenceAt? r = some ref) :
    t.Account t.pendingAt t.IsClosed r ref (ref.resolved.elim .escaped .resolved) := by
  obtain ⟨w, hw⟩ := h.books.account r ref href
  cases w with
  | pending i => exact absurd (isOpen_of_pendingAt hw.waits) (h.closed i)
  | resolved v => rw [show ref.resolved = some v from hw.resolved]; exact hw
  | escaped => rw [show ref.resolved = none from hw.resolved]; exact hw

theorem through_perm (h : s.Concluded t) (h' : s.Concluded t') (hs : s.Unclosed) (i : ScopeId) :
    (t'.throughAt i).Perm (t.throughAt i) := by
  refine List.perm_iff_count.2 fun r => ?_
  have huse := (h.twin h').use r
  cases href : t.referenceAt? r with
  | none =>
      have href' := referenceAt?_eq_none_of_use huse href
      rw [(h.books.unused r href).2.1, (h'.books.unused r href').2.1]
  | some ref =>
      obtain ⟨ref', href', -, hscope⟩ := referenceAt?_of_use huse href
      have hahead : t'.ahead (ref'.resolved.elim .escaped .resolved) =
          t.ahead (ref.resolved.elim .escaped .resolved) := by
        obtain ⟨hn, hn'⟩ | ⟨v, v', hv, hv', j, b, b', key, hb, hb', hf, hf'⟩ :=
          h.resolved h' hs href href'
        · rw [hn, hn']
          rfl
        · obtain ⟨x, hx, hxj, -⟩ := h.sound.of_find? hb hf
          obtain ⟨x', hx', hxj', -⟩ := h'.sound.of_find? hb' hf'
          simp only [hv, hv', Option.elim_some, ahead, hx, hx', hxj, hxj', h.chain hs, h'.chain hs]
      rw [(h.account href).count_throughAt h.sound, (h'.account href').count_throughAt h'.sound,
        hscope, h.chain hs, h'.chain hs, hahead]

/-- **Counterparts are the same variable**, but for the order of what was found out in closing. -/
theorem var_perm (h : s.Concluded t) (h' : s.Concluded t') (hs : s.Unclosed)
    (hc : Counterparts t t' v v') : ∃ x x', t.variableAt? v = some x ∧
      t'.variableAt? v' = some x' ∧ x'.scope = x.scope ∧ x'.stack = x.stack ∧
      x'.references.Perm x.references ∧ x'.defs.Perm x.defs := by
  have htwin := h.twin h'
  have hlinks := h.links_perm h' hs hc
  obtain ⟨i, b, b', key, hb, hb', hv, hv'⟩ := hc
  obtain ⟨x, hx, hxi, -⟩ := h.sound.of_find? hb hv
  obtain ⟨x', hx', hxi', -⟩ := h'.sound.of_find? hb' hv'
  have hrefs : x'.references.Perm x.references := by
    simpa [linksOf, hx, hx'] using hlinks
  refine ⟨x, x', hx, hx', hxi'.trans hxi.symm, ?_, hrefs, ?_⟩
  · obtain ⟨l, -, hl⟩ := h.underway
    obtain ⟨l', -, hl'⟩ := h'.underway
    rw [hl.stacked v x hx, hl'.stacked v' x' hx', Bool.eq_iff_iff, List.all_eq_true,
      List.all_eq_true]
    simp only [hrefs.mem_iff, hxi, hxi', htwin.stays]
  · obtain ⟨a, c, cs, ha, himp, -, hperm⟩ := h.completed i (h.size ▸ scopeAt?_lt hb)
    obtain ⟨a', c', cs', ha', himp', hkind', hperm'⟩ := h'.completed i (h'.size ▸ scopeAt?_lt hb')
    obtain rfl := Option.some.inj (hb.symm.trans himp.scope)
    obtain rfl := Option.some.inj (hb'.symm.trans himp'.scope)
    obtain rfl := Option.some.inj (ha.symm.trans ha')
    cases hf : a.table.find? key with
    | some w =>
        obtain ⟨w', y, hw', -, hy, hyx⟩ :=
          htwin.unused (h'.distinct hs) hb hb' hv (himp.kept key w hf).2 hx
        obtain rfl := Option.some.inj (hv'.symm.trans hw')
        obtain rfl := Option.some.inj (hx'.symm.trans hy)
        have hdefs : x'.unused.defs = x.unused.defs := congrArg Variable.defs hyx
        exact .of_eq hdefs
    | none =>
        obtain ⟨y, hy, hdefs⟩ := himp.defs key v ((himp.table key hf).symm.trans hv)
        obtain ⟨y', hy', hdefs'⟩ := himp'.defs key v' ((himp'.table key hf).symm.trans hv')
        obtain rfl := Option.some.inj (hx.symm.trans hy)
        obtain rfl := Option.some.inj (hx'.symm.trans hy')
        obtain ⟨b'', hb'', hbb'⟩ := htwin.scopeAt? hb
        obtain rfl := Option.some.inj (hb'.symm.trans hb'')
        have hkind : b'.kind = b.kind := congrArg Outline.kind hbb'
        have hcandidate : t'.candidateOf? = t.candidateOf? :=
          funext (candidateOf?_of_use htwin.use)
        have hnamed := hperm' key hf
        rw [hkind, h.arrivals h' hs, hcandidate] at hnamed
        rw [hdefs, hdefs']
        exact (hnamed.trans (hperm key hf).symm).map _

end Concluded

/-- Two stores in which the same was settled, in whatever order.  What there was before closing is
there under its number; a variable that was made for a write is known by its scope and name. -/
structure SettledAlike (s t t' : Store) : Prop where
  twin : Twin t t'
  kept : ∀ i a key v, s.scopeAt? i = some a → a.table.find? key = some v →
    ∃ b b', t.scopeAt? i = some b ∧ t'.scopeAt? i = some b' ∧ b.table.find? key = some v ∧
      b'.table.find? key = some v
  scope : ∀ i b b', t.scopeAt? i = some b → t'.scopeAt? i = some b' →
    b'.table.names.Perm b.table.names ∧ b'.implicit.names.Perm b.implicit.names ∧
      b'.through.Perm b.through
  resolved : ∀ r ref ref', t.referenceAt? r = some ref → t'.referenceAt? r = some ref' →
    (ref.resolved = none ∧ ref'.resolved = none) ∨
      ∃ v v', ref.resolved = some v ∧ ref'.resolved = some v' ∧ Counterparts t t' v v'
  var : ∀ v v', Counterparts t t' v v' → ∃ x x', t.variableAt? v = some x ∧
    t'.variableAt? v' = some x' ∧ x'.scope = x.scope ∧ x'.stack = x.stack ∧
    x'.references.Perm x.references ∧ x'.defs.Perm x.defs

theorem Concluded.settledAlike (h : s.Concluded t) (h' : s.Concluded t') (hs : s.Unclosed) :
    SettledAlike s t t' where
  twin := h.twin h'
  kept i a key v ha hv := by
    obtain ⟨a₁, b, cs, ha₁, himp, -⟩ := h.completed i (scopeAt?_lt ha)
    obtain ⟨a₂, b', cs', ha₂, himp', -⟩ := h'.completed i (scopeAt?_lt ha)
    obtain rfl := Option.some.inj (ha.symm.trans ha₁)
    obtain rfl := Option.some.inj (ha.symm.trans ha₂)
    exact ⟨b, b', himp.scope, himp'.scope, (himp.kept key v hv).1, (himp'.kept key v hv).1⟩
  scope i b b' hb hb' := by
    have hthrough := h.through_perm h' hs i
    rw [throughAt_eq hb, throughAt_eq hb'] at hthrough
    exact ⟨h.names_perm h' hs hb hb', h.implicit_names_perm h' hs hb hb', hthrough⟩
  resolved _ _ _ href href' := h.resolved h' hs href href'
  var _ _ hc := h.var_perm h' hs hc

/-- **The order of closing does not matter.**  In a store that was built without closing anything,
every schedule runs to its end, and what is settled in the end is the same after any two. -/
theorem Built.close_order {o : Options} (h : Built o s) (hl : s.Schedule l) (hl' : s.Schedule l') :
    ∃ t t', (closeAll l).outcome s = (.ok (), t) ∧ (closeAll l').outcome s = (.ok (), t') ∧
      SettledAlike s t t' := by
  obtain ⟨t, ht, hc⟩ := hl.closeAll h.unclosed
  obtain ⟨t', ht', hc'⟩ := hl'.closeAll h.unclosed
  exact ⟨t, t', ht, ht', hc.settledAlike hc' h.unclosed⟩

/-- Two blocks in a program, in each of which `x` is written that nothing declares. -/
def twoWrites : List Operation :=
  let x (k : Nat) : Node := ⟨[.item k], .obj [("type", .str "Identifier"), ("name", .str "x")]⟩
  let program : Node := ⟨[], .obj [("type", .str "Program")]⟩
  let block (k : Nat) : Node := ⟨[.item k], .obj [("type", .str "BlockStatement")]⟩
  let write (k : Nat) : Use :=
    { identifier := x k, access := .write, candidate := some ⟨x k, block k⟩ }
  [.enter .global program none, .enter .block (block 1) (some 0),
    .enter .block (block 2) (some 0), .refer 1 (write 1), .refer 2 (write 2)]

theorem twoWrites_built : Built {} ((Store.new {}).after twoWrites) := by
  refine .next _ (.next _ (.next _ (.next _ (.next _ .new trivial ?_) trivial ?_) trivial ?_)
    ?_ ?_) ?_ ?_
  · decide +kernel
  · decide +kernel
  · decide +kernel
  · exact ⟨fun _ => ⟨"x", rfl⟩, fun c hc => by cases hc; rfl⟩
  · decide +kernel
  · exact ⟨fun _ => ⟨"x", rfl⟩, fun c hc => by cases hc; rfl⟩
  · decide +kernel

/-- Whichever block of the sample is closed first, both writes are resolved to one variable. -/
theorem twoWrites_close_order : Built {} ((Store.new {}).after twoWrites) ∧
    ((Store.new {}).after twoWrites).Schedule [1, 2, 0] ∧
    ((Store.new {}).after twoWrites).Schedule [2, 1, 0] ∧
    ∃ t t', (closeAll [1, 2, 0]).outcome ((Store.new {}).after twoWrites) = (.ok (), t) ∧
      (closeAll [2, 1, 0]).outcome ((Store.new {}).after twoWrites) = (.ok (), t') ∧
      SettledAlike ((Store.new {}).after twoWrites) t t' := by
  have hl : ((Store.new {}).after twoWrites).Schedule [1, 2, 0] :=
    ⟨by decide +kernel, by decide +kernel⟩
  have hl' : ((Store.new {}).after twoWrites).Schedule [2, 1, 0] :=
    ⟨by decide +kernel, by decide +kernel⟩
  exact ⟨twoWrites_built, hl, hl', twoWrites_built.close_order hl hl'⟩

end Store

end LexScope
