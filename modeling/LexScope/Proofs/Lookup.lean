import LexScope.Proofs.Closed

/-!
# Proofs — Lookup — deferred resolution is lexical lookup

A reference is settled piece by piece, each time a scope closes.  Looking its name up in the
finished store goes up its chain to the first scope that is a *barrier* or binds the name
(`Store.lookup?`).  The two agree because a scope is settled only when its table and its `dynamic`
flag are final.

What has been decided about a reference so far is its *verdict* (`Store.Verdict`): the scopes it has
left bind nothing of its name and are no barriers, and where it was stopped there is its variable or
a barrier.  All this is said of closed scopes, which are frozen, so a verdict stands.

* `Judged.step`: every orderly operation keeps the verdicts.
* `analyze_resolved`: **what a reference is resolved to is what looking its name up finds.**
-/

namespace LexScope

open Store LexScope.Action

/-! ### Looking a name up -/

/-- Whether nothing can be looked up through a scope. -/
def Scope.isBarrier (o : Options) (a : Scope) : Bool :=
  a.dynamic && decide (a.kind ≠ .global) && !o.optimistic.truthy

theorem settles_eq (o : Options) (a : Scope) : settles o a = !a.isBarrier o := by
  rw [settles, Scope.isBarrier]
  cases a.dynamic <;> cases o.optimistic.truthy <;> by_cases h : a.kind = .global <;> simp [h]

/-- The part of a scope that decides what is found in it. -/
def Scope.look (a : Scope) : ScopeKind × Bool × Table VariableId := (a.kind, a.dynamic, a.table)

namespace Store

/-- What looking a name up in some scopes, one after the other, finds. -/
def lookupAlong (s : Store) (key : Name) : List ScopeId → Option VariableId
  | [] => none
  | i :: rest =>
      match s.scopeAt? i with
      | none => none
      | some a =>
          if a.isBarrier s.options then none
          else
            match a.table.find? key with
            | some v => some v
            | none => lookupAlong s key rest

/-- What looking the name of a reference up finds, from the scope it was made in upwards. -/
def lookup? (s : Store) (ref : Reference) : Option VariableId :=
  (Name.ofTree? ref.name).bind fun key => s.lookupAlong key (s.chain ref.scope)

variable {A : ScopeId → Prop} {s t : Store} {i j : ScopeId} {r q : ReferenceId} {ref : Reference}
  {P Q : ScopeId → List ReferenceId} {D E : ScopeId → Prop} {a b : Scope}

/-! ### Verdicts -/

/-- Scopes that are done, are no barriers and do not bind a name. -/
def Clear (s : Store) (done : ScopeId → Prop) (name : Option Name) (l : List ScopeId) : Prop :=
  ∀ j ∈ l, done j ∧ ∃ a key, s.scopeAt? j = some a ∧ a.isBarrier s.options = false ∧
    name = some key ∧ a.table.find? key = none

/-- What has been decided about a reference. -/
structure Verdict (s : Store) (pend : ScopeId → List ReferenceId) (done : ScopeId → Prop)
    (r : ReferenceId) (ref : Reference) : Prop where
  pending : ∀ i, r ∈ pend i → ∃ l, s.chain ref.scope = l ++ s.chain i ∧
    s.Clear done (Name.ofTree? ref.name) l
  resolved : ∀ v, ref.resolved = some v → ∃ l i rest a key, s.chain ref.scope = l ++ i :: rest ∧
    s.Clear done (Name.ofTree? ref.name) l ∧ done i ∧ s.scopeAt? i = some a ∧
    a.isBarrier s.options = false ∧ Name.ofTree? ref.name = some key ∧ a.table.find? key = some v
  escaped : ref.resolved = none → (∀ i, r ∉ pend i) →
    s.Clear done (Name.ofTree? ref.name) (s.chain ref.scope) ∨
      ∃ l i rest a, s.chain ref.scope = l ++ i :: rest ∧
        s.Clear done (Name.ofTree? ref.name) l ∧ done i ∧ s.scopeAt? i = some a ∧
        a.isBarrier s.options = true

/-- There is a verdict on every reference. -/
def Judged (s : Store) (pend : ScopeId → List ReferenceId) (done : ScopeId → Prop) : Prop :=
  ∀ r ref, s.referenceAt? r = some ref → s.Verdict pend done r ref

theorem Clear.mono {name : Option Name} {l : List ScopeId} (h : s.Clear D name l)
    (hDE : ∀ j, D j → E j) : s.Clear E name l :=
  fun j hj => ⟨hDE j (h j hj).1, (h j hj).2⟩

theorem Verdict.mono (h : s.Verdict P D r ref) (hDE : ∀ j, D j → E j) : s.Verdict P E r ref := by
  refine ⟨?_, ?_, ?_⟩
  · intro i hi
    obtain ⟨l, hl, hc⟩ := h.pending i hi
    exact ⟨l, hl, hc.mono hDE⟩
  · intro v hv
    obtain ⟨l, i, rest, a, key, hl, hc, hd, hrest⟩ := h.resolved v hv
    exact ⟨l, i, rest, a, key, hl, hc.mono hDE, hDE i hd, hrest⟩
  · intro hn hp
    rcases h.escaped hn hp with hc | ⟨l, i, rest, a, hl, hc, hd, hrest⟩
    · exact .inl (hc.mono hDE)
    · exact .inr ⟨l, i, rest, a, hl, hc.mono hDE, hDE i hd, hrest⟩

theorem Judged.mono (h : s.Judged P D) (hDE : ∀ j, D j → E j) : s.Judged P E :=
  fun r ref hr => (h r ref hr).mono hDE

/-- What is found in the scopes that are done is the same in two stores. -/
structure Alike (s t : Store) (done : ScopeId → Prop) : Prop where
  options : t.options = s.options
  look : ∀ j a, done j → s.scopeAt? j = some a → ∃ b, t.scopeAt? j = some b ∧ b.look = a.look

theorem isBarrier_of_look (h : b.look = a.look) (o : Options) : b.isBarrier o = a.isBarrier o := by
  simp only [Scope.look, Prod.mk.injEq] at h
  rw [Scope.isBarrier, Scope.isBarrier, h.1, h.2.1]

theorem table_of_look (h : b.look = a.look) : b.table = a.table := by
  simp only [Scope.look, Prod.mk.injEq] at h
  exact h.2.2

theorem Clear.keep {name : Option Name} {l : List ScopeId} (h : s.Clear D name l)
    (hA : Alike s t D) : t.Clear D name l := by
  intro j hj
  obtain ⟨hd, a, key, ha, hb, hn, hf⟩ := h j hj
  obtain ⟨b, hbt, hl⟩ := hA.look j a hd ha
  exact ⟨hd, b, key, hbt, by rw [hA.options, isBarrier_of_look hl, hb], hn,
    by rw [table_of_look hl, hf]⟩

/-- A verdict stands as long as what it speaks of stays the same. -/
theorem Verdict.keep (h : s.Verdict P D r ref) (hA : Alike s t D)
    (hchain : t.chain ref.scope = s.chain ref.scope)
    (hpend : ∀ i, r ∈ P i → t.chain i = s.chain i) (hPQ : ∀ j, r ∈ Q j ↔ r ∈ P j) :
    t.Verdict Q D r ref := by
  refine ⟨?_, ?_, ?_⟩
  · intro i hi
    have hi' := (hPQ i).1 hi
    obtain ⟨l, hl, hc⟩ := h.pending i hi'
    exact ⟨l, by rw [hchain, hpend i hi', hl], hc.keep hA⟩
  · intro v hv
    obtain ⟨l, i, rest, a, key, hl, hc, hd, ha, hb, hk, hf⟩ := h.resolved v hv
    obtain ⟨b, hbt, hlook⟩ := hA.look i a hd ha
    exact ⟨l, i, rest, b, key, by rw [hchain, hl], hc.keep hA, hd, hbt,
      by rw [hA.options, isBarrier_of_look hlook, hb], hk, by rw [table_of_look hlook, hf]⟩
  · intro hn hp
    have hescaped := h.escaped hn fun i hi => hp i ((hPQ i).2 hi)
    rcases hescaped with hc | ⟨l, i, rest, a, hl, hc, hd, ha, hb⟩
    · exact .inl (by rw [hchain]; exact hc.keep hA)
    · obtain ⟨b, hbt, hlook⟩ := hA.look i a hd ha
      exact .inr ⟨l, i, rest, b, by rw [hchain, hl], hc.keep hA, hd, hbt,
        by rw [hA.options, isBarrier_of_look hlook, hb]⟩

/-- There are verdicts on all references if the moved ones have new ones. -/
theorem Judged.step (h : s.Judged P D) (hb : s.Books P D) (hE : Evolves A s t) (ht : t.Sound)
    (hA : Alike s t D) (moved : ReferenceId → Prop)
    (hsame : ∀ q, ¬ moved q → t.referenceAt? q = s.referenceAt? q ∧ ∀ j, q ∈ Q j ↔ q ∈ P j)
    (hmoved : ∀ q ref, moved q → t.referenceAt? q = some ref → t.Verdict Q D q ref) :
    t.Judged Q D := by
  intro q ref hq
  by_cases hm : moved q
  · exact hmoved q ref hm hq
  · obtain ⟨hr, hPQ⟩ := hsame q hm
    rw [hr] at hq
    exact (h q ref hq).keep hA (hE.chain hb.sound ht (hb.home q ref hq))
      (fun i hi => hE.chain hb.sound ht (hb.isOpen i q hi).lt) hPQ

theorem Judged.quiets (h : s.Judged P D) (hb : s.Books P D) (hq : Quiets A s t)
    (hA : ∀ j, D j → ¬ A j) : t.Judged P D := by
  have hE := hq.changes.evolves hb.sound
  refine h.step hb hE (hq.changes.sound hb.sound) ⟨hE.options, fun j a hd ha => ?_⟩
    (fun _ => False) (fun q _ => ⟨hq.sameNotes.reference q, fun _ => Iff.rfl⟩) (fun _ _ => nofun)
  obtain ⟨b, hbt, -, hAj⟩ := hE.scope j a ha
  exact ⟨b, hbt, by rw [hAj.resolve_left (hA j hd)]⟩

/-! ### A reference is made -/

theorem Judged.addReference {u : Use} (h : s.Judged s.pendingAt D) (hb : s.Books s.pendingAt D)
    (hi : s.IsOpen i) (hD : ¬ D i) :
    (s.addReference i u).Judged (s.addReference i u).pendingAt D := by
  have hchange : Changes (· = i) s (s.addReference i u) := .single (.addReference u rfl)
  have hE := hchange.evolves hb.sound
  have hnone : s.referenceAt? s.references.size = none := Array.getElem?_eq_none le_rfl
  refine h.step hb hE (hchange.sound hb.sound) ⟨hE.options, ?_⟩
    (· = s.references.size) (fun q hq => ⟨?_, ?_⟩) ?_
  · intro j a hd ha
    obtain ⟨b, hbt, -, hj⟩ := hE.scope j a ha
    exact ⟨b, hbt, by rw [hj.resolve_left fun e => hD (e ▸ hd)]⟩
  · rw [referenceAt?_addReference, if_neg hq]
  · intro j
    rw [pendingAt_addReference hi]
    by_cases hj : i = j <;> simp [hj, hq]
  · rintro q ref rfl hr
    rw [referenceAt?_addReference, if_pos rfl, Option.some.injEq] at hr
    subst hr
    refine ⟨?_, nofun, fun _ hp => absurd ?_ (hp i)⟩
    · intro j hj
      rw [pendingAt_addReference hi] at hj
      -- The number is new, so it waits where it was just put and nowhere else.
      have hji : i = j := by
        by_contra hne
        rw [if_neg hne] at hj
        exact List.count_eq_zero.1 ((hb.unused _ hnone).1 j) hj
      subst hji
      exact ⟨[], rfl, nofun⟩
    · rw [pendingAt_addReference hi, if_pos rfl]
      exact List.mem_append_right _ List.mem_cons_self

/-! ### A reference is settled -/

theorem alike_updateScope {f : Scope → Scope} (hf : ∀ a, (f a).look = a.look) :
    Alike s (s.updateScope i f) D := by
  refine ⟨rfl, fun j a _ ha => ?_⟩
  by_cases hj : i = j
  · exact ⟨f a, by simp [ha, hj], hf a⟩
  · exact ⟨a, by simp [ha, hj], rfl⟩

theorem Alike.trans {u : Store} (h : Alike s t D) (k : Alike t u D) : Alike s u D := by
  refine ⟨k.options.trans h.options, fun j a hd ha => ?_⟩
  obtain ⟨b, hb, hab⟩ := h.look j a hd ha
  obtain ⟨c, hc, hbc⟩ := k.look j b hd hb
  exact ⟨c, hc, hbc.trans hab⟩

theorem alike_updateScopes {l : List ScopeId} {f : Scope → Scope} (hf : ∀ a, (f a).look = a.look) :
    Alike s (s.updateScopes l f) D := by
  induction l generalizing s with
  | nil => exact ⟨rfl, fun j a _ ha => ⟨a, ha, rfl⟩⟩
  | cons i l ih => exact (alike_updateScope hf).trans ih

variable {rest : List ReferenceId}

/-- The reference whose turn it is waits nowhere else. -/
theorem Books.not_mem_of_turn (h : s.Books (s.leftover i (r :: rest)) D)
    (hj : r ∈ t.leftover i rest j) (hp : t.pendingAt j = s.pendingAt j) : False := by
  obtain ⟨-, hrest, hother, -⟩ := h.turn
  by_cases hji : j = i
  · rw [leftover, if_pos hji] at hj
    exact List.count_eq_zero.1 hrest hj
  · rw [leftover, if_neg hji, hp] at hj
    exact List.count_eq_zero.1 (hother j hji) hj

theorem mem_leftover_of_ne (hq : q ≠ r) (hp : ∀ j, q ∈ t.pendingAt j ↔ q ∈ s.pendingAt j)
    (j : ScopeId) : q ∈ t.leftover i rest j ↔ q ∈ s.leftover i (r :: rest) j := by
  by_cases hj : j = i
  · simp [leftover, hj, hq]
  · simp [leftover, hj, hp j]

/-- The way of the reference whose turn it is, up to the scope that closes. -/
theorem Judged.turn (h : s.Judged (s.leftover i (r :: rest)) D)
    (href : s.referenceAt? r = some ref) :
    ∃ l, s.chain ref.scope = l ++ s.chain i ∧ s.Clear D (Name.ofTree? ref.name) l :=
  (h r ref href).pending i (by simp [leftover])

theorem Judged.link (h : s.Judged (s.leftover i (r :: rest)) D)
    (hb : s.Books (s.leftover i (r :: rest)) D) (hD : D i) {key : Name} {v : VariableId}
    (href : s.referenceAt? r = some ref) (hk : Name.ofTree? ref.name = some key)
    (ha : s.scopeAt? i = some a) (hbar : a.isBarrier s.options = false)
    (hf : a.table.find? key = some v) :
    (s.link r ref.scope v).Judged ((s.link r ref.scope v).leftover i rest) D := by
  have hchange : Changes (fun _ => True) s (s.link r ref.scope v) :=
    .single (.link r ref.scope trivial ha hf)
  have hE := hchange.evolves hb.sound
  have ht := hchange.sound hb.sound
  have hA : Alike s (s.link r ref.scope v) D := ⟨rfl, fun j b _ hb => ⟨b, hb, rfl⟩⟩
  refine h.step hb hE ht hA (· = r)
    (fun q hq => ⟨by rw [referenceAt?_link, if_neg (Ne.symm hq)],
      mem_leftover_of_ne hq fun _ => Iff.rfl⟩) ?_
  rintro q ref' rfl hr
  rw [referenceAt?_link, if_pos rfl, href, Option.map_some, Option.some.injEq] at hr
  subst hr
  obtain ⟨l, hl, hc⟩ := h.turn href
  refine ⟨fun j hj => (hb.not_mem_of_turn hj rfl).elim, fun w hw => ?_, nofun⟩
  obtain rfl : v = w := Option.some.inj hw
  refine ⟨l, i, s.above i, a, key, ?_, hc.keep hA, hD, ha, hbar, hk, hf⟩
  rw [hE.chain hb.sound ht (hb.home q ref href), hl, chain_cons hb.sound.rooted]

theorem Judged.handUp {w : Nat} (h : s.Judged (s.leftover i (r :: rest)) D)
    (hb : s.Books (s.leftover i (r :: rest)) D) (hD : D i) {key : Name}
    (href : s.referenceAt? r = some ref) (hk : Name.ofTree? ref.name = some key)
    (ha : s.scopeAt? i = some a) (hbar : a.isBarrier s.options = false)
    (hf : a.table.find? key = none) (hu : s.upperOf i = some w) (hwo : s.IsOpen w) :
    ((s.updateScope w (·.receive r)).updateScope i (·.pass r)).Judged
      (((s.updateScope w (·.receive r)).updateScope i (·.pass r)).leftover i rest) D := by
  have hchange : Changes (fun _ => True) s
      ((s.updateScope w (·.receive r)).updateScope i (·.pass r)) :=
    .tail (.single (.receive r trivial)) (.pass r trivial)
  have hE := hchange.evolves hb.sound
  have ht := hchange.sound hb.sound
  have hA : Alike s ((s.updateScope w (·.receive r)).updateScope i (·.pass r)) D :=
    (alike_updateScope (f := (·.receive r)) fun _ => rfl).trans
      (alike_updateScope (f := (·.pass r)) fun _ => rfl)
  have hpend : ∀ j, ((s.updateScope w (·.receive r)).updateScope i (·.pass r)).pendingAt j =
      if w = j then s.pendingAt j ++ [r] else s.pendingAt j := by
    intro j
    rw [pendingAt_pass, pendingAt_receive hwo]
  refine h.step hb hE ht hA (· = r) (fun q hq => ⟨rfl, mem_leftover_of_ne hq ?_⟩) ?_
  · intro j
    rw [hpend]
    by_cases hj : w = j <;> simp [hj, hq]
  · rintro q ref' rfl hr
    obtain rfl : ref = ref' := Option.some.inj (href.symm.trans hr)
    obtain ⟨l, hl, hc⟩ := h.turn href
    have hwi : w ≠ i := (hb.sound.rooted i w hu).ne
    refine ⟨?_, ?_, fun _ hp => absurd ?_ (hp w)⟩
    · intro j hj
      have hjw : w = j := by
        by_contra hne
        exact hb.not_mem_of_turn hj ((hpend j).trans (if_neg hne))
      subst hjw
      -- The scope it leaves is one more that does not bind its name.
      refine ⟨l ++ [i], ?_, ?_⟩
      · rw [hE.chain hb.sound ht (hb.home q ref href), hE.chain hb.sound ht hwo.lt, hl,
          chain_step hb.sound.rooted hu, List.append_assoc, List.singleton_append]
      · intro j hj
        rcases List.mem_append.1 hj with hj | hj
        · exact hc.keep hA j hj
        · rw [List.mem_singleton.1 hj]
          obtain ⟨b, hbt, hlook⟩ := hA.look i a hD ha
          exact ⟨hD, b, key, hbt, by rw [isBarrier_of_look hlook]; exact hbar, hk,
            by rw [table_of_look hlook, hf]⟩
    · intro v hv
      rw [hb.resolved_of_turn href] at hv
      cases hv
    · rw [leftover, if_neg hwi, hpend, if_pos rfl]
      exact List.mem_append_right _ List.mem_cons_self

/-- A reference leaves a scope and all above it: at a barrier, or for want of a scope above. -/
theorem Judged.leave (h : s.Judged (s.leftover i (r :: rest)) D)
    (hb : s.Books (s.leftover i (r :: rest)) D) (hD : D i) (ha : s.scopeAt? i = some a)
    (hend : a.isBarrier s.options = true ∨ (s.chain i = [i] ∧ a.isBarrier s.options = false ∧
      ∀ ref, s.referenceAt? r = some ref →
        ∃ key, Name.ofTree? ref.name = some key ∧ a.table.find? key = none)) :
    (s.updateScopes (s.chain i) (·.pass r)).Judged
      ((s.updateScopes (s.chain i) (·.pass r)).leftover i rest) D := by
  have hchange : Changes (fun _ => True) s (s.updateScopes (s.chain i) (·.pass r)) :=
    changes_updateScopes (fun _ _ _ => .pass r trivial) s
  have hE := hchange.evolves hb.sound
  have ht := hchange.sound hb.sound
  have hA : Alike s (s.updateScopes (s.chain i) (·.pass r)) D :=
    alike_updateScopes (f := (·.pass r)) fun _ => rfl
  have hpend : ∀ j, (s.updateScopes (s.chain i) (·.pass r)).pendingAt j = s.pendingAt j :=
    fun j => pendingAt_passAll (nodup_chain hb.sound.rooted i)
  refine h.step hb hE ht hA (· = r)
    (fun q hq => ⟨by simp, mem_leftover_of_ne hq fun j => by rw [hpend]⟩) ?_
  rintro q ref rfl hr
  have href : s.referenceAt? q = some ref := by simpa using hr
  obtain ⟨l, hl, hc⟩ := h.turn href
  obtain ⟨b, hbt, hlook⟩ := hA.look i a hD ha
  refine ⟨fun j hj => (hb.not_mem_of_turn hj (hpend j)).elim, fun v hv => ?_, fun _ _ => ?_⟩
  · rw [hb.resolved_of_turn href] at hv
    cases hv
  · rw [hE.chain hb.sound ht (hb.home q ref href), hl]
    -- It is stopped here, or has no scope left to ask.
    rcases hend with hbar | ⟨htop, hbar, hfree⟩
    · exact .inr ⟨l, i, s.above i, b, by rw [chain_cons hb.sound.rooted], hc.keep hA, hD, hbt,
        by rw [hA.options, isBarrier_of_look hlook, hbar]⟩
    · obtain ⟨key, hk, hf⟩ := hfree ref href
      refine .inl ?_
      intro j hj
      rw [htop] at hj
      rcases List.mem_append.1 hj with hj | hj
      · exact hc.keep hA j hj
      · rw [List.mem_singleton.1 hj]
        exact ⟨hD, b, key, hbt, by rw [hA.options, isBarrier_of_look hlook, hbar], hk,
          by rw [table_of_look hlook, hf]⟩

end Store

/-! ### A scope is closed -/

variable {s s' : Store} {i : ScopeId} {D : ScopeId → Prop}

theorem Action.settle_alike {r : ReferenceId} (h : (settle i r).outcome s = (.ok (), s')) :
    Alike s s' D := by
  obtain ⟨ref, key, scope, -, -, -, ⟨v, -, rfl⟩ | ⟨-, h⟩⟩ := settle_ok_iff.1 h
  · exact ⟨rfl, fun j a _ ha => ⟨a, ha, rfl⟩⟩
  · obtain ⟨scope', -, ⟨-, rfl⟩ | ⟨w, above, -, -, -, rfl⟩⟩ := handUp_ok_iff.1 h
    · exact alike_updateScope (f := (·.pass r)) fun _ => rfl
    · exact (alike_updateScope (f := (·.receive r)) fun _ => rfl).trans
        (alike_updateScope (f := (·.pass r)) fun _ => rfl)

theorem Action.settleAll_alike {settled : Bool} {l : List ReferenceId}
    (h : (settleAll i settled l).outcome s = (.ok (), s')) : Alike s s' D := by
  refine settleAll_induction (P := fun _ t => Alike s t D) h
    ⟨rfl, fun _ a _ ha => ⟨a, ha, rfl⟩⟩ ?_ ?_
  · exact fun r rest t t' ht hr => ht.trans (settle_alike hr)
  · exact fun r rest t ht => ht.trans (alike_updateScopes fun _ => rfl)

theorem Store.Judged.settle {r : ReferenceId} {rest : List ReferenceId} {a : Scope}
    (h : s.Judged (s.leftover i (r :: rest)) D) (hb : s.Books (s.leftover i (r :: rest)) D)
    (hD : D i) (ha : s.scopeAt? i = some a) (hbar : a.isBarrier s.options = false)
    (hr : (settle i r).outcome s = (.ok (), s')) : s'.Judged (s'.leftover i rest) D := by
  obtain ⟨ref, key, a', href, hk, ha', hr⟩ := settle_ok_iff.1 hr
  obtain rfl : a = a' := Option.some.inj (ha.symm.trans ha')
  rcases hr with ⟨v, hf, rfl⟩ | ⟨hf, hr⟩
  · exact h.link hb hD href hk ha hbar hf
  · obtain ⟨a', ha', hr⟩ := handUp_ok_iff.1 hr
    obtain rfl : a = a' := Option.some.inj (ha.symm.trans ha')
    rcases hr with ⟨hu, rfl⟩ | ⟨w, above, hu, hw, hc, rfl⟩
    · have htop : s.chain i = [i] := chain_top hb.sound.rooted ((upperOf_eq ha).trans hu)
      have hleave := h.leave hb hD ha (.inr ⟨htop, hbar, fun ref' href' => by
        obtain rfl : ref = ref' := Option.some.inj (href.symm.trans href')
        exact ⟨key, hk, hf⟩⟩)
      rwa [htop] at hleave
    · exact h.handUp hb hD href hk ha hbar hf ((upperOf_eq ha).trans hu) ⟨above, hw, hc⟩

/-- Making implicit globals leaves open whether a scope is a barrier. -/
theorem Action.bindImplicits_isBarrier {scope : Scope} {pending : List ReferenceId}
    (hs : s.Sound) (ha : s.scopeAt? i = some scope)
    (h : (bindImplicits i scope pending).outcome s = (.ok (), s')) :
    ∃ a, s'.scopeAt? i = some a ∧ a.isBarrier s'.options = scope.isBarrier s'.options := by
  by_cases hk : scope.kind = .global
  · obtain ⟨b, hb, hev, -⟩ :=
      ((bindImplicits_quiets hs h).changes.evolves hs).scope i scope ha
    exact ⟨b, hb, by simp [Scope.isBarrier, Scope.kind_of_frame hev.frame, hk]⟩
  · rw [bindImplicits, if_neg hk] at h
    rw [(pure_ok_iff.1 h).2]
    exact ⟨scope, ha, rfl⟩

/-- The books and the verdicts while a scope closes that is a barrier, or is none: `l` is still to
settle. -/
structure Store.Settling (s : Store) (i : ScopeId) (D : ScopeId → Prop) (barrier : Bool)
    (l : List ReferenceId) : Prop where
  books : s.Books (s.leftover i l) D
  judged : s.Judged (s.leftover i l) D
  barrier : ∃ a, s.scopeAt? i = some a ∧ a.isBarrier s.options = barrier

namespace Store.Settling

variable {barrier : Bool} {r : ReferenceId} {l : List ReferenceId}

/-- A scope that is seen as before is a barrier as before. -/
theorem barrier_alike (h : s.Settling i D barrier l) (hA : Alike s s' fun _ => True) :
    ∃ a, s'.scopeAt? i = some a ∧ a.isBarrier s'.options = barrier := by
  obtain ⟨a, ha, hbar⟩ := h.barrier
  obtain ⟨b, hb, hlook⟩ := hA.look i a trivial ha
  exact ⟨b, hb, by rw [hA.options, isBarrier_of_look hlook, hbar]⟩

/-- The next reference is settled. -/
theorem settle (h : s.Settling i D false (r :: l)) (hD : D i)
    (hr : (Action.settle i r).outcome s = (.ok (), s')) : s'.Settling i D false l := by
  obtain ⟨a, ha, hbar⟩ := h.barrier
  exact ⟨h.books.settle hD hr, h.judged.settle h.books hD ha hbar hr,
    h.barrier_alike (settle_alike hr)⟩

/-- A barrier lets the next reference escape. -/
theorem escape (h : s.Settling i D true (r :: l)) (hD : D i) :
    (s.updateScopes (s.chain i) (·.pass r)).Settling i D true l := by
  obtain ⟨a, ha, hbar⟩ := h.barrier
  exact ⟨h.books.leave, h.judged.leave h.books hD ha (.inl hbar),
    h.barrier_alike (alike_updateScopes (f := (·.pass r)) fun _ => rfl)⟩

/-- **All that waits is settled, or escapes.** -/
theorem settleAll (h : s.Settling i D barrier l) (hD : D i)
    (hset : (Action.settleAll i (!barrier) l).outcome s = (.ok (), s')) :
    s'.Settling i D barrier [] := by
  rw [Action.settleAll] at hset
  cases barrier with
  | false =>
      rw [Bool.not_false, if_pos rfl] at hset
      exact forM_ok_induction (P := fun l u => u.Settling i D false l) hset h
        fun r l u v hu hr => hu.settle hD hr
  | true =>
      rw [Bool.not_true, if_neg Bool.false_ne_true] at hset
      refine forM_ok_induction (P := fun l u => u.Settling i D true l) hset h
        fun r l u v hu hr => ?_
      rw [escape_ok_iff.1 hr]
      exact hu.escape hD

/-- A scope that has nothing left is closed. -/
theorem shut (h : s.Settling i D barrier []) :
    (s.updateScope i (·.shut)).Judged (s.updateScope i (·.shut)).pendingAt D := by
  have hch : Changes (fun _ => True) s (s.updateScope i (·.shut)) := .single (.shut trivial)
  refine h.judged.step h.books (hch.evolves h.books.sound) (hch.sound h.books.sound)
    (alike_updateScope (f := (·.shut)) fun _ => rfl) (fun _ => False)
    (fun q _ => ⟨rfl, fun j => ?_⟩) (fun _ _ hmoved => hmoved.elim)
  rw [pendingAt_shut]

end Store.Settling

/-- **Closing a scope keeps the verdicts.** -/
theorem Store.Judged.close {up : Option ScopeId} (h : s.Judged s.pendingAt s.IsClosed)
    (hb : s.Books s.pendingAt s.IsClosed) (hc : (close i).outcome s = (.ok up, s')) :
    s'.Judged s'.pendingAt s'.IsClosed := by
  obtain ⟨scope, pending, t, u, last, hi, hp, himp, hset, hl, -, -, hend⟩ := close_ok_iff.1 hc
  have hopen : s.IsOpen i := ⟨scope, hi, by simp [Scope.isClosed, hp]⟩
  have hq := bindImplicits_quiets hb.sound himp
  have ht : t.Settling i (s.Closing i) (scope.isBarrier t.options) pending := by
    refine ⟨?_, ?_, bindImplicits_isBarrier hb.sound hi himp⟩
    · rw [leftover_of_quiets hq hi hp]
      exact (hb.mono (fun j => .inl) fun j hj => hj.lt hi).quiets hq
    · rw [leftover_of_quiets hq hi hp]
      exact (h.quiets hb hq fun j hj e => hopen.not_isClosed (e ▸ hj)).mono fun j => .inl
  rw [settles_eq] at hset
  have hu := ht.settleAll (.inr rfl) hset
  have hjudged : s'.Judged s'.pendingAt (s.Closing i) := by
    rw [hend]
    exact hu.shut.quiets hu.books.shut (A := fun _ => False) (.single (.record _)) fun _ _ => id
  have hclosed : s'.IsClosed i := ⟨last.shut, by simp [hend, hl], rfl⟩
  exact hjudged.mono fun j hj => hj.isClosed hb.sound hc hclosed

/-! ### A whole walk -/

theorem Store.Judged.quietly {A : ScopeId → Prop} (h : s.Judged s.pendingAt s.IsClosed)
    (hb : s.Books s.pendingAt s.IsClosed) (hq : Quiets A s s') (hA : ∀ j, A j → ¬ s.IsClosed j) :
    s'.Judged s'.pendingAt s'.IsClosed := by
  have hpend : s'.pendingAt = s.pendingAt := funext hq.sameNotes.pending
  rw [hpend]
  exact (h.quiets hb hq fun j hj hAj => hA j hAj hj).mono fun j =>
    (hq.changes.evolves hb.sound).isClosed

/-- **An orderly operation keeps the verdicts.** -/
theorem Store.Judged.apply {current : Option ScopeId} {op : Operation} {out : Outcome}
    (h : s.Judged s.pendingAt s.IsClosed) (hd : s.Disciplined current)
    (ho : op.Orderly s current) (hop : op.applyTo s = (.ok out, s')) :
    s'.Judged s'.pendingAt s'.IsClosed := by
  have happly : op.apply.outcome s = (.ok out, s') := hop
  rcases hd.quiets ho hop with hq | ⟨i, u, rfl⟩ | ⟨i, rfl⟩
  · refine h.quietly hd.books hq ?_
    rintro j (hj | hj)
    · exact hj.not_isClosed
    · exact fun hc => absurd hc.lt (Nat.not_lt.2 hj)
  · obtain ⟨w, -, hr⟩ := bind_pure_ok_iff.1 happly
    obtain ⟨-, -, rfl⟩ | ⟨-, -, rfl, a, ha, hc⟩ := refer_ok_iff.1 hr
    · exact h
    · have hi : s.IsOpen i := ⟨a, ha, hc⟩
      refine (h.addReference hd.books hi hi.not_isClosed).mono ?_
      intro j
      exact (Changes.evolves (A := fun _ => True) (.single (.addReference u trivial))
        hd.sound).isClosed
  · obtain ⟨up, -, hc⟩ := Operation.applyTo_close_ok.1 hop
    exact h.close hd.books hc

namespace Walk

variable {m m' : Moment} {ops : List Operation}

theorem Moment.Good.judged (h : m.Good) (hj : m.store.Judged m.store.pendingAt m.store.IsClosed)
    (hs : Steps m ops m') : m'.store.Judged m'.store.pendingAt m'.store.IsClosed := by
  induction hs with
  | refl => exact hj
  | @more m m₁ m' op ops hs _ ih =>
      refine ih (h.step hs) ?_
      obtain ⟨o, out, -, ho, hop, -⟩ | ⟨-, -, heq | ⟨entry, heq⟩⟩ := h.step_cases hs
      · exact hj.apply h.disciplined ho hop
      · exact heq ▸ hj
      · rw [heq]
        exact hj.quietly h.disciplined.books (A := fun _ => False) (.single (.record _)) nofun

end Walk

/-! ### The finished store -/

theorem Store.lookupAlong_clear {key : Name} {l : List ScopeId}
    (h : s.Clear D (some key) l) (rest : List ScopeId) :
    s.lookupAlong key (l ++ rest) = s.lookupAlong key rest := by
  induction l with
  | nil => rfl
  | cons i l ih =>
      obtain ⟨-, a, k, ha, hb, hk, hf⟩ := h i List.mem_cons_self
      obtain rfl := Option.some.inj hk
      rw [List.cons_append, lookupAlong, ha]
      simp only [hb, Bool.false_eq_true, if_false, hf]
      exact ih fun j hj => h j (List.mem_cons_of_mem i hj)

/-- Where all scopes are closed, a verdict is what lookup says. -/
theorem Store.Verdict.eq_lookup {r : ReferenceId} {ref : Reference}
    (h : s.Verdict s.pendingAt D r ref) (hclosed : ∀ i, ¬ s.IsOpen i) :
    ref.resolved = s.lookup? ref := by
  have hnot : ∀ i, r ∉ s.pendingAt i := fun i hi => hclosed i (isOpen_of_pendingAt hi)
  rw [lookup?]
  cases hr : ref.resolved with
  | some v =>
      obtain ⟨l, i, rest, a, key, hl, hc, -, ha, hb, hk, hf⟩ := h.resolved v hr
      rw [hk] at hc ⊢
      rw [Option.bind_some, hl, lookupAlong_clear hc, lookupAlong, ha]
      simp only [hb, Bool.false_eq_true, if_false, hf]
  | none =>
      cases hk : Name.ofTree? ref.name with
      | none => rfl
      | some key =>
          rw [Option.bind_some]
          -- It left the whole chain or was stopped at a barrier, where look-up ends, too.
          rcases h.escaped hr hnot with hc | ⟨l, i, rest, a, hl, hc, -, ha, hb⟩
          · rw [hk] at hc
            have := lookupAlong_clear hc []
            rw [List.append_nil] at this
            rw [this, lookupAlong]
          · rw [hk] at hc
            rw [hl, lookupAlong_clear hc, lookupAlong, ha]
            simp only [hb, if_true]

/-- **Deferred resolution is lexical lookup.**  In the store that an analysis returns, every
reference is resolved to what looking its name up from its scope finds, and to nothing if that finds
nothing or meets a barrier first. -/
theorem analyze_resolved {o : Options} {tree : Tree} {r : ReferenceId} {ref : Reference}
    (h : analyze o tree = .ok s) (hr : s.referenceAt? r = some ref) :
    ref.resolved = s.lookup? ref := by
  obtain ⟨ops, m, hsteps, hover, hg, rfl⟩ := Walk.analyze_ok h
  have hstart : (Walk.Moment.start o tree).store.Judged
      (Walk.Moment.start o tree).store.pendingAt (Walk.Moment.start o tree).store.IsClosed := by
    intro q ref hq
    rw [show (Walk.Moment.start o tree).store.referenceAt? q = none from rfl] at hq
    cases hq
  have hj := ((Walk.Moment.start_good o tree).judged hstart hsteps).quietly hg.disciplined.books
    (A := fun _ => False) (.single (.record (.analyzed m.store.scopes.size))) nofun
  exact (hj r ref hr).eq_lookup fun i => hg.not_isOpen hover i

theorem sample_resolved : ∃ s ref, analyze {} Walk.sampleProgram = .ok s ∧
    s.referenceAt? 0 = some ref ∧ s.lookup? ref = some 0 := by
  obtain ⟨s, ref, hs, -, hr, hv⟩ := Walk.analyze_sample
  exact ⟨s, ref, hs, hr, (analyze_resolved hs hr).symm.trans hv⟩

end LexScope
