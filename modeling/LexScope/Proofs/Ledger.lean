import LexScope.Proofs.Closing

/-!
# Proofs — Ledger — where every reference is

A reference waits in a scope, was resolved to a variable, or escaped (`Whereabouts`).  Its *account*
says which, and that the four places where references are noted agree with it: the pending lists,
the `through` lists, the references of the variables, and the reference itself (`Account`).  The
*books* of a store are the accounts of all its references (`Books`).

While a scope closes, its pending list is still as long as it was and only the part that is to come
counts, so the books are kept for any assignment of pending lists (`Books.handUp`, `Books.leave`,
`Books.link`).  Everything else that can happen to a store keeps them as well.

* `Books.settle`, `Books.close`: **closing a scope keeps the books.**
-/

namespace LexScope

/-- Where a reference is. -/
inductive Whereabouts where
  /-- It waits in a scope to be settled. -/
  | pending (i : ScopeId)
  | resolved (v : VariableId)
  | escaped
  deriving DecidableEq

/-- The variable of a reference. -/
def Whereabouts.var? : Whereabouts → Option VariableId
  | .resolved v => some v
  | _ => none

namespace Store

/-! ### What is noted about references -/

/-- The references that wait in a scope. -/
def pendingAt (s : Store) (i : ScopeId) : List ReferenceId :=
  ((s.scopeAt? i).bind (·.pending)).getD []

/-- The references that left a scope. -/
def throughAt (s : Store) (i : ScopeId) : List ReferenceId :=
  ((s.scopeAt? i).map (·.through)).getD []

/-- The references resolved to a variable. -/
def linksOf (s : Store) (v : VariableId) : List ReferenceId :=
  ((s.variableAt? v).map (·.references)).getD []

/-- Whether a scope is there and open. -/
def IsOpen (s : Store) (i : ScopeId) : Prop := ∃ a, s.scopeAt? i = some a ∧ a.isClosed = false

/-- Whether a scope is there and closed. -/
def IsClosed (s : Store) (i : ScopeId) : Prop := ∃ a, s.scopeAt? i = some a ∧ a.isClosed = true

variable {s t : Store} {i j u : Nat} {r q : ReferenceId} {a : Scope}

theorem pendingAt_eq (h : s.scopeAt? i = some a) : s.pendingAt i = a.pending.getD [] := by
  rw [pendingAt, h, Option.bind_some]

theorem pendingAt_of_pending {l : List ReferenceId} (h : s.scopeAt? i = some a)
    (hp : a.pending = some l) : s.pendingAt i = l := by
  rw [pendingAt_eq h, hp, Option.getD_some]

theorem throughAt_eq (h : s.scopeAt? i = some a) : s.throughAt i = a.through := by
  rw [throughAt, h]; rfl

theorem IsOpen.lt (h : s.IsOpen i) : i < s.scopes.size := by
  obtain ⟨a, ha, -⟩ := h
  exact scopeAt?_lt ha

theorem isOpen_of_pendingAt (h : r ∈ s.pendingAt i) : s.IsOpen i := by
  rw [pendingAt] at h
  cases ha : s.scopeAt? i with
  | none => simp [ha] at h
  | some a =>
      cases hp : a.pending with
      | none => simp [ha, hp] at h
      | some l => exact ⟨a, ha, by simp [Scope.isClosed, hp]⟩

/-! ### What each change notes -/

theorem throughAt_updateScope {f : Scope → Scope} (hf : ∀ a, (f a).through = a.through) :
    (s.updateScope i f).throughAt j = s.throughAt j := by
  simp only [throughAt, scopeAt?_updateScope]
  by_cases h : i = j <;> cases s.scopeAt? j <;> simp [h, hf]

theorem pendingAt_updateScope {f : Scope → Scope} (hf : ∀ a, (f a).pending = a.pending) :
    (s.updateScope i f).pendingAt j = s.pendingAt j := by
  simp only [pendingAt, scopeAt?_updateScope]
  by_cases h : i = j <;> cases s.scopeAt? j <;> simp [h, hf]

theorem throughAt_pass (hi : i < s.scopes.size) :
    (s.updateScope i (·.pass r)).throughAt j =
      if i = j then s.throughAt j ++ [r] else s.throughAt j := by
  obtain ⟨a, ha⟩ := scopeAt?_of_lt hi
  simp only [throughAt, scopeAt?_updateScope]
  by_cases h : i = j
  · subst h; simp [ha, Scope.pass]
  · simp [h]

theorem pendingAt_pass : (s.updateScope i (·.pass r)).pendingAt j = s.pendingAt j :=
  pendingAt_updateScope fun _ => rfl

theorem throughAt_receive : (s.updateScope i (·.receive r)).throughAt j = s.throughAt j :=
  throughAt_updateScope fun _ => rfl

theorem throughAt_shut : (s.updateScope i (·.shut)).throughAt j = s.throughAt j :=
  throughAt_updateScope fun _ => rfl

theorem throughAt_passAll {l : List ScopeId} (hl : l.Nodup) (hlt : ∀ j ∈ l, j < s.scopes.size) :
    (s.updateScopes l (·.pass r)).throughAt j =
      if j ∈ l then s.throughAt j ++ [r] else s.throughAt j := by
  simp only [throughAt, scopeAt?_updateScopes s hl]
  by_cases h : j ∈ l
  · obtain ⟨a, ha⟩ := scopeAt?_of_lt (hlt j h)
    simp [h, ha, Scope.pass]
  · simp [h]

theorem pendingAt_passAll {l : List ScopeId} (hl : l.Nodup) :
    (s.updateScopes l (·.pass r)).pendingAt j = s.pendingAt j := by
  simp only [pendingAt, scopeAt?_updateScopes s hl]
  by_cases h : j ∈ l <;> cases s.scopeAt? j <;> simp [h, Scope.pass]

theorem pendingAt_receive (hi : s.IsOpen i) :
    (s.updateScope i (·.receive r)).pendingAt j =
      if i = j then s.pendingAt j ++ [r] else s.pendingAt j := by
  obtain ⟨a, ha, hc⟩ := hi
  obtain ⟨l, hl⟩ : ∃ l, a.pending = some l := by
    cases hp : a.pending with
    | none => simp [Scope.isClosed, hp] at hc
    | some l => exact ⟨l, rfl⟩
  simp only [pendingAt, scopeAt?_updateScope]
  by_cases h : i = j
  · subst h; simp [ha, Scope.receive, hl]
  · simp [h]

theorem linksOf_link {origin : ScopeId} {v w : VariableId} (hv : v < s.vars.size) :
    (s.link r origin v).linksOf w = if v = w then s.linksOf w ++ [r] else s.linksOf w := by
  simp only [linksOf, variableAt?_link]
  by_cases h : v = w
  · subst h
    obtain ⟨a, ha⟩ : ∃ a, s.variableAt? v = some a := ⟨_, Array.getElem?_eq_getElem hv⟩
    simp [ha]
  · simp [h]

/-! ### Accounts -/

/-- The part of its way that a reference has still before it. -/
def ahead (s : Store) : Whereabouts → List ScopeId
  | .pending i => s.chain i
  | .resolved v => (s.variableAt? v).elim [] fun var => s.chain var.scope
  | .escaped => []

/-- What is noted about a reference, given the pending lists and which scopes count as closed. -/
structure Account (s : Store) (pend : ScopeId → List ReferenceId) (done : ScopeId → Prop)
    (r : ReferenceId) (ref : Reference) (w : Whereabouts) : Prop where
  resolved : ref.resolved = w.var?
  pending : ∀ j, (pend j).count r = if w = .pending j then 1 else 0
  links : ∀ v, (s.linksOf v).count r = if w = .resolved v then 1 else 0
  way : ∃ behind, s.chain ref.scope = behind ++ s.ahead w ∧
    ∀ j, (s.throughAt j).count r = behind.count j
  bound : ∀ v, w = .resolved v → ∃ var, s.variableAt? v = some var ∧ done var.scope ∧
    ∃ key, Name.ofTree? var.name = some key ∧ Name.ofTree? ref.name = some key

/-- The accounts of all references. -/
structure Books (s : Store) (pend : ScopeId → List ReferenceId) (done : ScopeId → Prop) : Prop where
  sound : s.Sound
  isOpen : ∀ i r, r ∈ pend i → s.IsOpen i
  known : ∀ i, done i → i < s.scopes.size
  home : ∀ r ref, s.referenceAt? r = some ref → ref.scope < s.scopes.size
  /-- A number not in use is noted nowhere. -/
  unused : ∀ r, s.referenceAt? r = none → (∀ j, (pend j).count r = 0) ∧
    (∀ j, (s.throughAt j).count r = 0) ∧ ∀ v, (s.linksOf v).count r = 0
  account : ∀ r ref, s.referenceAt? r = some ref → ∃ w, s.Account pend done r ref w

variable {A : ScopeId → Prop} {P Q : ScopeId → List ReferenceId} {D E : ScopeId → Prop}
  {ref : Reference} {w : Whereabouts}

theorem Account.of_mem (h : s.Account P D r ref w) (hr : r ∈ P i) : w = .pending i := by
  by_contra hw
  have := h.pending i
  rw [if_neg hw] at this
  exact List.count_eq_zero.1 this hr

theorem Account.mono (h : s.Account P D r ref w) (hDE : ∀ i, D i → E i) : s.Account P E r ref w :=
  ⟨h.resolved, h.pending, h.links, h.way, fun v hv =>
    let ⟨var, hvar, hd, hk⟩ := h.bound v hv; ⟨var, hvar, hDE _ hd, hk⟩⟩

theorem Books.mono (h : s.Books P D) (hDE : ∀ i, D i → E i) (hE : ∀ i, E i → i < s.scopes.size) :
    s.Books P E :=
  ⟨h.sound, h.isOpen, hE, h.home, h.unused, fun r ref hr =>
    let ⟨w, hw⟩ := h.account r ref hr; ⟨w, hw.mono hDE⟩⟩

/-- The reference on a pending list. -/
theorem Books.waiting (h : s.Books P D) (hr : r ∈ P i) :
    ∃ ref, s.referenceAt? r = some ref ∧ s.Account P D r ref (.pending i) := by
  cases href : s.referenceAt? r with
  | none => exact absurd hr (List.count_eq_zero.1 ((h.unused r href).1 i))
  | some ref =>
      obtain ⟨w, hw⟩ := h.account r ref href
      exact ⟨ref, rfl, hw.of_mem hr ▸ hw⟩

/-- The references noted with a variable are those that are resolved to it. -/
theorem Books.mem_linksOf_iff {v : VariableId} (h : s.Books P D)
    (href : s.referenceAt? r = some ref) : r ∈ s.linksOf v ↔ ref.resolved = some v := by
  obtain ⟨w, hw⟩ := h.account r ref href
  rw [← List.count_pos_iff, hw.links v, hw.resolved]
  cases w with
  | resolved w => by_cases hv : w = v <;> simp [Whereabouts.var?, hv]
  | pending j => simp [Whereabouts.var?]
  | escaped => simp [Whereabouts.var?]

theorem Books.of_mem_linksOf {v : VariableId} (h : s.Books P D) (hr : r ∈ s.linksOf v) :
    ∃ ref, s.referenceAt? r = some ref ∧ ref.resolved = some v := by
  cases href : s.referenceAt? r with
  | none => exact absurd hr (List.count_eq_zero.1 ((h.unused r href).2.2 v))
  | some ref => exact ⟨ref, rfl, (h.mem_linksOf_iff href).1 hr⟩

/-- Where references wait, each waits once. -/
theorem Books.nodup_pendingAt (h : s.Books P D) (i : ScopeId) : (P i).Nodup := by
  refine List.nodup_iff_count_le_one.2 fun r => ?_
  cases hr : s.referenceAt? r with
  | none => exact ((h.unused r hr).1 i).le.trans zero_le_one
  | some ref =>
      obtain ⟨w, hw⟩ := h.account r ref hr
      rw [hw.pending]
      split <;> decide

/-- A variable has each of its references once. -/
theorem Books.nodup_linksOf (h : s.Books P D) (v : VariableId) : (s.linksOf v).Nodup := by
  refine List.nodup_iff_count_le_one.2 fun r => ?_
  cases hr : s.referenceAt? r with
  | none => exact ((h.unused r hr).2.2 v).le.trans zero_le_one
  | some ref =>
      obtain ⟨w, hw⟩ := h.account r ref hr
      rw [hw.links]
      split <;> decide

/-- The account of a reference that is resolved. -/
theorem Books.account_of_resolved {v : VariableId} (h : s.Books P D)
    (href : s.referenceAt? r = some ref) (hres : ref.resolved = some v) :
    s.Account P D r ref (.resolved v) := by
  obtain ⟨w, hw⟩ := h.account r ref href
  have hv := hw.resolved.symm.trans hres
  cases w with
  | resolved w => exact Option.some.inj hv ▸ hw
  | pending j => cases hv
  | escaped => cases hv

/-- What a reference has before it does not change. -/
theorem Evolves.ahead (h : Evolves A s t) (hs : s.Sound) (ht : t.Sound)
    (hp : ∀ i, w = .pending i → i < s.scopes.size)
    (hv : ∀ v, w = .resolved v →
      ∃ var, s.variableAt? v = some var ∧ var.scope < s.scopes.size) :
    t.ahead w = s.ahead w := by
  cases w with
  | pending i => exact h.chain hs ht (hp i rfl)
  | escaped => rfl
  | resolved v =>
      obtain ⟨var, hvar, hlt⟩ := hv v rfl
      obtain ⟨var', hvar', hev, -⟩ := h.var v var hvar
      simp only [Store.ahead, hvar, hvar', Option.elim_some, hev.scope]
      exact h.chain hs ht hlt

/-- An account stays what it is as long as nothing about its reference is noted. -/
theorem Account.keep (h : s.Account P D q ref w) (hE : Evolves A s t) (hs : s.Sound) (ht : t.Sound)
    (hhome : ref.scope < s.scopes.size) (hp : ∀ i, w = .pending i → i < s.scopes.size)
    (hD : ∀ i, D i → i < s.scopes.size)
    (hP : ∀ j, (Q j).count q = (P j).count q)
    (hT : ∀ j, (t.throughAt j).count q = (s.throughAt j).count q)
    (hL : ∀ v, (t.linksOf v).count q = (s.linksOf v).count q) : t.Account Q D q ref w := by
  have hbound : ∀ v, w = .resolved v →
      ∃ var, s.variableAt? v = some var ∧ var.scope < s.scopes.size := fun v hv =>
    let ⟨var, hvar, hd, _⟩ := h.bound v hv
    ⟨var, hvar, hD _ hd⟩
  refine ⟨h.resolved, fun j => (hP j).trans (h.pending j), fun v => (hL v).trans (h.links v), ?_,
    ?_⟩
  · obtain ⟨behind, hb, hc⟩ := h.way
    refine ⟨behind, ?_, fun j => (hT j).trans (hc j)⟩
    rw [hE.chain hs ht hhome, hE.ahead hs ht hp hbound, hb]
  · intro v hv
    obtain ⟨var, hvar, hd, key, hk, hn⟩ := h.bound v hv
    obtain ⟨var', hvar', hev, -⟩ := hE.var v var hvar
    exact ⟨var', hvar', hev.scope ▸ hd, key, hev.name ▸ hk, hn⟩

theorem Account.waits (h : s.Account P D r ref (.pending i)) : r ∈ P i := by
  rw [← List.count_pos_iff, h.pending i, if_pos rfl]
  exact Nat.one_pos

/-! ### Keeping the books -/

/-- The books are kept if what is noted about all references but the moved ones stays, and the moved
ones have new accounts. -/
theorem Books.step (h : s.Books P D) (hE : Evolves A s t) (ht : t.Sound)
    (hlt : s.scopes.size ≤ t.scopes.size) (hopen : ∀ j q, q ∈ Q j → t.IsOpen j)
    (moved : ReferenceId → Prop)
    (hsame : ∀ q, ¬ moved q → t.referenceAt? q = s.referenceAt? q ∧
      (∀ j, (Q j).count q = (P j).count q) ∧
      (∀ j, (t.throughAt j).count q = (s.throughAt j).count q) ∧
      ∀ v, (t.linksOf v).count q = (s.linksOf v).count q)
    (hmoved : ∀ q, moved q → ∃ ref w, t.referenceAt? q = some ref ∧
      ref.scope < t.scopes.size ∧ t.Account Q D q ref w) : t.Books Q D := by
  refine ⟨ht, hopen, fun i hi => (h.known i hi).trans_le hlt, ?_, ?_, ?_⟩
  · intro q ref hq
    by_cases hm : moved q
    · obtain ⟨ref', -, hr, hlt', -⟩ := hmoved q hm
      rw [hr, Option.some.injEq] at hq
      exact hq ▸ hlt'
    · rw [(hsame q hm).1] at hq
      exact (h.home q ref hq).trans_le hlt
  · intro q hq
    -- A number that is not in use is not that of a moved reference.
    have hm : ¬ moved q := by
      intro hm
      obtain ⟨ref', -, hr, -⟩ := hmoved q hm
      rw [hr] at hq
      cases hq
    obtain ⟨he, hP, hT, hL⟩ := hsame q hm
    obtain ⟨uP, uT, uL⟩ := h.unused q (he ▸ hq)
    exact ⟨fun j => (hP j).trans (uP j), fun j => (hT j).trans (uT j),
      fun v => (hL v).trans (uL v)⟩
  · intro q ref hq
    by_cases hm : moved q
    · obtain ⟨ref', w, hr, -, hw⟩ := hmoved q hm
      rw [hr, Option.some.injEq] at hq
      exact ⟨w, hq ▸ hw⟩
    · obtain ⟨he, hP, hT, hL⟩ := hsame q hm
      rw [he] at hq
      obtain ⟨w, hw⟩ := h.account q ref hq
      refine ⟨w, hw.keep hE h.sound ht (h.home q ref hq) (fun i hi => ?_) h.known hP hT hL⟩
      exact (h.isOpen i q (Account.waits (hi ▸ hw))).lt

/-- What a quiet change leaves alone. -/
structure SameNotes (s t : Store) : Prop where
  through : ∀ j, t.throughAt j = s.throughAt j
  pending : ∀ j, t.pendingAt j = s.pendingAt j
  links : ∀ v, t.linksOf v = s.linksOf v
  reference : ∀ r, t.referenceAt? r = s.referenceAt? r
  isOpen : ∀ i, s.IsOpen i → t.IsOpen i
  size : s.scopes.size ≤ t.scopes.size

theorem isOpen_updateScope {f : Scope → Scope} (hf : ∀ a, (f a).pending = a.pending)
    (h : s.IsOpen j) : (s.updateScope i f).IsOpen j := by
  obtain ⟨a, ha, hc⟩ := h
  by_cases hj : i = j
  · exact ⟨f a, by simp [ha, hj], by rw [Scope.isClosed, hf]; exact hc⟩
  · exact ⟨a, by simp [ha, hj], hc⟩

theorem size_addScope (s : Store) (kind : ScopeKind) (n : Node) (upper : Option ScopeId)
    (strict : Bool) : (s.addScope kind n upper strict).scopes.size = s.scopes.size + 1 := by
  unfold addScope
  cases upper <;> by_cases h : kind = .global <;>
    simp [h, pushScope, updateScope, Array.size_push]

theorem Quiet.sameNotes (h : Quiet A s t) : SameNotes s t := by
  cases h with
  | record entry =>
      exact ⟨fun _ => rfl, fun _ => rfl, fun _ => rfl, fun _ => rfl, fun _ h => h, le_rfl⟩
  | @addScope kind n upper strict hu =>
      have hview := scopeAt?_addScope s kind n upper strict fun u h => (hu u h).2
      have hnone : s.scopeAt? s.scopes.size = none := scopeAt?_eq_none.2 le_rfl
      refine ⟨?_, ?_, fun v => by simp [linksOf], fun r => by simp, ?_,
        by rw [size_addScope]; exact Nat.le_succ _⟩
      · intro j
        rw [throughAt, throughAt, hview]
        by_cases hj : j = s.scopes.size
        · simp [hj, hnone, freshScope]
        · cases s.scopeAt? j <;> by_cases hu : upper = some j <;> simp [hj, hu, Scope.adopt]
      · intro j
        rw [pendingAt, pendingAt, hview]
        by_cases hj : j = s.scopes.size
        · simp [hj, hnone, freshScope]
        · cases s.scopeAt? j <;> by_cases hu : upper = some j <;> simp [hj, hu, Scope.adopt]
      · intro i hi
        obtain ⟨a, ha, hc⟩ := hi
        obtain ⟨l, hb⟩ := scopeAt?_addScope_keep (fun u h => (hu u h).2) ha
        exact ⟨_, hb, hc⟩
  | @bindNew i a key var hA ha hf hi hk hr =>
      refine ⟨?_, ?_, ?_, fun r => rfl, ?_, ?_⟩
      · intro j
        simp only [throughAt, scopeAt?_bindNew]
        by_cases h : i = j <;> cases s.scopeAt? j <;> simp [h, Scope.bind]
      · intro j
        simp only [pendingAt, scopeAt?_bindNew]
        by_cases h : i = j <;> cases s.scopeAt? j <;> simp [h, Scope.bind]
      · intro v
        simp only [linksOf, variableAt?_bindNew]
        by_cases h : v = s.vars.size
        · have hnone : s.variableAt? s.vars.size = none := Array.getElem?_eq_none le_rfl
          simp [h, hr, hnone]
        · simp [h]
      · intro j hj
        obtain ⟨b, hb, hc⟩ := hj
        by_cases h : i = j
        · exact ⟨b.bind key s.vars.size, by simp [h, hb], hc⟩
        · exact ⟨b, by simp [h, hb], hc⟩
      · simp [Store.bindNew, updateScope]
  | @addDefinition i a key v d hA ha hf =>
      refine ⟨fun _ => rfl, fun _ => rfl, fun w => ?_, fun _ => rfl, fun _ h => h, le_rfl⟩
      simp only [linksOf, variableAt?_addDefinition]
      by_cases h : v = w <;> cases s.variableAt? w <;> simp [h]
  | @reflag i f hA hf =>
      exact ⟨fun _ => throughAt_updateScope fun a => (hf a).through,
        fun _ => pendingAt_updateScope fun a => (hf a).pending, fun _ => rfl, fun _ => rfl,
        fun _ h => isOpen_updateScope (fun a => (hf a).pending) h,
        by simp [updateScope]⟩
  | @bindImplicit i a key v hA ha hf =>
      exact ⟨fun _ => throughAt_updateScope fun _ => rfl,
        fun _ => pendingAt_updateScope fun _ => rfl, fun _ => rfl, fun _ => rfl,
        fun _ h => isOpen_updateScope (fun _ => rfl) h, by simp [updateScope]⟩

theorem SameNotes.trans {s t u : Store} (h : SameNotes s t) (k : SameNotes t u) : SameNotes s u :=
  ⟨fun j => (k.through j).trans (h.through j), fun j => (k.pending j).trans (h.pending j),
    fun v => (k.links v).trans (h.links v), fun r => (k.reference r).trans (h.reference r),
    fun i hi => k.isOpen i (h.isOpen i hi), h.size.trans k.size⟩

theorem Quiets.sameNotes (h : Quiets A s t) : SameNotes s t := by
  induction h with
  | refl =>
      exact ⟨fun _ => rfl, fun _ => rfl, fun _ => rfl, fun _ => rfl, fun _ h => h, le_rfl⟩
  | tail _ h ih => exact ih.trans h.sameNotes

theorem Books.quiets (h : s.Books P D) (hq : Quiets A s t) : t.Books P D := by
  have hn := hq.sameNotes
  refine h.step (hq.changes.evolves h.sound) (hq.changes.sound h.sound) hn.size
    (fun j q hj => hn.isOpen j (h.isOpen j q hj)) (fun _ => False) (fun q _ => ?_) (fun _ => nofun)
  exact ⟨hn.reference q, fun _ => rfl, fun j => by rw [hn.through], fun v => by rw [hn.links]⟩

/-! ### A reference is made -/

theorem throughAt_addReference {v : Use} :
    (s.addReference i v).throughAt j = s.throughAt j := by
  simp only [throughAt, scopeAt?_addReference]
  by_cases h : i = j <;> cases s.scopeAt? j <;> simp [h, Scope.take]

theorem pendingAt_addReference {v : Use} (hi : s.IsOpen i) :
    (s.addReference i v).pendingAt j =
      if i = j then s.pendingAt j ++ [s.references.size] else s.pendingAt j := by
  obtain ⟨a, ha, hc⟩ := hi
  obtain ⟨l, hl⟩ : ∃ l, a.pending = some l := by
    cases hp : a.pending with
    | none => simp [Scope.isClosed, hp] at hc
    | some l => exact ⟨l, rfl⟩
  simp only [pendingAt, scopeAt?_addReference]
  by_cases h : i = j
  · subst h; simp [ha, Scope.take, hl]
  · simp [h]

theorem Books.addReference (h : s.Books s.pendingAt D) {v : Use} (hi : s.IsOpen i) :
    (s.addReference i v).Books (s.addReference i v).pendingAt D := by
  have hchange : Changes (fun _ => True) s (s.addReference i v) := .single (.addReference v trivial)
  have hE := hchange.evolves h.sound
  have ht := hchange.sound h.sound
  have hnone : s.referenceAt? s.references.size = none := Array.getElem?_eq_none le_rfl
  obtain ⟨uP, uT, uL⟩ := h.unused _ hnone
  refine h.step hE ht (by simp [Store.addReference, updateScope])
    (fun j q hj => isOpen_of_pendingAt hj) (· = s.references.size) ?_ ?_
  · intro q hq
    refine ⟨by rw [referenceAt?_addReference, if_neg hq], fun j => ?_,
      fun j => by rw [throughAt_addReference], fun _ => rfl⟩
    rw [pendingAt_addReference hi]
    by_cases hj : i = j
    · simp [hj, List.count_append, Ne.symm hq]
    · simp [hj]
  · rintro q rfl
    have hlt : i < (s.addReference i v).scopes.size := by
      simpa [Store.addReference, updateScope] using hi.lt
    refine ⟨{ v with scope := i }, .pending i, by rw [referenceAt?_addReference, if_pos rfl], hlt,
      rfl, fun j => ?_, fun w => (uL w).trans (by simp), ⟨[], rfl, fun j => ?_⟩, by simp⟩
    · rw [pendingAt_addReference hi]
      by_cases hj : i = j
      · subst hj; simp [List.count_append, uP]
      · simp [hj, uP]
    · rw [throughAt_addReference]
      exact uT j

/-! ### A reference is settled -/

/-- The pending lists while a scope closes, of whose own list only a part is still to come. -/
def leftover (s : Store) (i : ScopeId) (rest : List ReferenceId) (j : ScopeId) :
    List ReferenceId := if j = i then rest else s.pendingAt j

variable {rest : List ReferenceId}

theorem leftover_pending (h : s.pendingAt i = rest) : s.leftover i rest = s.pendingAt := by
  funext j
  by_cases hj : j = i
  · subst hj; simp [leftover, h]
  · simp [leftover, hj]

/-- The reference whose turn it is. -/
theorem Books.turn (h : s.Books (s.leftover i (r :: rest)) D) :
    s.IsOpen i ∧ rest.count r = 0 ∧ (∀ j, j ≠ i → (s.pendingAt j).count r = 0) ∧
      ∃ ref, s.referenceAt? r = some ref ∧
        s.Account (s.leftover i (r :: rest)) D r ref (.pending i) := by
  have hr : r ∈ s.leftover i (r :: rest) i := by simp [leftover]
  obtain ⟨ref, href, hw⟩ := h.waiting hr
  refine ⟨h.isOpen i r hr, ?_, ?_, ref, href, hw⟩
  · have := hw.pending i
    simpa [leftover] using this
  · intro j hj
    have := hw.pending j
    rw [if_neg fun e => hj (Whereabouts.pending.inj e).symm] at this
    simpa [leftover, hj] using this

/-- The reference whose turn it is has no variable yet. -/
theorem Books.resolved_of_turn (h : s.Books (s.leftover i (r :: rest)) D)
    (href : s.referenceAt? r = some ref) : ref.resolved = none := by
  obtain ⟨-, -, -, ref', href', hw⟩ := h.turn
  obtain rfl : ref = ref' := Option.some.inj (href.symm.trans href')
  exact hw.resolved

theorem count_leftover_of_ne (hq : q ≠ r) (hp : ∀ j, j ≠ i →
    (t.pendingAt j).count q = (s.pendingAt j).count q) (j : ScopeId) :
    (t.leftover i rest j).count q = (s.leftover i (r :: rest) j).count q := by
  by_cases hj : j = i
  · simp [leftover, hj, Ne.symm hq]
  · simp [leftover, hj, hp j hj]

theorem isOpen_leftover (h : t.IsOpen i) (hq : q ∈ t.leftover i rest j) : t.IsOpen j := by
  by_cases hj : j = i
  · exact hj ▸ h
  · rw [leftover, if_neg hj] at hq
    exact isOpen_of_pendingAt hq

/-- A reference is handed to an open scope above. -/
theorem Books.handUp (h : s.Books (s.leftover i (r :: rest)) D) (hu : s.upperOf i = some u)
    (huo : s.IsOpen u) :
    ((s.updateScope u (·.receive r)).updateScope i (·.pass r)).Books
      (((s.updateScope u (·.receive r)).updateScope i (·.pass r)).leftover i rest) D := by
  obtain ⟨hi, hrest, hother, ref, href, hw⟩ := h.turn
  have hchange : Changes (fun _ => True) s
      ((s.updateScope u (·.receive r)).updateScope i (·.pass r)) :=
    .tail (.single (.receive r trivial)) (.pass r trivial)
  have hE := hchange.evolves h.sound
  have ht := hchange.sound h.sound
  have hui : u ≠ i := (h.sound.rooted i u hu).ne
  have hpend : ∀ j, ((s.updateScope u (·.receive r)).updateScope i (·.pass r)).pendingAt j =
      if u = j then s.pendingAt j ++ [r] else s.pendingAt j := by
    intro j
    rw [pendingAt_pass, pendingAt_receive huo]
  have hthr : ∀ j, ((s.updateScope u (·.receive r)).updateScope i (·.pass r)).throughAt j =
      if i = j then s.throughAt j ++ [r] else s.throughAt j := by
    intro j
    rw [throughAt_pass (by simpa [updateScope] using hi.lt), throughAt_receive]
  have hio : ((s.updateScope u (·.receive r)).updateScope i (·.pass r)).IsOpen i := by
    obtain ⟨a, ha, hc⟩ := hi
    exact ⟨a.pass r, by simp [ha, hui], hc⟩
  refine h.step hE ht (by simp [updateScope]) (fun j q => isOpen_leftover hio) (· = r) ?_ ?_
  · intro q hq
    refine ⟨rfl, count_leftover_of_ne hq fun j _ => ?_, fun j => ?_, fun _ => rfl⟩
    · rw [hpend]
      by_cases hj : u = j <;> simp [hj, List.count_append, Ne.symm hq]
    · rw [hthr]
      by_cases hj : i = j <;> simp [hj, List.count_append, Ne.symm hq]
  · rintro q rfl
    obtain ⟨behind, hb, hc⟩ := hw.way
    refine ⟨ref, .pending u, href, (h.home q ref href).trans_le (by simp [updateScope]),
      hw.resolved, ?_, fun v => (hw.links v).trans (by simp), ?_, by simp⟩
    · intro j
      by_cases hj : j = i
      · simp [leftover, hj, hrest, hui]
      · rw [leftover, if_neg hj, hpend]
        by_cases huj : u = j
        · simp [huj, List.count_append, hother j hj]
        · simp [huj, hother j hj]
    · -- One more scope lies behind the reference, and one less ahead.
      refine ⟨behind ++ [i], ?_, ?_⟩
      · rw [hE.chain h.sound ht (h.home q ref href), hb, List.append_assoc]
        simp only [Store.ahead]
        rw [hE.chain h.sound ht huo.lt, chain_step h.sound.rooted hu, List.singleton_append]
      · intro j
        rw [hthr]
        by_cases hj : i = j <;> simp [hj, List.count_append, hc]

/-- A reference leaves a scope and all scopes above it. -/
theorem Books.leave (h : s.Books (s.leftover i (r :: rest)) D) :
    (s.updateScopes (s.chain i) (·.pass r)).Books
      ((s.updateScopes (s.chain i) (·.pass r)).leftover i rest) D := by
  obtain ⟨hi, hrest, hother, ref, href, hw⟩ := h.turn
  have hchange : Changes (fun _ => True) s (s.updateScopes (s.chain i) (·.pass r)) :=
    changes_updateScopes (fun _ _ _ => .pass r trivial) s
  have hE := hchange.evolves h.sound
  have ht := hchange.sound h.sound
  have hnodup := nodup_chain h.sound.rooted i
  have hpend : ∀ j, (s.updateScopes (s.chain i) (·.pass r)).pendingAt j = s.pendingAt j :=
    fun j => pendingAt_passAll hnodup
  have hthr : ∀ j, (s.updateScopes (s.chain i) (·.pass r)).throughAt j =
      if j ∈ s.chain i then s.throughAt j ++ [r] else s.throughAt j := fun j =>
    throughAt_passAll hnodup fun k hk => (le_of_mem_chain h.sound.rooted hk).trans_lt hi.lt
  have hsize : (s.updateScopes (s.chain i) (·.pass r)).scopes.size = s.scopes.size := by
    generalize s.chain i = l
    clear * -
    induction l generalizing s with
    | nil => rfl
    | cons k l ih => exact ih.trans (by simp [updateScope])
  have hio : (s.updateScopes (s.chain i) (·.pass r)).IsOpen i := by
    obtain ⟨a, ha, hc⟩ := hi
    exact ⟨a.pass r, by
      rw [scopeAt?_updateScopes s hnodup, if_pos (self_mem_chain s i), ha]; rfl, hc⟩
  refine h.step hE ht hsize.ge (fun j q => isOpen_leftover hio) (· = r) ?_ ?_
  · intro q hq
    refine ⟨by simp, count_leftover_of_ne hq fun j _ => by rw [hpend], fun j => ?_,
      fun v => by simp [linksOf]⟩
    rw [hthr]
    by_cases hj : j ∈ s.chain i <;> simp [hj, List.count_append, Ne.symm hq]
  · rintro q rfl
    obtain ⟨behind, hb, hc⟩ := hw.way
    refine ⟨ref, .escaped, by simpa using href, (h.home q ref href).trans_eq hsize.symm,
      hw.resolved, ?_, ?_, ?_, by simp⟩
    · intro j
      by_cases hj : j = i
      · simp [leftover, hj, hrest]
      · simp [leftover, hj, hpend, hother j hj]
    · intro v
      have := hw.links v
      simpa [linksOf] using this
    · -- All that was ahead of the reference is behind it now.
      refine ⟨behind ++ s.chain i, ?_, ?_⟩
      · rw [hE.chain h.sound ht (h.home q ref href), hb]
        simp [Store.ahead]
      · intro j
        rw [hthr, List.count_append, List.Nodup.count hnodup]
        by_cases hj : j ∈ s.chain i <;> simp [hj, List.count_append, hc]

/-- A reference is resolved to a variable of the scope. -/
theorem Books.link (h : s.Books (s.leftover i (r :: rest)) D) (hD : D i) {key : Name}
    {v : VariableId} {ref : Reference} (href : s.referenceAt? r = some ref)
    (hk : Name.ofTree? ref.name = some key) (ha : s.scopeAt? i = some a)
    (hf : a.table.find? key = some v) :
    (s.link r ref.scope v).Books ((s.link r ref.scope v).leftover i rest) D := by
  obtain ⟨hi, hrest, hother, ref', href', hw⟩ := h.turn
  rw [href, Option.some.injEq] at href'
  subst href'
  obtain ⟨var, hvar, hsc, hn⟩ := h.sound.of_find? ha hf
  have hchange : Changes (fun _ => True) s (s.link r ref.scope v) :=
    .single (.link r ref.scope trivial ha hf)
  have hE := hchange.evolves h.sound
  have ht := hchange.sound h.sound
  obtain ⟨var', hvar', hev, -⟩ := hE.var v var hvar
  have hlinks : ∀ w, (s.link r ref.scope v).linksOf w =
      if v = w then s.linksOf w ++ [r] else s.linksOf w := fun w =>
    linksOf_link (variableAt?_lt hvar)
  refine h.step hE ht le_rfl (fun j q => isOpen_leftover hi) (· = r) ?_ ?_
  · intro q hq
    refine ⟨by rw [referenceAt?_link, if_neg (Ne.symm hq)],
      count_leftover_of_ne hq fun _ _ => rfl, fun _ => rfl, fun w => ?_⟩
    rw [hlinks]
    by_cases hv : v = w <;> simp [hv, List.count_append, Ne.symm hq]
  · rintro q rfl
    obtain ⟨behind, hb, hc⟩ := hw.way
    refine ⟨{ ref with resolved := some v }, .resolved v, by simp [href], h.home q ref href,
      rfl, ?_, ?_, ⟨behind, ?_, hc⟩, ?_⟩
    · intro j
      by_cases hj : j = i
      · simp [leftover, hj, hrest]
      · rw [leftover, if_neg hj]
        exact (hother j hj).trans (if_neg nofun).symm
    · intro w
      rw [hlinks]
      have := hw.links w
      by_cases hv : v = w
      · subst hv; simpa [List.count_append] using this
      · simpa [hv] using this
    · rw [hE.chain h.sound ht (h.home q ref href), hb]
      simp only [Store.ahead, hvar', Option.elim_some, hev.scope, hsc]
      rw [hE.chain h.sound ht hi.lt]
    · rintro w hw
      obtain rfl := Whereabouts.resolved.inj hw
      exact ⟨var', hvar', by rw [hev.scope, hsc]; exact hD, key, by rw [hev.name]; exact hn, hk⟩

theorem pendingAt_shut : (s.updateScope i (·.shut)).pendingAt j = s.leftover i [] j := by
  simp only [pendingAt, leftover, scopeAt?_updateScope]
  by_cases hj : i = j
  · subst hj; cases s.scopeAt? i <;> simp [Scope.shut]
  · simp [hj, Ne.symm hj]

/-- A scope that has nothing left is closed. -/
theorem Books.shut (h : s.Books (s.leftover i []) D) :
    (s.updateScope i (·.shut)).Books (s.updateScope i (·.shut)).pendingAt D := by
  have hchange : Changes (fun _ => True) s (s.updateScope i (·.shut)) := .single (.shut trivial)
  refine h.step (hchange.evolves h.sound) (hchange.sound h.sound) (by simp [updateScope])
    (fun j q hj => isOpen_of_pendingAt hj) (fun _ => False) (fun q _ => ?_) (fun _ => nofun)
  exact ⟨rfl, fun j => by rw [pendingAt_shut], fun j => by rw [throughAt_shut], fun _ => rfl⟩

end Store

open Store LexScope.Action

variable {s s' : Store} {i : ScopeId} {D : ScopeId → Prop}

theorem Store.Books.settle {r : ReferenceId} {rest : List ReferenceId}
    (h : s.Books (s.leftover i (r :: rest)) D) (hD : D i)
    (hr : (settle i r).outcome s = (.ok (), s')) : s'.Books (s'.leftover i rest) D := by
  obtain ⟨ref, key, scope, href, hk, hi, ⟨v, hf, rfl⟩ | ⟨-, hr⟩⟩ := settle_ok_iff.1 hr
  · exact h.link hD href hk hi hf
  · obtain ⟨scope', hi', ⟨hu, rfl⟩ | ⟨w, above, hu, hw, hc, rfl⟩⟩ := handUp_ok_iff.1 hr
    · have htop : s.chain i = [i] := chain_top h.sound.rooted ((upperOf_eq hi').trans hu)
      have := h.leave
      rwa [htop] at this
    · exact h.handUp ((upperOf_eq hi').trans hu) ⟨above, hw, hc⟩

/-- What counts as closed while a scope closes: what is closed, and the scope. -/
def Store.Closing (s : Store) (i j : ScopeId) : Prop := s.IsClosed j ∨ j = i

theorem Store.Closing.lt {j : ScopeId} {a : Scope} (h : s.Closing i j)
    (hi : s.scopeAt? i = some a) : j < s.scopes.size := by
  rcases h with ⟨b, hb, -⟩ | rfl
  · exact scopeAt?_lt hb
  · exact scopeAt?_lt hi

/-- What counts as closed while a scope closes is closed afterwards. -/
theorem Store.Closing.isClosed {up : Option ScopeId} {j : ScopeId} (hj : s.Closing i j)
    (hs : s.Sound) (hc : (close i).outcome s = (.ok up, s')) (h : s'.IsClosed i) :
    s'.IsClosed j := by
  rcases hj with ⟨a, ha, hcl⟩ | rfl
  · obtain ⟨b, hb, hev, -⟩ := ((close_changes hs hc).evolves hs).scope j a ha
    exact ⟨b, hb, hev.closed hcl⟩
  · exact h

/-- When the variables for writes are made, what is left to settle is what was waiting before. -/
theorem Store.leftover_of_quiets {A : ScopeId → Prop} {a : Scope} {pending : List ReferenceId}
    (hq : Quiets A s s') (ha : s.scopeAt? i = some a) (hp : a.pending = some pending) :
    s'.leftover i pending = s.pendingAt := by
  have hsame : s'.pendingAt = s.pendingAt := funext hq.sameNotes.pending
  rw [leftover_pending (by rw [hsame]; exact pendingAt_of_pending ha hp), hsame]

/-- **Closing a scope keeps the books.** -/
theorem Store.Books.close {up : Option ScopeId} (h : s.Books s.pendingAt s.IsClosed)
    (hc : (close i).outcome s = (.ok up, s')) : s'.Books s'.pendingAt s'.IsClosed := by
  obtain ⟨scope, pending, t, u, last, hi, hp, hb, hset, hl, -, -, ht'⟩ := close_ok_iff.1 hc
  have hs : s.Books s.pendingAt (s.Closing i) := h.mono (fun j => .inl) fun j hj => hj.lt hi
  have hq := bindImplicits_quiets h.sound hb
  have ht : t.Books (t.leftover i pending) (s.Closing i) := by
    rw [leftover_of_quiets hq hi hp]
    exact hs.quiets hq
  have hu : u.Books (u.leftover i []) (s.Closing i) := by
    refine settleAll_induction (P := fun l u => u.Books (u.leftover i l) (s.Closing i))
      hset ht ?_ ?_
    · intro r l v v' ih hr
      exact ih.settle (.inr rfl) hr
    · intro r l v ih
      exact ih.leave
  have hend : ((u.updateScope i (·.shut)).record (closedEntry last)).Books
      ((u.updateScope i (·.shut)).record (closedEntry last)).pendingAt (s.Closing i) :=
    hu.shut.quiets (.single (.record (A := fun _ => True) _))
  rw [← ht'] at hend
  have hclosed : s'.IsClosed i := ⟨last.shut, by simp [ht', hl], rfl⟩
  exact hend.mono (fun j hj => hj.isClosed h.sound hc hclosed) fun j ⟨a, ha, _⟩ => scopeAt?_lt ha

end LexScope
