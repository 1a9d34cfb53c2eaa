import LexScope.Proofs.Contract

/-!
# Proofs — ContractAction — what happens in contracted stores

What happens in a scope of the one store happens in the contracted store in the scope to which that
scope goes.  Names are bound and flags set in scopes that are no blocks, so the same changes are made
in both.  A reference waits wherever it was made; as the scope it was made in is the innermost open
one, it comes last among what is gathered for the contracted store.

* `Contracted.define`, `Contracted.refer`, `Contracted.enter`: an action that succeeds succeeds in
  the contracted store, and leaves it contracted.
* `Contracted.closeBlock`: **closing a block scope leaves the contracted store as it is**: nothing is
  bound in it, so all that waits in it goes on to wait around it.
* `Contracted.close`: **closing any other scope closes it in both.**
-/

namespace LexScope

open Store LexScope.Action

namespace Store

variable {φ : ScopeId → ScopeId} {s s' t t' : Store} {i j k u c : ScopeId} {a b : Scope}
  {kind : ScopeKind} {n : Node} {upper : Option ScopeId} {line line' : List ScopeId}
  {P Q : ScopeId → List ReferenceId} {r : ReferenceId} {key : Name} {v : VariableId}

/-! ### Changes -/

theorem fixed_updateVariable (f : Variable → Variable) : Fixed s (s.updateVariable v f) :=
  ⟨rfl, rfl, fun _ => rfl⟩

theorem fixed_bindNew (i : ScopeId) (key : Name) (x : Variable) : Fixed s (s.bindNew i key x) :=
  ⟨rfl, rfl, frame_updateScope (f := (·.bind key s.vars.size)) (fun _ => rfl)
    { s with vars := s.vars.push x } i⟩

theorem fixed_addReference (i : ScopeId) (w : Use) : Fixed s (s.addReference i w) :=
  ⟨rfl, rfl, frame_updateScope (f := (·.take s.references.size)) (fun _ => rfl)
    { s with references := s.references.push { w with scope := i } } i⟩

theorem pendingAt_updateScopes {f : Scope → Scope} (hf : ∀ a, (f a).pending = a.pending)
    (l : List ScopeId) (j : ScopeId) : (s.updateScopes l f).pendingAt j = s.pendingAt j := by
  induction l generalizing s with
  | nil => rfl
  | cons i l ih => exact ih.trans (pendingAt_updateScope hf)

theorem contentAt?_updateScopes {l : List ScopeId} (hl : l.Nodup) (f : Scope → Scope)
    (j : ScopeId) : (s.updateScopes l f).contentAt? j =
      if j ∈ l then (s.scopeAt? j).map fun a => (f a).content else s.contentAt? j := by
  rw [contentAt?, scopeAt?_updateScopes s hl f]
  split
  · rw [Option.map_map]
    rfl
  · rfl

/-- What is added in the innermost scope of a line comes last. -/
theorem gathered_append {l : List ReferenceId} (hc : c ∉ line)
    (hQ : ∀ j, Q j = if c = j then P j ++ l else P j) (k : ScopeId) :
    gathered φ Q k (c :: line) = gathered φ P k (c :: line) ++ if φ c = k then l else [] := by
  have hrest : gathered φ Q k line = gathered φ P k line :=
    gathered_congr (fun j hj => ⟨rfl, (hQ j).trans (if_neg fun e => hc (by rwa [e]))⟩) k
  rw [gathered, gathered, hrest, hQ, if_pos rfl]
  split <;> simp

namespace Contracted

/-- A store stays contracted when its scopes stay what they are, and the two stores go on to show
the same. -/
theorem change (h : Contracted φ line P s t) (hs : Fixed s s') (ht : Fixed t t')
    (hcontent : ∀ j, t.IsOuter j → s'.contentAt? (φ j) = t'.contentAt? j)
    (hblank : ∀ j a, t'.scopeAt? j = some a → a.kind.isBlock = true →
      a.table = [] ∧ (t.options.optimistic.truthy = false → a.dynamic = false))
    (hpending : ∀ i, s'.pendingAt i = gathered φ Q i line')
    (hvars : ∀ v, s'.variableAt? v = (t'.variableAt? v).map (·.under φ))
    (hrefs : ∀ r, s'.referenceAt? r = (t'.referenceAt? r).map (·.under φ))
    (hhome : ∀ v x, t'.variableAt? v = some x → t.IsOuter x.scope)
    (hlt : ∀ r ref, t'.referenceAt? r = some ref → ref.scope < t.scopes.size) :
    Contracted φ line' Q s' t' where
  toLayout := h.toLayout.keep hs ht
  content j hj := hcontent j (ht.isOuter_iff.1 hj)
  blank j a ha hk := ht.options ▸ hblank j a ha hk
  pending := hpending
  vars := hvars
  refs := hrefs
  isOuter_variable v x hx := ht.isOuter_iff.2 (hhome v x hx)
  lt_reference r ref href := ht.lt_iff.2 (hlt r ref href)

/-- **The same change of some scopes that are no blocks**, and of block scopes if it binds nothing
there. -/
theorem updateScopes {l l' : List ScopeId} {f : Scope → Scope} (h : Contracted φ line P s t)
    (hl : l.Nodup) (hl' : l'.Nodup) (hmem : ∀ k, t.IsOuter k → (φ k ∈ l' ↔ k ∈ l))
    (hf : ∀ a, (f a).frame = a.frame)
    (hcontent : ∀ a b, b.kind = a.kind → b.content = a.content → (f b).content = (f a).content)
    (hblock : ∀ j ∈ l, ∀ a, t.scopeAt? j = some a → a.kind.isBlock = true →
      (f a).table = a.table ∧
        (t.options.optimistic.truthy = false → (f a).dynamic = a.dynamic))
    (hpending : ∀ i, (s.updateScopes l' f).pendingAt i = gathered φ Q i line') :
    Contracted φ line' Q (s.updateScopes l' f) (t.updateScopes l f) := by
  refine h.change (fixed_updateScopes hf s l') (fixed_updateScopes hf t l) (fun j hj => ?_)
    (fun j a ha hk => ?_) hpending (fun v => ?_) (fun r => ?_) (fun v x hx => ?_)
    (fun r ref href => ?_)
  · rw [contentAt?_updateScopes hl', contentAt?_updateScopes hl]
    by_cases hjl : j ∈ l
    · obtain ⟨a, ha, hk⟩ := hj
      obtain ⟨b, hb, hbf, hbc⟩ := h.scopeAt? ha hk
      rw [if_pos hjl, if_pos ((hmem j ⟨a, ha, hk⟩).2 hjl), ha, hb]
      exact congrArg some (hcontent a b (Layout.frame_eq hbf).1 hbc)
    · rw [if_neg hjl, if_neg fun hm => hjl ((hmem j hj).1 hm)]
      exact h.content j hj
  · rw [scopeAt?_updateScopes t hl] at ha
    split at ha
    · rename_i hjl
      obtain ⟨d, hd, rfl⟩ := Option.map_eq_some_iff.1 ha
      have hkd : d.kind.isBlock = true := (congrArg (·.1.isBlock) (hf d)).symm.trans hk
      obtain ⟨htable, hdynamic⟩ := hblock j hjl d hd hkd
      obtain ⟨htable', hdynamic'⟩ := h.blank j d hd hkd
      exact ⟨htable.trans htable', fun ho => (hdynamic ho).trans (hdynamic' ho)⟩
    · exact h.blank j a ha hk
  · rw [variableAt?_updateScopes, variableAt?_updateScopes, h.vars v]
  · rw [referenceAt?_updateScopes, referenceAt?_updateScopes, h.refs r]
  · rw [variableAt?_updateScopes] at hx
    exact h.isOuter_variable v x hx
  · rw [referenceAt?_updateScopes] at href
    exact h.lt_reference r ref href

/-- The same change of a scope that is no block. -/
theorem updateScope {f : Scope → Scope} (h : Contracted φ line P s t) (hi : t.IsOuter i)
    (hf : ∀ a, (f a).frame = a.frame)
    (hcontent : ∀ a b, b.kind = a.kind → b.content = a.content → (f b).content = (f a).content)
    (hpending : ∀ j, (s.updateScope (φ i) f).pendingAt j = gathered φ Q j line') :
    Contracted φ line' Q (s.updateScope (φ i) f) (t.updateScope i f) := by
  refine h.updateScopes (List.nodup_singleton i)
    (List.nodup_singleton (φ i)) (fun k hk => ?_) hf hcontent (fun j hj a ha hka => ?_) hpending
  · rw [List.mem_singleton, List.mem_singleton]
    exact ⟨h.injective hk hi, congrArg φ⟩
  · obtain rfl := List.mem_singleton.1 hj
    obtain ⟨a', ha', hk⟩ := hi
    obtain rfl := Option.some.inj (ha.symm.trans ha')
    rw [hka] at hk
    cases hk

/-- A change of a scope that is no block, where nothing new is pending. -/
theorem updateScope_still {f : Scope → Scope} (h : Contracted φ line P s t) (hi : t.IsOuter i)
    (hf : ∀ a, (f a).frame = a.frame) (hp : ∀ a, (f a).pending = a.pending)
    (hcontent : ∀ a b, b.kind = a.kind → b.content = a.content → (f b).content = (f a).content) :
    Contracted φ line P (s.updateScope (φ i) f) (t.updateScope i f) :=
  h.updateScope hi hf hcontent fun j => (pendingAt_updateScope hp).trans (h.pending j)

/-- The same change of a scope and of all scopes above it. -/
theorem updateChain {f : Scope → Scope} (h : Contracted φ line P s t) (hi : i < t.scopes.size)
    (hf : ∀ a, (f a).frame = a.frame) (hp : ∀ a, (f a).pending = a.pending)
    (hcontent : ∀ a b, b.kind = a.kind → b.content = a.content → (f b).content = (f a).content)
    (hblock : ∀ a, (f a).table = a.table ∧
      (t.options.optimistic.truthy = false → (f a).dynamic = a.dynamic)) :
    Contracted φ line P (s.updateScopes (s.chain (φ i)) f) (t.updateScopes (t.chain i) f) :=
  h.updateScopes (nodup_chain h.rooted i) (nodup_chain h.rooted_contracted _)
    (fun _ hk => h.mem_chain_iff hk hi) hf hcontent (fun _ _ a _ _ => hblock a)
    fun j => (pendingAt_updateScopes hp _ j).trans (h.pending j)

/-! ### Binding names -/

theorem bindNew (h : Contracted φ line P s t) (hi : t.IsOuter i) (key : Name) {x y : Variable}
    (hx : x.scope = i) (hy : y = x.under φ) :
    Contracted φ line P (s.bindNew (φ i) key y) (t.bindNew i key x) := by
  subst hy
  have hbind : ∀ (a b : Scope) (v : VariableId), b.content = a.content →
      (b.bind key v).content = (a.bind key v).content := fun a b v hab => by
    show { b.content with table := b.content.table.put key v } = _
    rw [hab]
    rfl
  have hsize := size_eq_of_variables h.vars
  refine h.change (fixed_bindNew ..) (fixed_bindNew ..) (fun j hj => ?_) (fun j a ha hk => ?_)
    (fun j => ?_) (fun v => ?_) h.refs (fun v y hy => ?_) h.lt_reference
  · rw [contentAt?, contentAt?, scopeAt?_bindNew, scopeAt?_bindNew]
    obtain ⟨a, ha, hk⟩ := hj
    obtain ⟨b, hb, -, hbc⟩ := h.scopeAt? ha hk
    by_cases hij : i = j
    · subst hij
      rw [if_pos rfl, if_pos rfl, ha, hb, hsize]
      exact congrArg some (hbind a b _ hbc)
    · rw [if_neg hij, if_neg fun e => hij (h.injective hi ⟨a, ha, hk⟩ e), ha, hb]
      exact congrArg some hbc
  · obtain ⟨rfl, d, hd, rfl⟩ | ⟨-, ha⟩ := scopeAt?_bindNew_cases ha
    · obtain ⟨d', hd', hkd⟩ := hi
      obtain rfl := Option.some.inj (hd.symm.trans hd')
      rw [show d.kind.isBlock = true from hk] at hkd
      cases hkd
    · exact h.blank j a ha hk
  · rw [← h.pending j]
    exact pendingAt_updateScope (s := { s with vars := s.vars.push (x.under φ) }) fun _ => rfl
  · rw [variableAt?_bindNew, variableAt?_bindNew, hsize]
    split
    · rfl
    · exact h.vars v
  · obtain ⟨-, rfl⟩ | hy := variableAt?_bindNew_cases hy
    · exact hx ▸ hi
    · exact h.isOuter_variable v y hy

theorem addDefinition (h : Contracted φ line P s t) (v : VariableId) (d : Definition) :
    Contracted φ line P (s.addDefinition v d) (t.addDefinition v d) := by
  refine h.change (fixed_updateVariable _) (fixed_updateVariable _) h.content h.blank h.pending
    (fun w => ?_) h.refs (fun w x hx => ?_) h.lt_reference
  · rw [variableAt?_addDefinition, variableAt?_addDefinition, h.vars w]
    split
    · rw [Option.map_map, Option.map_map]
      rfl
    · rfl
  · obtain ⟨-, y, hy, rfl⟩ | ⟨-, hx⟩ := variableAt?_addDefinition_cases hx
    · exact h.isOuter_variable w y hy
    · exact h.isOuter_variable w x hx

/-- **What is bound in a scope that is no block is bound in the contracted store.** -/
theorem define {d : Definition} {w : Option VariableId} (h : Contracted φ line P s t)
    (hi : t.IsOuter i) (hd : (Action.define i n d).outcome t = (.ok w, t')) :
    ∃ s', (Action.define (φ i) n d).outcome s = (.ok w, s') ∧ Contracted φ line P s' t' := by
  obtain ⟨hn, rfl, rfl⟩ | ⟨hn, key, a, hk, ha, hcase⟩ := define_ok_iff.1 hd
  · exact ⟨s, define_ok_iff.2 (.inl ⟨hn, rfl, rfl⟩), h⟩
  · obtain ⟨a', ha', hka⟩ := hi
    obtain rfl := Option.some.inj (ha.symm.trans ha')
    obtain ⟨b, hb, -, hbc⟩ := h.scopeAt? ha hka
    have htable : b.table = a.table := congrArg Content.table hbc
    rcases hcase with ⟨v, hf, rfl, rfl⟩ | ⟨hf, rfl, rfl⟩
    · exact ⟨_, define_ok_iff.2 (.inr ⟨hn, key, b, hk, hb,
        .inl ⟨v, by rw [htable]; exact hf, rfl, rfl⟩⟩), h.addDefinition v d⟩
    · exact ⟨_, define_ok_iff.2 (.inr ⟨hn, key, b, hk, hb, .inr ⟨by rw [htable]; exact hf,
        by rw [size_eq_of_variables h.vars], rfl⟩⟩), h.bindNew ⟨a, ha, hka⟩ key rfl rfl⟩

theorem provide (h : Contracted φ line P s t) (hi : t.IsOuter i)
    (hp : (Action.provide kind n i).outcome t = (.ok (), t')) :
    ∃ s', (Action.provide kind n (φ i)).outcome s = (.ok (), s') ∧ Contracted φ line P s' t' := by
  have hpure : ∀ {u : Store}, (pure () : Action Unit).outcome t = (.ok (), u) →
      ∃ s', (pure () : Action Unit).outcome s = (.ok (), s') ∧ Contracted φ line P s' u :=
    fun hu => ⟨s, rfl, (pure_ok_iff.1 hu).2 ▸ h⟩
  unfold Action.provide at hp ⊢
  split at hp
  · split at hp
    · rename_i harguments
      obtain ⟨v, hv⟩ := discard_ok_iff.1 hp
      obtain ⟨-, rfl⟩ := bindNew_ok_iff.1 hv
      rw [if_pos harguments]
      exact ⟨_, discard_ok_iff.2 ⟨_, bindNew_ok_iff.2 ⟨rfl, rfl⟩⟩, h.bindNew hi _ rfl rfl⟩
    · rename_i harguments
      rw [if_neg harguments]
      exact hpure hp
  · obtain ⟨w, hw⟩ := discard_ok_iff.1 hp
    obtain ⟨s', hs', h'⟩ := h.define hi hw
    exact ⟨s', discard_ok_iff.2 ⟨w, hs'⟩, h'⟩
  · exact hpure hp

/-! ### Making references -/

theorem addReference (h : Contracted φ (c :: line) t.pendingAt s t) (hc : c ∉ line)
    (ho : t.IsOpen c) (ho' : s.IsOpen (φ c)) (w : Use) :
    Contracted φ (c :: line) (t.addReference c w).pendingAt (s.addReference (φ c) w)
      (t.addReference c w) := by
  have hsize := size_eq_of_references h.refs
  have htake : ∀ (s : Store) (i j : ScopeId), (s.addReference i w).contentAt? j = s.contentAt? j :=
    fun s i j => by
      rw [contentAt?, contentAt?, scopeAt?_addReference]
      split
      · rw [Option.map_map]
        refine congrArg (Option.map · _) (funext fun a => ?_)
        simp [Scope.content, Scope.take, Scope.isClosed]
      · rfl
  refine h.change (fixed_addReference ..) (fixed_addReference ..) (fun j hj => ?_)
    (fun j a ha hk => ?_) (fun j => ?_) h.vars (fun r => ?_) h.isOuter_variable
    (fun r ref href => ?_)
  · rw [htake, htake, h.content j hj]
  · obtain ⟨-, d, hd, rfl⟩ | ⟨-, ha⟩ := scopeAt?_addReference_cases ha
    · exact h.blank j d hd hk
    · exact h.blank j a ha hk
  · rw [pendingAt_addReference ho', h.pending j, hsize,
      gathered_append hc (fun k => pendingAt_addReference (v := w) ho) j]
    split <;> simp
  · rw [referenceAt?_addReference, referenceAt?_addReference, hsize]
    split
    · rfl
    · exact h.refs r
  · obtain ⟨-, rfl⟩ | href := referenceAt?_addReference_cases href
    · exact ho.lt
    · exact h.lt_reference r ref href

/-- **What is used in the innermost open scope is used in the contracted store.** -/
theorem refer {w : Use} {x : Option ReferenceId} (h : Contracted φ (c :: line) t.pendingAt s t)
    (hc : c ∉ line) (ho' : s.IsOpen (φ c)) (hr : (Action.refer c w).outcome t = (.ok x, t')) :
    ∃ s', (Action.refer (φ c) w).outcome s = (.ok x, s') ∧
      Contracted φ (c :: line) t'.pendingAt s' t' := by
  obtain ⟨hn, rfl, rfl⟩ | ⟨hn, rfl, rfl, ho⟩ := refer_ok_iff.1 hr
  · exact ⟨s, refer_ok_iff.2 (.inl ⟨hn, rfl, rfl⟩), h⟩
  · exact ⟨_, refer_ok_iff.2 (.inr ⟨hn, by rw [size_eq_of_references h.refs], rfl, ho'⟩),
      h.addReference hc ho ho' w⟩

/-! ### Flags -/

theorem noteThis (h : Contracted φ line P s t) (hi : t.IsOuter i) :
    Contracted φ line P (s.noteThis (φ i)) (t.noteThis i) :=
  h.updateScope_still hi (fun _ => rfl) (fun _ => rfl) fun a b _ hc => by
    show { b.content with usesThis := true } = { a.content with usesThis := true }
    rw [hc]

/-- A call of `eval` makes block scopes dynamic, too, but only where that does not matter. -/
theorem noteEval (h : Contracted φ line P s t) (hi : t.IsOuter i)
    (ho : t.options.optimistic.truthy = true) :
    Contracted φ line P (s.noteEval (φ i)) (t.noteEval i) := by
  have hf : ∀ a : Scope, ({ a with callsEval := true } : Scope).frame = a.frame := fun _ => rfl
  have hcall := h.updateScope_still hi hf (fun _ => rfl) fun a b _ hc => by
    show { b.content with callsEval := true } = { a.content with callsEval := true }
    rw [hc]
  have hchain := hcall.updateChain (f := fun a => { a with dynamic := true })
    ((fixed_updateScope hf t i).lt_iff.2 hi.lt) (fun _ => rfl) (fun _ => rfl)
    (fun a b _ hc => by
      show { b.content with dynamic := true } = { a.content with dynamic := true }
      rw [hc])
    fun a => ⟨rfl, fun hstrict => by
      rw [show t.options.optimistic.truthy = false from hstrict] at ho
      cases ho⟩
  rwa [chain_of_frame h.rooted (frame_updateScope hf t i),
    chain_of_frame h.rooted_contracted (frame_updateScope hf s (φ i))] at hchain

/-! ### Entering scopes -/

theorem isStrict?_eq (h : Layout φ s t) (kind : ScopeKind) (n : Node) (above : Bool) :
    isStrict? s.options kind n above = isStrict? t.options kind n above := by
  obtain ⟨v, hv⟩ := h.options
  rw [hv]
  rfl

/-- What is entered in the one store only: the scope of a block. -/
theorem enterBlock {up : ScopeId} (h : Contracted φ line t.pendingAt s t)
    (hk : kind.isBlock = true) (hφ : φ t.scopes.size = φ up)
    (he : (Action.enter kind n (some up)).outcome t = (.ok i, t')) :
    Contracted φ (i :: line) t'.pendingAt s t' := by
  obtain ⟨t₁, ho, hp⟩ := enter_ok_iff.1 he
  obtain ⟨above, strict, habove, hstrict, -, rfl, rfl⟩ := openScope_ok_iff.1 ho
  obtain ⟨b, hb, rfl⟩ := Option.map_eq_some_iff.1 habove
  have hprovide : Action.provide kind n t.scopes.size = pure () := by
    cases kind <;> first | rfl | cases hk
  rw [hprovide] at hp
  obtain rfl := (pure_ok_iff.1 hp).2
  have hs : strict = b.strict := by
    rw [isStrict?_block hk hstrict]
    cases hi : t.options.impliedStrict.truthy with
    | false => rfl
    | true => exact (h.implied hi up b hb).symm
  exact (h.addBlock (n := n) hk hb hs hφ).record_right _

/-- **Any other scope is entered in the contracted store, too.** -/
theorem enter (h : Contracted φ line t.pendingAt s t) (hk : kind.isBlock = false)
    (hφ : φ t.scopes.size = s.scopes.size)
    (he : (Action.enter kind n upper).outcome t = (.ok i, t')) :
    ∃ s', (Action.enter kind n (upper.map φ)).outcome s = (.ok (φ i), s') ∧
      Contracted φ (i :: line) t'.pendingAt s' t' := by
  obtain ⟨t₁, ho, hp⟩ := enter_ok_iff.1 he
  obtain ⟨above, strict, habove, hstrict, hobj, rfl, rfl⟩ := openScope_ok_iff.1 ho
  have hu := upper_lt_of_strictAt? habove
  have himplied : t.options.impliedStrict.truthy = true → strict = true := fun hi => by
    rw [isStrict?, hi] at hstrict
    exact (Option.some.inj hstrict).symm
  have hopened := ((h.addScope (n := n) hk hu hφ himplied).record_left
    (.opened kind s.scopes.size n.type strict)).record_right
    (.opened kind t.scopes.size n.type strict)
  have hnew : ((t.addScope kind n upper strict).record
      (.opened kind t.scopes.size n.type strict)).scopeAt? t.scopes.size =
      some (t.freshScope kind n upper strict) := scopeAt?_addScope_new hu
  obtain ⟨s', hs', h'⟩ := hopened.provide ⟨_, hnew, hk⟩ hp
  refine ⟨s', enter_ok_iff.2 ⟨_, openScope_ok_iff.2 ⟨above, strict, h.strictAt? habove, ?_, hobj,
    hφ, rfl⟩, hs'⟩, h'.congr fun j => gathered_congr (fun k _ => ⟨rfl, ?_⟩) j⟩
  · rw [isStrict?_eq h.toLayout, hstrict]
  · exact (provide_quiets (A := fun _ => True) hp hnew trivial).sameNotes.pending k

end Contracted

end Store

end LexScope
