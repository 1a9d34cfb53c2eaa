import LexScope.Proofs.Blockless

/-!
# Proofs — Contract — stores that differ in block scopes

A store is *contracted* when every block scope is merged into the scope around it.  A map takes each
scope of the one store to the scope that it is in the other: a block scope goes where the scope
around it goes, and the other scopes keep their order (`Store.Layout`).

Scopes that are no blocks hold the same in both stores, block scopes hold nothing, and variables and
references have the same numbers (`Store.Contracted`).  A scope of the contracted store has pending
what is pending in all open scopes that go there, outermost first (`gathered`).

* `Contracted.addBlock`: a block scope that is entered leaves the contracted store as it is.
* `Contracted.addScope`: any other scope that is entered is entered in both.
-/

namespace LexScope

open Store LexScope.Action

/-! ### What is compared -/

/-- What a scope has come to hold, but for the references made in it or pending there. -/
structure Content where
  table : Table VariableId
  through : List ReferenceId
  implicit : Table VariableId
  implicitLeft : List ReferenceId
  dynamic : Bool
  callsEval : Bool
  usesThis : Bool
  isClosed : Bool
  deriving Repr, DecidableEq

/-- The content of a scope. -/
def Scope.content (a : Scope) : Content where
  table := a.table
  through := a.through
  implicit := a.implicit
  implicitLeft := a.implicitLeft
  dynamic := a.dynamic
  callsEval := a.callsEval
  usesThis := a.usesThis
  isClosed := a.isClosed

/-- What a scope is, where scopes have other numbers. -/
def Scope.frameUnder (φ : ScopeId → ScopeId) (a : Scope) :
    ScopeKind × Node × Option ScopeId × Bool × ScopeId :=
  (a.kind, a.block, a.upper.map φ, a.strict, φ a.variableScope)

/-- A variable, where scopes have other numbers. -/
def Variable.under (φ : ScopeId → ScopeId) (x : Variable) : Variable :=
  { x with scope := φ x.scope }

/-- A reference, where scopes have other numbers. -/
def Reference.under (φ : ScopeId → ScopeId) (r : Reference) : Reference :=
  { r with scope := φ r.scope }

namespace Store

variable {φ ψ : ScopeId → ScopeId} {s s' t t' : Store} {i j k u : ScopeId} {a b : Scope}
  {kind : ScopeKind} {n : Node} {upper : Option ScopeId} {line : List ScopeId}
  {P Q : ScopeId → List ReferenceId}

/-- Whether a scope is there and is not that of a block. -/
def IsOuter (t : Store) (j : ScopeId) : Prop := ∃ a, t.scopeAt? j = some a ∧ a.kind.isBlock = false

theorem IsOuter.lt (h : t.IsOuter j) : j < t.scopes.size :=
  let ⟨_, ha, _⟩ := h
  scopeAt?_lt ha

/-- The content of a scope with a given number. -/
def contentAt? (s : Store) (i : ScopeId) : Option Content := (s.scopeAt? i).map (·.content)

theorem contentAt?_eq (h : s.scopeAt? i = some a) : s.contentAt? i = some a.content := by
  rw [contentAt?, h]
  rfl

/-- The references waiting in those scopes of a line that go to a given one, outermost first. -/
def gathered (φ : ScopeId → ScopeId) (P : ScopeId → List ReferenceId) (k : ScopeId) :
    List ScopeId → List ReferenceId
  | [] => []
  | i :: line => gathered φ P k line ++ if φ i = k then P i else []

theorem gathered_congr (h : ∀ i ∈ line, ψ i = φ i ∧ Q i = P i) (k : ScopeId) :
    gathered ψ Q k line = gathered φ P k line := by
  induction line with
  | nil => rfl
  | cons i line ih =>
      obtain ⟨hφ, hP⟩ := h i List.mem_cons_self
      rw [gathered, gathered, ih fun j hj => h j (List.mem_cons_of_mem _ hj), hφ, hP]

/-- Where no scope of a line goes there, nothing is waiting. -/
theorem gathered_of_ne (h : ∀ i ∈ line, φ i ≠ k) : gathered φ P k line = [] := by
  induction line with
  | nil => rfl
  | cons i line ih =>
      rw [gathered, ih fun j hj => h j (List.mem_cons_of_mem _ hj),
        if_neg (h i List.mem_cons_self), List.append_nil]

/-- Numbers are in use in both of two stores that show the same. -/
theorem size_eq_of_variables (h : ∀ v, s.variableAt? v = (t.variableAt? v).map (·.under φ)) :
    s.vars.size = t.vars.size := by
  refine Nat.le_antisymm (Nat.le_of_not_lt fun hlt => ?_) (Nat.le_of_not_lt fun hlt => ?_)
  · have hv := h t.vars.size
    rw [variableAt?, variableAt?, Array.getElem?_eq_getElem hlt, Array.getElem?_eq_none le_rfl] at hv
    cases hv
  · have hv := h s.vars.size
    rw [variableAt?, variableAt?, Array.getElem?_eq_getElem hlt, Array.getElem?_eq_none le_rfl] at hv
    cases hv

theorem size_eq_of_references (h : ∀ r, s.referenceAt? r = (t.referenceAt? r).map (·.under φ)) :
    s.references.size = t.references.size := by
  refine Nat.le_antisymm (Nat.le_of_not_lt fun hlt => ?_) (Nat.le_of_not_lt fun hlt => ?_)
  · have hr := h t.references.size
    rw [referenceAt?, referenceAt?, Array.getElem?_eq_getElem hlt,
      Array.getElem?_eq_none le_rfl] at hr
    cases hr
  · have hr := h s.references.size
    rw [referenceAt?, referenceAt?, Array.getElem?_eq_getElem hlt,
      Array.getElem?_eq_none le_rfl] at hr
    cases hr

/-! ### Changes that leave the scopes what they are -/

/-- No scope is added, and all stay what they are. -/
structure Fixed (s t : Store) : Prop where
  options : t.options = s.options
  global : t.global = s.global
  frame : ∀ i, (t.scopeAt? i).map Scope.frame = (s.scopeAt? i).map Scope.frame

theorem Fixed.refl (s : Store) : Fixed s s := ⟨rfl, rfl, fun _ => rfl⟩

theorem Fixed.trans {u : Store} (h : Fixed s t) (k : Fixed t u) : Fixed s u :=
  ⟨k.options.trans h.options, k.global.trans h.global, fun i => (k.frame i).trans (h.frame i)⟩

theorem Fixed.scopeAt? (h : Fixed s t) (hb : t.scopeAt? i = some b) :
    ∃ a, s.scopeAt? i = some a ∧ b.frame = a.frame := by
  have hf := h.frame i
  rw [hb] at hf
  obtain ⟨a, ha, he⟩ := Option.map_eq_some_iff.1 hf.symm
  exact ⟨a, ha, he.symm⟩

theorem Fixed.symm (h : Fixed s t) : Fixed t s :=
  ⟨h.options.symm, h.global.symm, fun i => (h.frame i).symm⟩

theorem Fixed.lt_iff (h : Fixed s t) : i < t.scopes.size ↔ i < s.scopes.size := by
  constructor
  · intro hi
    obtain ⟨b, hb⟩ := scopeAt?_of_lt hi
    obtain ⟨a, ha, -⟩ := h.scopeAt? hb
    exact scopeAt?_lt ha
  · intro hi
    obtain ⟨a, ha⟩ := scopeAt?_of_lt hi
    obtain ⟨b, hb, -⟩ := h.symm.scopeAt? ha
    exact scopeAt?_lt hb

theorem Fixed.isOuter_iff (h : Fixed s t) : t.IsOuter j ↔ s.IsOuter j := by
  constructor
  · rintro ⟨b, hb, hk⟩
    obtain ⟨a, ha, hf⟩ := h.scopeAt? hb
    exact ⟨a, ha, (congrArg (·.1.isBlock) hf).symm.trans hk⟩
  · rintro ⟨a, ha, hk⟩
    obtain ⟨b, hb, hf⟩ := h.symm.scopeAt? ha
    exact ⟨b, hb, (congrArg (·.1.isBlock) hf).symm.trans hk⟩

theorem fixed_updateScope {f : Scope → Scope} (hf : ∀ a, (f a).frame = a.frame) (s : Store)
    (i : ScopeId) : Fixed s (s.updateScope i f) := ⟨rfl, rfl, frame_updateScope hf s i⟩

theorem fixed_updateScopes {f : Scope → Scope} (hf : ∀ a, (f a).frame = a.frame) (s : Store)
    (l : List ScopeId) : Fixed s (s.updateScopes l f) := by
  induction l generalizing s with
  | nil => exact .refl s
  | cons i l ih => exact (fixed_updateScope hf s i).trans (ih (s.updateScope i f))

/-! ### Where the scopes go -/

/-- Every scope of a store goes to one of the contracted store: block scopes to where the scope
around them goes, and the other scopes to one of their own that is the same there. -/
structure Layout (φ : ScopeId → ScopeId) (s t : Store) : Prop where
  options : ∃ v, s.options = { t.options with ecmaVersion := v }
  rooted : t.Rooted
  rooted_contracted : s.Rooted
  outer : ∀ j a, t.scopeAt? j = some a → a.kind.isBlock = false →
    ∃ b, s.scopeAt? (φ j) = some b ∧ b.frame = a.frameUnder φ
  block : ∀ j a, t.scopeAt? j = some a → a.kind.isBlock = true →
    ∃ u b, a.upper = some u ∧ t.scopeAt? u = some b ∧ φ j = φ u ∧ a.strict = b.strict ∧
      a.variableScope = b.variableScope
  mono : ∀ j k, t.IsOuter j → t.IsOuter k → j < k → φ j < φ k
  onto : ∀ i, i < s.scopes.size → ∃ j, t.IsOuter j ∧ φ j = i
  held : ∀ j a, t.scopeAt? j = some a → t.IsOuter a.variableScope
  /-- Strictness that is implied is everywhere. -/
  implied : t.options.impliedStrict.truthy = true →
    ∀ j a, t.scopeAt? j = some a → a.strict = true
  global : s.global = t.global.map φ
  isOuter_global : ∀ i, t.global = some i → t.IsOuter i

namespace Layout

theorem frameUnder_of_frame (h : b.frame = a.frame) : b.frameUnder φ = a.frameUnder φ :=
  congrArg (fun f : ScopeKind × Node × Option ScopeId × Bool × ScopeId =>
    (f.1, f.2.1, f.2.2.1.map φ, f.2.2.2.1, φ f.2.2.2.2)) h

theorem frame_eq (hb : b.frame = a.frameUnder φ) : b.kind = a.kind ∧ b.block = a.block ∧
    b.upper = a.upper.map φ ∧ b.strict = a.strict ∧ b.variableScope = φ a.variableScope := by
  simpa [Scope.frame, Scope.frameUnder] using hb

/-- The layout of two stores depends on nothing but what the scopes are. -/
theorem keep (h : Layout φ s t) (hs : Fixed s s') (ht : Fixed t t') : Layout φ s' t' where
  options := by rw [hs.options, ht.options]; exact h.options
  rooted := rooted_of_frame h.rooted ht.frame
  rooted_contracted := rooted_of_frame h.rooted_contracted hs.frame
  outer j a' ha' hk := by
    obtain ⟨a, ha, hf⟩ := ht.scopeAt? ha'
    obtain ⟨b, hb, hbf⟩ := h.outer j a ha (Scope.kind_of_frame hf ▸ hk)
    obtain ⟨b', hb', hf'⟩ := hs.symm.scopeAt? hb
    exact ⟨b', hb', hf'.symm.trans (hbf.trans (frameUnder_of_frame hf).symm)⟩
  block j a' ha' hk := by
    obtain ⟨a, ha, hf⟩ := ht.scopeAt? ha'
    obtain ⟨u, b, hu, hb, hφ, hstrict, hvars⟩ := h.block j a ha (Scope.kind_of_frame hf ▸ hk)
    obtain ⟨b', hb', hf'⟩ := ht.symm.scopeAt? hb
    refine ⟨u, b', (Scope.upper_of_frame hf).trans hu, hb', hφ, ?_, ?_⟩
    · rw [Scope.strict_of_frame hf, hstrict, Scope.strict_of_frame hf']
    · rw [Scope.variableScope_of_frame hf, hvars, Scope.variableScope_of_frame hf']
  mono j k hj hk := h.mono j k (ht.isOuter_iff.1 hj) (ht.isOuter_iff.1 hk)
  onto i hi := by
    obtain ⟨j, hj, rfl⟩ := h.onto i (hs.lt_iff.1 hi)
    exact ⟨j, ht.isOuter_iff.2 hj, rfl⟩
  held j a' ha' := by
    obtain ⟨a, ha, hf⟩ := ht.scopeAt? ha'
    exact ht.isOuter_iff.2 (Scope.variableScope_of_frame hf ▸ h.held j a ha)
  implied hi j a' ha' := by
    obtain ⟨a, ha, hf⟩ := ht.scopeAt? ha'
    exact (Scope.strict_of_frame hf).trans (h.implied (ht.options ▸ hi) j a ha)
  global := by rw [hs.global, ht.global]; exact h.global
  isOuter_global i hi := ht.isOuter_iff.2 (h.isOuter_global i (ht.global ▸ hi))

/-- Around every scope there is one that is no block and goes to the same place. -/
theorem around (h : Layout φ s t) (hj : j < t.scopes.size) :
    ∃ k ∈ t.chain j, t.IsOuter k ∧ φ j = φ k := by
  refine h.rooted.induction (P := fun j => j < t.scopes.size →
    ∃ k ∈ t.chain j, t.IsOuter k ∧ φ j = φ k) (fun j ih hj => ?_) j hj
  obtain ⟨a, ha⟩ := scopeAt?_of_lt hj
  cases hk : a.kind.isBlock with
  | false => exact ⟨j, self_mem_chain t j, ⟨a, ha, hk⟩, rfl⟩
  | true =>
      obtain ⟨u, b, hu, hb, hφ, -, -⟩ := h.block j a ha hk
      obtain ⟨k, hk, houter, hku⟩ := ih u ((upperOf_eq ha).trans hu) (scopeAt?_lt hb)
      rw [chain_step h.rooted ((upperOf_eq ha).trans hu)]
      exact ⟨k, List.mem_cons_of_mem _ hk, houter, hφ.trans hku⟩

/-- A scope goes to one that is as strict, and whose `var` declarations are held where the map
says. -/
theorem home (h : Layout φ s t) (ha : t.scopeAt? j = some a) :
    ∃ b, s.scopeAt? (φ j) = some b ∧ b.strict = a.strict ∧
      b.variableScope = φ a.variableScope := by
  revert a
  refine h.rooted.induction (P := fun j => ∀ {a}, t.scopeAt? j = some a → ∃ b,
    s.scopeAt? (φ j) = some b ∧ b.strict = a.strict ∧ b.variableScope = φ a.variableScope)
    (fun j ih a ha => ?_) j
  cases hk : a.kind.isBlock with
  | false =>
      obtain ⟨b, hb, hf⟩ := h.outer j a ha hk
      obtain ⟨-, -, -, hstrict, hvars⟩ := frame_eq hf
      exact ⟨b, hb, hstrict, hvars⟩
  | true =>
      obtain ⟨u, c, hu, hc, hφ, hstrict, hvars⟩ := h.block j a ha hk
      obtain ⟨b, hb, hstrict', hvars'⟩ := ih u ((upperOf_eq ha).trans hu) hc
      exact ⟨b, hφ ▸ hb, hstrict'.trans hstrict.symm, hvars'.trans (congrArg φ hvars.symm)⟩

theorem lt_size (h : Layout φ s t) (hj : j < t.scopes.size) : φ j < s.scopes.size := by
  obtain ⟨a, ha⟩ := scopeAt?_of_lt hj
  obtain ⟨b, hb, -⟩ := h.home ha
  exact scopeAt?_lt hb

/-- Where a scope can be opened, one can be opened in the contracted store. -/
theorem upper_lt (h : Layout φ s t) (hu : ∀ u, upper = some u → u < t.scopes.size) :
    ∀ u, upper.map φ = some u → u < s.scopes.size := by
  intro u hupper
  obtain ⟨w, hw, rfl⟩ := Option.map_eq_some_iff.1 hupper
  exact h.lt_size (hu w hw)

/-- Two scopes that are no blocks never go to the same place. -/
theorem injective (h : Layout φ s t) (hj : t.IsOuter j) (hk : t.IsOuter k) (he : φ j = φ k) :
    j = k := by
  rcases Nat.lt_trichotomy j k with hlt | heq | hlt
  · exact absurd he (h.mono j k hj hk hlt).ne
  · exact heq
  · exact absurd he.symm (h.mono k j hk hj hlt).ne

/-- What was opened before a scope that is no block goes before it. -/
theorem lt_of_lt (h : Layout φ s t) (hi : t.IsOuter i) (hj : j < i) : φ j < φ i := by
  obtain ⟨k, hk, houter, he⟩ := h.around (hj.trans hi.lt)
  rw [he]
  exact h.mono k i houter hi ((le_of_mem_chain h.rooted hk).trans_lt hj)

/-- The `var` declarations of two scopes are held by one scope in the contracted store if they are
in the other. -/
theorem variableScope_inj (h : Layout φ s t) (hi : i < t.scopes.size) (hj : j < t.scopes.size) :
    s.variableScope? (φ i) = s.variableScope? (φ j) ↔ t.variableScope? i = t.variableScope? j := by
  obtain ⟨a, ha⟩ := scopeAt?_of_lt hi
  obtain ⟨b, hb⟩ := scopeAt?_of_lt hj
  obtain ⟨a', ha', -, hva⟩ := h.home ha
  obtain ⟨b', hb', -, hvb⟩ := h.home hb
  simp only [variableScope?, ha, hb, ha', hb', hva, hvb, Option.map_some, Option.some.injEq]
  exact ⟨h.injective (h.held i a ha) (h.held j b hb), congrArg φ⟩

/-- The way up goes by the same scopes that are no blocks. -/
theorem mem_chain_iff (h : Layout φ s t) (hk : t.IsOuter k) (hj : j < t.scopes.size) :
    φ k ∈ s.chain (φ j) ↔ k ∈ t.chain j := by
  refine h.rooted.induction (P := fun j => j < t.scopes.size →
    (φ k ∈ s.chain (φ j) ↔ k ∈ t.chain j)) (fun j ih hj => ?_) j hj
  obtain ⟨a, ha⟩ := scopeAt?_of_lt hj
  cases hblock : a.kind.isBlock with
  | true =>
      obtain ⟨u, b, hu, hb, hφ, -, -⟩ := h.block j a ha hblock
      have hup := (upperOf_eq ha).trans hu
      have hne : k ≠ j := by
        rintro rfl
        obtain ⟨a', ha', hk'⟩ := hk
        obtain rfl := Option.some.inj (ha.symm.trans ha')
        rw [hblock] at hk'
        cases hk'
      rw [hφ, ih u hup (scopeAt?_lt hb), chain_step h.rooted hup, List.mem_cons]
      simp [hne]
  | false =>
      obtain ⟨b, hb, hf⟩ := h.outer j a ha hblock
      obtain ⟨-, -, hupper, -, -⟩ := frame_eq hf
      have hjk : φ k = φ j ↔ k = j := ⟨h.injective hk ⟨a, ha, hblock⟩, congrArg φ⟩
      cases hu : a.upper with
      | none =>
          rw [hu] at hupper
          rw [chain_top h.rooted ((upperOf_eq ha).trans hu),
            chain_top h.rooted_contracted ((upperOf_eq hb).trans hupper), List.mem_singleton,
            List.mem_singleton, hjk]
      | some u =>
          rw [hu] at hupper
          have hup := (upperOf_eq ha).trans hu
          rw [chain_step h.rooted hup,
            chain_step h.rooted_contracted ((upperOf_eq hb).trans hupper), List.mem_cons,
            List.mem_cons, hjk, ih u hup ((h.rooted j u hup).trans hj)]

/-- Where the map goes for numbers that no scope has does not matter. -/
theorem extend (h : Layout φ s t) (hψ : ∀ k, k < t.scopes.size → ψ k = φ k) : Layout ψ s t where
  options := h.options
  rooted := h.rooted
  rooted_contracted := h.rooted_contracted
  outer j a ha hk := by
    obtain ⟨b, hb, hf⟩ := h.outer j a ha hk
    refine ⟨b, by rw [hψ j (scopeAt?_lt ha), hb], hf.trans ?_⟩
    have hupper : a.upper.map ψ = a.upper.map φ := by
      cases hu : a.upper with
      | none => rfl
      | some u =>
          have hup := h.rooted j u ((upperOf_eq ha).trans hu)
          exact congrArg some (hψ u (hup.trans (scopeAt?_lt ha)))
    rw [Scope.frameUnder, Scope.frameUnder, hupper, hψ _ (h.held j a ha).lt]
  block j a ha hk := by
    obtain ⟨u, b, hu, hb, hφ, hrest⟩ := h.block j a ha hk
    exact ⟨u, b, hu, hb, by rw [hψ j (scopeAt?_lt ha), hψ u (scopeAt?_lt hb), hφ], hrest⟩
  mono j k hj hk hlt := by
    rw [hψ j hj.lt, hψ k hk.lt]
    exact h.mono j k hj hk hlt
  onto i hi := by
    obtain ⟨j, hj, rfl⟩ := h.onto i hi
    exact ⟨j, hj, hψ j hj.lt⟩
  held := h.held
  implied := h.implied
  global := by
    rw [h.global]
    cases hg : t.global with
    | none => rfl
    | some i => exact congrArg some (hψ i (h.isOuter_global i hg).lt).symm
  isOuter_global := h.isOuter_global

end Layout

/-! ### Entering scopes -/

theorem pendingAt_addScope (strict : Bool) (hu : ∀ u, upper = some u → u < t.scopes.size)
    (j : ScopeId) : (t.addScope kind n upper strict).pendingAt j = t.pendingAt j :=
  (Quiet.sameNotes (A := fun _ => True)
    (.addScope kind n strict fun u h => ⟨trivial, hu u h⟩)).pending j

theorem isOuter_addScope (strict : Bool) (hu : ∀ u, upper = some u → u < t.scopes.size) :
    (t.addScope kind n upper strict).IsOuter j ↔
      t.IsOuter j ∨ j = t.scopes.size ∧ kind.isBlock = false := by
  constructor
  · rintro ⟨b, hb, hk⟩
    obtain ⟨rfl, rfl⟩ | ⟨a, l, ha, rfl⟩ := scopeAt?_addScope_cases hu hb
    · exact .inr ⟨rfl, hk⟩
    · exact .inl ⟨a, ha, hk⟩
  · rintro (⟨a, ha, hk⟩ | ⟨rfl, hk⟩)
    · obtain ⟨l, hb⟩ := scopeAt?_addScope_keep hu ha
      exact ⟨_, hb, hk⟩
    · exact ⟨_, scopeAt?_addScope_new hu, hk⟩

/-- A block scope is strict if the scope around it is, unless everything is. -/
theorem isStrict?_block {o : Options} {above strict : Bool} (hk : kind.isBlock = true)
    (h : isStrict? o kind n above = some strict) : strict = (o.impliedStrict.truthy || above) := by
  rw [isStrict?] at h
  split at h
  · rename_i hs
    rw [hs]
    exact (Option.some.inj h).symm
  · rename_i hs
    rw [Bool.eq_false_of_not_eq_true hs]
    cases kind with
    | block | switch => exact (Option.some.inj h).symm
    | _ => cases hk

namespace Layout

/-- What surrounds a new scope is as strict. -/
theorem strictAt? (h : Layout φ s t) {above : Bool} (ha : t.strictAt? upper = some above) :
    s.strictAt? (upper.map φ) = some above := by
  cases upper with
  | none => exact ha
  | some u =>
      obtain ⟨a, hua, rfl⟩ := Option.map_eq_some_iff.1 ha
      obtain ⟨b, hb, hstrict, -⟩ := h.home hua
      show (s.scopeAt? (φ u)).map (·.strict) = _
      rw [hb]
      exact congrArg some hstrict

/-- The layout goes on when a scope is added, if the new scope has its place. -/
theorem add {strict : Bool} (h : Layout φ s t) (hu : ∀ u, upper = some u → u < t.scopes.size)
    (hoptions : s'.options = s.options) (hrooted : s'.Rooted)
    (hkeep : ∀ i b, s.scopeAt? i = some b → ∃ b', s'.scopeAt? i = some b' ∧ b'.frame = b.frame)
    (hglobal : s'.global = (t.addScope kind n upper strict).global.map φ)
    (houter : kind.isBlock = false → ∃ b, s'.scopeAt? (φ t.scopes.size) = some b ∧
      b.frame = (t.freshScope kind n upper strict).frameUnder φ)
    (hblock : kind.isBlock = true → ∃ u b, upper = some u ∧ t.scopeAt? u = some b ∧
      φ t.scopes.size = φ u ∧ strict = b.strict ∧
      (t.freshScope kind n upper strict).variableScope = b.variableScope)
    (hmono : kind.isBlock = false → ∀ j, j < t.scopes.size → φ j < φ t.scopes.size)
    (honto : ∀ i, i < s'.scopes.size →
      i < s.scopes.size ∨ kind.isBlock = false ∧ φ t.scopes.size = i)
    (hheld : (t.addScope kind n upper strict).IsOuter
      (t.freshScope kind n upper strict).variableScope)
    (himplied : t.options.impliedStrict.truthy = true → strict = true) :
    Layout φ s' (t.addScope kind n upper strict) := by
  have hold : ∀ {j}, t.IsOuter j → (t.addScope kind n upper strict).IsOuter j :=
    fun hj => (isOuter_addScope strict hu).2 (.inl hj)
  refine ⟨by rw [hoptions, options_addScope]; exact h.options,
    rooted_addScope h.rooted kind n strict hu, hrooted, fun j a ha hk => ?_,
    fun j a ha hk => ?_, fun j k hj hk hlt => ?_, fun i hi => ?_, fun j a ha => ?_,
    fun hi j a ha => ?_, hglobal, fun i hi => ?_⟩
  · obtain ⟨rfl, rfl⟩ | ⟨c, l, hc, rfl⟩ := scopeAt?_addScope_cases hu ha
    · exact houter hk
    · obtain ⟨b, hb, hbf⟩ := h.outer j c hc hk
      obtain ⟨b', hb', hbf'⟩ := hkeep _ b hb
      exact ⟨b', hb', hbf'.trans hbf⟩
  · obtain ⟨rfl, rfl⟩ | ⟨c, l, hc, rfl⟩ := scopeAt?_addScope_cases hu ha
    · obtain ⟨u, b, hup, hb, hφ, hstrict, hvars⟩ := hblock hk
      obtain ⟨l, hb'⟩ := scopeAt?_addScope_keep hu hb
      exact ⟨u, _, hup, hb', hφ, hstrict, hvars⟩
    · obtain ⟨u, b, hup, hb, hφ, hstrict, hvars⟩ := h.block j c hc hk
      obtain ⟨l, hb'⟩ := scopeAt?_addScope_keep hu hb
      exact ⟨u, _, hup, hb', hφ, hstrict, hvars⟩
  · rcases (isOuter_addScope strict hu).1 hk with hk | ⟨rfl, hkind⟩
    · rcases (isOuter_addScope strict hu).1 hj with hj | ⟨rfl, -⟩
      · exact h.mono j k hj hk hlt
      · exact absurd hk.lt hlt.not_gt
    · exact hmono hkind j hlt
  · rcases honto i hi with hi | ⟨hkind, rfl⟩
    · obtain ⟨j, hj, he⟩ := h.onto i hi
      exact ⟨j, hold hj, he⟩
    · exact ⟨_, (isOuter_addScope strict hu).2 (.inr ⟨rfl, hkind⟩), rfl⟩
  · obtain ⟨rfl, rfl⟩ | ⟨c, l, hc, rfl⟩ := scopeAt?_addScope_cases hu ha
    · exact hheld
    · exact hold (h.held j c hc)
  · rw [options_addScope] at hi
    obtain ⟨rfl, rfl⟩ | ⟨c, l, hc, rfl⟩ := scopeAt?_addScope_cases hu ha
    · exact himplied hi
    · exact h.implied hi j c hc
  · rw [global_addScope] at hi
    split at hi
    · rename_i hkind
      obtain rfl := Option.some.inj hi
      exact (isOuter_addScope strict hu).2 (.inr ⟨rfl, by rw [hkind]; rfl⟩)
    · exact hold (h.isOuter_global i hi)

/-- **A block scope that is entered goes where the scope around it goes.** -/
theorem addBlock {strict : Bool} (h : Layout φ s t) (hk : kind.isBlock = true)
    (hb : t.scopeAt? u = some b) (hstrict : strict = b.strict) (hφ : φ t.scopes.size = φ u) :
    Layout φ s (t.addScope kind n (some u) strict) := by
  have hu : ∀ w, some u = some w → w < t.scopes.size := fun w hw =>
    Option.some.inj hw ▸ scopeAt?_lt hb
  have hvars : (t.freshScope kind n (some u) strict).variableScope = b.variableScope := by
    have hholds : kind.holdsVars = false := by cases kind <;> first | rfl | cases hk
    simp [freshScope, hholds, hb]
  have hglobal : kind ≠ .global := by
    rintro rfl
    cases hk
  have habsurd : kind.isBlock ≠ false := by
    rw [hk]
    decide
  exact h.add hu rfl h.rooted_contracted (fun i c hc => ⟨c, hc, rfl⟩)
    (by rw [global_addScope, if_neg hglobal]; exact h.global) (fun h' => absurd h' habsurd)
    (fun _ => ⟨u, b, rfl, hb, hφ, hstrict, hvars⟩) (fun h' => absurd h' habsurd)
    (fun i hi => .inl hi) ((isOuter_addScope strict hu).2 (.inl (hvars ▸ h.held u b hb)))
    fun hi => hstrict.trans (h.implied hi u b hb)

/-- A new scope has its `var` declarations held where the map says. -/
theorem frame_freshScope (h : Layout φ s t) (hu : ∀ u, upper = some u → u < t.scopes.size)
    (hφ : φ t.scopes.size = s.scopes.size) (strict : Bool) :
    (s.freshScope kind n (upper.map φ) strict).frame =
      (t.freshScope kind n upper strict).frameUnder φ := by
  have hvars : (s.freshScope kind n (upper.map φ) strict).variableScope =
      φ (t.freshScope kind n upper strict).variableScope := by
    cases upper with
    | none => cases hk : kind.holdsVars <;> simp [freshScope, hφ]
    | some u =>
        obtain ⟨a, ha⟩ := scopeAt?_of_lt (hu u rfl)
        obtain ⟨b, hb, -, hv⟩ := h.home ha
        cases hk : kind.holdsVars <;> simp [freshScope, hk, hφ, ha, hb, hv]
  rw [Scope.frame, Scope.frameUnder, hvars]
  rfl

/-- **Any other scope that is entered is entered in the contracted store, too.** -/
theorem addScope {strict : Bool} (h : Layout φ s t) (hk : kind.isBlock = false)
    (hu : ∀ u, upper = some u → u < t.scopes.size) (hφ : φ t.scopes.size = s.scopes.size)
    (himplied : t.options.impliedStrict.truthy = true → strict = true) :
    Layout φ (s.addScope kind n (upper.map φ) strict) (t.addScope kind n upper strict) := by
  have hus := h.upper_lt hu
  have hnew : (t.addScope kind n upper strict).IsOuter t.scopes.size :=
    (isOuter_addScope strict hu).2 (.inr ⟨rfl, hk⟩)
  refine h.add hu (options_addScope ..) (rooted_addScope h.rooted_contracted kind n strict hus)
    (fun i b hb => ?_) ?_ (fun _ => ⟨_, ?_, h.frame_freshScope hu hφ strict⟩)
    (fun h' => ?_) (fun _ j hj => ?_) (fun i hi => ?_) ?_ himplied
  · obtain ⟨l, hb'⟩ := scopeAt?_addScope_keep hus hb
    exact ⟨_, hb', rfl⟩
  · rw [global_addScope, global_addScope, h.global]
    split
    · exact congrArg some hφ.symm
    · rfl
  · rw [hφ, scopeAt?_addScope_new hus]
  · rw [hk] at h'
    cases h'
  · rw [hφ]
    exact h.lt_size hj
  · rw [size_addScope] at hi
    rcases Nat.lt_succ_iff_lt_or_eq.1 hi with hi | rfl
    · exact .inl hi
    · exact .inr ⟨hk, hφ⟩
  · -- The scope holds its own `var` declarations, or has them held where the one above has its.
    cases upper with
    | none =>
        have hv : (t.freshScope kind n none strict).variableScope = t.scopes.size := by
          simp [freshScope]
        rw [hv]
        exact hnew
    | some u =>
        obtain ⟨b, hb⟩ := scopeAt?_of_lt (hu u rfl)
        cases hholds : kind.holdsVars with
        | true =>
            have hv : (t.freshScope kind n (some u) strict).variableScope = t.scopes.size := by
              simp [freshScope, hholds]
            rw [hv]
            exact hnew
        | false =>
            have hv : (t.freshScope kind n (some u) strict).variableScope = b.variableScope := by
              simp [freshScope, hholds, hb]
            rw [hv]
            exact (isOuter_addScope strict hu).2 (.inl (h.held u b hb))

end Layout

/-! ### Contracted stores -/

/-- A store is another one contracted, where some references are waiting in the scopes of a line:
scopes that are no blocks have the same content, and variables and references are the same. -/
structure Contracted (φ : ScopeId → ScopeId) (line : List ScopeId)
    (P : ScopeId → List ReferenceId) (s t : Store) : Prop extends Layout φ s t where
  content : ∀ j, t.IsOuter j → s.contentAt? (φ j) = t.contentAt? j
  /-- A block scope binds nothing, and nothing is bound in it at run time but where that does not
  matter. -/
  blank : ∀ j a, t.scopeAt? j = some a → a.kind.isBlock = true →
    a.table = [] ∧ (t.options.optimistic.truthy = false → a.dynamic = false)
  pending : ∀ i, s.pendingAt i = gathered φ P i line
  vars : ∀ v, s.variableAt? v = (t.variableAt? v).map (·.under φ)
  refs : ∀ r, s.referenceAt? r = (t.referenceAt? r).map (·.under φ)
  isOuter_variable : ∀ v x, t.variableAt? v = some x → t.IsOuter x.scope
  lt_reference : ∀ r ref, t.referenceAt? r = some ref → ref.scope < t.scopes.size

namespace Contracted

/-- The contracted store depends on the order of what is waiting only. -/
theorem congr {line' : List ScopeId} (h : Contracted φ line P s t)
    (hP : ∀ i, gathered φ Q i line' = gathered φ P i line) : Contracted φ line' Q s t :=
  { h with pending := fun i => (h.pending i).trans (hP i).symm }

/-- Where the map goes for numbers that no scope has does not matter. -/
theorem extend (h : Contracted φ line P s t) (hψ : ∀ k, k < t.scopes.size → ψ k = φ k)
    (hline : ∀ i ∈ line, i < t.scopes.size) : Contracted ψ line P s t where
  toLayout := h.toLayout.extend hψ
  content j hj := by rw [hψ j hj.lt]; exact h.content j hj
  blank := h.blank
  pending i := (h.pending i).trans
    (gathered_congr (fun j hj => ⟨hψ j (hline j hj), rfl⟩) i).symm
  vars v := by
    rw [h.vars v]
    cases hv : t.variableAt? v with
    | none => rfl
    | some x =>
        rw [Option.map_some, Option.map_some, Variable.under, Variable.under,
          hψ _ (h.isOuter_variable v x hv).lt]
  refs r := by
    rw [h.refs r]
    cases hr : t.referenceAt? r with
    | none => rfl
    | some ref =>
        rw [Option.map_some, Option.map_some, Reference.under, Reference.under,
          hψ _ (h.lt_reference r ref hr)]
  isOuter_variable := h.isOuter_variable
  lt_reference := h.lt_reference

/-- The scope to which a scope goes that is no block. -/
theorem scopeAt? (h : Contracted φ line P s t) (ha : t.scopeAt? j = some a)
    (hk : a.kind.isBlock = false) :
    ∃ b, s.scopeAt? (φ j) = some b ∧ b.frame = a.frameUnder φ ∧ b.content = a.content := by
  obtain ⟨b, hb, hf⟩ := h.outer j a ha hk
  have hc := h.content j ⟨a, ha, hk⟩
  rw [contentAt?_eq hb, contentAt?_eq ha] at hc
  exact ⟨b, hb, hf, Option.some.inj hc⟩

/-- What is recorded in either store makes no difference. -/
theorem record_left (h : Contracted φ line P s t) (entry : LogRecord) :
    Contracted φ line P (s.record entry) t :=
  { h with toLayout := h.toLayout.keep ⟨rfl, rfl, fun _ => rfl⟩ (.refl t) }

theorem record_right (h : Contracted φ line P s t) (entry : LogRecord) :
    Contracted φ line P s (t.record entry) :=
  { h with toLayout := h.toLayout.keep (.refl s) ⟨rfl, rfl, fun _ => rfl⟩ }

/-! ### Entering scopes -/

theorem fresh_pending (h : Contracted φ line t.pendingAt s t) (strict : Bool)
    (hu : ∀ u, upper = some u → u < t.scopes.size) (i : ScopeId) :
    gathered φ (t.addScope kind n upper strict).pendingAt i (t.scopes.size :: line) =
      s.pendingAt i := by
  have hnew : t.pendingAt t.scopes.size = [] := by
    rw [pendingAt, scopeAt?_eq_none.2 le_rfl]
    rfl
  rw [gathered, pendingAt_addScope strict hu, hnew, ite_self, List.append_nil, h.pending i]
  exact gathered_congr (fun j _ => ⟨rfl, pendingAt_addScope strict hu j⟩) i

/-- **A block scope that is entered leaves the contracted store as it is.** -/
theorem addBlock {strict : Bool} (h : Contracted φ line t.pendingAt s t)
    (hk : kind.isBlock = true) (hb : t.scopeAt? u = some b) (hstrict : strict = b.strict)
    (hφ : φ t.scopes.size = φ u) :
    Contracted φ (t.scopes.size :: line) (t.addScope kind n (some u) strict).pendingAt s
      (t.addScope kind n (some u) strict) := by
  have hu : ∀ w, some u = some w → w < t.scopes.size := fun w hw =>
    Option.some.inj hw ▸ scopeAt?_lt hb
  have houter : ∀ {j}, (t.addScope kind n (some u) strict).IsOuter j ↔ t.IsOuter j := by
    intro j
    rw [isOuter_addScope strict hu, hk]
    simp
  refine ⟨h.toLayout.addBlock hk hb hstrict hφ, fun j hj => ?_, fun j a ha hka => ?_,
    fun i => (h.fresh_pending strict hu i).symm, fun v => ?_, fun r => ?_, fun v x hx => ?_,
    fun r ref href => ?_⟩
  · obtain ⟨a, ha, -⟩ := houter.1 hj
    obtain ⟨l, ha'⟩ := scopeAt?_addScope_keep hu ha
    rw [h.content j (houter.1 hj), contentAt?_eq ha, contentAt?_eq ha']
    rfl
  · rw [options_addScope]
    obtain ⟨rfl, rfl⟩ | ⟨c, l, hc, rfl⟩ := scopeAt?_addScope_cases hu ha
    · refine ⟨rfl, fun _ => ?_⟩
      cases kind <;> first | rfl | cases hk
    · exact h.blank j c hc hka
  · rw [variableAt?_addScope, h.vars v]
  · rw [referenceAt?_addScope, h.refs r]
  · rw [variableAt?_addScope] at hx
    exact houter.2 (h.isOuter_variable v x hx)
  · rw [referenceAt?_addScope] at href
    rw [size_addScope]
    exact (h.lt_reference r ref href).trans (Nat.lt_succ_self _)

/-- **Any other scope that is entered is entered in both.** -/
theorem addScope {strict : Bool} (h : Contracted φ line t.pendingAt s t)
    (hk : kind.isBlock = false) (hu : ∀ u, upper = some u → u < t.scopes.size)
    (hφ : φ t.scopes.size = s.scopes.size)
    (himplied : t.options.impliedStrict.truthy = true → strict = true) :
    Contracted φ (t.scopes.size :: line) (t.addScope kind n upper strict).pendingAt
      (s.addScope kind n (upper.map φ) strict) (t.addScope kind n upper strict) := by
  have hus := h.upper_lt hu
  refine ⟨h.toLayout.addScope hk hu hφ himplied, fun j hj => ?_, fun j a ha hka => ?_,
    fun i => (pendingAt_addScope strict hus i).trans (h.fresh_pending strict hu i).symm,
    fun v => ?_, fun r => ?_, fun v x hx => ?_, fun r ref href => ?_⟩
  · obtain hj | ⟨rfl, -⟩ := (isOuter_addScope strict hu).1 hj
    · obtain ⟨a, ha, hka⟩ := hj
      obtain ⟨l, ha'⟩ := scopeAt?_addScope_keep hu ha
      obtain ⟨b, hb, -, hcb⟩ := h.scopeAt? ha hka
      obtain ⟨l', hb'⟩ := scopeAt?_addScope_keep hus hb
      rw [contentAt?_eq hb', contentAt?_eq ha']
      exact congrArg some hcb
    · rw [hφ, contentAt?_eq (scopeAt?_addScope_new hu),
        contentAt?_eq (scopeAt?_addScope_new hus)]
      rfl
  · rw [options_addScope]
    obtain ⟨rfl, rfl⟩ | ⟨c, l, hc, rfl⟩ := scopeAt?_addScope_cases hu ha
    · rw [show kind.isBlock = true from hka] at hk
      cases hk
    · exact h.blank j c hc hka
  · rw [variableAt?_addScope, variableAt?_addScope, h.vars v]
  · rw [referenceAt?_addScope, referenceAt?_addScope, h.refs r]
  · rw [variableAt?_addScope] at hx
    exact (isOuter_addScope strict hu).2 (.inl (h.isOuter_variable v x hx))
  · rw [referenceAt?_addScope] at href
    rw [size_addScope]
    exact (h.lt_reference r ref href).trans (Nat.lt_succ_self _)

end Contracted

end Store

end LexScope
