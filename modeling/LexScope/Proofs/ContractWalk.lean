import LexScope.Proofs.ContractClose
import LexScope.Proofs.Leaves

/-!
# Proofs — ContractWalk — a walk with block scopes and one without

Events without their block scopes happen beside the events themselves: as long as nothing is bound
in the scope of a block (`Leaf.Contracts`), the store that the one walk has come to is contracted
from the one that the other has come to (`Store.Beside`).

* `Beside.act`: what a single operation does on the one side it does on the other.
* `runAll_beside`: **events that happen without an error happen without their block scopes, too, and
  what they come to is contracted**, by induction on the events.
-/

namespace LexScope

open Store LexScope.Action

/-! ### Two stores beside each other -/

namespace Store

variable {A : ScopeId → Prop} {φ ψ χ : ScopeId → ScopeId} {c : Option ScopeId}
  {s s' s'' t t' t'' : Store} {i j : ScopeId} {P : ScopeId → List ReferenceId}

/-- Two walks are in one scope, and the store of the one is contracted from that of the other. -/
structure Beside (φ : ScopeId → ScopeId) (c : Option ScopeId) (s t : Store) : Prop where
  contracted : Contracted φ (t.line c) t.pendingAt s t
  disciplined : t.Disciplined c
  disciplined_contracted : s.Disciplined (c.map φ)

theorem Disciplined.lt (h : s.Disciplined c) (hc : c = some i) : i < s.scopes.size := by
  subst hc
  exact ((h.isOpen i).2 (self_mem_chain s i)).lt

/-- The current scope of a disciplined store stays on its line. -/
theorem line_evolves (hE : Evolves A s t) (hs : s.Disciplined c) (ht : t.Sound) :
    t.line c = s.line c := by
  cases c with
  | none => rfl
  | some i => exact hE.chain hs.sound ht (hs.lt rfl)

theorem Beside.next (h : Beside φ c s t) (hE : Evolves A t t')
    (hC : Contracted φ (t.line c) P s' t') (hP : ∀ j, t'.pendingAt j = P j)
    (hd : t'.Disciplined c) (hd' : s'.Disciplined (c.map φ)) : Beside φ c s' t' where
  contracted := by
    rw [line_evolves hE h.disciplined hd.sound]
    exact hC.congr fun k => gathered_congr (fun j _ => ⟨rfl, hP j⟩) k
  disciplined := hd
  disciplined_contracted := hd'

/-- Two stores later on: scopes that there were go where they went. -/
structure Later (φ ψ : ScopeId → ScopeId) (s t s' t' : Store) : Prop where
  map : ∀ k, k < t.scopes.size → ψ k = φ k
  evolves : Evolves (fun _ => True) t t'
  evolves_contracted : Evolves (fun _ => True) s s'

theorem Later.refl (φ : ScopeId → ScopeId) (s t : Store) : Later φ φ s t s t :=
  ⟨fun _ _ => rfl, .refl t, .refl s⟩

theorem Later.trans (h : Later φ ψ s t s' t') (k : Later ψ χ s' t' s'' t'') :
    Later φ χ s t s'' t'' where
  map j hj := (k.map j (h.evolves.lt hj)).trans (h.map j hj)
  evolves := h.evolves.trans k.evolves
  evolves_contracted := h.evolves_contracted.trans k.evolves_contracted

/-- The current scope goes where it went. -/
theorem Later.current (h : Later φ ψ s t s' t') (hd : t.Disciplined c) : c.map ψ = c.map φ := by
  cases c with
  | none => rfl
  | some i => exact congrArg some (h.map i (hd.lt rfl))

end Store

namespace Walk

variable {φ ψ : ScopeId → ScopeId} {c : Option ScopeId} {i j : ScopeId} {s s' t t' : Store}
  {e : Event} {op : Operation} {out : Outcome} {kind : ScopeKind} {n : Node}

/-- Without block scopes, and with all else. -/
def Trim.bare : Trim := ⟨true, false⟩

/-- Whether a leaf leaves block scopes to be contracted: nothing is bound in a block scope itself,
no block scope is the outermost, and `eval` is called only where that decides nothing. -/
def Leaf.Contracts (o : Options) : Leaf → Prop
  | ⟨c, .define .here _ _⟩ => ∀ x, c.head? = some x → x.1.isBlock = false
  | ⟨c, .within kind _ _⟩ => kind.isBlock = true → c ≠ []
  | ⟨_, .callEval⟩ => o.optimistic.truthy = true
  | _ => True

/-! ### Single operations -/

/-- The scope that a target means goes where the target means. -/
theorem scope?_contracted (h : Layout φ s t) {c : ScopeId} (target : Target)
    (hi : target.scope? t c = some i) : target.scope? s (φ c) = some (φ i) := by
  cases target with
  | here => exact congrArg some (congrArg φ (Option.some.inj hi))
  | hoisted =>
      obtain ⟨a, ha, rfl⟩ := Option.map_eq_some_iff.1 hi
      obtain ⟨b, hb, -, hv⟩ := h.home ha
      exact (congrArg (Option.map (·.variableScope)) hb).trans (congrArg some hv)

/-- Names are bound in scopes that are no blocks. -/
theorem isOuter_target (h : Layout φ s t) {c : ScopeId} {target : Target} {d : Definition}
    (hi : target.scope? t c = some i) (hc : c < t.scopes.size) {o : Options}
    (hl : Leaf.Contracts o ⟨t.around c, .define target n d⟩) : t.IsOuter i := by
  obtain ⟨a, ha⟩ := scopeAt?_of_lt hc
  cases target with
  | here =>
      obtain rfl := Option.some.inj hi
      refine ⟨a, ha, hl (a.kind, a.block) ?_⟩
      rw [Store.around, chain_cons h.rooted, List.filterMap_cons_some (by rw [ha]; rfl)]
      rfl
  | hoisted =>
      rw [Target.scope?, variableScope?, ha] at hi
      exact Option.some.inj hi ▸ h.held c a ha

end Walk

namespace Store

open Walk

variable {φ ψ : ScopeId → ScopeId} {c : Option ScopeId} {i j : ScopeId} {s s' t t' : Store}
  {e : Event} {op : Operation} {out : Outcome} {kind : ScopeKind} {n : Node}

/-- **What a single operation does on the one side it does on the other.** -/
theorem Beside.act {c : ScopeId} (h : Beside φ (some c) s t) (he : e.operation? t c = some op)
    (hop : op.applyTo t = (.ok out, t')) (hl : Leaf.Contracts t.options ⟨t.around c, e⟩) :
    ∃ s', (e.run (some (φ c))).outcome s = (.ok (), s') ∧ Beside φ (some c) s' t' ∧
      Later φ φ s t s' t' := by
  have hC := h.contracted
  have hc := h.disciplined.lt rfl
  obtain ⟨ho, hnext⟩ := Event.orderly h.disciplined he
  -- It is enough to find the operation on the other side.
  suffices hmain : ∃ op' out' s', e.operation? s (φ c) = some op' ∧
      op'.applyTo s = (.ok out', s') ∧ Contracted φ (t.line (some c)) t'.pendingAt s' t' by
    obtain ⟨op', out', s', he', hop', hC'⟩ := hmain
    obtain ⟨ho', hnext'⟩ := Event.orderly h.disciplined_contracted he'
    have hd' : s'.Disciplined (some (φ c)) :=
      hnext' ▸ h.disciplined_contracted.step ho' hop'
    have hE := (h.disciplined.changes ho hop).evolves h.disciplined.sound
    have hE' := (h.disciplined_contracted.changes ho' hop').evolves h.disciplined_contracted.sound
    refine ⟨s', by rw [Event.outcome_run he', hop']; rfl,
      h.next hE hC' (fun _ => rfl) (hnext ▸ h.disciplined.step ho hop)
        hd', fun _ _ => rfl,
      hE.mono fun _ _ => trivial, hE'.mono fun _ _ => trivial⟩
  cases Event.does he hop with
  | @define target n d i w t' hi hd =>
      obtain ⟨s', hs', hC'⟩ := hC.define (isOuter_target hC.toLayout hi hc hl) hd
      refine ⟨.define (φ i) n d, .bound w, s', ?_, bind_pure_ok_iff.2 ⟨w, rfl, hs'⟩,
        hC'.congr fun k => gathered_congr (fun j _ => ⟨rfl, ?_⟩) k⟩
      · exact congrArg (Option.map _) (scope?_contracted hC.toLayout target hi)
      · exact (define_quiets (A := fun _ => True) hd trivial).sameNotes.pending j
  | @refer u a r t' ha hr =>
      obtain ⟨b, hb, hstrict, -⟩ := hC.toLayout.home ha
      have hline : t.line (some c) = c :: t.above c := chain_cons hC.rooted c
      rw [hline] at hC ⊢
      obtain ⟨s', hs', hC'⟩ := hC.refer (not_mem_above hC.rooted c)
        ((h.disciplined_contracted.isOpen _).2 (self_mem_chain s _)) hr
      refine ⟨.refer (φ c) (if a.strict then { u with candidate := none } else u), .made r, s', ?_,
        bind_pure_ok_iff.2 ⟨r, rfl, hs'⟩, hC'⟩
      rw [Event.operation?, hb, Option.map_some, hstrict]
  | @callEval i x hi hx =>
      obtain ⟨a, ha, rfl⟩ := Option.map_eq_some_iff.1 hi
      have houter := hC.held c a ha
      have hn : (Action.noteEval a.variableScope).outcome t =
          (.ok (), t.noteEval a.variableScope) := noteEval_ok_iff.2 ⟨⟨x, hx⟩, rfl⟩
      obtain ⟨b, hb⟩ := scopeAt?_of_lt (hC.lt_size houter.lt)
      refine ⟨.noteEval (φ a.variableScope), .done, _, ?_,
        bind_pure_ok_iff.2 ⟨(), rfl, noteEval_ok_iff.2 ⟨⟨b, hb⟩, rfl⟩⟩,
        (hC.noteEval houter hl).congr fun k => gathered_congr (fun j _ => ⟨rfl, ?_⟩) k⟩
      · exact congrArg (Option.map _) (scope?_contracted hC.toLayout .hoisted hi)
      · exact (Action.noteEval_quiets (A := fun _ => True) hn
          fun _ _ => trivial).sameNotes.pending j
  | @useThis i x hi hx =>
      obtain ⟨a, ha, rfl⟩ := Option.map_eq_some_iff.1 hi
      have houter := hC.held c a ha
      have hn : (Action.noteThis a.variableScope).outcome t =
          (.ok (), t.noteThis a.variableScope) := noteThis_ok_iff.2 ⟨⟨x, hx⟩, rfl⟩
      obtain ⟨b, hb⟩ := scopeAt?_of_lt (hC.lt_size houter.lt)
      refine ⟨.noteThis (φ a.variableScope), .done, _, ?_,
        bind_pure_ok_iff.2 ⟨(), rfl, noteThis_ok_iff.2 ⟨⟨b, hb⟩, rfl⟩⟩,
        (hC.noteThis houter).congr fun k => gathered_congr (fun j _ => ⟨rfl, ?_⟩) k⟩
      · exact congrArg (Option.map _) (scope?_contracted hC.toLayout .hoisted hi)
      · exact (Action.noteThis_quiets (A := fun _ => True) hn trivial).sameNotes.pending j

/-! ### Entering and leaving -/

/-- What is known of a scope that has just been entered. -/
theorem enter_known (hs : t.Sound) (he : (Action.enter kind n c).outcome t = (.ok i, t')) :
    i = t.scopes.size ∧ ∃ a, t'.scopeAt? i = some a ∧ a.kind = kind ∧ a.block = n ∧ a.upper = c ∧
      t'.around i = (kind, n) :: t.aroundOf c := by
  have hq := enter_quiets (A := fun _ => True) he (fun _ _ => trivial) trivial
  have haround := enter_around (hq.changes.evolves hs) hs (hq.changes.sound hs) he
  obtain ⟨rfl, -, a, strict, ha, hf⟩ := enter_frame hs he
  exact ⟨rfl, a, ha, Scope.kind_of_frame hf, Scope.block_of_frame hf, Scope.upper_of_frame hf,
    haround⟩

theorem enter_later (hs : t.Sound) (he : (Action.enter kind n c).outcome t = (.ok i, t')) :
    Evolves (fun _ => True) t t' :=
  (enter_quiets he (fun _ _ => trivial) trivial).changes.evolves hs

theorem Disciplined.enter (hd : t.Disciplined c)
    (he : (Action.enter kind n c).outcome t = (.ok i, t')) : t'.Disciplined (some i) := by
  have hop := Operation.applyTo_enter_ok.2 he
  rw [(enter_known hd.sound he).1]
  exact hd.step (show (Operation.enter kind n c).Orderly t c from rfl) hop

theorem Disciplined.close {up : Option ScopeId} (hd : t.Disciplined (some i))
    (hc : (Action.close i).outcome t = (.ok up, t')) :
    t'.Disciplined (t.upperOf i) ∧ Evolves (fun _ => True) t t' :=
  ⟨hd.step (show (Operation.close i).Orderly t (some i) from rfl)
      (Operation.applyTo_close_ok.2 ⟨up, rfl, hc⟩),
    ((close_changes hd.sound hc).evolves hd.sound).mono fun _ _ => trivial⟩

/-- The line of a scope that has just been entered. -/
theorem line_entered (hd : t.Disciplined c)
    (he : (Action.enter kind n c).outcome t = (.ok i, t')) : t'.line (some i) = i :: t.line c := by
  obtain ⟨-, a, ha, -, -, hup, -⟩ := enter_known hd.sound he
  have hd' := hd.enter he
  show t'.chain i = _
  rw [chain_cons hd'.sound.rooted, above_eq_line, upperOf_eq ha, hup,
    line_evolves (enter_later hd.sound he) hd hd'.sound]

/-- The map once a scope has been added that goes to a given place. -/
def goesTo (φ : ScopeId → ScopeId) (i j : ScopeId) : ScopeId → ScopeId :=
  fun k => if k = i then j else φ k

theorem goesTo_self : goesTo φ i j i = j := if_pos rfl

theorem goesTo_of_lt {k : ScopeId} (h : k < i) : goesTo φ i j k = φ k := if_neg h.ne

theorem Beside.extend (h : Beside φ c s t) (j : ScopeId) :
    Contracted (goesTo φ t.scopes.size j) (t.line c) t.pendingAt s t := by
  refine h.contracted.extend (fun k hk => goesTo_of_lt hk) fun k hk => ?_
  exact ((h.disciplined.isOpen k).2 hk).lt

/-- A block scope is entered on the one side only. -/
theorem Beside.enterBlock {c : ScopeId} (h : Beside φ (some c) s t) (hk : kind.isBlock = true)
    (he : (Action.enter kind n (some c)).outcome t = (.ok i, t')) :
    Beside (goesTo φ i (φ c)) (some i) s t' ∧ Later φ (goesTo φ i (φ c)) s t s t' := by
  obtain ⟨rfl, -⟩ := enter_known h.disciplined.sound he
  have hc := goesTo_of_lt (φ := φ) (j := φ c) (h.disciplined.lt (i := c) rfl)
  refine ⟨⟨?_, h.disciplined.enter he, ?_⟩, fun k hk => goesTo_of_lt hk,
    enter_later h.disciplined.sound he, .refl s⟩
  · rw [line_entered h.disciplined he]
    exact (h.extend (φ c)).enterBlock hk (goesTo_self.trans hc.symm) he
  · show s.Disciplined (some (goesTo φ t.scopes.size (φ c) t.scopes.size))
    rw [goesTo_self]
    exact h.disciplined_contracted

/-- Any other scope is entered on both sides. -/
theorem Beside.enter (h : Beside φ c s t) (hk : kind.isBlock = false)
    (he : (Action.enter kind n c).outcome t = (.ok i, t')) :
    ∃ ψ s', (Action.enter kind n (c.map φ)).outcome s = (.ok (ψ i), s') ∧
      Beside ψ (some i) s' t' ∧ Later φ ψ s t s' t' := by
  obtain ⟨rfl, -⟩ := enter_known h.disciplined.sound he
  have hlater : ∀ k, k < t.scopes.size → goesTo φ t.scopes.size s.scopes.size k = φ k :=
    fun k hk => goesTo_of_lt hk
  obtain ⟨s', hs', hC⟩ := (h.extend s.scopes.size).enter hk goesTo_self he
  have hc : c.map (goesTo φ t.scopes.size s.scopes.size) = c.map φ :=
    (Later.mk hlater (.refl t) (.refl s)).current h.disciplined
  rw [hc] at hs'
  have hE := enter_later h.disciplined_contracted.sound hs'
  refine ⟨_, s', hs', ⟨?_, h.disciplined.enter he, h.disciplined_contracted.enter hs'⟩, hlater,
    enter_later h.disciplined.sound he, hE⟩
  rw [line_entered h.disciplined he]
  exact hC

/-- A block scope is left on the one side only. -/
theorem Beside.closeBlock {c : ScopeId} {a : Scope} {up : Option ScopeId}
    (h : Beside φ (some i) s t) (ha : t.scopeAt? i = some a) (hk : a.kind.isBlock = true)
    (hup : a.upper = some c) (hc : (Action.close i).outcome t = (.ok up, t')) :
    Beside φ (some c) s t' ∧ Later φ φ s t s t' := by
  have hi := (upperOf_eq ha).trans hup
  obtain ⟨hd, hE⟩ := h.disciplined.close hc
  have hC := h.contracted.closeBlock h.disciplined ha hk hc
  obtain ⟨u, b, hu, -, hφ, -⟩ := h.contracted.block i a ha hk
  obtain rfl := Option.some.inj (hup.symm.trans hu)
  rw [hi] at hd hC
  refine ⟨⟨hC, hd, ?_⟩, fun _ _ => rfl, hE, .refl s⟩
  show s.Disciplined (some (φ c))
  rw [← hφ]
  exact h.disciplined_contracted

/-- Any other scope is left on both sides. -/
theorem Beside.close {a : Scope} {up : Option ScopeId} (h : Beside φ (some i) s t)
    (ha : t.scopeAt? i = some a) (hk : a.kind.isBlock = false) (hup : a.upper = c)
    (hc : (Action.close i).outcome t = (.ok up, t')) :
    ∃ s', (Action.close (φ i)).outcome s = (.ok (up.map φ), s') ∧ Beside φ c s' t' ∧
      Later φ φ s t s' t' := by
  have hi := (upperOf_eq ha).trans hup
  obtain ⟨hd, hE⟩ := h.disciplined.close hc
  obtain ⟨s', hs', hC⟩ := h.contracted.close ⟨a, ha, hk⟩ h.disciplined h.disciplined_contracted hc
  have h' : s.Disciplined (some (φ i)) := h.disciplined_contracted
  obtain ⟨hd', hE'⟩ := h'.close hs'
  obtain ⟨b, hb, hbf⟩ := h.contracted.outer i a ha hk
  have hib : s.upperOf (φ i) = c.map φ := by
    rw [upperOf_eq hb, (Layout.frame_eq hbf).2.2.1, hup]
  rw [hi] at hd hC
  rw [hib] at hd'
  exact ⟨s', hs', ⟨hC, hd, hd'⟩, fun _ _ => rfl, hE, hE'⟩

end Store

/-! ### Events -/

namespace Walk

variable {φ ψ : ScopeId → ScopeId} {c : Option ScopeId} {i j : ScopeId} {s s' t t' : Store}
  {e : Event} {op : Operation} {out : Outcome} {kind : ScopeKind} {n : Node}

theorem runAll_append_ok_iff {a b : List Event} {u : Unit} :
    (runAll (a ++ b) c).outcome s = (.ok u, s') ↔
      ∃ t, (runAll a c).outcome s = (.ok (), t) ∧ (runAll b c).outcome t = (.ok u, s') := by
  induction a generalizing s with
  | nil =>
      constructor
      · exact fun h => ⟨s, rfl, h⟩
      · rintro ⟨t, ht, h⟩
        rwa [(pure_ok_iff.1 ht).2] at h
  | cons e a ih =>
      rw [List.cons_append, runAll, runAll, bind_ok_iff]
      constructor
      · rintro ⟨x, v, hx, hv⟩
        obtain ⟨t, ht, h⟩ := ih.1 hv
        exact ⟨t, bind_ok_iff.2 ⟨x, v, hx, ht⟩, h⟩
      · rintro ⟨t, ht, h⟩
        obtain ⟨x, v, hx, hv⟩ := bind_ok_iff.1 ht
        exact ⟨x, v, hx, ih.2 ⟨t, hv, h⟩⟩

theorem runAll_one_ok_iff {u : Unit} :
    (runAll [e] c).outcome s = (.ok u, s') ↔ (e.run c).outcome s = (.ok (), s') := by
  rw [runAll, bind_ok_iff]
  constructor
  · rintro ⟨x, v, hx, hv⟩
    rw [(pure_ok_iff.1 hv).2]
    exact hx
  · exact fun h => ⟨(), s', h, rfl⟩

theorem ownerOf_entered {a : Scope} (ha : t.scopeAt? i = some a) (hn : a.block = n) :
    ownerOf t (some i) = n.place := by
  rw [ownerOf, Option.bind_some, ha, Option.bind_some, hn]

/-- Wherever some events happen on the one side, others happen on the other. -/
structure Alongside (events others : List Event) : Prop where
  run : ∀ {φ : ScopeId → ScopeId} {c : Option ScopeId} {s t t' : Store}, Beside φ c s t →
    AllTidy (ownerOf t c) events → AllTidy (ownerOf s (c.map φ)) others →
    (∀ l ∈ leavesOf (t.aroundOf c) events, l.Contracts t.options) →
    (runAll events c).outcome t = (.ok (), t') →
    ∃ ψ s', (runAll others (c.map φ)).outcome s = (.ok (), s') ∧ Beside ψ c s' t' ∧
      Later φ ψ s t s' t'

theorem Alongside.nil : Alongside [] [] where
  run {φ _ s _ _} h _ _ _ hr := by
    obtain rfl := (pure_ok_iff.1 hr).2
    exact ⟨φ, s, rfl, h, .refl φ s _⟩

/-- One thing after the other. -/
theorem Alongside.append {a b a' b' : List Event} (ha : Alongside a a') (hb : Alongside b b') :
    Alongside (a ++ b) (a' ++ b') where
  run {φ c s t t'} h ht hs hl hr := by
    obtain ⟨hta, htb⟩ := allTidy_append.1 ht
    obtain ⟨hsa, hsb⟩ := allTidy_append.1 hs
    rw [leavesOf_append] at hl
    obtain ⟨t₁, hra, hrb⟩ := runAll_append_ok_iff.1 hr
    obtain ⟨ψ, s₁, hs₁, h₁, hlater⟩ :=
      ha.run h hta hsa (fun l hm => hl l (List.mem_append_left _ hm)) hra
    -- The scopes around, and their nodes, are still the same.
    have hc : ∀ i, c = some i → i < t.scopes.size := fun i => h.disciplined.lt
    have hc' : ∀ i, c.map φ = some i → i < s.scopes.size := fun i => h.disciplined_contracted.lt
    have hcurrent := hlater.current h.disciplined
    have haround : t₁.aroundOf c = t.aroundOf c :=
      aroundOf_evolves hlater.evolves h.disciplined.sound h₁.disciplined.sound hc
    obtain ⟨χ, s', hs', h', hlater'⟩ := hb.run h₁ (by rwa [ownerOf_evolves hlater.evolves hc])
      (by rwa [hcurrent, ownerOf_evolves hlater.evolves_contracted hc'])
      (fun l hm => by
        rw [haround] at hm
        rw [hlater.evolves.options]
        exact hl l (List.mem_append_right _ hm)) hrb
    rw [hcurrent] at hs'
    exact ⟨χ, s', runAll_append_ok_iff.2 ⟨s₁, hs₁, hs'⟩, h', hlater.trans hlater'⟩

/-- An event that is just one operation. -/
theorem Alongside.operation (he : e.IsOperation) : Alongside [e] [e] where
  run {φ c s t t'} h _ _ hl hr := by
    have hrun := runAll_one_ok_iff.1 hr
    obtain ⟨i, op, rfl, hop⟩ := Event.operation?_of_ok hrun he
    have hl' : Leaf.Contracts t.options ⟨t.around i, e⟩ := hl _ (by
      cases e <;> first | exact List.mem_singleton_self _ | exact he.elim)
    rw [Event.outcome_run hop] at hrun
    rcases happly : op.applyTo t with ⟨err | out, t₁⟩
    · rw [happly] at hrun
      cases hrun
    · rw [happly] at hrun
      obtain rfl : t₁ = t' := congrArg Prod.snd hrun
      obtain ⟨s', hs', h', hlater⟩ := h.act hop happly hl'
      exact ⟨φ, s', runAll_one_ok_iff.2 hs', h', hlater⟩

/-- An event that changes nothing but the record. -/
theorem Alongside.still (entry : Option LogRecord)
    (hrun : ∀ {c : Option ScopeId} {s s' : Store}, s.Disciplined c → e.Tidy (ownerOf s c) →
      (e.run c).outcome s = (.ok (), s') → s' = entry.elim s s.record)
    (hok : ∀ {φ : ScopeId → ScopeId} {c : Option ScopeId} {s t' t : Store}, Beside φ c s t →
      e.Tidy (ownerOf s (c.map φ)) → (e.run c).outcome t = (.ok (), t') →
      (e.run (c.map φ)).outcome s = (.ok (), entry.elim s s.record)) :
    Alongside [e] [e] where
  run {φ c s t t'} h ht hs _ hr := by
    have ht' := hrun h.disciplined (allTidy_one.1 ht) (runAll_one_ok_iff.1 hr)
    have hs' := hok h (allTidy_one.1 hs) (runAll_one_ok_iff.1 hr)
    subst ht'
    refine ⟨φ, _, runAll_one_ok_iff.2 hs', ?_⟩
    cases entry with
    | none => exact ⟨h, .refl φ s t⟩
    | some entry =>
        have hq : ∀ s : Store, Quiets (fun _ => True) s (s.record entry) :=
          fun s => .single (.record entry)
        have hE := (hq t).changes.evolves h.disciplined.sound
        have hC : Contracted φ (t.line c) t.pendingAt (s.record entry) (t.record entry) :=
          (h.contracted.record_left entry).record_right entry
        exact ⟨h.next hE hC (fun _ => rfl) (Disciplined.record h.disciplined entry)
          (Disciplined.record h.disciplined_contracted entry), fun _ _ => rfl, hE,
          (hq s).changes.evolves h.disciplined_contracted.sound⟩

theorem Alongside.needScope : Alongside [.needScope] [.needScope] := by
  refine Alongside.still none (fun _ _ h => ?_) fun {φ c s t' t} _ _ h => ?_
  · obtain ⟨i, hi⟩ := discard_ok_iff.1 h
    exact (need_ok_iff.1 hi).2
  · obtain ⟨i, hi⟩ := discard_ok_iff.1 h
    rw [(need_ok_iff.1 hi).1]
    exact discard_ok_iff.2 ⟨φ i, rfl⟩

theorem Alongside.phase (p : Phase) : Alongside [.phase p] [.phase p] :=
  Alongside.still (some (.phase p)) (fun _ _ h => record_ok_iff.1 h) fun _ _ _ => rfl

theorem Alongside.closeOwned (n : Node) : Alongside [.closeOwned n] [.closeOwned n] := by
  refine Alongside.still none (fun hd ht h => ?_) fun h hs _ =>
    Event.outcome_keep (keeps h.disciplined_contracted hs)
  rw [Event.outcome_keep (keeps hd ht)] at h
  exact (congrArg Prod.snd h).symm

theorem Alongside.fail (err : Error) : Alongside [.fail err] [.fail err] where
  run _ _ _ _ hr := (throw_ok_iff.1 (runAll_one_ok_iff.1 hr)).elim

/-- **A scope that is entered**: that of a block on the one side only, any other on both. -/
theorem Alongside.within {inside : List Event} (h : Alongside inside (trimAll .bare inside)) :
    Alongside [.within kind n inside] ((Event.within kind n inside).trim .bare) where
  run {φ c s t t'} hb ht hs hl hr := by
    have hrun := runAll_one_ok_iff.1 hr
    rw [Event.outcome_within] at hrun
    obtain ⟨i, t₁, he, hrun⟩ := bind_ok_iff.1 hrun
    obtain ⟨_, t₂, hin, hclose⟩ := bind_ok_iff.1 hrun
    obtain ⟨up, hclose⟩ := discard_ok_iff.1 hclose
    obtain ⟨-, a, ha, hkind, hblock, hup, haround⟩ := enter_known hb.disciplined.sound he
    have hE := enter_later hb.disciplined.sound he
    rw [leavesOf_cons, Event.leaves, leavesOf_nil, List.append_nil] at hl
    have htidy : AllTidy (ownerOf t₁ (some i)) inside := by
      rw [ownerOf_entered ha hblock]
      exact allTidy_one.1 ht
    have hleaves : ∀ l ∈ leavesOf (t₁.aroundOf (some i)) inside, l.Contracts t₁.options := by
      rw [hE.options]
      show ∀ l ∈ leavesOf (t₁.around i) inside, _
      rw [haround]
      exact fun l hm => hl l (List.mem_cons_of_mem _ hm)
    have hstay : ∀ {t₂ : Store}, Evolves (fun _ => True) t₁ t₂ →
        ∃ a₂, t₂.scopeAt? i = some a₂ ∧ a₂.kind = kind ∧ a₂.upper = c := fun hE₂ => by
      obtain ⟨a₂, ha₂, hev, -⟩ := hE₂.scope i a ha
      exact ⟨a₂, ha₂, (Scope.kind_of_frame hev.frame).trans hkind,
        (Scope.upper_of_frame hev.frame).trans hup⟩
    cases hk : kind.isBlock with
    | true =>
        have htrim : (Event.within kind n inside).trim .bare = trimAll .bare inside := by
          rw [Event.trim, hk]
          rfl
        rw [htrim] at hs ⊢
        obtain ⟨u, rfl⟩ : ∃ u, c = some u := by
          cases c with
          | none => exact absurd rfl (hl _ List.mem_cons_self hk)
          | some u => exact ⟨u, rfl⟩
        obtain ⟨hb₁, hlater⟩ := hb.enterBlock hk he
        have hgoes : (some i).map (goesTo φ i (φ u)) = (some u).map φ := congrArg some goesTo_self
        obtain ⟨ψ, s', hs', h', hlater'⟩ := h.run hb₁ htidy (by rwa [hgoes]) hleaves hin
        rw [hgoes] at hs'
        obtain ⟨a₂, ha₂, hk₂, hup₂⟩ := hstay hlater'.evolves
        obtain ⟨h'', hlater''⟩ := h'.closeBlock ha₂ (by rwa [hk₂]) hup₂ hclose
        exact ⟨ψ, s', hs', h'', (hlater.trans hlater').trans hlater''⟩
    | false =>
        have htrim : (Event.within kind n inside).trim .bare =
            [.within kind n (trimAll .bare inside)] := by
          rw [Event.trim, hk]
          rfl
        rw [htrim] at hs ⊢
        obtain ⟨ψ, s₁, hs₁, hb₁, hlater⟩ := hb.enter hk he
        obtain ⟨-, b, hbs, -, hbn, -⟩ := enter_known hb.disciplined_contracted.sound hs₁
        obtain ⟨χ, s₂, hs₂, h₂, hlater'⟩ := h.run hb₁ htidy (by
          rw [show (some i).map ψ = some (ψ i) from rfl, ownerOf_entered hbs hbn]
          exact allTidy_one.1 hs) hleaves hin
        have hi : χ i = ψ i := hlater'.map i (scopeAt?_lt ha)
        obtain ⟨a₂, ha₂, hk₂, hup₂⟩ := hstay hlater'.evolves
        obtain ⟨s', hs', h', hlater''⟩ := h₂.close ha₂ (by rwa [hk₂]) hup₂ hclose
        refine ⟨χ, s', runAll_one_ok_iff.2 ?_, h', (hlater.trans hlater').trans hlater''⟩
        rw [Event.outcome_within]
        exact bind_ok_iff.2 ⟨ψ i, s₁, hs₁, bind_ok_iff.2 ⟨(), s₂, hs₂,
          discard_ok_iff.2 ⟨_, hi ▸ hs'⟩⟩⟩

mutual

theorem Event.alongside : ∀ e : Event, Alongside [e] (e.trim .bare)
  | .define _ _ _ => .operation trivial
  | .refer _ => .operation trivial
  | .callEval => .operation trivial
  | .useThis => .operation trivial
  | .needScope => .needScope
  | .phase p => .phase p
  | .fail err => .fail err
  | .within _ _ inside => .within (alongside_trimAll inside)
  | .closeOwned n => .closeOwned n

/-- **Events happen alongside themselves without their block scopes**, by induction on the events:
what is inside a scope is smaller than what enters it. -/
theorem alongside_trimAll : ∀ events : List Event, Alongside events (trimAll .bare events)
  | [] => .nil
  | e :: rest => (Event.alongside e).append (alongside_trimAll rest)

end

end Walk

end LexScope
