import LexScope.Proofs.Twin

/-!
# Proofs — Lockstep — two walks that differ in optimism

Where all names are texts (`Tree.TextNames`), closing the current scope never fails
(`close_total`), so a walk stops for reasons that have nothing to do with what is resolved.  Two
walks over one program, with options that differ in optimism only, therefore go step by step side by
side (`Abreast.step`): the same frames, and stores that are twins.

* `Abreast.steps`: what one walk reaches, the other reaches; `Abreast.fails`: where one stops, the
  other stops with the same error.
* `analyze_twin`: **what both analyses return are twins.**
-/

namespace LexScope

open Store LexScope.Action

/-! ### Programs whose names are texts -/

namespace Tree

mutual

/-- Whether all objects in a tree pass a test. -/
def allObjects (test : Tree → Bool) : Tree → Bool
  | .arr items => allItems test items
  | .obj members => test (.obj members) && allMembers test members
  | _ => true

/-- Whether all objects in the items of a list pass a test. -/
def allItems (test : Tree → Bool) : List Tree → Bool
  | [] => true
  | t :: ts => allObjects test t && allItems test ts

/-- Whether all objects in the values of an object pass a test. -/
def allMembers (test : Tree → Bool) : List (String × Tree) → Bool
  | [] => true
  | (_, t) :: ms => allObjects test t && allMembers test ms

end

/-- Whether an object is no identifier, or has a text for a name. -/
def isNamedByText (t : Tree) : Bool :=
  decide (t.get "type" ≠ .str "Identifier") ||
    match t.get "name" with
    | .str _ => true
    | _ => false

/-- All identifiers in a tree have texts for names. -/
def TextNames (t : Tree) : Prop := t.allObjects isNamedByText = true

instance (t : Tree) : Decidable t.TextNames := inferInstanceAs (Decidable (_ = _))

variable {test : Tree → Bool} {t : Tree}

theorem allObjects_of_mem_items {items : List Tree} (h : allItems test items = true)
    (ht : t ∈ items) : t.allObjects test = true := by
  induction items with
  | nil => cases ht
  | cons u us ih =>
      rw [allItems, Bool.and_eq_true] at h
      rcases List.mem_cons.1 ht with rfl | ht
      · exact h.1
      · exact ih h.2 ht

theorem allObjects_of_mem_members {k : String} {members : List (String × Tree)}
    (h : allMembers test members = true) (ht : (k, t) ∈ members) : t.allObjects test = true := by
  induction members with
  | nil => cases ht
  | cons m ms ih =>
      rw [allMembers, Bool.and_eq_true] at h
      rcases List.mem_cons.1 ht with rfl | ht
      · exact h.1
      · exact ih h.2 ht

/-- What holds of all objects passes on to whatever is read. -/
theorem hereditary_allObjects (test : Tree → Bool) :
    Hereditary fun t => t.allObjects test = true := by
  refine ⟨rfl, fun _ => rfl, fun items t h ht => allObjects_of_mem_items h ht, ?_⟩
  intro members k t h ht
  rw [allObjects, Bool.and_eq_true] at h
  exact allObjects_of_mem_members h.2 ht

/-- The name of an identifier is a text. -/
theorem TextNames.name {n : Node} (h : n.value.TextNames) (hn : n.isIdentifier = true) :
    ∃ name, n.value.get "name" = .str name := by
  have htype : n.value.get "type" = .str "Identifier" := of_decide_eq_true hn
  have htest : n.value.isNamedByText = true := by
    cases hv : n.value with
    | obj members =>
        rw [TextNames, hv, allObjects, Bool.and_eq_true] at h
        exact h.1
    | _ => rw [hv] at htype; cases htype
  rw [isNamedByText, htype] at htest
  cases hname : n.value.get "name" with
  | str name => exact ⟨name, rfl⟩
  | _ => simp [hname] at htest

end Tree

/-! ### Closing succeeds -/

namespace Store

variable {s t s' : Store} {i : ScopeId} {r : ReferenceId} {a : Scope}

/-- A reference that is there and has a name. -/
def HasKey (s : Store) (r : ReferenceId) : Prop :=
  ∃ ref key, s.referenceAt? r = some ref ∧ Name.ofTree? ref.name = some key

/-- A scope that can be closed: the scope above it is there and open. -/
structure Closable (s : Store) (i : ScopeId) (a : Scope) : Prop where
  sound : s.Sound
  scope : ∃ b, s.scopeAt? i = some b ∧ b.frame = a.frame
  above : ∀ w, a.upper = some w → s.IsOpen w

theorem Closable.keep {A : ScopeId → Prop} (h : s.Closable i a) (hc : Changes A s t)
    (hsteady : Steady s t) : t.Closable i a := by
  have hE := hc.evolves h.sound
  obtain ⟨b, hb, hframe⟩ := h.scope
  obtain ⟨c, hct, hev, -⟩ := hE.scope i b hb
  exact ⟨hc.sound h.sound, ⟨c, hct, hev.frame.trans hframe⟩, fun w hw =>
    (hsteady.isOpen_iff hE).2 (h.above w hw)⟩

theorem HasKey.keep {A : ScopeId → Prop} (h : s.HasKey r) (hE : Evolves A s t) : t.HasKey r := by
  obtain ⟨ref, key, href, hk⟩ := h
  obtain ⟨ref', href', huse, -⟩ := hE.reference r ref href
  exact ⟨ref', key, href', by rw [Reference.name, huse]; exact hk⟩

theorem Closable.settle (h : s.Closable i a) (hr : s.HasKey r) :
    ∃ s', (settle i r).outcome s = (.ok (), s') := by
  obtain ⟨ref, key, href, hk⟩ := hr
  obtain ⟨b, hb, hframe⟩ := h.scope
  cases hf : b.table.find? key with
  | some v => exact ⟨_, settle_ok_iff.2 ⟨ref, key, b, href, hk, hb, .inl ⟨v, hf, rfl⟩⟩⟩
  | none =>
      have hup : ∃ s', (handUp i r).outcome s = (.ok (), s') := by
        cases hu : b.upper with
        | none => exact ⟨_, handUp_ok_iff.2 ⟨b, hb, .inl ⟨hu, rfl⟩⟩⟩
        | some w =>
            obtain ⟨above, hw, hc⟩ := h.above w ((Scope.upper_of_frame hframe).symm.trans hu)
            exact ⟨_, handUp_ok_iff.2 ⟨b, hb, .inr ⟨w, above, hu, hw, hc, rfl⟩⟩⟩
      obtain ⟨s', hs'⟩ := hup
      exact ⟨s', settle_ok_iff.2 ⟨ref, key, b, href, hk, hb, .inr ⟨hf, hs'⟩⟩⟩

theorem Closable.settleAll {pending : List ReferenceId} (h : s.Closable i a)
    (hp : ∀ r ∈ pending, s.HasKey r) (settled : Bool) :
    ∃ s', (settleAll i settled pending).outcome s = (.ok (), s') ∧ s'.Closable i a := by
  rw [Action.settleAll]
  cases settled with
  | true =>
      -- A reference still has its name when its turn comes.
      obtain ⟨s', hs', hinv, -⟩ := forM_total (f := Action.settle i) (l := pending)
        (P := fun _ t => t.Closable i a ∧ Changes (fun _ => True) s t) ⟨h, .refl⟩
        fun done r rest t hl hinv => by
          obtain ⟨ht, hch⟩ := hinv
          have hr : r ∈ pending := hl ▸ List.mem_append_right _ List.mem_cons_self
          obtain ⟨t', ht'⟩ := ht.settle ((hp r hr).keep (hch.evolves h.sound))
          have hstep := settle_changes ht.sound ht'
          exact ⟨t', ht', ht.keep hstep (settle_steady ht'),
            hch.trans (hstep.mono fun _ _ => trivial)⟩
      exact ⟨s', hs', hinv⟩
  | false =>
      exact forM_total (f := Action.escape i) (P := fun _ t => t.Closable i a) h
        fun _ r _ t _ ht => ⟨_, escape_ok_iff.2 rfl, ht.keep (A := fun _ => True)
          (changes_updateScopes (fun _ _ _ => .pass r trivial) t)
          (steady_updateScopes fun _ => rfl)⟩

/-- The candidates of references that have names can be listed. -/
theorem openCandidates_total {table : Table VariableId} {pending : List ReferenceId}
    (h : ∀ r ∈ pending, s.HasKey r) : ∃ cs, (openCandidates table pending).outcome s = (.ok cs, s) ∧
      ∀ c ∈ cs, ∃ r ref, s.referenceAt? r = some ref ∧ ref.candidate = some c := by
  induction pending with
  | nil => exact ⟨[], pure_ok_iff.2 ⟨rfl, rfl⟩, nofun⟩
  | cons r l ih =>
      obtain ⟨cs, hcs, hmem⟩ := ih fun q hq => h q (List.mem_cons_of_mem r hq)
      obtain ⟨ref, key, href, hk⟩ := h r List.mem_cons_self
      cases hc : ref.candidate with
      | none => exact ⟨cs, openCandidates_cons_ok_iff.2 ⟨ref, href, .inl ⟨hc, hcs⟩⟩, hmem⟩
      | some c =>
          refine ⟨_, openCandidates_cons_ok_iff.2
            ⟨ref, href, .inr ⟨c, key, cs, hc, hk, hcs, rfl⟩⟩, fun d hd => ?_⟩
          split at hd
          · exact hmem d hd
          · rcases List.mem_cons.1 hd with rfl | hd
            · exact ⟨r, ref, href, hc⟩
            · exact hmem d hd

theorem Closable.makeImplicit {c : Candidate} {key : Name} (h : s.Closable i a)
    (hc : c.pattern.isIdentifier = true) (hk : c.key? = some key) :
    ∃ s', (makeImplicit i c).outcome s = (.ok (), s') ∧ s'.Closable i a := by
  obtain ⟨b, hb, -⟩ := h.scope
  have hd : ∃ v t, (define i c.pattern c.definition).outcome s = (.ok (some v), t) := by
    cases hf : b.table.find? key with
    | some v =>
        exact ⟨v, _, define_ok_iff.2 (.inr ⟨hc, key, b, hk, hb, .inl ⟨v, hf, rfl, rfl⟩⟩)⟩
    | none => exact ⟨_, _, define_ok_iff.2 (.inr ⟨hc, key, b, hk, hb, .inr ⟨hf, rfl, rfl⟩⟩)⟩
  obtain ⟨v, t, hd⟩ := hd
  have hm : (Action.makeImplicit i c).outcome s = (.ok (), t.updateScope i (·.bindImplicit key v)) :=
    makeImplicit_ok_iff.2 ⟨v, t, key, hd, hk, rfl⟩
  exact ⟨_, hm, h.keep (makeImplicit_quiets h.sound hm).changes
    ((define_steady hd).trans (steady_updateScope fun _ => rfl))⟩

/-- A store in which a close can read all it has to: references are made at identifiers that have
names, candidates are their own identifiers, and scopes belong to objects. -/
structure Legible (s : Store) : Prop where
  reference : ∀ r ref, s.referenceAt? r = some ref →
    ref.identifier.isIdentifier = true ∧ ∃ key, Name.ofTree? ref.name = some key
  own : s.OwnCandidates
  block : ∀ i a, s.scopeAt? i = some a → a.block.isObj = true

theorem Sourced.legible (h : s.Sourced Tree.TextNames) : s.Legible := by
  refine ⟨fun r ref href => ?_, h.own, fun i a ha => (h.scope i a ha).2.1⟩
  obtain ⟨htext, hid, -⟩ := h.reference r ref href
  obtain ⟨name, hname⟩ := htext.name hid
  exact ⟨hid, .text name, by rw [Reference.name, Use.name, hname]; rfl⟩

/-- Making the variables that are asked for succeeds. -/
theorem Closable.bindImplicits {pending : List ReferenceId} (h : s.Closable i a) (hl : s.Legible)
    (hp : ∀ r ∈ pending, s.HasKey r) :
    ∃ t, (bindImplicits i a pending).outcome s = (.ok (), t) ∧ t.Closable i a := by
  rw [Action.bindImplicits]
  split
  · obtain ⟨cs, hcs, hmem⟩ := @openCandidates_total _ a.table _ hp
    have hmade : ∀ c ∈ cs, c.pattern.isIdentifier = true ∧ ∃ key, c.key? = some key := by
      intro c hc
      obtain ⟨r, ref, href, hcand⟩ := hmem c hc
      obtain ⟨hid, key, hk⟩ := hl.reference r ref href
      exact ⟨hl.own r ref c href hcand ▸ hid, key, (hl.own.key?_eq href hcand).trans hk⟩
    obtain ⟨t, ht, hclosable⟩ := forM_total (f := Action.makeImplicit i) (l := cs)
      (P := fun _ t => t.Closable i a) h fun done c rest t hl ht => by
        obtain ⟨hid, key, hk⟩ := hmade c (hl ▸ List.mem_append_right _ List.mem_cons_self)
        exact ht.makeImplicit hid hk
    exact ⟨t, bind_ok_iff.2 ⟨cs, s, hcs, ht⟩, hclosable⟩
  · exact ⟨s, pure_ok_iff.2 ⟨rfl, rfl⟩, h⟩

/-- **Closing an open scope succeeds** if the scope above is open and all can be read. -/
theorem Legible.close_total (h : s.Legible) (hb : s.Books s.pendingAt s.IsClosed)
    (hi : s.IsOpen i) (hw : ∀ w, s.upperOf i = some w → s.IsOpen w) :
    ∃ up s', (close i).outcome s = (.ok up, s') := by
  obtain ⟨a, ha, ho⟩ := hi
  have hclosable : s.Closable i a :=
    ⟨hb.sound, ⟨a, ha, rfl⟩, fun w haw => hw w ((upperOf_eq ha).trans haw)⟩
  obtain ⟨pending, hp⟩ : ∃ pending, a.pending = some pending := by
    cases hp : a.pending with
    | some pending => exact ⟨pending, rfl⟩
    | none => rw [Scope.isClosed, hp] at ho; cases ho
  have hkeys : ∀ r ∈ pending, s.HasKey r := fun r hr => by
    obtain ⟨ref, href, -⟩ := hb.waiting (i := i) (r := r) ((pendingAt_of_pending ha hp).symm ▸ hr)
    obtain ⟨-, key, hk⟩ := h.reference r ref href
    exact ⟨ref, key, href, hk⟩
  obtain ⟨t, himp, ht⟩ := hclosable.bindImplicits h hkeys
  have hE := (bindImplicits_quiets hb.sound himp).changes.evolves hb.sound
  obtain ⟨u, hset, hu⟩ := ht.settleAll (fun r hr => (hkeys r hr).keep hE)
    (settles t.options a)
  obtain ⟨last, hlast, hframe⟩ := hu.scope
  exact ⟨_, _, close_ok_iff.2 ⟨a, pending, t, u, last, ha, hp, himp, hset, hlast,
    Scope.block_of_frame hframe ▸ h.block i a ha, rfl, rfl⟩⟩

/-- **Closing the current scope succeeds** where all names are texts. -/
theorem close_total (hd : s.Disciplined (some i)) (hP : s.Sourced Tree.TextNames) :
    ∃ up s', (close i).outcome s = (.ok up, s') :=
  hP.legible.close_total hd.books (hd.open_of_mem (self_mem_chain s i)) fun _ hw =>
    hd.open_of_mem (upper_mem_chain hd.sound.rooted (self_mem_chain s i) hw)

end Store

namespace Walk

variable {m n m' : Moment} {op : Option Operation} {ops : List Operation}

/-! ### Side by side -/

/-- Two moments of walks that have the same to do in stores that are twins. -/
structure Moment.Abreast (m n : Moment) : Prop where
  frames : n.frames = m.frames
  twin : Twin m.store n.store
  left : m.Known Tree.TextNames
  right : n.Known Tree.TextNames

theorem Moment.Abreast.symm (h : m.Abreast n) : n.Abreast m :=
  ⟨h.frames.symm, h.twin.symm, h.right, h.left⟩

/-- What is open has no variables that were made for writes. -/
theorem Moment.Known.implicitAt {P : Tree → Prop} {i : ScopeId} (h : m.Known P)
    (hi : i ∈ m.store.line m.current) : m.store.implicitAt i = [] := by
  refine (h.bare i).resolve_right ?_
  rintro ⟨a, ha, hc, -⟩
  exact ((h.good.disciplined.isOpen i).2 hi).not_isClosed ⟨a, ha, hc⟩

theorem Target.scope?_twin {s t : Store} (h : Twin s t) (c : ScopeId) (target : Target) :
    target.scope? t c = target.scope? s c := by
  cases target with
  | here => rfl
  | hoisted =>
      have hc := congrArg (Option.map Outline.variableScope) (h.outline c)
      rwa [outlineAt?, outlineAt?, Option.map_map, Option.map_map] at hc

/-- An event is the same operation in twins. -/
theorem Event.operation?_twin {s t : Store} (h : Twin s t) (c : ScopeId) (e : Event) :
    e.operation? t c = e.operation? s c := by
  have hvars := Target.scope?_twin h c .hoisted
  cases e with
  | define target n d => rw [Event.operation?, Event.operation?, Target.scope?_twin h]
  | refer u =>
      have hc := congrArg (Option.map fun o : Outline =>
        Operation.refer c (if o.strict then { u with candidate := none } else u)) (h.outline c)
      rwa [outlineAt?, outlineAt?, Option.map_map, Option.map_map] at hc
  | callEval => exact congrArg (Option.map Operation.noteEval) hvars
  | useThis => exact congrArg (Option.map Operation.noteThis) hvars
  | _ => rfl

/-- What one walk does next, the other does, too. -/
theorem Moment.Abreast.apply {o : Operation} {out : Outcome} {s' : Store} (h : m.Abreast n)
    (ho : Attempts m o) (ho' : Attempts n o) (hop : o.applyTo m.store = (.ok out, s')) :
    ∃ out' t', o.applyTo n.store = (.ok out', t') ∧ Twin s' t' ∧
      ∀ i, out = .entered i → out' = .entered i := by
  have hs := h.left.good.disciplined.sound
  have ht := h.right.good.disciplined.sound
  have horderly := h.left.good.orderly ho
  have horderly' := h.right.good.orderly ho'
  have happly : o.apply.outcome m.store = (.ok out, s') := hop
  cases o with
  | enter kind node upper =>
      obtain ⟨i, rfl, he⟩ := bind_pure_ok_iff.1 happly
      obtain ⟨t', he', ht'⟩ := h.twin.enter hs ht h.left.distinct h.right.distinct he
      exact ⟨.entered i, t', Operation.applyTo_enter_ok.2 he', ht', fun _ => id⟩
  | define i node d =>
      obtain ⟨w, rfl, hd⟩ := bind_pure_ok_iff.1 happly
      obtain ⟨w', t', hd', ht'⟩ := h.twin.define hs ht h.left.distinct h.right.distinct
        (h.left.implicitAt horderly) (h.right.implicitAt horderly') hd
      exact ⟨.bound w', t', bind_pure_ok_iff.2 ⟨w', rfl, hd'⟩, ht', nofun⟩
  | refer i u =>
      obtain ⟨w, rfl, hr⟩ := bind_pure_ok_iff.1 happly
      obtain ⟨w', t', hr', ht'⟩ := h.twin.refer hr
      exact ⟨.made w', t', bind_pure_ok_iff.2 ⟨w', rfl, hr'⟩, ht', nofun⟩
  | noteEval i =>
      obtain ⟨_, rfl, hn⟩ := bind_pure_ok_iff.1 happly
      obtain ⟨⟨a, ha⟩, rfl⟩ := noteEval_ok_iff.1 hn
      obtain ⟨b, hb, -⟩ := h.twin.scopeAt? ha
      exact ⟨.done, _, bind_pure_ok_iff.2 ⟨(), rfl, noteEval_ok_iff.2 ⟨⟨b, hb⟩, rfl⟩⟩,
        h.twin.noteEval hs.rooted ht.rooted i, nofun⟩
  | noteThis i =>
      obtain ⟨_, rfl, hn⟩ := bind_pure_ok_iff.1 happly
      obtain ⟨⟨a, ha⟩, rfl⟩ := noteThis_ok_iff.1 hn
      obtain ⟨b, hb, -⟩ := h.twin.scopeAt? ha
      exact ⟨.done, _, bind_pure_ok_iff.2 ⟨(), rfl, noteThis_ok_iff.2 ⟨⟨b, hb⟩, rfl⟩⟩,
        h.twin.noteThis i, nofun⟩
  | close i =>
      obtain ⟨up, rfl, hc⟩ := Operation.applyTo_close_ok.1 hop
      have hm : m.current = some i := horderly
      have hn : n.current = some i := horderly'
      have hd := h.right.good.disciplined
      rw [hn] at hd
      obtain ⟨up', t', hc'⟩ := close_total hd h.right.sourced.store
      have hline : ∀ {k : Moment}, k.current = some i → i ∈ k.store.line k.current := by
        intro k hk
        rw [hk]
        exact self_mem_chain _ i
      exact ⟨.closed up', t', Operation.applyTo_close_ok.2 ⟨up', rfl, hc'⟩,
        h.twin.close hs ht h.left.sourced.store.own h.right.sourced.store.own
          (h.left.implicitAt (hline hm)) (h.right.implicitAt (hline hn)) hc hc', nofun⟩
  | nest _ _ _ => exact horderly.elim
  | defineArguments _ => exact horderly.elim
  | visit _ _ => exact horderly.elim

/-- **Two walks that are abreast stay abreast.** -/
theorem Moment.Abreast.step (h : m.Abreast n) (hs : Step m op m') :
    ∃ n', Step n op n' ∧ m'.Abreast n' := by
  suffices hnext : ∃ n', Step n op n' ∧ n'.frames = m'.frames ∧ Twin m'.store n'.store by
    obtain ⟨n', hs', hframes, htwin⟩ := hnext
    have hone : ∀ {k k' : Moment}, Step k op k' → Steps k (op.toList ++ []) k' :=
      fun hk => .more hk (.refl _)
    exact ⟨n', hs', hframes, htwin, h.left.steps (hone hs), h.right.steps (hone hs')⟩
  obtain ⟨frames, t⟩ := n
  obtain rfl : frames = m.frames := h.frames
  have htwin := h.twin
  cases hs with
  | act he hop =>
      have he' := (Event.operation?_twin htwin _ _).trans he
      obtain ⟨out', t', hop', ht', -⟩ := h.apply (.act he) (.act he') hop
      exact ⟨_, .act he' hop', rfl, ht'⟩
  | enter hop =>
      obtain ⟨out', t', hop', ht', hout⟩ := h.apply .enter .enter hop
      obtain rfl := hout _ rfl
      exact ⟨_, .enter hop', rfl, ht'⟩
  | leave hop =>
      obtain ⟨out', t', hop', ht', -⟩ := h.apply .leave .leave hop
      exact ⟨_, .leave hop', rfl, ht'⟩
  | needScope => exact ⟨_, .needScope, rfl, htwin⟩
  | phase => exact ⟨_, .phase, rfl, htwin.record _ _⟩
  | keep hk =>
      refine ⟨_, .keep fun i hi => ?_, rfl, htwin⟩
      obtain ⟨a, ha, hb⟩ := hk i hi
      obtain ⟨b, hb', hab⟩ := htwin.scopeAt? ha
      have hblock : b.block = a.block := congrArg Outline.block hab
      exact ⟨b, hb', hblock ▸ hb⟩

theorem Moment.Abreast.steps (h : m.Abreast n) (hs : Steps m ops m') :
    ∃ n', Steps n ops n' ∧ m'.Abreast n' := by
  induction hs generalizing n with
  | refl => exact ⟨n, .refl n, h⟩
  | more hs _ ih =>
      obtain ⟨n₁, hs₁, h₁⟩ := h.step hs
      obtain ⟨n', hs', h'⟩ := ih h₁
      exact ⟨n', .more hs₁ hs', h'⟩

/-! ### Stopping -/

/-- A walk that goes on does not stop. -/
theorem Step.not_fails {e : Error} (hs : Step m op m') : ¬ Fails m e := by
  intro hf
  cases hs with
  | act he hop =>
      cases hf with
      | event _ hr =>
          rw [Event.outcome_run he, hop] at hr
          cases hr
      | enter _ => cases he
  | enter hop =>
      cases hf with
      | event hw _ => exact hw _ _ _ rfl
      | enter hr => rw [hop] at hr; cases hr
  | leave hop =>
      cases hf with
      | leave hr => rw [hop] at hr; cases hr
  | needScope =>
      cases hf with
      | event _ hr => cases hr
  | phase =>
      cases hf with
      | event _ hr => cases hr
  | keep hk =>
      cases hf with
      | event _ hr =>
          rw [Event.outcome_keep hk] at hr
          cases hr

/-- What stops a walk is the next event, if it is there to do so, or else the error of last
resort. -/
theorem Moment.Good.fails_eq {e : Error} (h : m.Good) (hf : Fails m e) :
    (∃ c todo rest, m.frames = ⟨c, .fail e :: todo⟩ :: rest) ∨
      e = .malformed ∧ ∀ c err todo rest, m.frames ≠ ⟨c, .fail err :: todo⟩ :: rest := by
  cases hf with
  | @event c ev todo rest s t err hw hr =>
      rcases Event.run_malformed h.disciplined (h.tidy _ List.mem_cons_self).1 hw hr with rfl | rfl
      · exact .inl ⟨c, todo, rest, rfl⟩
      · by_cases hfail : ∃ err, ev = .fail err
        · obtain ⟨err, rfl⟩ := hfail
          rw [Event.run] at hr
          obtain ⟨rfl, -⟩ := throw_error_iff.1 hr
          exact .inl ⟨c, todo, rest, rfl⟩
        · refine .inr ⟨rfl, fun c' err todo' rest' hframes => hfail ⟨err, ?_⟩⟩
          have hhead := congrArg (fun f => f.head?.map (·.todo.head?)) hframes
          exact Option.some.inj (Option.some.inj hhead)
  | enter hr =>
      refine .inr ⟨enter_error (Operation.applyTo_enter_error.1 hr), fun c err todo rest he => ?_⟩
      cases he
  | @leave i f rest s t e hr =>
      refine .inr ⟨?_, fun c err todo rest he => by cases he⟩
      rcases close_error (Operation.applyTo_close_error.1 hr) with rfl | hc
      · rfl
      · have hd : s.Disciplined (some i) := h.disciplined
        exact absurd hc (hd.open_of_mem (self_mem_chain s i)).not_isClosed

/-- **If one of two walks that are abreast stops, the other stops with the same error.** -/
theorem Moment.Abreast.fails {e : Error} (h : m.Abreast n) (hf : Fails m e) : Fails n e := by
  rcases h.right.good.progress with ho | ⟨e', hf'⟩ | ⟨op, n', hs, -⟩
  · rw [Moment.Over, h.frames] at ho
    obtain ⟨frames, s⟩ := m
    obtain rfl : frames = _ := ho
    cases hf
  · have he : e' = e := by
      rcases h.left.good.fails_eq hf with ⟨c, todo, rest, hm⟩ | ⟨rfl, hm⟩
      · rcases h.right.good.fails_eq hf' with ⟨c', todo', rest', hn⟩ | ⟨-, hn⟩
        · rw [h.frames, hm] at hn
          cases hn
          rfl
        · exact absurd (h.frames.trans hm) (hn c e todo rest)
      · rcases h.right.good.fails_eq hf' with ⟨c', todo', rest', hn⟩ | ⟨rfl, -⟩
        · exact absurd (h.frames.symm.trans hn) (hm c' e' todo' rest')
        · rfl
    exact he ▸ hf'
  · obtain ⟨m', hs', -⟩ := h.symm.step hs
    exact absurd hf hs'.not_fails

/-! ### Whole analyses -/

/-- Two options that differ in optimism at most. -/
theorem Moment.start_abreast {tree : Tree} (h : tree.TextNames) (o : Options) (v : Tree) :
    (Moment.start o tree).Abreast (.start { o with optimistic := v } tree) := by
  have hP := Tree.hereditary_allObjects Tree.isNamedByText
  exact ⟨rfl, ⟨⟨v, rfl⟩, fun _ => rfl, fun _ => rfl, fun _ => rfl, rfl⟩,
    Moment.start_known hP o h, Moment.start_known hP _ h⟩

/-- An analysis of an object that walks to the end returns. -/
theorem analyze_of_over {o : Options} {tree : Tree} (ht : tree.isObj = true)
    (hs : Steps (.start o tree) ops m) (ho : m.Over) :
    analyze o tree = .ok (m.store.record (.analyzed m.store.scopes.size)) := by
  rw [analyze_eq ht, hs.resume, ho]
  rfl

/-- An analysis of an object whose walk stops comes to the error it stops with. -/
theorem analyze_of_fails {o : Options} {tree : Tree} {e : Error} (ht : tree.isObj = true)
    (hs : Steps (.start o tree) ops m) (hf : Fails m e) : analyze o tree = .error e := by
  obtain ⟨t, hr⟩ := hf.resume
  rw [analyze_eq ht, hs.resume, hr]

/-- Optimism has no part in whether an analysis returns, and the stores it can return are twins. -/
theorem analyze_twin {o : Options} {tree : Tree} {s : Store} (h : tree.TextNames) (v : Tree)
    (hs : analyze o tree = .ok s) :
    ∃ t, analyze { o with optimistic := v } tree = .ok t ∧ Twin s t := by
  obtain ⟨ops, m, hsteps, hover, -, rfl⟩ := analyze_ok hs
  have ht : tree.isObj = true := by
    cases ht : tree.isObj with
    | true => rfl
    | false =>
        rw [analyze, analysis, ht] at hs
        cases hs
  obtain ⟨n, hsteps', h'⟩ := (Moment.start_abreast h o v).steps hsteps
  exact ⟨_, analyze_of_over ht hsteps' (h'.frames.trans hover), h'.twin.record _ _⟩

/-- Optimism has no part in the error with which an analysis stops. -/
theorem analyze_error_of_optimistic {o : Options} {tree : Tree} {e : Error} (h : tree.TextNames)
    (v : Tree) (he : analyze o tree = .error e) :
    analyze { o with optimistic := v } tree = .error e := by
  cases ht : tree.isObj with
  | true =>
      obtain ⟨ops, m, hsteps, hf⟩ := (analyze_error he).2 ht
      obtain ⟨n, hsteps', h'⟩ := (Moment.start_abreast h o v).steps hsteps
      exact analyze_of_fails ht hsteps' (h'.fails hf)
  | false =>
      rw [analyze, analysis, ht] at he ⊢
      exact he

end Walk

end LexScope
