import LexScope.Proofs.Tidy

/-!
# Proofs — Discipline — the open scopes of a walk are one chain

At every moment of a walk the open scopes are the current one and those above it
(`Store.Disciplined`).  An operation is *orderly* at such a moment when it uses the current scope as
a walk should: scopes are opened below it, references are made in it, it alone may be closed, and
names are bound and flags set in open scopes only (`Operation.Orderly`).

* `Disciplined.step`: an orderly operation that succeeds keeps the discipline.
* `Step.good`: every step of a walk over a program is orderly.
* `analyze_disciplined`: **the closing discipline of a walk**, for every tree and all options.
-/

namespace LexScope

open Store LexScope.Action

/-! ### Which scopes are open -/

namespace Store

variable {A : ScopeId → Prop} {s t u : Store} {i j : ScopeId}

/-- The current scope and the scopes above it. -/
def line (s : Store) (current : Option ScopeId) : List ScopeId := current.elim [] s.chain

theorem IsOpen.not_isClosed (h : s.IsOpen i) : ¬ s.IsClosed i := by
  rintro ⟨b, hb, hc⟩
  obtain ⟨a, ha, ho⟩ := h
  rw [ha, Option.some.injEq] at hb
  rw [hb, hc] at ho
  cases ho

theorem isOpen_or_isClosed (h : i < s.scopes.size) : s.IsOpen i ∨ s.IsClosed i := by
  obtain ⟨a, ha⟩ := scopeAt?_of_lt h
  cases hc : a.isClosed with
  | false => exact .inl ⟨a, ha, hc⟩
  | true => exact .inr ⟨a, ha, hc⟩

theorem IsClosed.lt (h : s.IsClosed i) : i < s.scopes.size := by
  obtain ⟨a, ha, -⟩ := h
  exact scopeAt?_lt ha

theorem Evolves.isClosed (h : Evolves A s t) (hc : s.IsClosed i) : t.IsClosed i := by
  obtain ⟨a, ha, hc⟩ := hc
  obtain ⟨b, hb, hev, -⟩ := h.scope i a ha
  exact ⟨b, hb, hev.closed hc⟩

theorem Evolves.isOpen_of (h : Evolves A s t) (hi : i < s.scopes.size) (ho : t.IsOpen i) :
    s.IsOpen i :=
  (isOpen_or_isClosed hi).resolve_right fun hc => ho.not_isClosed (h.isClosed hc)

/-- No scope is opened or closed. -/
structure Steady (s t : Store) : Prop where
  size : t.scopes.size = s.scopes.size
  isOpen : ∀ i, s.IsOpen i → t.IsOpen i

theorem Steady.refl (s : Store) : Steady s s := ⟨rfl, fun _ => id⟩

theorem Steady.trans (h : Steady s t) (k : Steady t u) : Steady s u :=
  ⟨k.size.trans h.size, fun i hi => k.isOpen i (h.isOpen i hi)⟩

theorem Steady.isOpen_iff (h : Steady s t) (hE : Evolves A s t) : t.IsOpen i ↔ s.IsOpen i :=
  ⟨fun ho => hE.isOpen_of (h.size ▸ ho.lt) ho, h.isOpen i⟩

theorem steady_updateScope {f : Scope → Scope} (hf : ∀ a, (f a).isClosed = a.isClosed) :
    Steady s (s.updateScope i f) := by
  refine ⟨by simp [updateScope], fun j ⟨a, ha, hc⟩ => ?_⟩
  by_cases hj : i = j
  · exact ⟨f a, by simp [ha, hj], (hf a).trans hc⟩
  · exact ⟨a, by simp [ha, hj], hc⟩

theorem steady_updateScopes {l : List ScopeId} {f : Scope → Scope}
    (hf : ∀ a, (f a).isClosed = a.isClosed) : Steady s (s.updateScopes l f) := by
  induction l generalizing s with
  | nil => exact .refl s
  | cons i l ih => exact (steady_updateScope hf).trans ih

theorem steady_bindNew {key : Name} {var : Variable} : Steady s (s.bindNew i key var) := by
  refine ⟨by simp [Store.bindNew, updateScope], fun j ⟨a, ha, hc⟩ => ?_⟩
  by_cases hj : i = j
  · exact ⟨a.bind key s.vars.size, by simp [ha, hj], hc⟩
  · exact ⟨a, by simp [ha, hj], hc⟩

theorem Scope.isClosed_receive (a : Scope) (r : ReferenceId) :
    (a.receive r).isClosed = a.isClosed := by
  simp [Scope.isClosed, Scope.receive]

theorem Scope.isClosed_take (a : Scope) (r : ReferenceId) : (a.take r).isClosed = a.isClosed := by
  simp [Scope.isClosed, Scope.take]

end Store

namespace Action

variable {s s' : Store} {i : ScopeId} {n : Node}

theorem define_steady {d : Definition} {w : Option VariableId}
    (h : (define i n d).outcome s = (.ok w, s')) : Steady s s' := by
  obtain ⟨-, -, rfl⟩ | ⟨-, key, scope, -, -, ⟨v, -, -, rfl⟩ | ⟨-, -, rfl⟩⟩ := define_ok_iff.1 h
  · exact .refl _
  · exact ⟨rfl, fun _ => id⟩
  · exact steady_bindNew

theorem noteEval_steady (s : Store) (i : ScopeId) : Steady s (s.noteEval i) :=
  (steady_updateScope (f := fun scope => { scope with callsEval := true }) fun _ => rfl).trans
    (steady_updateScopes fun _ => rfl)

theorem provide_steady {kind : ScopeKind} (h : (provide kind n i).outcome s = (.ok (), s')) :
    Steady s s' := by
  obtain rfl | ⟨v, hv⟩ | ⟨w, hw⟩ := provide_ok h
  · exact .refl _
  · rw [(bindNew_ok_iff.1 hv).2]
    exact steady_bindNew
  · exact define_steady hw

theorem settle_steady {r : ReferenceId} (h : (settle i r).outcome s = (.ok (), s')) :
    Steady s s' := by
  obtain ⟨ref, key, scope, -, -, -, ⟨v, -, rfl⟩ | ⟨-, h⟩⟩ := settle_ok_iff.1 h
  · exact ⟨rfl, fun _ => id⟩
  · obtain ⟨scope', -, ⟨-, rfl⟩ | ⟨w, above, -, -, -, rfl⟩⟩ := handUp_ok_iff.1 h
    · exact steady_updateScope fun _ => rfl
    · exact (steady_updateScope fun a => Scope.isClosed_receive a r).trans
        (steady_updateScope fun _ => rfl)

theorem settleAll_steady {settled : Bool} {l : List ReferenceId}
    (h : (settleAll i settled l).outcome s = (.ok (), s')) : Steady s s' := by
  refine settleAll_induction (P := fun _ t => Steady s t) h (.refl s) ?_ ?_
  · intro r _ t t' ih hr
    exact ih.trans (settle_steady hr)
  · intro r _ t ih
    exact ih.trans (steady_updateScopes fun _ => rfl)

theorem bindImplicits_steady {scope : Scope} {l : List ReferenceId}
    (h : (bindImplicits i scope l).outcome s = (.ok (), s')) : Steady s s' := by
  refine bindImplicits_induction h (.refl s) ?_
  intro c t t' ih hm
  obtain ⟨v, u, key, hd, -, rfl⟩ := makeImplicit_ok_iff.1 hm
  exact ih.trans ((define_steady hd).trans (steady_updateScope fun _ => rfl))

/-- A close closes the one scope and opens none. -/
theorem close_isOpen_iff {up : Option ScopeId} (hs : s.Sound)
    (h : (close i).outcome s = (.ok up, s')) (j : ScopeId) :
    s'.scopes.size = s.scopes.size ∧ (s'.IsOpen j ↔ s.IsOpen j ∧ j ≠ i) := by
  have hE := (close_changes hs h).evolves hs
  obtain ⟨scope, pending, t, u, last, hi, -, hb, hset, hl, -, -, rfl⟩ := close_ok_iff.1 h
  have hsu : Steady s u := (bindImplicits_steady hb).trans (settleAll_steady hset)
  have hsize : (u.updateScope i (·.shut)).scopes.size = u.scopes.size := by simp [updateScope]
  refine ⟨hsize.trans hsu.size, fun ho => ⟨hE.isOpen_of ?_ ho, ?_⟩, ?_⟩
  · have := ho.lt
    rwa [show ((u.updateScope i (·.shut)).record (closedEntry last)).scopes.size = s.scopes.size
      from hsize.trans hsu.size] at this
  · rintro rfl
    exact ho.not_isClosed ⟨last.shut, by simp [hl], rfl⟩
  · rintro ⟨ho, hj⟩
    obtain ⟨a, ha, hc⟩ := hsu.isOpen j ho
    exact ⟨a, by simp [ha, Ne.symm hj], hc⟩

end Action

namespace Action

variable {s s' : Store} {i : ScopeId} {n : Node} {kind : ScopeKind} {upper : Option ScopeId}

/-- The scope that is entered is what it is opened as. -/
theorem enter_frame (hs : s.Sound) (h : (enter kind n upper).outcome s = (.ok i, s')) :
    i = s.scopes.size ∧ (∀ u, upper = some u → u < s.scopes.size) ∧
      ∃ b strict, s'.scopeAt? i = some b ∧
        b.frame = (s.freshScope kind n upper strict).frame := by
  obtain ⟨t, ho, hp⟩ := enter_ok_iff.1 h
  obtain ⟨rfl, strict, hfresh⟩ := openScope_scopeAt? ho
  have ht : t.Sound := Changes.sound
    (Quiets.changes (openScope_quiets (A := fun _ => True) ho fun _ _ => trivial)) hs
  have hq := provide_quiets (A := fun _ => True) hp hfresh trivial
  obtain ⟨b, hb, hev, -⟩ := (hq.changes.evolves ht).scope _ _ hfresh
  obtain ⟨above, -, ha, -⟩ := openScope_ok_iff.1 ho
  exact ⟨rfl, upper_lt_of_strictAt? ha, b, strict, hb, hev.frame⟩

/-- What has opened when a scope is entered. -/
theorem enter_opened (hs : s.Sound) (h : (enter kind n upper).outcome s = (.ok i, s')) :
    i = s.scopes.size ∧ n.isObj = true ∧ s'.scopes.size = s.scopes.size + 1 ∧
      (∀ u, upper = some u → u < s.scopes.size) ∧ s'.IsOpen i ∧
      ∃ b, s'.scopeAt? i = some b ∧ b.upper = upper ∧ b.block = n := by
  obtain ⟨rfl, hu, b, _, hb, hf⟩ := enter_frame hs h
  obtain ⟨t, ho, hp⟩ := enter_ok_iff.1 h
  obtain ⟨-, strict, hfresh⟩ := openScope_scopeAt? ho
  obtain ⟨above, _, -, -, hn, -, rfl⟩ := openScope_ok_iff.1 ho
  have hsteady := provide_steady hp
  exact ⟨rfl, hn, hsteady.size.trans (size_addScope ..), hu, hsteady.isOpen _ ⟨_, hfresh, rfl⟩, b,
    hb, Scope.upper_of_frame hf, Scope.block_of_frame hf⟩

end Action

/-! ### Discipline -/

/-- The open scopes are the current one and those above it. -/
structure Store.Disciplined (s : Store) (current : Option ScopeId) : Prop where
  books : s.Books s.pendingAt s.IsClosed
  isOpen : ∀ i, s.IsOpen i ↔ i ∈ s.line current

/-- An operation uses the current scope as a walk should. -/
def Operation.Orderly (s : Store) (current : Option ScopeId) : Operation → Prop
  | .enter _ _ upper => upper = current
  | .refer i _ => current = some i
  | .close i => current = some i
  | .define i _ _ => i ∈ s.line current
  | .noteEval i => i ∈ s.line current
  | .noteThis i => i ∈ s.line current
  | .nest _ _ _ | .defineArguments _ | .visit _ _ => False

/-- The current scope after an operation. -/
def Operation.next (s : Store) (current : Option ScopeId) : Operation → Option ScopeId
  | .enter _ _ _ => some s.scopes.size
  | .close i => s.upperOf i
  | _ => current

namespace Store.Disciplined

variable {A : ScopeId → Prop} {s t : Store} {current : Option ScopeId} {op : Operation}
  {out : Outcome} {i j : ScopeId}

theorem sound (h : s.Disciplined current) : s.Sound := h.books.sound

theorem open_of_mem (h : s.Disciplined current) (hi : i ∈ s.line current) : s.IsOpen i :=
  (h.isOpen i).2 hi

theorem chain_subset (h : s.Disciplined current) (hi : i ∈ s.line current) (hj : j ∈ s.chain i) :
    j ∈ s.line current := by
  cases current with
  | none => cases hi
  | some c => exact mem_chain_trans h.sound.rooted hi hj

/-- All scopes below an innermost open one are closed. -/
theorem below_closed (h : s.Disciplined (some i)) (hj : j < s.scopes.size) (hi : i ∈ s.chain j)
    (hne : j ≠ i) : s.IsClosed j :=
  (isOpen_or_isClosed hj).resolve_left fun ho =>
    hne (mem_chain_antisymm h.sound.rooted ((h.isOpen j).1 ho) hi).symm

/-- A step that opens and closes nothing keeps the discipline. -/
theorem of_steady (h : s.Disciplined current) (hb : t.Books t.pendingAt t.IsClosed)
    (hE : Evolves A s t) (hst : Steady s t) : t.Disciplined current := by
  refine ⟨hb, fun i => ?_⟩
  rw [hst.isOpen_iff hE, h.isOpen]
  cases current with
  | none => rfl
  | some c =>
      have hc : s.IsOpen c := (h.isOpen c).2 (self_mem_chain s c)
      show i ∈ s.chain c ↔ i ∈ t.chain c
      rw [hE.chain h.sound hb.sound hc.lt]

/-- An orderly operation other than making a reference and closing is quiet, and what it touches is
open or new. -/
theorem quiets (h : s.Disciplined current) (ho : op.Orderly s current)
    (hop : op.applyTo s = (.ok out, t)) :
    Quiets (fun j => s.IsOpen j ∨ s.scopes.size ≤ j) s t ∨ (∃ i u, op = .refer i u) ∨
      ∃ i, op = .close i := by
  have hopen : ∀ i ∈ s.line current, s.IsOpen i := fun i => h.open_of_mem
  have happly : op.apply.outcome s = (.ok out, t) := hop
  cases op with
  | refer i u => exact .inr (.inl ⟨i, u, rfl⟩)
  | close i => exact .inr (.inr ⟨i, rfl⟩)
  | enter kind n upper =>
      obtain rfl : upper = current := ho
      obtain ⟨i, -, he⟩ := bind_pure_ok_iff.1 happly
      refine .inl (enter_quiets he (fun u hu => .inl (hopen u ?_)) (.inr le_rfl))
      rw [hu]
      exact self_mem_chain s u
  | define i n d =>
      obtain ⟨w, -, hd⟩ := bind_pure_ok_iff.1 happly
      exact .inl (define_quiets hd (.inl (hopen i ho)))
  | noteEval i =>
      obtain ⟨w, -, hn⟩ := bind_pure_ok_iff.1 happly
      exact .inl (Action.noteEval_quiets hn fun j hj => .inl (hopen j (h.chain_subset ho hj)))
  | noteThis i =>
      obtain ⟨w, -, hn⟩ := bind_pure_ok_iff.1 happly
      exact .inl (Action.noteThis_quiets hn (.inl (hopen i ho)))
  | nest _ _ _ => exact ho.elim
  | defineArguments _ => exact ho.elim
  | visit _ _ => exact ho.elim

/-- What an orderly operation touches is open or new. -/
theorem changes (h : s.Disciplined current) (ho : op.Orderly s current)
    (hop : op.applyTo s = (.ok out, t)) :
    Changes (fun j => s.IsOpen j ∨ s.scopes.size ≤ j) s t := by
  have happly : op.apply.outcome s = (.ok out, t) := hop
  rcases h.quiets ho hop with hq | ⟨i, u, rfl⟩ | ⟨i, rfl⟩
  · exact hq.changes
  · obtain rfl : current = some i := ho
    obtain ⟨w, -, hr⟩ := bind_pure_ok_iff.1 happly
    obtain ⟨-, -, rfl⟩ | ⟨-, -, rfl, -⟩ := refer_ok_iff.1 hr
    · exact .refl
    · exact .single (.addReference u (.inl (h.open_of_mem (self_mem_chain s i))))
  · obtain rfl : current = some i := ho
    obtain ⟨up, -, hc⟩ := Operation.applyTo_close_ok.1 hop
    exact (close_changes h.sound hc).mono fun j hj => .inl (h.open_of_mem hj)

theorem booksAfter (h : s.Disciplined current) (ho : op.Orderly s current)
    (hop : op.applyTo s = (.ok out, t)) : t.Books t.pendingAt t.IsClosed := by
  have ha : op.Admitted s := by
    cases op with
    | visit n c => exact ho.elim
    | close i => exact ⟨out, by rw [hop]⟩
    | _ => trivial
  have := h.books.applyTo ha
  rwa [hop] at this

/-- Only entering and closing open or close a scope. -/
theorem steady (ho : op.Orderly s current) (hop : op.applyTo s = (.ok out, t)) :
    (Steady s t ∧ op.next s current = current) ∨ (∃ kind n upper, op = .enter kind n upper) ∨
      ∃ i, op = .close i := by
  have happly : op.apply.outcome s = (.ok out, t) := hop
  cases op with
  | enter kind n upper => exact .inr (.inl ⟨kind, n, upper, rfl⟩)
  | close i => exact .inr (.inr ⟨i, rfl⟩)
  | define i n d =>
      obtain ⟨w, -, hd⟩ := bind_pure_ok_iff.1 happly
      exact .inl ⟨define_steady hd, rfl⟩
  | refer i u =>
      obtain ⟨w, -, hr⟩ := bind_pure_ok_iff.1 happly
      obtain ⟨-, -, rfl⟩ | ⟨-, -, rfl, -⟩ := refer_ok_iff.1 hr
      · exact .inl ⟨.refl _, rfl⟩
      · have hst : Steady { s with references := s.references.push { u with scope := i } }
            (s.addReference i u) := steady_updateScope fun a => Scope.isClosed_take a _
        exact .inl ⟨⟨hst.size, hst.isOpen⟩, rfl⟩
  | noteEval i =>
      obtain ⟨w, -, hn⟩ := bind_pure_ok_iff.1 happly
      rw [(noteEval_ok_iff.1 hn).2]
      exact .inl ⟨noteEval_steady s i, rfl⟩
  | noteThis i =>
      obtain ⟨w, -, hn⟩ := bind_pure_ok_iff.1 happly
      rw [(noteThis_ok_iff.1 hn).2]
      exact .inl ⟨steady_updateScope fun _ => rfl, rfl⟩
  | nest _ _ _ => exact ho.elim
  | defineArguments _ => exact ho.elim
  | visit _ _ => exact ho.elim

/-- Entering opens one scope, the new one. -/
theorem enter_isOpen_iff (h : s.Disciplined current) {kind : ScopeKind} {n : Node}
    (hop : (Operation.enter kind n current).applyTo s = (.ok out, t)) :
    t.scopes.size = s.scopes.size + 1 ∧ t.upperOf s.scopes.size = current ∧
      ∀ j, t.IsOpen j ↔ j = s.scopes.size ∨ s.IsOpen j := by
  have ho : (Operation.enter kind n current).Orderly s current := rfl
  have hE := (h.changes ho hop).evolves h.sound
  have happly : (Operation.enter kind n current).apply.outcome s = (.ok out, t) := hop
  obtain ⟨i, -, he⟩ := bind_pure_ok_iff.1 happly
  obtain ⟨rfl, -, hsize, -, hopen, b, hbt, hup, -⟩ := enter_opened h.sound he
  refine ⟨hsize, (upperOf_eq hbt).trans hup, fun j => ⟨?_, ?_⟩⟩
  · intro hj
    rcases Nat.lt_succ_iff_lt_or_eq.1 (hsize ▸ hj.lt) with hlt | rfl
    · exact .inr (hE.isOpen_of hlt hj)
    · exact .inl rfl
  · rintro (rfl | hj)
    · exact hopen
    · exact (enter_quiets (A := fun _ => True) he (fun _ _ => trivial)
        trivial).sameNotes.isOpen j hj

/-- **An orderly operation keeps the discipline.** -/
theorem step (h : s.Disciplined current) (ho : op.Orderly s current)
    (hop : op.applyTo s = (.ok out, t)) : t.Disciplined (op.next s current) := by
  have hb := h.booksAfter ho hop
  have hE := (h.changes ho hop).evolves h.sound
  rcases steady ho hop with ⟨hst, hnext⟩ | ⟨kind, n, upper, rfl⟩ | ⟨i, rfl⟩
  · rw [hnext]
    exact h.of_steady hb hE hst
  · obtain rfl : upper = current := ho
    obtain ⟨hsize, hup, hopen⟩ := h.enter_isOpen_iff hop
    refine ⟨hb, fun j => ?_⟩
    -- The new scope stands before the line that was open.
    have hline : t.chain s.scopes.size = s.scopes.size :: s.line upper := by
      cases upper with
      | none => rw [chain_top hb.sound.rooted hup]; rfl
      | some c =>
          have hc : s.IsOpen c := h.open_of_mem (self_mem_chain s c)
          rw [chain_step hb.sound.rooted hup, hE.chain h.sound hb.sound hc.lt]
          rfl
    show t.IsOpen j ↔ j ∈ t.chain s.scopes.size
    rw [hline, List.mem_cons, hopen, h.isOpen]
  · obtain rfl : current = some i := ho
    obtain ⟨up, -, hc⟩ := Operation.applyTo_close_ok.1 hop
    refine ⟨hb, fun j => ?_⟩
    rw [(close_isOpen_iff h.sound hc j).2, h.isOpen]
    have hi : s.IsOpen i := h.open_of_mem (self_mem_chain s i)
    show j ∈ s.chain i ∧ j ≠ i ↔ j ∈ t.line (s.upperOf i)
    -- The line loses its first scope, which is not met again further up.
    have hnot := not_mem_above h.sound.rooted i
    cases hu : s.upperOf i with
    | none =>
        rw [chain_top h.sound.rooted hu, List.mem_singleton]
        constructor
        · rintro ⟨hj, hne⟩
          exact absurd hj hne
        · intro hj
          cases hj
    | some w =>
        rw [above, hu, Option.elim_some] at hnot
        have hw : w < s.scopes.size := (h.sound.rooted i w hu).trans hi.lt
        show _ ↔ j ∈ t.chain w
        rw [hE.chain h.sound hb.sound hw, chain_step h.sound.rooted hu, List.mem_cons]
        constructor
        · rintro ⟨hj, hne⟩
          exact hj.resolve_left hne
        · intro hj
          exact ⟨.inr hj, fun e => hnot (e ▸ hj)⟩

/-- A scope is closed after an operation if it was closed before or the operation closes it. -/
theorem isClosed_iff (h : s.Disciplined current) (ho : op.Orderly s current)
    (hop : op.applyTo s = (.ok out, t)) :
    t.IsClosed i ↔ s.IsClosed i ∨ op = .close i := by
  have hE := (h.changes ho hop).evolves h.sound
  have hold : i < s.scopes.size → (s.IsOpen i → t.IsOpen i) → t.IsClosed i → s.IsClosed i :=
    fun hlt hopen hc => (isOpen_or_isClosed hlt).resolve_left fun hi =>
      (hopen hi).not_isClosed hc
  constructor
  · intro hc
    rcases steady ho hop with ⟨hst, -⟩ | ⟨kind, n, upper, rfl⟩ | ⟨j, rfl⟩
    · exact .inl (hold (hst.size ▸ hc.lt) (hst.isOpen i) hc)
    · obtain rfl : upper = current := ho
      obtain ⟨hsize, -, hopen⟩ := h.enter_isOpen_iff hop
      rcases Nat.lt_succ_iff_lt_or_eq.1 (hsize ▸ hc.lt) with hlt | rfl
      · exact .inl (hold hlt (fun hi => (hopen i).2 (.inr hi)) hc)
      · exact absurd hc ((hopen _).2 (.inl rfl)).not_isClosed
    · obtain ⟨up, -, hclose⟩ := Operation.applyTo_close_ok.1 hop
      obtain ⟨hsize, hopen⟩ := close_isOpen_iff h.sound hclose i
      by_cases hij : i = j
      · exact .inr (by rw [hij])
      · exact .inl (hold (hsize ▸ hc.lt) (fun hi => hopen.2 ⟨hi, hij⟩) hc)
  · rintro (hc | rfl)
    · exact hE.isClosed hc
    · obtain ⟨up, -, hclose⟩ := Operation.applyTo_close_ok.1 hop
      obtain ⟨hsize, hopen⟩ := close_isOpen_iff h.sound hclose i
      obtain rfl : current = some i := ho
      have hi : s.IsOpen i := h.open_of_mem (self_mem_chain s i)
      exact (isOpen_or_isClosed (hsize ▸ hi.lt)).resolve_left fun hi' => (hopen.1 hi').2 rfl

end Store.Disciplined

end LexScope
