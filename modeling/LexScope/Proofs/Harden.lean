import LexScope.Proofs.Optimism

/-!
# Proofs — Harden — strict mode by default only takes implicit globals away

A walk asks whether a scope is strict for one thing only: a write in a strict scope carries no
candidate.  *Hardening* a store makes all its scopes strict and takes the candidates from its
references (`Store.harden`).  Two walks over one program, the second of them strict by default, go
side by side: the second has at every moment a twin of the hardened store of the first
(`Hardened.step`).

In the end the strict store has no variables that were made for writes, and what was resolved to one
of them is resolved to nothing; a sole program has them only in the scope where every way up ends,
so nothing else can change.

* `analyze_hardened`: **strict mode by default removes implicit globals, and that is all.**
-/

namespace LexScope

open Store LexScope.Action

/-! ### Hardening -/

/-- A scope made strict. -/
def Scope.harden (a : Scope) : Scope := { a with strict := true }

/-- A use without its candidate. -/
def Use.harden (u : Use) : Use := { u with candidate := none }

/-- A reference without its candidate. -/
def Reference.harden (ref : Reference) : Reference := { ref with toUse := ref.toUse.harden }

/-- An outline made strict. -/
def Outline.harden (a : Outline) : Outline := { a with strict := true }

/-- A store that is strict by default, with a value that says so. -/
def Store.harden (s : Store) (q : Tree) : Store :=
  { s with
    options := { s.options with impliedStrict := q }
    scopes := s.scopes.map Scope.harden
    references := s.references.map Reference.harden }

/-- An operation in a store that is strict by default. -/
def Operation.harden : Operation → Operation
  | .refer i u => .refer i u.harden
  | op => op

namespace Store

variable {s t s' : Store} {q : Tree} {i j : ScopeId} {a : Scope} {kind : ScopeKind} {n : Node}
  {upper : Option ScopeId}

@[simp] theorem scopeAt?_harden (s : Store) (q : Tree) (i : ScopeId) :
    (s.harden q).scopeAt? i = (s.scopeAt? i).map Scope.harden := Array.getElem?_map ..

@[simp] theorem variableAt?_harden (s : Store) (q : Tree) (v : VariableId) :
    (s.harden q).variableAt? v = s.variableAt? v := rfl

@[simp] theorem referenceAt?_harden (s : Store) (q : Tree) (r : ReferenceId) :
    (s.harden q).referenceAt? r = (s.referenceAt? r).map Reference.harden := Array.getElem?_map ..

@[simp] theorem size_scopes_harden (s : Store) (q : Tree) :
    (s.harden q).scopes.size = s.scopes.size := Array.size_map ..

@[simp] theorem size_references_harden (s : Store) (q : Tree) :
    (s.harden q).references.size = s.references.size := Array.size_map ..

theorem upperOf_harden (s : Store) (q : Tree) (i : ScopeId) :
    (s.harden q).upperOf i = s.upperOf i := by
  rw [upperOf, upperOf, scopeAt?_harden]
  cases s.scopeAt? i <;> rfl

theorem rooted_harden (h : s.Rooted) (q : Tree) : (s.harden q).Rooted := fun i u hu =>
  h i u ((upperOf_harden s q i).symm.trans hu)

theorem chain_harden (h : s.Rooted) (q : Tree) (i : ScopeId) :
    (s.harden q).chain i = s.chain i :=
  chain_congr h (rooted_harden h q) fun j _ => upperOf_harden s q j

theorem sound_harden (h : s.Sound) (q : Tree) : (s.harden q).Sound := by
  have hat : ∀ {i b}, (s.harden q).scopeAt? i = some b →
      ∃ a, s.scopeAt? i = some a ∧ a.harden = b := fun hb =>
    Option.map_eq_some_iff.1 ((scopeAt?_harden s q _).symm.trans hb)
  refine ⟨rooted_harden h.rooted q, fun i b hb => ?_, fun i b key v hb he => ?_,
    fun i b e hb he => ?_⟩ <;> obtain ⟨a, ha, rfl⟩ := hat hb
  · rw [chain_harden h.rooted]
    exact h.varScope i a ha
  · exact h.table i a key v ha he
  · exact h.implicit i a e ha he

theorem distinct_harden (h : s.Distinct) (q : Tree) : (s.harden q).Distinct := by
  intro i b hb
  obtain ⟨a, ha, rfl⟩ := Option.map_eq_some_iff.1 ((scopeAt?_harden s q i).symm.trans hb)
  exact h i a ha

theorem implicitAt_harden (s : Store) (q : Tree) (i : ScopeId) :
    (s.harden q).implicitAt i = s.implicitAt i := by
  rw [implicitAt, implicitAt, scopeAt?_harden]
  cases s.scopeAt? i <;> rfl

theorem outlineAt?_harden (s : Store) (q : Tree) (i : ScopeId) :
    (s.harden q).outlineAt? i = (s.outlineAt? i).map Outline.harden := by
  rw [outlineAt?, outlineAt?, scopeAt?_harden]
  cases s.scopeAt? i <;> rfl

theorem useAt?_harden (s : Store) (q : Tree) (r : ReferenceId) :
    (s.harden q).useAt? r = (s.useAt? r).map fun u => (u.1.harden, u.2) := by
  rw [useAt?, useAt?, referenceAt?_harden]
  cases s.referenceAt? r <;> rfl

theorem declared_harden (s : Store) (q : Tree) (i : ScopeId) :
    (s.harden q).declared i = s.declared i := by
  rw [declared, declared, scopeAt?_harden]
  cases s.scopeAt? i <;> rfl

/-- Twins stay twins when they are hardened. -/
theorem Twin.harden (h : Twin s t) (q : Tree) : Twin (s.harden q) (t.harden q) := by
  obtain ⟨v, hv⟩ := h.options
  refine ⟨⟨v, ?_⟩, fun i => ?_, fun i => ?_, fun r => ?_, h.global⟩
  · show { t.options with impliedStrict := q } = _
    rw [hv]
    rfl
  · rw [outlineAt?_harden, outlineAt?_harden, h.outline]
  · rw [declared_harden, declared_harden, h.declared]
  · rw [useAt?_harden, useAt?_harden, h.use]

/-! ### What happens in a hardened store -/

/-- A change of a scope that has to do with its strictness in no way. -/
theorem harden_updateScope {f : Scope → Scope} (hf : ∀ a, (f a).harden = f a.harden) (s : Store)
    (q : Tree) (i : ScopeId) : (s.updateScope i f).harden q = (s.harden q).updateScope i f := by
  refine ext_views rfl (fun j => ?_) (fun _ => rfl) (fun r => rfl) rfl rfl
  rw [scopeAt?_harden, scopeAt?_updateScope, scopeAt?_updateScope, scopeAt?_harden]
  by_cases hj : i = j <;> cases s.scopeAt? j <;> simp [hj, hf]

theorem harden_updateScopes {f : Scope → Scope} (hf : ∀ a, (f a).harden = f a.harden)
    (l : List ScopeId) (s : Store) (q : Tree) :
    (s.updateScopes l f).harden q = (s.harden q).updateScopes l f := by
  induction l generalizing s with
  | nil => rfl
  | cons i l ih =>
      show ((s.updateScope i f).updateScopes l f).harden q = _
      rw [ih, harden_updateScope hf]
      rfl

theorem harden_bindNew (s : Store) (q : Tree) (i : ScopeId) (key : Name) (var : Variable) :
    (s.bindNew i key var).harden q = (s.harden q).bindNew i key var :=
  harden_updateScope (f := (·.bind key s.vars.size)) (fun _ => rfl)
    { s with vars := s.vars.push var } q i

theorem harden_addReference (s : Store) (q : Tree) (i : ScopeId) (u : Use) :
    (s.addReference i u).harden q = (s.harden q).addReference i u.harden := by
  rw [addReference, harden_updateScope (f := (·.take s.references.size)) fun _ => rfl,
    addReference, size_references_harden]
  congr 1
  show Store.mk _ _ _ ((s.references.push _).map _) _ _ = Store.mk _ _ _ _ _ _
  rw [Array.map_push]
  rfl

theorem harden_noteEval (h : s.Rooted) (q : Tree) (i : ScopeId) :
    (s.noteEval i).harden q = (s.harden q).noteEval i := by
  rw [Store.noteEval, harden_updateScopes (f := fun a => { a with dynamic := true }) fun _ => rfl,
    harden_updateScope (f := fun a => { a with callsEval := true }) fun _ => rfl, Store.noteEval,
    chain_harden h]

theorem harden_noteThis (s : Store) (q : Tree) (i : ScopeId) :
    (s.noteThis i).harden q = (s.harden q).noteThis i :=
  harden_updateScope (f := fun a => { a with usesThis := true }) (fun _ => rfl) s q i

theorem harden_freshScope (s : Store) (q : Tree) (kind : ScopeKind) (n : Node)
    (upper : Option ScopeId) (strict : Bool) : (s.freshScope kind n upper strict).harden =
      (s.harden q).freshScope kind n upper true := by
  have houter : ∀ u, ((s.harden q).scopeAt? u).map (·.variableScope) =
      (s.scopeAt? u).map (·.variableScope) := by
    intro u
    rw [scopeAt?_harden]
    cases s.scopeAt? u <;> rfl
  simp only [Scope.harden, freshScope, houter, size_scopes_harden]

theorem harden_addScope (s : Store) (q : Tree) (kind : ScopeKind) (n : Node)
    (strict : Bool) (hu : ∀ u, upper = some u → u < s.scopes.size) :
    (s.addScope kind n upper strict).harden q = (s.harden q).addScope kind n upper true := by
  refine ext_views (by simp [harden]) (fun j => ?_) (fun v => ?_) (fun r => ?_) ?_ ?_
  · rw [scopeAt?_harden, scopeAt?_addScope s kind n upper strict hu,
      scopeAt?_addScope (s.harden q) kind n upper true (by simpa using hu), size_scopes_harden,
      scopeAt?_harden, ← harden_freshScope s q kind n upper strict]
    by_cases hj : j = s.scopes.size
    · simp [hj]
    · rw [if_neg hj, if_neg hj]
      cases s.scopeAt? j <;> by_cases hup : upper = some j <;> simp [hup, Scope.adopt, Scope.harden]
  · rw [variableAt?_harden, variableAt?_addScope, variableAt?_addScope, variableAt?_harden]
  · rw [referenceAt?_harden, referenceAt?_addScope, referenceAt?_addScope, referenceAt?_harden]
  · show (s.addScope kind n upper strict).global = _
    rw [global_addScope, global_addScope, size_scopes_harden]
    rfl
  · show (s.addScope kind n upper strict).log = _
    unfold Store.addScope
    cases upper <;> by_cases hk : kind = .global <;> simp [hk, pushScope, harden, updateScope]

end Store

namespace Action

variable {s s' t : Store} {q : Tree} {i : ScopeId} {kind : ScopeKind} {n : Node}
  {upper : Option ScopeId}

theorem define_harden {d : Definition} {w : Option VariableId} (q : Tree)
    (h : (define i n d).outcome s = (.ok w, s')) :
    (define i n d).outcome (s.harden q) = (.ok w, s'.harden q) := by
  obtain ⟨hn, rfl, rfl⟩ | ⟨hn, key, a, hkey, ha, hor⟩ := define_ok_iff.1 h
  · exact define_ok_iff.2 (.inl ⟨hn, rfl, rfl⟩)
  · refine define_ok_iff.2 (.inr ⟨hn, key, a.harden, hkey, by simp [ha], ?_⟩)
    obtain ⟨v, hf, rfl, rfl⟩ | ⟨hf, rfl, rfl⟩ := hor
    · exact .inl ⟨v, hf, rfl, rfl⟩
    · exact .inr ⟨hf, rfl, harden_bindNew ..⟩

theorem provide_harden (q : Tree) (h : (provide kind n i).outcome s = (.ok (), s')) :
    (provide kind n i).outcome (s.harden q) = (.ok (), s'.harden q) := by
  unfold provide at h ⊢
  split at h
  · split at h
    · rename_i harg
      obtain ⟨v, hv⟩ := discard_ok_iff.1 h
      obtain ⟨rfl, rfl⟩ := bindNew_ok_iff.1 hv
      rw [if_pos harg]
      exact discard_ok_iff.2 ⟨s.vars.size, bindNew_ok_iff.2 ⟨rfl, harden_bindNew ..⟩⟩
    · rename_i harg
      rw [if_neg harg]
      exact pure_ok_iff.2 ⟨rfl, congrArg (·.harden q) (pure_ok_iff.1 h).2⟩
  · obtain ⟨w, hw⟩ := discard_ok_iff.1 h
    exact discard_ok_iff.2 ⟨w, define_harden q hw⟩
  · exact pure_ok_iff.2 ⟨rfl, congrArg (·.harden q) (pure_ok_iff.1 h).2⟩

/-- What opens a scope opens a strict one in the hardened store. -/
theorem enter_harden (hq : q.truthy = true) (hs : s.Sound) (hd : s.Distinct)
    (h : (enter kind n upper).outcome s = (.ok i, s')) :
    ∃ u, (enter kind n upper).outcome (s.harden q) = (.ok i, u) ∧ Twin (s'.harden q) u := by
  obtain ⟨u, ho, hp⟩ := enter_ok_iff.1 h
  obtain ⟨above, strict, habove, -, hobj, rfl, rfl⟩ := openScope_ok_iff.1 ho
  have hupper := upper_lt_of_strictAt? habove
  have ho' : (openScope kind n upper).outcome (s.harden q) = (.ok s.scopes.size,
      ((s.harden q).addScope kind n upper true).record
        (.opened kind s.scopes.size n.type true)) := by
    have hstrict : ∃ b, (s.harden q).strictAt? upper = some b := by
      cases upper with
      | none => exact ⟨false, rfl⟩
      | some u =>
          obtain ⟨a, ha⟩ := scopeAt?_of_lt (hupper u rfl)
          exact ⟨true, by simp [strictAt?, ha, Scope.harden]⟩
    obtain ⟨b, hb⟩ := hstrict
    refine openScope_ok_iff.2 ⟨b, true, hb, ?_, hobj, by simp, by simp⟩
    rw [isStrict?, if_pos]
    show (q.truthy || b) = true
    rw [hq, Bool.true_or]
  have htwin : Twin (((s.addScope kind n upper strict).record
      (.opened kind s.scopes.size n.type strict)).harden q)
      (((s.harden q).addScope kind n upper true).record
        (.opened kind s.scopes.size n.type true)) := by
    rw [← harden_addScope s q kind n strict hupper]
    exact (Twin.refl ((s.addScope kind n upper strict).harden q)).record _ _
  have hqu := openScope_quiets (A := fun _ => True) ho fun _ _ => trivial
  have hqu' := openScope_quiets (A := fun _ => True) ho' fun _ _ => trivial
  have ha : (((s.addScope kind n upper strict).record
      (.opened kind s.scopes.size n.type strict)).harden q).scopeAt? s.scopes.size =
      some (s.freshScope kind n upper strict).harden := by
    rw [scopeAt?_harden, scopeAt?_record, scopeAt?_addScope_new hupper]
    rfl
  have hb : (((s.harden q).addScope kind n upper true).record
      (.opened kind s.scopes.size n.type true)).scopeAt? s.scopes.size =
      some ((s.harden q).freshScope kind n upper true) := by
    rw [scopeAt?_record, scopeAt?_addScope _ kind n upper true (by simpa using hupper),
      size_scopes_harden, if_pos rfl]
  obtain ⟨u, hu, hu'⟩ := htwin.provide (sound_harden (hqu.changes.sound hs) q)
    (hqu'.changes.sound (sound_harden hs q)) (distinct_harden (hd.changes hqu.changes) q)
    ((distinct_harden hd q).changes hqu'.changes) ha hb ⟨rfl, rfl⟩ ⟨rfl, rfl⟩
    (provide_harden q hp)
  exact ⟨u, enter_ok_iff.2 ⟨_, ho', hu⟩, hu'⟩

theorem refer_harden {u : Use} {w : Option ReferenceId} (q : Tree)
    (h : (refer i u).outcome s = (.ok w, s')) :
    (refer i u.harden).outcome (s.harden q) = (.ok w, s'.harden q) := by
  obtain ⟨hn, rfl, rfl⟩ | ⟨hn, rfl, rfl, a, ha, hc⟩ := refer_ok_iff.1 h
  · exact refer_ok_iff.2 (.inl ⟨hn, rfl, rfl⟩)
  · exact refer_ok_iff.2 (.inr ⟨hn, by simp, harden_addReference .., a.harden, by simp [ha], hc⟩)

end Action

/-! ### Two walks -/

namespace Walk

variable {m m' n n' : Moment} {op op' : Option Operation} {ops ops' : List Operation} {q : Tree}

/-- Two moments of walks that have the same to do, the second of them in a store that is strict by
default. -/
structure Moment.Hardened (q : Tree) (m n : Moment) : Prop where
  frames : n.frames = m.frames
  twin : Twin (m.store.harden q) n.store
  left : m.Known fun _ => True
  right : n.Known fun _ => True

/-- An event is the same operation, but for its candidate. -/
theorem Event.operation?_hardened {s t : Store} (h : Twin (s.harden q) t) (c : ScopeId)
    (e : Event) : e.operation? t c = (e.operation? s c).map Operation.harden := by
  have hvars : (s.harden q).variableScope? c = s.variableScope? c := by
    rw [variableScope?, variableScope?, scopeAt?_harden]
    cases s.scopeAt? c <;> rfl
  rw [Event.operation?_twin h]
  cases e with
  | define target n d =>
      cases target with
      | here => rfl
      | hoisted =>
          show ((s.harden q).variableScope? c).map _ = ((s.variableScope? c).map _).map _
          rw [hvars]
          cases s.variableScope? c <;> rfl
  | refer u =>
      show ((s.harden q).scopeAt? c).map _ = ((s.scopeAt? c).map _).map _
      rw [scopeAt?_harden]
      cases s.scopeAt? c with
      | none => rfl
      | some a => cases ha : a.strict <;> simp [Scope.harden, Operation.harden, Use.harden, ha]
  | callEval =>
      show ((s.harden q).variableScope? c).map _ = ((s.variableScope? c).map _).map _
      rw [hvars]
      cases s.variableScope? c <;> rfl
  | useThis =>
      show ((s.harden q).variableScope? c).map _ = ((s.variableScope? c).map _).map _
      rw [hvars]
      cases s.variableScope? c <;> rfl
  | _ => rfl

/-- **What both walks do next keeps them side by side.** -/
theorem Moment.Hardened.apply {o : Operation} {out out' : Outcome} {s' t' : Store}
    (h : m.Hardened q n) (hq : q.truthy = true) (ho : Attempts m o) (ho' : Attempts n o.harden)
    (hop : o.applyTo m.store = (.ok out, s')) (hop' : o.harden.applyTo n.store = (.ok out', t')) :
    Twin (s'.harden q) t' := by
  have hs := h.left.good.disciplined.sound
  have ht := h.right.good.disciplined.sound
  have hs' := sound_harden hs q
  have hd := distinct_harden h.left.distinct q
  have horderly := h.left.good.orderly ho
  have horderly' := h.right.good.orderly ho'
  have happly : o.apply.outcome m.store = (.ok out, s') := hop
  have happly' : o.harden.apply.outcome n.store = (.ok out', t') := hop'
  cases o with
  | enter kind node upper =>
      obtain ⟨i, -, he⟩ := bind_pure_ok_iff.1 happly
      obtain ⟨j, -, he'⟩ := bind_pure_ok_iff.1 happly'
      obtain ⟨u, hu, htwin⟩ := enter_harden hq hs h.left.distinct he
      obtain ⟨u', hu', htwin'⟩ := h.twin.enter hs' ht hd h.right.distinct hu
      rw [he', Prod.mk.injEq] at hu'
      exact htwin.trans (hu'.2 ▸ htwin')
  | define i node d =>
      obtain ⟨w, -, hdef⟩ := bind_pure_ok_iff.1 happly
      obtain ⟨w', -, hdef'⟩ := bind_pure_ok_iff.1 happly'
      obtain ⟨v, u, hu, htwin⟩ := h.twin.define hs' ht hd h.right.distinct
        ((implicitAt_harden ..).trans (h.left.implicitAt horderly)) (h.right.implicitAt horderly')
        (define_harden q hdef)
      rw [hdef', Prod.mk.injEq] at hu
      exact hu.2 ▸ htwin
  | refer i u =>
      obtain ⟨w, -, hr⟩ := bind_pure_ok_iff.1 happly
      obtain ⟨w', -, hr'⟩ := bind_pure_ok_iff.1 happly'
      obtain ⟨v, x, hx, htwin⟩ := h.twin.refer (refer_harden q hr)
      rw [hr', Prod.mk.injEq] at hx
      exact hx.2 ▸ htwin
  | noteEval i =>
      obtain ⟨_, -, hn⟩ := bind_pure_ok_iff.1 happly
      obtain ⟨_, -, hn'⟩ := bind_pure_ok_iff.1 happly'
      obtain ⟨-, rfl⟩ := noteEval_ok_iff.1 hn
      obtain ⟨-, rfl⟩ := noteEval_ok_iff.1 hn'
      rw [harden_noteEval hs.rooted]
      exact h.twin.noteEval hs'.rooted ht.rooted i
  | noteThis i =>
      obtain ⟨_, -, hn⟩ := bind_pure_ok_iff.1 happly
      obtain ⟨_, -, hn'⟩ := bind_pure_ok_iff.1 happly'
      obtain ⟨-, rfl⟩ := noteThis_ok_iff.1 hn
      obtain ⟨-, rfl⟩ := noteThis_ok_iff.1 hn'
      rw [harden_noteThis]
      exact h.twin.noteThis i
  | close i =>
      obtain ⟨up, -, hc⟩ := Operation.applyTo_close_ok.1 hop
      obtain ⟨up', -, hc'⟩ := Operation.applyTo_close_ok.1 hop'
      have hm : m.current = some i := horderly
      have hn : n.current = some i := horderly'
      have hline : ∀ {k : Moment}, k.current = some i → i ∈ k.store.line k.current := by
        intro k hk
        rw [hk]
        exact self_mem_chain _ i
      have hleft := (close_twin hs h.left.sourced.store.own (h.left.implicitAt (hline hm)) hc).harden q
      rw [harden_updateScope (f := (·.shut)) fun _ => rfl] at hleft
      have hshut := h.twin.updateScope i (f := (·.shut))
        (g := fun o => { o with isClosed := true }) (fun _ => rfl) fun _ => rfl
      exact (hleft.symm.trans hshut).trans
        (close_twin ht h.right.sourced.store.own (h.right.implicitAt (hline hn)) hc')
  | nest _ _ _ => exact horderly.elim
  | defineArguments _ => exact horderly.elim
  | visit _ _ => exact horderly.elim

theorem Moment.Hardened.step (h : m.Hardened q n) (hq : q.truthy = true) (hs : Step m op m')
    (hs' : Step n op' n') : m'.Hardened q n' := by
  suffices hnext : n'.frames = m'.frames ∧ Twin (m'.store.harden q) n'.store from
    ⟨hnext.1, hnext.2, h.left.steps (.more hs (.refl _)), h.right.steps (.more hs' (.refl _))⟩
  obtain ⟨frames, t⟩ := n
  obtain rfl : frames = m.frames := h.frames
  have htwin := h.twin
  cases hs with
  | act he hop =>
      cases hs' with
      | act he' hop' =>
          have heq := (Event.operation?_hardened htwin _ _).symm.trans he'
          rw [he, Option.map_some, Option.some.injEq] at heq
          subst heq
          exact ⟨rfl, h.apply hq (.act he) (.act he') hop hop'⟩
      | enter => cases he
      | needScope => cases he
      | phase => cases he
      | keep => cases he
  | enter hop =>
      cases hs' with
      | act he' => cases he'
      | enter hop' =>
          have ht := h.apply hq .enter .enter hop hop'
          have hnew := (enter_opened h.left.good.disciplined.sound
            (Operation.applyTo_enter_ok.1 hop)).1
          have hnew' := (enter_opened h.right.good.disciplined.sound
            (Operation.applyTo_enter_ok.1 hop')).1
          have hsize := htwin.size_scopes
          rw [size_scopes_harden] at hsize
          exact ⟨by rw [hnew, hnew', hsize], ht⟩
  | leave hop =>
      cases hs' with
      | leave hop' => exact ⟨rfl, h.apply hq .leave .leave hop hop'⟩
  | needScope =>
      cases hs' with
      | act he' => cases he'
      | needScope => exact ⟨rfl, htwin⟩
  | phase =>
      cases hs' with
      | act he' => cases he'
      | phase => exact ⟨rfl, htwin.record _ _⟩
  | keep =>
      cases hs' with
      | act he' => cases he'
      | keep => exact ⟨rfl, htwin⟩

/-- A walk that is over goes no further. -/
theorem Moment.Over.not_step (h : m.Over) : ¬ Step m op m' := by
  obtain ⟨frames, s⟩ := m
  obtain rfl : frames = [⟨none, []⟩] := h
  rintro ⟨⟩

theorem Moment.Hardened.steps (h : m.Hardened q n) (hq : q.truthy = true) (hs : Steps m ops m')
    (hm : m'.Over) (hs' : Steps n ops' n') (hn : n'.Over) : m'.Hardened q n' := by
  have hover : ∀ {m n : Moment}, m.Hardened q n → (m.Over ↔ n.Over) := fun h => by
    rw [Moment.Over, Moment.Over, h.frames]
  induction hs generalizing n ops' with
  | refl =>
      cases hs' with
      | refl => exact h
      | more hstep _ => exact absurd hstep ((hover h).1 hm).not_step
  | more hstep _ ih =>
      cases hs' with
      | refl => exact absurd hstep ((hover h).2 hn).not_step
      | more hstep' hrest => exact ih (h.step hq hstep hstep') hm hrest

/-- Two options that differ in that the second is strict by default. -/
theorem Moment.start_hardened (o : Options) (tree q : Tree) :
    (Moment.start o tree).Hardened q (.start { o with impliedStrict := q } tree) := by
  have hstore : (Moment.start o tree).store.harden q =
      (Moment.start { o with impliedStrict := q } tree).store := by
    simp [Moment.start, Store.harden, Store.record, Store.new]
  exact ⟨rfl, hstore ▸ Twin.refl _, Moment.start_known Tree.hereditary_true _ trivial,
    Moment.start_known Tree.hereditary_true _ trivial⟩

/-- What two analyses return, the second of them strict by default, are twins but for that. -/
theorem analyze_harden {o : Options} {tree q : Tree} {s t : Store} (hq : q.truthy = true)
    (hs : analyze o tree = .ok s) (ht : analyze { o with impliedStrict := q } tree = .ok t) :
    Twin (s.harden q) t := by
  obtain ⟨ops, m, hsteps, hover, -, rfl⟩ := analyze_ok hs
  obtain ⟨ops', n, hsteps', hover', -, rfl⟩ := analyze_ok ht
  exact ((Moment.start_hardened o tree q).steps hq hsteps hover hsteps' hover').twin.record _ _

end Walk

/-! ### Two finished stores -/

namespace Store

variable {s t : Store} {q : Tree} {i : ScopeId} {r : ReferenceId} {ref ref' : Reference}
  {key : Name} {v w : VariableId} {a b : Scope}

/-- What analyses of a sole program leave, the second of them strict by default. -/
structure Hardened (s t : Store) : Prop where
  left : ∃ a, s.Sole a
  right : ∃ b, t.Sole b
  twin : ∃ q, Twin (s.harden q) t
  optimistic : t.options.optimistic = s.options.optimistic

namespace Hardened

theorem chain (h : Hardened s t) (i : ScopeId) : t.chain i = s.chain i := by
  obtain ⟨a, ha⟩ := h.left
  obtain ⟨b, hb⟩ := h.right
  obtain ⟨q, hq⟩ := h.twin
  rw [hq.chain (rooted_harden ha.sound.rooted q) hb.sound.rooted, chain_harden ha.sound.rooted]

theorem scopeAt? (h : Hardened s t) (ha : s.scopeAt? i = some a) :
    ∃ b, t.scopeAt? i = some b ∧ b.outline = a.outline.harden := by
  obtain ⟨q, hq⟩ := h.twin
  obtain ⟨b, hb, hab⟩ := hq.scopeAt? (i := i) (a := a.harden) (by rw [scopeAt?_harden, ha]; rfl)
  exact ⟨b, hb, hab⟩

theorem isBarrier (h : Hardened s t) (hab : b.outline = a.outline.harden) :
    b.isBarrier t.options = a.isBarrier s.options := by
  have hkind : b.kind = a.kind := congrArg Outline.kind hab
  have hdyn : b.dynamic = a.dynamic := congrArg Outline.dynamic hab
  rw [Scope.isBarrier, Scope.isBarrier, hkind, hdyn, h.optimistic]

/-- A reference has its likeness, without a candidate. -/
theorem referenceAt? (h : Hardened s t) (href : s.referenceAt? r = some ref)
    (href' : t.referenceAt? r = some ref') :
    ref'.toUse = ref.toUse.harden ∧ ref'.scope = ref.scope := by
  obtain ⟨q, hq⟩ := h.twin
  have hhard : (s.harden q).referenceAt? r = some ref.harden := by
    rw [referenceAt?_harden, href]; rfl
  obtain ⟨ref'', href'', huse, hscope⟩ := hq.referenceAt? hhard
  obtain rfl := Option.some.inj (href'.symm.trans href'')
  exact ⟨huse, hscope⟩

theorem candidate (h : Hardened s t) (href' : t.referenceAt? r = some ref') :
    ref'.candidate = none := by
  obtain ⟨q, hq⟩ := h.twin
  obtain ⟨ref, href, huse, -⟩ := hq.symm.referenceAt? href'
  obtain ⟨x, -, rfl⟩ := Option.map_eq_some_iff.1 ((referenceAt?_harden s q r).symm.trans href)
  rw [← huse]
  rfl

/-- **Strict by default, there are no implicit globals**: nothing that could ask for one arrives. -/
theorem implicit (h : Hardened s t) (hb : t.scopeAt? i = some b) : b.implicit = [] := by
  obtain ⟨c, hc⟩ := h.right
  by_cases hk : b.kind = .global
  · obtain ⟨hexplained, hnames, -⟩ := hc.globals i b hb hk
    refine List.eq_nil_iff_forall_not_mem.2 fun e he => ?_
    have hfind := Table.find?_of_mem hnames he
    obtain ⟨r, hr⟩ := List.exists_mem_of_ne_nil _ ((hexplained e.1).arrived (by rw [hfind]; rfl))
    obtain ⟨ref', href', hcand, -⟩ := mem_arrivals_iff.1 hr
    rw [h.candidate href'] at hcand
    cases hcand
  · exact hc.bare i b hb hk

/-- What was declared in a scope is all that is bound in its likeness. -/
theorem find?_iff (h : Hardened s t) (ha : s.scopeAt? i = some a) (hb : t.scopeAt? i = some b) :
    (∃ w, b.table.find? key = some w) ↔
      (∃ v, a.table.find? key = some v) ∧ a.implicit.find? key = none := by
  obtain ⟨c, hc⟩ := h.left
  obtain ⟨d, hd⟩ := h.right
  obtain ⟨q, hq⟩ := h.twin
  have ha' : (s.harden q).scopeAt? i = some a.harden := by rw [scopeAt?_harden, ha]; rfl
  constructor
  · rintro ⟨w, hw⟩
    have hnone : b.implicit.find? key = none := by rw [h.implicit hb]; rfl
    obtain ⟨v, hv, hi⟩ :=
      hq.symm.find?_declared hd.sound (distinct_harden hc.distinct q) hb ha' hw hnone
    exact ⟨⟨v, hv⟩, hi⟩
  · rintro ⟨⟨v, hv⟩, hi⟩
    obtain ⟨w, hw, -⟩ := hq.find?_declared (sound_harden hc.sound q) hd.distinct ha' hb hv hi
    exact ⟨w, hw⟩

/-- Variables of one name that were declared in a scope and its likeness are the same but for their
references. -/
theorem unused (h : Hardened s t) (ha : s.scopeAt? i = some a) (hb : t.scopeAt? i = some b)
    (hf : a.table.find? key = some v) (hi : a.implicit.find? key = none)
    (hf' : b.table.find? key = some w) :
    ∃ x y, s.variableAt? v = some x ∧ t.variableAt? w = some y ∧ y.unused = x.unused := by
  obtain ⟨c, hc⟩ := h.left
  obtain ⟨d, hd⟩ := h.right
  obtain ⟨q, hq⟩ := h.twin
  obtain ⟨x, hx, -⟩ := hc.sound.of_find? ha hf
  have ha' : (s.harden q).scopeAt? i = some a.harden := by rw [scopeAt?_harden, ha]; rfl
  obtain ⟨w', y, hw', -, hy, hxy⟩ := hq.unused hd.distinct ha' hb hf hi hx
  obtain rfl := Option.some.inj (hf'.symm.trans hw')
  exact ⟨x, y, hx, hy, hxy⟩

/-- Scopes that let a name pass let it pass. -/
theorem clear (h : Hardened s t) {l : List ScopeId}
    (hc : s.Clear (fun _ => True) (some key) l) : t.Clear (fun _ => True) (some key) l := by
  intro j hj
  obtain ⟨-, a, k, ha, hbar, hk, hf⟩ := hc j hj
  obtain ⟨b, hb, hab⟩ := h.scopeAt? ha
  refine ⟨trivial, b, k, hb, by rw [h.isBarrier hab, hbar], hk, ?_⟩
  rw [Option.eq_none_iff_forall_ne_some]
  intro w hw
  obtain ⟨⟨v, hv⟩, -⟩ := (h.find?_iff ha hb).1 ⟨w, hw⟩
  rw [hf] at hv
  cases hv

/-- **What is resolved to something declared is resolved to the same.** -/
theorem kept (h : Hardened s t) (href : s.referenceAt? r = some ref)
    (href' : t.referenceAt? r = some ref') (hv : ref.resolved = some v)
    (hi : ∀ i key, ¬ s.IsImplicit i key v) : ∃ w x y, ref'.resolved = some w ∧
      s.variableAt? v = some x ∧ t.variableAt? w = some y ∧ y.unused = x.unused := by
  obtain ⟨c, hc⟩ := h.left
  obtain ⟨d, hd⟩ := h.right
  obtain ⟨l, i, rest, a, key, hl, hclear, -, ha, hbar, hk, hf⟩ :=
    (hc.verdict r ref href).resolved v hv
  obtain ⟨huse, hscope⟩ := h.referenceAt? href href'
  obtain ⟨b, hb, hab⟩ := h.scopeAt? ha
  have hnone : a.implicit.find? key = none := by
    rw [Option.eq_none_iff_forall_ne_some]
    intro u hu
    have hkind : a.kind = .global := by
      by_contra hkind
      rw [hc.bare i a ha hkind] at hu
      cases hu
    have hbound := (((hc.globals i a ha hkind).1 key).bound u hu).symm.trans hf
    exact hi i key ⟨a, ha, hkind, Option.some.inj hbound ▸ hu⟩
  obtain ⟨w, hw⟩ := (h.find?_iff ha hb).2 ⟨⟨v, hf⟩, hnone⟩
  obtain ⟨x, y, hx, hy, hxy⟩ := h.unused ha hb hf hnone hw
  have hk' : Name.ofTree? ref'.name = some key := by rw [Reference.name, huse]; exact hk
  rw [hk] at hclear
  exact ⟨w, x, y, hd.toFinished.resolved href' hk' (by rw [h.chain, hscope, hl])
    (h.clear (hclear.mono fun _ _ => trivial)) hb (by rw [h.isBarrier hab, hbar]) hw, hx, hy, hxy⟩

/-- What is resolved in the strict store is resolved in the other. -/
theorem missed (h : Hardened s t) (href : s.referenceAt? r = some ref)
    (href' : t.referenceAt? r = some ref') (hnone : ref.resolved = none) :
    ref'.resolved = none := by
  obtain ⟨c, hc⟩ := h.left
  obtain ⟨d, hd⟩ := h.right
  rw [Option.eq_none_iff_forall_ne_some]
  intro w hw
  obtain ⟨l, i, rest, b, key, hl, hclear, -, hb, hbar, hk, hf⟩ :=
    (hd.verdict r ref' href').resolved w hw
  obtain ⟨huse, hscope⟩ := h.referenceAt? href href'
  have hk' : Name.ofTree? ref.name = some key := by
    rw [Reference.name, huse] at hk
    exact hk
  have hat : ∀ {j b}, t.scopeAt? j = some b → ∃ a, s.scopeAt? j = some a := fun hb => by
    obtain ⟨q, hq⟩ := h.twin
    obtain ⟨a, ha⟩ := scopeAt?_of_lt ((scopeAt?_lt hb).trans_eq (hq.size_scopes))
    obtain ⟨x, hx, -⟩ := Option.map_eq_some_iff.1 ((scopeAt?_harden s q _).symm.trans ha)
    exact ⟨x, hx⟩
  obtain ⟨a, ha⟩ := hat hb
  obtain ⟨b', hb', hab⟩ := h.scopeAt? ha
  obtain rfl := Option.some.inj (hb.symm.trans hb')
  obtain ⟨⟨v, hv⟩, -⟩ := (h.find?_iff ha hb).1 ⟨w, hf⟩
  have hl' : s.chain ref.scope = l ++ i :: rest := by rw [← h.chain, ← hscope, hl]
  -- Only the last scope of a chain can have implicit variables, and the way goes on after these.
  have hpass : s.Clear (fun _ => True) (some key) l := by
    intro j hj
    obtain ⟨-, e, k, he, hebar, hek, hef⟩ := hclear j hj
    obtain ⟨x, hx⟩ := hat he
    obtain ⟨e', he', hxe⟩ := h.scopeAt? hx
    obtain rfl := Option.some.inj (he.symm.trans he')
    rw [hk] at hek
    obtain rfl := Option.some.inj hek
    refine ⟨trivial, x, key, hx, by rw [← h.isBarrier hxe, hebar], rfl, ?_⟩
    rw [Option.eq_none_iff_forall_ne_some]
    intro u hu
    have hne : j ≠ 0 := by
      rintro rfl
      obtain ⟨l₁, l₂, rfl⟩ := List.append_of_mem hj
      rw [List.append_assoc, List.cons_append] at hl'
      have hzero := chain_of_split hc.sound.rooted hl'
      have hmem : i ∈ s.chain 0 := hzero ▸ List.mem_cons_of_mem _ (by simp)
      obtain rfl := Nat.le_zero.1 (le_of_mem_chain hc.sound.rooted hmem)
      have hnodup := nodup_chain hc.sound.rooted 0
      rw [hzero] at hnodup
      exact (List.nodup_cons.1 hnodup).1 (by simp)
    obtain ⟨y, hy⟩ := (h.find?_iff hx he).2 ⟨⟨u, hu⟩, by rw [(hc.others hx hne).2]; rfl⟩
    rw [hef] at hy
    cases hy
  rw [hc.toFinished.resolved href hk' hl' hpass ha (by rw [← h.isBarrier hab, hbar]) hv] at hnone
  cases hnone

/-- **What is resolved to an implicit global is resolved to nothing**, and leaves all scopes. -/
theorem lost (h : Hardened s t) (href : s.referenceAt? r = some ref)
    (href' : t.referenceAt? r = some ref') (hv : ref.resolved = some v)
    (hi : s.IsImplicit i key v) : ref'.resolved = none ∧
      ∀ j ∈ t.chain ref'.scope, r ∈ t.throughAt j := by
  obtain ⟨c, hc⟩ := h.left
  obtain ⟨d, hd⟩ := h.right
  obtain ⟨e, he, hekind, heimp⟩ := hi
  obtain ⟨l, i', rest, a, key', hl, hclear, -, ha, hbar, hk, hf⟩ :=
    (hc.verdict r ref href).resolved v hv
  obtain ⟨huse, hscope⟩ := h.referenceAt? href href'
  -- The variable is in one scope, under one name.
  have hbound := ((hc.globals i e he hekind).1 key).bound v heimp
  obtain ⟨rfl, rfl⟩ :=
    hc.sound.entry_unique he (Table.mem_of_find? hbound) ha (Table.mem_of_find? hf)
  obtain rfl := Option.some.inj (ha.symm.trans he)
  obtain rfl := hc.only i a ha hekind
  obtain ⟨b, hb, hab⟩ := h.scopeAt? ha
  rw [hk] at hclear
  have hnone : b.table.find? key = none := by
    rw [Option.eq_none_iff_forall_ne_some]
    intro w hw
    have himp := ((h.find?_iff ha hb).1 ⟨w, hw⟩).2
    rw [heimp] at himp
    cases himp
  have hl' : t.chain ref'.scope = l ++ 0 :: rest := by rw [h.chain, hscope, hl]
  have hend : (0 : Nat) :: rest = [0] :=
    (chain_of_split hd.sound.rooted hl').symm.trans (chain_top hd.sound.rooted (by
      rw [Option.eq_none_iff_forall_ne_some]
      exact fun u hu => Nat.not_lt_zero u (hd.sound.rooted 0 u hu)))
  have hall : t.Clear (fun _ => True) (some key) (t.chain ref'.scope) := by
    rw [hl', hend]
    intro j hj
    rcases List.mem_append.1 hj with hj | hj
    · exact h.clear (hclear.mono fun _ _ => trivial) j hj
    · obtain rfl := List.mem_singleton.1 hj
      exact ⟨trivial, b, key, hb, by rw [h.isBarrier hab, hbar], rfl, hnone⟩
  have hres : ref'.resolved = none := by
    have hk' : Name.ofTree? ref'.name = some key := by rw [Reference.name, huse]; exact hk
    have hlookup := lookupAlong_clear hall []
    rw [List.append_nil] at hlookup
    rw [(hd.verdict r ref' href').eq_lookup hd.closed, lookup?, hk', Option.bind_some, hlookup]
    rfl
  refine ⟨hres, fun j hj => ?_⟩
  obtain ⟨w, hw⟩ := hd.books.account r ref' href'
  have hesc : t.ahead w = [] := by
    cases w with
    | pending i => exact absurd (isOpen_of_pendingAt hw.waits) (hd.closed i)
    | resolved v => have := hw.resolved; rw [hres] at this; cases this
    | escaped => rfl
  have hcount := hw.count_throughAt hd.sound j
  rw [hesc, if_pos ⟨hj, List.not_mem_nil⟩] at hcount
  exact List.count_pos_iff.1 (by rw [hcount]; exact Nat.one_pos)

end Hardened

/-- What `t` knows is what `s` knows, but that all is strict and nothing is made for writes. -/
structure StricterTo (s t : Store) : Prop where
  scope : ∀ i, t.outlineAt? i = (s.outlineAt? i).map fun a => { a with strict := true }
  use : ∀ r, t.useAt? r = (s.useAt? r).map fun u => ({ u.1 with candidate := none }, u.2)
  declared : ∀ i, t.declared i = s.declared i
  implicit : ∀ i b, t.scopeAt? i = some b → b.implicit = []
  kept : ∀ r ref ref' v, s.referenceAt? r = some ref → t.referenceAt? r = some ref' →
    ref.resolved = some v → (∀ i key, ¬ s.IsImplicit i key v) →
    ∃ w x y, ref'.resolved = some w ∧ s.variableAt? v = some x ∧ t.variableAt? w = some y ∧
      y.unused = x.unused
  lost : ∀ r ref ref' v i key, s.referenceAt? r = some ref → t.referenceAt? r = some ref' →
    ref.resolved = some v → s.IsImplicit i key v → ref'.resolved = none ∧
      (∃ g, t.global = some g ∧ g ∈ t.chain ref'.scope) ∧
      ∀ j ∈ t.chain ref'.scope, r ∈ t.throughAt j
  missed : ∀ r ref ref', s.referenceAt? r = some ref → t.referenceAt? r = some ref' →
    ref.resolved = none → ref'.resolved = none

theorem Hardened.stricterTo (h : Hardened s t) : s.StricterTo t := by
  obtain ⟨d, hd⟩ := h.right
  obtain ⟨q, hq⟩ := h.twin
  refine ⟨fun i => ?_, fun r => ?_, fun i => ?_, fun _ _ => h.implicit,
    fun _ _ _ _ => h.kept, fun r ref ref' v i key href href' hv hi => ?_, fun _ _ _ => h.missed⟩
  · rw [hq.outline, outlineAt?_harden]
    rfl
  · rw [hq.use, useAt?_harden]
    rfl
  · rw [hq.declared, declared_harden]
  · obtain ⟨hnone, hall⟩ := h.lost href href' hv hi
    exact ⟨hnone, ⟨0, hd.global, hd.below _ (hd.books.home r ref' href')⟩, hall⟩

end Store

open Walk in
/-- **Strict mode by default only removes implicit globals.**  If a program with a sole program node
is analyzed by two options that differ in that the second are strict by default, what was declared
and used is the same.  The strict analysis makes no variables for writes; what the other resolves to
one of them leaves all scopes unresolved, and everything else is resolved to the same or to nothing
in both. -/
theorem analyze_hardened {o : Options} {tree p q : Tree} {s t : Store} (h : tree.SoleProgram)
    (hq : q.truthy = true)
    (hs : analyze { o with impliedStrict := p } tree = .ok s)
    (ht : analyze { o with impliedStrict := q } tree = .ok t) : s.StricterTo t :=
  Hardened.stricterTo ⟨analyze_sole h hs, analyze_sole h ht,
    ⟨q, analyze_harden (o := { o with impliedStrict := p }) hq hs ht⟩, by
      rw [analyze_options hs, analyze_options ht]⟩

/-- `var y; y; x = 1; x`. -/
def sloppyWrite : Tree :=
  let name (text : String) : Tree := .obj [("type", .str "Identifier"), ("name", .str text)]
  let state (expression : Tree) : Tree :=
    .obj [("type", .str "ExpressionStatement"), ("expression", expression)]
  .obj [("type", .str "Program"), ("body", .arr [
    .obj [("type", .str "VariableDeclaration"), ("kind", .str "var"), ("declarations", .arr [
      .obj [("type", .str "VariableDeclarator"), ("id", name "y"), ("init", .null)]])],
    state (name "y"),
    state (.obj [("type", .str "AssignmentExpression"), ("operator", .str "="),
      ("left", name "x"), ("right", .obj [("type", .str "Literal"), ("value", .int 1)])]),
    state (name "x")])]

/-- By default the read of `x` in the sample is resolved to a variable that was made for the write;
in strict mode it is resolved to nothing and leaves the program. -/
theorem sloppyWrite_hardened : sloppyWrite.SoleProgram ∧ (Tree.bool true).truthy = true ∧
    ∃ s t ref ref', analyze { impliedStrict := .bool false } sloppyWrite = .ok s ∧
      analyze { impliedStrict := .bool true } sloppyWrite = .ok t ∧
      s.referenceAt? 2 = some ref ∧ ref.resolved = some 1 ∧
      t.referenceAt? 2 = some ref' ∧ ref'.resolved = none ∧
      ∀ j ∈ t.chain ref'.scope, 2 ∈ t.throughAt j := by
  have hsole : sloppyWrite.SoleProgram := by decide
  have hleft : (analyze { impliedStrict := .bool false } sloppyWrite).toOption.map (fun s =>
      ((s.referenceAt? 2).map fun ref => ref.resolved,
        (s.scopeAt? 0).map fun a => (a.kind, a.implicit))) =
      some (some (some 1), some (.global, [(.text "x", 1)])) := by
    decide +kernel
  have hright : (analyze { impliedStrict := .bool true } sloppyWrite).toOption.map (fun t =>
      (t.referenceAt? 2).isSome) = some true := by
    decide +kernel
  cases hs : analyze { impliedStrict := .bool false } sloppyWrite with
  | error e => rw [hs] at hleft; cases hleft
  | ok s =>
      cases ht : analyze { impliedStrict := .bool true } sloppyWrite with
      | error e => rw [ht] at hright; cases hright
      | ok t =>
          rw [hs] at hleft
          rw [ht] at hright
          simp only [Except.toOption, Option.map_some, Option.some.injEq, Prod.mk.injEq,
            Option.map_eq_some_iff] at hleft hright
          obtain ⟨⟨ref, href, hv⟩, a, ha, hkind, himp⟩ := hleft
          obtain ⟨ref', href'⟩ := Option.isSome_iff_exists.1 hright
          have hi : s.IsImplicit 0 (.text "x") 1 := ⟨a, ha, hkind, by rw [himp]; rfl⟩
          obtain ⟨hnone, -, hall⟩ := (analyze_hardened (o := {}) hsole rfl hs ht).lost 2 ref ref' 1 0
            (.text "x") href href' hv hi
          exact ⟨hsole, rfl, s, t, ref, ref', rfl, rfl, href, hv, href', hnone, hall⟩

end LexScope
