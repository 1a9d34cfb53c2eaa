import LexScope.Proofs.Ledger

/-!
# Proofs — Whereabouts — no reference is lost or duplicated

A store is *reached* if scopes were opened, names bound, references made, flags set and scopes
closed in it, in any order and in any scopes, and no close failed (`Reached`).  Every other
operation may fail.

* `Books.applyTo`: every such operation keeps the books.
* `Reached.whereabouts`: every reference is in exactly one place, and the pending lists, the
  references of the variables and the `through` lists say the same.
-/

namespace LexScope

open Store LexScope.Action

/-- Whether an operation may be carried out by hand: everything but a walk, and no close that
fails. -/
def Operation.Admitted (s : Store) : Operation → Prop
  | .visit _ _ => False
  | .close i => ∃ out, ((Operation.close i).applyTo s).1 = .ok out
  | _ => True

namespace Store

/-- The stores that operations lead to. -/
inductive Reached (o : Options) : Store → Prop where
  | new : Reached o (.new o)
  | step {s : Store} (op : Operation) (h : Reached o s) (ha : op.Admitted s) :
      Reached o (op.applyTo s).2

variable {A : ScopeId → Prop} {s t : Store} {o : Options} {r : ReferenceId} {ref : Reference}
  {w : Whereabouts}

/-! ### Every operation keeps the books -/

theorem Sound.new (o : Options) : (Store.new o).Sound := by
  have hnone : ∀ i, (Store.new o).scopeAt? i = none := fun _ => rfl
  refine ⟨fun i u h => ?_, fun i a h => ?_, fun i a key v h _ => ?_, fun i a e h _ => ?_⟩
  · rw [upperOf, hnone] at h; cases h
  · rw [hnone] at h; cases h
  · rw [hnone] at h; cases h
  · rw [hnone] at h; cases h

theorem Books.new (o : Options) :
    (Store.new o).Books (Store.new o).pendingAt (Store.new o).IsClosed := by
  have hscope : ∀ i, (Store.new o).scopeAt? i = none := fun _ => rfl
  have href : ∀ r, (Store.new o).referenceAt? r = none := fun _ => rfl
  refine ⟨.new o, fun i r h => isOpen_of_pendingAt h, ?_, ?_,
    fun r _ => ⟨fun _ => rfl, fun _ => rfl, fun _ => rfl⟩, ?_⟩
  · intro i hi
    obtain ⟨a, ha, -⟩ := hi
    rw [hscope] at ha; cases ha
  · intro r ref h
    rw [href] at h; cases h
  · intro r ref h
    rw [href] at h; cases h

theorem Books.quietly (h : s.Books s.pendingAt s.IsClosed) (hq : Quiets A s t) :
    t.Books t.pendingAt t.IsClosed := by
  have hpend : t.pendingAt = s.pendingAt := funext hq.sameNotes.pending
  rw [hpend]
  refine (h.quiets hq).mono (fun i ⟨a, ha, hc⟩ => ?_) fun i ⟨a, ha, _⟩ => scopeAt?_lt ha
  obtain ⟨b, hb, hev, -⟩ := (hq.changes.evolves h.sound).scope i a ha
  exact ⟨b, hb, hev.closed hc⟩

theorem Books.refer {i : ScopeId} {u : Use} {res : Except Error (Option ReferenceId)}
    (h : s.Books s.pendingAt s.IsClosed) (hr : (Action.refer i u).outcome s = (res, t)) :
    t.Books t.pendingAt t.IsClosed := by
  cases res with
  | error e => rw [(refer_error hr).1]; exact h
  | ok w =>
      obtain ⟨-, -, rfl⟩ | ⟨-, -, rfl, scope, hs, hc⟩ := refer_ok_iff.1 hr
      · exact h
      · refine (h.addReference ⟨scope, hs, hc⟩).mono (fun j ⟨a, ha, hcl⟩ => ?_)
          fun j ⟨a, ha, _⟩ => scopeAt?_lt ha
        have hE : Evolves (fun _ => True) s (s.addReference i u) :=
          Changes.evolves (.single (.addReference u trivial)) h.sound
        obtain ⟨b, hb, hev, -⟩ := hE.scope j a ha
        exact ⟨b, hb, hev.closed hcl⟩

/-- **Every operation by hand keeps the books.** -/
theorem Books.applyTo {op : Operation} (h : s.Books s.pendingAt s.IsClosed) (ha : op.Admitted s) :
    (op.applyTo s).2.Books (op.applyTo s).2.pendingAt (op.applyTo s).2.IsClosed := by
  show (op.apply.outcome s).2.Books (op.apply.outcome s).2.pendingAt (op.apply.outcome s).2.IsClosed
  cases op with
  | nest n upper isMethod =>
      rw [Operation.apply, outcome_bind_pure]
      exact h.quietly (nest_quiets rfl)
  | enter kind n upper =>
      rw [Operation.apply, outcome_bind_pure]
      exact h.quietly (enter_quiets (A := fun _ => True) rfl (fun _ _ => trivial) trivial)
  | define i n d =>
      rw [Operation.apply, outcome_bind_pure]
      exact h.quietly (define_quiets (A := fun _ => True) rfl trivial)
  | defineArguments i =>
      rw [Operation.apply]
      cases hs : s.scopeAt? i with
      | none =>
          rw [outcome_bind_of_error (scopeAt_error_iff.2 ⟨hs, rfl, rfl⟩)]
          exact h
      | some scope =>
          rw [outcome_bind_of_ok (scopeAt_ok_iff.2 ⟨hs, rfl⟩), outcome_bind_pure]
          exact h.quietly (defineArguments_quiets (A := fun _ => True) rfl hs trivial)
  | refer i u =>
      rw [Operation.apply, outcome_bind_pure]
      exact h.refer rfl
  | noteEval i =>
      rw [Operation.apply, outcome_bind_pure]
      exact h.quietly (Action.noteEval_quiets (A := fun _ => True) rfl fun _ _ => trivial)
  | noteThis i =>
      rw [Operation.apply, outcome_bind_pure]
      exact h.quietly (Action.noteThis_quiets (A := fun _ => True) rfl trivial)
  | visit n current => exact ha.elim
  | close i =>
      obtain ⟨out, ho⟩ := ha
      have hclose : ((Operation.close i).apply).outcome s =
          (.ok out, ((Operation.close i).applyTo s).2) := Prod.ext ho rfl
      obtain ⟨up, t, hc, hp⟩ := bind_ok_iff.1 hclose
      obtain ⟨-, ht⟩ := pure_ok_iff.1 hp
      rw [hclose, ht]
      exact h.close hc

theorem Reached.books (h : Reached o s) : s.Books s.pendingAt s.IsClosed := by
  induction h with
  | new => exact .new o
  | step op _ ha ih => exact ih.applyTo ha

/-! ### Where every reference is -/

/-- A reference is at a place. -/
def IsAt (s : Store) (r : ReferenceId) (ref : Reference) : Whereabouts → Prop
  | .pending i => ref.resolved = none ∧ i ∈ s.chain ref.scope ∧ s.IsOpen i ∧
      (s.pendingAt i).count r = 1 ∧ ∀ j, j ≠ i → r ∉ s.pendingAt j
  | .resolved v => ref.resolved = some v ∧ ∃ var, s.variableAt? v = some var ∧
      s.IsClosed var.scope ∧ var.scope ∈ s.chain ref.scope ∧ var.references.count r = 1 ∧
      ∃ key, Name.ofTree? var.name = some key ∧ Name.ofTree? ref.name = some key
  | .escaped => ref.resolved = none ∧ ∀ j, r ∉ s.pendingAt j

theorem Account.isAt (h : s.Account s.pendingAt s.IsClosed r ref w) : s.IsAt r ref w := by
  obtain ⟨behind, hb, -⟩ := h.way
  have hpend : ∀ j, w ≠ .pending j → r ∉ s.pendingAt j := fun j hj =>
    List.count_eq_zero.1 ((h.pending j).trans (if_neg hj))
  cases w with
  | pending i =>
      refine ⟨h.resolved, ?_, isOpen_of_pendingAt h.waits, (h.pending i).trans (if_pos rfl),
        fun j hj => hpend j fun e => hj (Whereabouts.pending.inj e).symm⟩
      rw [hb]
      exact List.mem_append_right _ (self_mem_chain s i)
  | escaped => exact ⟨h.resolved, fun j => hpend j nofun⟩
  | resolved v =>
      obtain ⟨var, hvar, hc, hk⟩ := h.bound v rfl
      refine ⟨h.resolved, var, hvar, hc, ?_, ?_, hk⟩
      · rw [hb]
        simp only [Store.ahead, hvar, Option.elim_some]
        exact List.mem_append_right _ (self_mem_chain s var.scope)
      · have := h.links v
        simpa [linksOf, hvar] using this

/-- A reference is nowhere else than its account says. -/
theorem Account.eq_of_isAt (h : s.Account s.pendingAt s.IsClosed r ref w) {w' : Whereabouts}
    (hw : s.IsAt r ref w') : w' = w := by
  cases w' with
  | pending i =>
      obtain ⟨-, -, -, hc, -⟩ := hw
      exact (h.of_mem (List.count_pos_iff.1 (by omega))).symm
  | resolved v =>
      have hv := hw.1.symm.trans h.resolved
      cases w with
      | resolved v' => rw [Option.some.inj hv]
      | pending i => cases hv
      | escaped => cases hv
  | escaped =>
      have hv := hw.1.symm.trans h.resolved
      cases w with
      | resolved v' => cases hv
      | pending i => exact absurd h.waits (hw.2 i)
      | escaped => rfl

/-- A reference has left exactly the scopes that it has behind it, and each once. -/
theorem Account.count_throughAt {P : ScopeId → List ReferenceId} {D : ScopeId → Prop}
    (h : s.Account P D r ref w) (hs : s.Sound) (j : ScopeId) :
    (s.throughAt j).count r = if j ∈ s.chain ref.scope ∧ j ∉ s.ahead w then 1 else 0 := by
  obtain ⟨behind, hb, hc⟩ := h.way
  have hnodup := nodup_chain hs.rooted ref.scope
  rw [hb] at hnodup ⊢
  obtain ⟨hn, -, hdis⟩ := List.nodup_append'.1 hnodup
  rw [hc, List.Nodup.count hn]
  by_cases hj : j ∈ behind
  · have : j ∉ s.ahead w := fun hj' => hdis hj hj'
    simp [hj, this]
  · simp [hj]

/-- **No reference is lost or duplicated.**  Every reference waits in one open scope, was resolved
to a variable of a closed scope, or escaped; it waits nowhere else and is noted with no other
variable; and it is in the `through` list of exactly those scopes of its chain that it has left,
once. -/
theorem Reached.whereabouts (h : Reached o s) (hr : s.referenceAt? r = some ref) :
    (∃! w, s.IsAt r ref w) ∧ ∀ w, s.IsAt r ref w →
      (∀ j, r ∈ s.pendingAt j → w = .pending j) ∧ (∀ v, r ∈ s.linksOf v → w = .resolved v) ∧
      ∀ j, (s.throughAt j).count r = if j ∈ s.chain ref.scope ∧ j ∉ s.ahead w then 1 else 0 := by
  obtain ⟨w, hw⟩ := h.books.account r ref hr
  refine ⟨⟨w, hw.isAt, fun w' hw' => hw.eq_of_isAt hw'⟩, fun w' hw' => ?_⟩
  rw [hw.eq_of_isAt hw']
  refine ⟨fun j hj => hw.of_mem hj, fun v hv => ?_, hw.count_throughAt h.books.sound⟩
  by_contra hne
  have := hw.links v
  rw [if_neg hne] at this
  exact List.count_eq_zero.1 this hv

/-- A use of `x` in a block below a program that binds it, settled in two closes. -/
def sampleOperations : List Operation :=
  let x : Node := ⟨[.item 0], .obj [("type", .str "Identifier"), ("name", .str "x")]⟩
  let program : Node := ⟨[], .obj [("type", .str "Program")]⟩
  let block : Node := ⟨[.item 1], .obj [("type", .str "BlockStatement")]⟩
  [.enter .global program none, .enter .block block (some 0), .refer 1 { identifier := x },
    .define 0 x { kind := .variable, name := x, node := program }, .close 1, .close 0]

/-- The store after some operations. -/
def after (s : Store) (ops : List Operation) : Store := ops.foldl (fun s op => (op.applyTo s).2) s

theorem sample_reached : Reached {} ((Store.new {}).after sampleOperations) :=
  .step _ (.step _ (.step _ (.step _ (.step _ (.step _ .new trivial) trivial) trivial) trivial)
    ⟨.closed (some 0), by decide +kernel⟩) ⟨.closed none, by decide +kernel⟩

theorem whereabouts_sample : ∃ ref,
    ((Store.new {}).after sampleOperations).referenceAt? 0 = some ref ∧
      ref.resolved = some 0 ∧ ∃! w, ((Store.new {}).after sampleOperations).IsAt 0 ref w := by
  have href : ∃ ref, ((Store.new {}).after sampleOperations).referenceAt? 0 = some ref ∧
      ref.resolved = some 0 := ⟨_, rfl, by decide +kernel⟩
  obtain ⟨ref, hr, hv⟩ := href
  exact ⟨ref, hr, hv, (Reached.whereabouts sample_reached hr).1⟩

end Store

end LexScope
