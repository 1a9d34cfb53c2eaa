import LexScope.Proofs.Discipline

/-!
# Proofs — Course — the course of a walk over a program

A moment is *good* when the store is disciplined, each scope of the walk lies directly below the
next one, and what is still to happen in a scope leaves alone what its node owns (`Moment.Good`).

* `Good.step`: a step from a good moment carries out an orderly operation, if any, and leads to a
  good moment.
* `Good.fails`: a walk stops at a good moment only for what the tree holds.
* `Good.ends`: every walk ends, over or stopped.
-/

namespace LexScope.Walk

open Store LexScope.Action

/-- Each scope lies directly below the next one, and the last one is none. -/
def Linked (s : Store) : List Frame → Prop
  | [] => False
  | [f] => f.scope = none
  | f :: g :: rest =>
      (∃ i, f.scope = some i ∧ i < s.scopes.size ∧ s.upperOf i = g.scope) ∧ Linked s (g :: rest)

/-- The place of the node that a scope belongs to. -/
def ownerOf (s : Store) (current : Option ScopeId) : Option Path :=
  (current.bind s.scopeAt?).bind (·.block.place)

/-- A moment of an orderly walk. -/
structure Moment.Good (m : Moment) : Prop where
  disciplined : m.store.Disciplined m.current
  linked : Linked m.store m.frames
  tidy : ∀ f ∈ m.frames, AllTidy (ownerOf m.store f.scope) f.todo

variable {A : ScopeId → Prop} {s t : Store} {m m' : Moment} {op : Option Operation}
  {frames : List Frame}

theorem Linked.of_mem (h : Linked s frames) {f : Frame} (hf : f ∈ frames) {i : ScopeId}
    (hi : f.scope = some i) : i < s.scopes.size := by
  induction frames with
  | nil => cases hf
  | cons g rest ih =>
      cases rest with
      | nil =>
          rw [List.mem_singleton.1 hf, show g.scope = none from h] at hi
          cases hi
      | cons k rest =>
          obtain ⟨⟨j, hj, hlt, -⟩, h⟩ := h
          rcases List.mem_cons.1 hf with rfl | hf
          · rw [hj, Option.some.injEq] at hi
            exact hi ▸ hlt
          · exact ih h hf

/-- Whatever is done to a store, its scopes stay below one another. -/
theorem Linked.evolves (h : Linked s frames) (hE : Evolves A s t) : Linked t frames := by
  induction frames with
  | nil => exact h
  | cons f rest ih =>
      cases rest with
      | nil => exact h
      | cons g rest =>
          obtain ⟨⟨i, hi, hlt, hu⟩, h⟩ := h
          exact ⟨⟨i, hi, hE.lt hlt, (hE.upperOf hlt).trans hu⟩, ih h⟩

theorem ownerOf_evolves (hE : Evolves A s t) {c : Option ScopeId}
    (hc : ∀ i, c = some i → i < s.scopes.size) : ownerOf t c = ownerOf s c := by
  cases c with
  | none => rfl
  | some i =>
      obtain ⟨a, ha⟩ := scopeAt?_of_lt (hc i rfl)
      obtain ⟨b, hb, hev, -⟩ := hE.scope i a ha
      simp only [ownerOf, Option.bind_some, ha, hb, Scope.block_of_frame hev.frame]

/-- What is still to happen stays tidy, whatever is done to the store. -/
theorem tidy_evolves (hE : Evolves A s t) (hl : Linked s frames)
    (h : ∀ f ∈ frames, AllTidy (ownerOf s f.scope) f.todo) :
    ∀ f ∈ frames, AllTidy (ownerOf t f.scope) f.todo := by
  intro f hf
  rw [ownerOf_evolves hE fun i hi => hl.of_mem hf hi]
  exact h f hf

/-! ### The next operation is orderly -/

theorem Event.orderly {e : Event} {c : ScopeId} {op : Operation} (h : s.Disciplined (some c))
    (he : e.operation? s c = some op) :
    op.Orderly s (some c) ∧ op.next s (some c) = some c := by
  have hvars : ∀ {j : ScopeId}, s.variableScope? c = some j → j ∈ s.chain c := by
    intro j hj
    obtain ⟨a, ha, rfl⟩ := Option.map_eq_some_iff.1 hj
    exact h.sound.varScope c a ha
  cases e with
  | define target n d =>
      obtain ⟨j, hj, rfl⟩ := Option.map_eq_some_iff.1 he
      refine ⟨?_, rfl⟩
      cases target with
      | here => rw [← Option.some.inj hj]; exact self_mem_chain s c
      | hoisted => exact hvars hj
  | refer u =>
      obtain ⟨a, -, rfl⟩ := Option.map_eq_some_iff.1 he
      exact ⟨rfl, rfl⟩
  | callEval =>
      obtain ⟨j, hj, rfl⟩ := Option.map_eq_some_iff.1 he
      exact ⟨hvars hj, rfl⟩
  | useThis =>
      obtain ⟨j, hj, rfl⟩ := Option.map_eq_some_iff.1 he
      exact ⟨hvars hj, rfl⟩
  | _ => cases he

/-- Recording something keeps the discipline. -/
theorem Disciplined.record {c : Option ScopeId} (h : s.Disciplined c) (entry : LogRecord) :
    (s.record entry).Disciplined c := by
  have hq : Quiets (fun _ => True) s (s.record entry) := .single (.record entry)
  exact h.of_steady (h.books.quietly hq) (hq.changes.evolves h.sound) ⟨rfl, fun _ => id⟩

/-- A frame whose first event has happened. -/
theorem Moment.Good.advance {c : Option ScopeId} {e : Event} {todo : List Event}
    {rest : List Frame} (h : Moment.Good ⟨⟨c, e :: todo⟩ :: rest, s⟩) (hd : t.Disciplined c)
    (hE : Evolves A s t) : Moment.Good ⟨⟨c, todo⟩ :: rest, t⟩ := by
  have hl : Linked s (⟨c, todo⟩ :: rest) := by
    have := h.linked
    cases rest <;> exact this
  refine ⟨hd, hl.evolves hE, tidy_evolves hE hl fun f hf => ?_⟩
  rcases List.mem_cons.1 hf with rfl | hf
  · exact (h.tidy _ List.mem_cons_self).2
  · exact h.tidy f (List.mem_cons_of_mem _ hf)

/-- **The next operation of a good moment is orderly**, whether it succeeds or fails. -/
theorem Moment.Good.orderly {op : Operation} (h : m.Good) (ha : Attempts m op) :
    op.Orderly m.store m.current := by
  cases ha with
  | act he => exact (Event.orderly h.disciplined he).1
  | enter => rfl
  | leave => rfl

/-- The operation of a step, and where the walk is then. -/
theorem Moment.Good.step_operation {op : Operation} (h : m.Good) (hs : Step m (some op) m') :
    (∃ out, op.applyTo m.store = (.ok out, m'.store)) ∧
      m'.current = op.next m.store m.current := by
  cases hs with
  | act he hop => exact ⟨⟨_, hop⟩, (Event.orderly h.disciplined he).2.symm⟩
  | enter hop =>
      exact ⟨⟨_, hop⟩, congrArg some
        (enter_opened h.disciplined.sound (Operation.applyTo_enter_ok.1 hop)).1⟩
  | leave hop =>
      obtain ⟨⟨j, hj, -, hup⟩, -⟩ := h.linked
      rw [← Option.some.inj hj] at hup
      exact ⟨⟨_, hop⟩, hup.symm⟩

/-- **A step is an orderly operation**, or does nothing but at most make an entry in the log. -/
theorem Moment.Good.step_cases (h : m.Good) (hs : Step m op m') :
    (∃ o out, op = some o ∧ o.Orderly m.store m.current ∧
      o.applyTo m.store = (.ok out, m'.store) ∧ m'.current = o.next m.store m.current) ∨
      op = none ∧ m'.current = m.current ∧
        (m'.store = m.store ∨ ∃ entry, m'.store = m.store.record entry) := by
  refine hs.store_cases.imp_left ?_
  rintro ⟨o, out, rfl, ha, hop⟩
  exact ⟨o, out, rfl, h.orderly ha, hop, (h.step_operation hs).2⟩

/-- **A step from a good moment leads to a good moment.** -/
theorem Moment.Good.step (h : m.Good) (hs : Step m op m') : m'.Good := by
  have hdisc : ∀ {o : Operation}, Step m (some o) m' →
      m'.store.Disciplined m'.current ∧ Evolves (fun _ => True) m.store m'.store := by
    intro o hs
    have ho := h.orderly hs.attempts
    obtain ⟨⟨out, hop⟩, hnext⟩ := h.step_operation hs
    exact ⟨hnext ▸ h.disciplined.step ho hop,
      ((h.disciplined.changes ho hop).evolves h.disciplined.sound).mono fun _ _ => trivial⟩
  have hstep := hs
  cases hs with
  | act he hop => exact h.advance (hdisc hstep).1 (hdisc hstep).2
  | @enter c kind n inside todo rest s t i hop =>
      obtain ⟨hd, hE⟩ := hdisc hstep
      obtain ⟨-, -, -, -, -, b, hb, hup, hbl⟩ :=
        enter_opened h.disciplined.sound (Operation.applyTo_enter_ok.1 hop)
      have hl : Linked s (⟨c, todo⟩ :: rest) := by
        have := h.linked
        cases rest <;> exact this
      refine ⟨hd, ⟨⟨i, rfl, scopeAt?_lt hb, (upperOf_eq hb).trans hup⟩, hl.evolves hE⟩,
        fun f hf => ?_⟩
      rcases List.mem_cons.1 hf with rfl | hf
      · -- The new scope belongs to the node that its events are tidy for.
        have hin : AllTidy n.place inside := (h.tidy _ List.mem_cons_self).1
        simpa only [ownerOf, Option.bind_some, hb, hbl] using hin
      · refine tidy_evolves hE hl (fun g hg => ?_) f hf
        rcases List.mem_cons.1 hg with rfl | hg
        · exact (h.tidy _ List.mem_cons_self).2
        · exact h.tidy g (List.mem_cons_of_mem _ hg)
  | leave hop =>
      obtain ⟨hd, hE⟩ := hdisc hstep
      have hl := h.linked.2
      exact ⟨hd, Linked.evolves hl hE,
        tidy_evolves hE hl fun g hg => h.tidy g (List.mem_cons_of_mem _ hg)⟩
  | needScope => exact h.advance h.disciplined (.refl (A := fun _ => True) _)
  | @phase c p todo rest s =>
      have hq : Quiets (fun _ => True) s (s.record (.phase p)) := .single (.record _)
      exact h.advance (Disciplined.record h.disciplined _)
        (hq.changes.evolves h.disciplined.sound)
  | keep _ => exact h.advance h.disciplined (.refl (A := fun _ => True) _)

theorem Moment.Good.steps {ops : List Operation} (h : m.Good) (hs : Steps m ops m') : m'.Good := by
  induction hs with
  | refl => exact h
  | more hs _ ih => exact ih (h.step hs)

/-! ### A walk stops only for what the tree holds -/

/-- The scope a target means is open. -/
theorem Target.outcome_resolve_ok {c : ScopeId} {target : Target} {j : ScopeId}
    (h : (target.resolve c).outcome s = (.ok j, t)) : target.scope? s c = some j ∧ t = s := by
  cases target with
  | here =>
      obtain ⟨rfl, rfl⟩ := pure_ok_iff.1 h
      exact ⟨rfl, rfl⟩
  | hoisted =>
      obtain ⟨a, _, ha, hp⟩ := bind_ok_iff.1 h
      obtain ⟨ha, rfl⟩ := scopeAt_ok_iff.1 ha
      obtain ⟨rfl, rfl⟩ := pure_ok_iff.1 hp
      exact ⟨by simp [Target.scope?, variableScope?, ha], rfl⟩

theorem Target.outcome_resolve_error {c : ScopeId} {target : Target} {e : Error}
    (h : (target.resolve c).outcome s = (.error e, t)) : e = .malformed := by
  cases target with
  | here => exact (pure_error_iff.1 h).elim
  | hoisted =>
      rcases bind_error_iff.1 h with h | ⟨a, _, -, h⟩
      · exact (scopeAt_error_iff.1 h).2.1
      · exact (pure_error_iff.1 h).elim

/-- What is done in the scope that a target means is done only if there is one. -/
theorem Target.located_ok {c : Option ScopeId} {target : Target} {f : ScopeId → Action Unit}
    {u : Unit} (h : (do f (← target.resolve (← need c))).outcome s = (.ok u, t)) :
    ∃ i j, c = some i ∧ target.scope? s i = some j := by
  obtain ⟨i, _, hn, hrun⟩ := bind_ok_iff.1 h
  obtain ⟨rfl, rfl⟩ := need_ok_iff.1 hn
  obtain ⟨j, _, hr, -⟩ := bind_ok_iff.1 hrun
  exact ⟨i, j, rfl, (Target.outcome_resolve_ok hr).1⟩

/-- It fails with the error of last resort if what is done there does. -/
theorem Target.located_error {c : Option ScopeId} {target : Target} {f : ScopeId → Action Unit}
    {e : Error} (h : (do f (← target.resolve (← need c))).outcome s = (.error e, t))
    (hf : ∀ j u, (f j).outcome u = (.error e, t) → e = .malformed) : e = .malformed := by
  rcases bind_error_iff.1 h with hn | ⟨i, _, -, h⟩
  · exact (need_error_iff.1 hn).2.1
  · rcases bind_error_iff.1 h with hr | ⟨j, u, -, h⟩
    · exact Target.outcome_resolve_error hr
    · exact hf j u h

/-- Nothing that the current scope owns is closed by a tidy event. -/
theorem keeps {c : Option ScopeId} {n : Node} (hd : s.Disciplined c)
    (ht : n.place ≠ ownerOf s c) (i : ScopeId) (hi : c = some i) :
    ∃ a, s.scopeAt? i = some a ∧ a.block.same n = false := by
  subst hi
  obtain ⟨a, ha, -⟩ := hd.open_of_mem (self_mem_chain s i)
  refine ⟨a, ha, decide_eq_false fun he => ht ?_⟩
  simp only [ownerOf, Option.bind_some, ha]
  exact he.symm

/-- An event of a good moment fails with the error of last resort, unless it is there to fail. -/
theorem Event.run_malformed {e : Event} {c : Option ScopeId} {err : Error} (hd : s.Disciplined c)
    (ht : e.Tidy (ownerOf s c)) (hw : ∀ kind n inside, e ≠ .within kind n inside)
    (h : (e.run c).outcome s = (.error err, t)) : e = .fail err ∨ err = .malformed := by
  have hneed : ∀ {u : Store}, (need c).outcome s = (.error err, u) → err = .malformed := fun hn =>
    (need_error_iff.1 hn).2.1
  cases e with
  | define target n d =>
      rw [Event.run] at h
      exact .inr (Target.located_error h fun j u h => (define_error (discard_error_iff.1 h)).1)
  | refer u =>
      refine .inr ?_
      rw [Event.run] at h
      rcases bind_error_iff.1 h with hn | ⟨i, _, hn, hrun⟩
      · exact hneed hn
      · obtain ⟨rfl, rfl⟩ := need_ok_iff.1 hn
        rcases bind_error_iff.1 hrun with hs | ⟨a, _, hs, hrefer⟩
        · exact (scopeAt_error_iff.1 hs).2.1
        · obtain ⟨ha, rfl⟩ := scopeAt_ok_iff.1 hs
          rcases (refer_error (discard_error_iff.1 hrefer)).2 with rfl | hc
          · rfl
          · -- Where the walk is, the scope is open.
            exact absurd hc ((hd.isOpen i).2 (self_mem_chain _ i)).not_isClosed
  | callEval =>
      rw [Event.run] at h
      exact .inr (Target.located_error h fun j u h => (noteEval_error h).1)
  | useThis =>
      rw [Event.run] at h
      exact .inr (Target.located_error h fun j u h => (noteThis_error h).1)
  | needScope =>
      rw [Event.run] at h
      exact .inr (hneed (discard_error_iff.1 h))
  | phase p =>
      rw [Event.run] at h
      exact (record_error_iff.1 h).elim
  | fail e =>
      rw [Event.run] at h
      exact .inl (congrArg Event.fail (throw_error_iff.1 h).1.symm)
  | within kind n inside => exact absurd rfl (hw kind n inside)
  | closeOwned n =>
      rw [Event.outcome_keep (keeps hd ht)] at h
      cases h

/-- An event of a good moment fails only for what the tree holds. -/
theorem Event.run_error {e : Event} {c : Option ScopeId} {err : Error} (hd : s.Disciplined c)
    (ht : e.Tidy (ownerOf s c)) (hw : ∀ kind n inside, e ≠ .within kind n inside)
    (h : (e.run c).outcome s = (.error err, t)) : err.OfTree := by
  rcases Event.run_malformed hd ht hw h with rfl | rfl
  · exact ht
  · trivial

/-- **A walk stops at a good moment only for what the tree holds**: never because a scope is closed
twice or a reference made in a closed scope. -/
theorem Moment.Good.fails {e : Error} (h : m.Good) (hf : Fails m e) : e.OfTree := by
  cases hf with
  | event hw hr => exact Event.run_error h.disciplined (h.tidy _ List.mem_cons_self).1 hw hr
  | enter hr => rw [enter_error (Operation.applyTo_enter_error.1 hr)]; trivial
  | @leave i f rest s t e hr =>
      rcases close_error (Operation.applyTo_close_error.1 hr) with rfl | hc
      · trivial
      · have hd : s.Disciplined (some i) := h.disciplined
        exact absurd hc (hd.open_of_mem (self_mem_chain s i)).not_isClosed

/-! ### Every walk ends -/

theorem Event.operation?_of_ok {e : Event} {c : Option ScopeId} {u : Unit}
    (h : (e.run c).outcome s = (.ok u, t)) (he : e.IsOperation) :
    ∃ i op, c = some i ∧ e.operation? s i = some op := by
  cases e with
  | define target n d =>
      rw [Event.run] at h
      obtain ⟨i, j, hc, hj⟩ := Target.located_ok h
      exact ⟨i, .define j n d, hc, Option.map_eq_some_iff.2 ⟨j, hj, rfl⟩⟩
  | refer v =>
      rw [Event.run] at h
      obtain ⟨i, _, hn, hrun⟩ := bind_ok_iff.1 h
      obtain ⟨rfl, rfl⟩ := need_ok_iff.1 hn
      obtain ⟨a, _, hs, -⟩ := bind_ok_iff.1 hrun
      exact ⟨i, _, rfl, by rw [Event.operation?, (scopeAt_ok_iff.1 hs).1, Option.map_some]⟩
  | callEval =>
      rw [Event.run] at h
      obtain ⟨i, j, hc, hj⟩ := Target.located_ok h
      exact ⟨i, .noteEval j, hc, Option.map_eq_some_iff.2 ⟨j, hj, rfl⟩⟩
  | useThis =>
      rw [Event.run] at h
      obtain ⟨i, j, hc, hj⟩ := Target.located_ok h
      exact ⟨i, .noteThis j, hc, Option.map_eq_some_iff.2 ⟨j, hj, rfl⟩⟩
  | _ => exact he.elim

/-- The next event of a good moment happens or stops the walk. -/
theorem Moment.Good.next_event {c : Option ScopeId} {e : Event} {todo : List Event}
    {rest : List Frame} (h : Moment.Good ⟨⟨c, e :: todo⟩ :: rest, s⟩)
    (hw : ∀ kind n inside, e ≠ .within kind n inside) :
    (∃ err, Fails ⟨⟨c, e :: todo⟩ :: rest, s⟩ err) ∨
      ∃ op t, Step ⟨⟨c, e :: todo⟩ :: rest, s⟩ op ⟨⟨c, todo⟩ :: rest, t⟩ := by
  rcases hr : (e.run c).outcome s with ⟨err | u, t⟩
  · exact .inl ⟨err, .event hw hr⟩
  · right
    have act (he : e.IsOperation) :
        ∃ op t, Step ⟨⟨c, e :: todo⟩ :: rest, s⟩ op ⟨⟨c, todo⟩ :: rest, t⟩ := by
      obtain ⟨i, op, rfl, hop⟩ := Event.operation?_of_ok hr he
      rw [Event.outcome_run hop] at hr
      rcases ha : op.applyTo s with ⟨err | out, t'⟩
      · rw [ha] at hr; cases hr
      · exact ⟨some op, t', .act hop ha⟩
    cases e with
    | define target n d => exact act trivial
    | refer u => exact act trivial
    | callEval => exact act trivial
    | useThis => exact act trivial
    | needScope =>
        rw [Event.run] at hr
        obtain ⟨i, hn⟩ := discard_ok_iff.1 hr
        obtain ⟨rfl, -⟩ := need_ok_iff.1 hn
        exact ⟨none, s, .needScope⟩
    | phase p => exact ⟨none, _, .phase⟩
    | fail e => exact absurd hr (by rw [Event.run]; simp)
    | within kind n inside => exact absurd rfl (hw kind n inside)
    | closeOwned n => exact ⟨none, s, .keep (keeps h.disciplined (h.tidy _ List.mem_cons_self).1)⟩

/-- How much is still to happen. -/
noncomputable def weight (frames : List Frame) : Nat := (frames.map fun f => sizeOf f.todo + 1).sum

/-- From a good moment the walk is over, stops, or goes on with less to come. -/
theorem Moment.Good.progress (h : m.Good) :
    m.Over ∨ (∃ e, Fails m e) ∨
      ∃ op m', Step m op m' ∧ weight m'.frames < weight m.frames := by
  obtain ⟨frames, s⟩ := m
  cases frames with
  | nil => exact h.linked.elim
  | cons f rest =>
      obtain ⟨c, todo⟩ := f
      cases todo with
      | nil =>
          cases rest with
          | nil =>
              have hc : c = none := h.linked
              exact .inl (by rw [hc]; rfl)
          | cons g rest =>
              obtain ⟨⟨i, hi, -⟩, -⟩ := h.linked
              obtain rfl : c = some i := hi
              rcases ho : (Operation.close i).applyTo s with ⟨e | out, t⟩
              · exact .inr (.inl ⟨e, .leave ho⟩)
              · exact .inr (.inr ⟨_, _, .leave ho, by simp [weight]⟩)
      | cons e todo =>
          by_cases hw : ∀ kind n inside, e ≠ .within kind n inside
          · rcases h.next_event hw with hf | ⟨op, t, hs⟩
            · exact .inr (.inl hf)
            · exact .inr (.inr ⟨op, _, hs, by simp [weight]⟩)
          · simp only [not_forall, not_not] at hw
            obtain ⟨kind, n, inside, rfl⟩ := hw
            rcases ho : (Action.enter kind n c).outcome s with ⟨e | i, t⟩
            · exact .inr (.inl ⟨e, .enter (Operation.applyTo_enter_error.2 ho)⟩)
            · -- What is inside weighs less in a frame of its own than it did in the event.
              exact .inr (.inr ⟨_, _, .enter (Operation.applyTo_enter_ok.2 ho),
                by simp [weight]; omega⟩)

/-- **Every walk ends.** -/
theorem Moment.Good.ends (h : m.Good) :
    ∃ ops m', Steps m ops m' ∧ m'.Good ∧ (m'.Over ∨ ∃ e, Fails m' e) := by
  induction hw : weight m.frames using Nat.strongRecOn generalizing m with
  | ind k ih =>
      rcases h.progress with ho | hf | ⟨op, m₁, hs, hlt⟩
      · exact ⟨[], m, .refl m, h, .inl ho⟩
      · exact ⟨[], m, .refl m, h, .inr hf⟩
      · obtain ⟨ops, m', hs', hg, he⟩ := ih _ (hw ▸ hlt) (h.step hs) rfl
        exact ⟨_, m', .more hs hs', hg, he⟩

end LexScope.Walk
