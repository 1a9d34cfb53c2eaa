import Mathlib
import LexScope.Operation

/-!
# Proofs — Outcome — what an action comes to

An action run in a store comes to an outcome: a result or an error, and the store afterwards
(`Action.outcome`).  Sequencing is read off outcomes (`bind_ok_iff`, `bind_error_iff`), and every
action has its success characterised exactly (`…_ok_iff`) and its failure bounded (`…_error`):
which error, and what may have changed before it.

No later proof opens an action; each goes through the statements here.
-/

namespace LexScope

namespace Action

variable {α β : Type}

/-- What an action comes to in a store. -/
def outcome (x : Action α) (s : Store) : Except Error α × Store := (x.run s).run

/-! ### Single steps -/

theorem outcome_pure (a : α) (s : Store) : (pure a : Action α).outcome s = (.ok a, s) := rfl

theorem outcome_get (s : Store) : (get : Action Store).outcome s = (.ok s, s) := rfl

@[simp] theorem pure_ok_iff {a b : α} {s s' : Store} :
    (pure a : Action α).outcome s = (.ok b, s') ↔ b = a ∧ s' = s := by
  simp only [outcome_pure, Prod.mk.injEq, Except.ok.injEq, eq_comm]

@[simp] theorem pure_error_iff {a : α} {s s' : Store} {e : Error} :
    (pure a : Action α).outcome s = (.error e, s') ↔ False := by
  simp [outcome_pure]

@[simp] theorem get_ok_iff {s t s' : Store} :
    (get : Action Store).outcome s = (.ok t, s') ↔ t = s ∧ s' = s := by
  simp only [outcome_get, Prod.mk.injEq, Except.ok.injEq, eq_comm]

@[simp] theorem get_error_iff {s s' : Store} {e : Error} :
    (get : Action Store).outcome s = (.error e, s') ↔ False := by
  simp [outcome_get]

@[simp] theorem modify_ok_iff {f : Store → Store} {s s' : Store} {u : Unit} :
    (modify f : Action Unit).outcome s = (.ok u, s') ↔ s' = f s := by
  show ((.ok (), f s) : Except Error Unit × Store) = (.ok u, s') ↔ _
  simp only [Prod.mk.injEq, true_and, eq_comm]

@[simp] theorem modify_error_iff {f : Store → Store} {s s' : Store} {e : Error} :
    (modify f : Action Unit).outcome s = (.error e, s') ↔ False := by
  show ((.ok (), f s) : Except Error Unit × Store) = (.error e, s') ↔ _
  simp

@[simp] theorem record_ok_iff {entry : LogRecord} {s s' : Store} {u : Unit} :
    (record entry).outcome s = (.ok u, s') ↔ s' = s.record entry := modify_ok_iff

@[simp] theorem record_error_iff {entry : LogRecord} {s s' : Store} {e : Error} :
    (record entry).outcome s = (.error e, s') ↔ False := modify_error_iff

@[simp] theorem throw_ok_iff {s s' : Store} {e : Error} {a : α} :
    (throw e : Action α).outcome s = (.ok a, s') ↔ False := by
  show ((.error e, s) : Except Error α × Store) = (.ok a, s') ↔ _
  simp

@[simp] theorem throw_error_iff {s s' : Store} {e e' : Error} :
    (throw e : Action α).outcome s = (.error e', s') ↔ e' = e ∧ s' = s := by
  show ((.error e, s) : Except Error α × Store) = (.error e', s') ↔ _
  simp only [Prod.mk.injEq, Except.error.injEq, eq_comm]

@[simp] theorem malformed_ok_iff {s s' : Store} {a : α} :
    (malformed : Action α).outcome s = (.ok a, s') ↔ False := throw_ok_iff

@[simp] theorem malformed_error_iff {s s' : Store} {e : Error} :
    (malformed : Action α).outcome s = (.error e, s') ↔ e = .malformed ∧ s' = s := throw_error_iff

theorem outcome_need (a : α) (s : Store) : (need (some a)).outcome s = (.ok a, s) := rfl

/-! ### Sequencing -/

theorem outcome_bind (x : Action α) (f : α → Action β) (s : Store) :
    (x >>= f).outcome s =
      match x.outcome s with
      | (.ok a, s') => (f a).outcome s'
      | (.error e, s') => (.error e, s') := by
  show (ExceptT.bind x f).run s = _
  rw [ExceptT.bind]
  show (match x.run s with | (a, s') => (ExceptT.bindCont f a) s') = _
  rw [outcome]
  rcases x.run s with ⟨_ | a, s'⟩ <;> rfl

@[simp] theorem bind_ok_iff {x : Action α} {f : α → Action β} {s s' : Store} {b : β} :
    (x >>= f).outcome s = (.ok b, s') ↔
      ∃ a t, x.outcome s = (.ok a, t) ∧ (f a).outcome t = (.ok b, s') := by
  rw [outcome_bind]
  constructor
  · rcases x.outcome s with ⟨_ | a, t⟩
    · intro h; cases h
    · intro h; exact ⟨a, t, rfl, h⟩
  · rintro ⟨a, t, ha, hf⟩
    rw [ha]; exact hf

@[simp] theorem bind_error_iff {x : Action α} {f : α → Action β} {s s' : Store} {e : Error} :
    (x >>= f).outcome s = (.error e, s') ↔
      x.outcome s = (.error e, s') ∨
        ∃ a t, x.outcome s = (.ok a, t) ∧ (f a).outcome t = (.error e, s') := by
  rw [outcome_bind]
  constructor
  · rcases x.outcome s with ⟨_ | a, t⟩
    · intro h; cases h; exact .inl rfl
    · intro h; exact .inr ⟨a, t, rfl, h⟩
  · rintro (h | ⟨a, t, ha, hf⟩)
    · rw [h]
    · rw [ha]; exact hf

theorem outcome_bind_pure (x : Action α) (f : α → β) (s : Store) :
    (x >>= fun a => pure (f a)).outcome s = ((x.outcome s).1.map f, (x.outcome s).2) := by
  rw [outcome_bind]
  rcases x.outcome s with ⟨_ | a, t⟩ <;> rfl

theorem bind_pure_ok_iff {x : Action α} {f : α → β} {s s' : Store} {b : β} :
    (x >>= fun a => pure (f a)).outcome s = (.ok b, s') ↔
      ∃ a, b = f a ∧ x.outcome s = (.ok a, s') := by
  rw [outcome_bind_pure]
  rcases x.outcome s with ⟨_ | a, t⟩ <;> simp [Except.map, eq_comm]

theorem outcome_map (g : α → β) (x : Action α) (s : Store) :
    (g <$> x).outcome s = ((x.outcome s).1.map g, (x.outcome s).2) := by
  rw [map_eq_pure_bind, outcome_bind_pure]

theorem outcome_discard (x : Action α) (s : Store) :
    (discard x).outcome s = ((x.outcome s).1.map fun _ => (), (x.outcome s).2) :=
  outcome_map (fun _ => ()) x s

/-- A step that succeeds leaves the rest to be done. -/
theorem outcome_bind_of_ok {x : Action α} {f : α → Action β} {s t : Store} {a : α}
    (h : x.outcome s = (.ok a, t)) : (x >>= f).outcome s = (f a).outcome t := by
  rw [outcome_bind, h]

/-- A step that fails leaves nothing to be done. -/
theorem outcome_bind_of_error {x : Action α} {f : α → Action β} {s t : Store} {e : Error}
    (h : x.outcome s = (.error e, t)) : (x >>= f).outcome s = (.error e, t) := by
  rw [outcome_bind, h]

@[simp] theorem map_ok_iff {g : α → β} {x : Action α} {s s' : Store} {b : β} :
    (g <$> x).outcome s = (.ok b, s') ↔ ∃ a, x.outcome s = (.ok a, s') ∧ g a = b := by
  rw [outcome_map]
  rcases x.outcome s with ⟨_ | a, t⟩ <;> simp [Except.map, and_comm, and_left_comm]

@[simp] theorem map_error_iff {g : α → β} {x : Action α} {s s' : Store} {e : Error} :
    (g <$> x).outcome s = (.error e, s') ↔ x.outcome s = (.error e, s') := by
  rw [outcome_map]
  rcases x.outcome s with ⟨_ | a, t⟩ <;> simp [Except.map]

@[simp] theorem discard_ok_iff {x : Action α} {s s' : Store} {u : Unit} :
    (discard x).outcome s = (.ok u, s') ↔ ∃ a, x.outcome s = (.ok a, s') :=
  map_ok_iff.trans (by simp)

@[simp] theorem discard_error_iff {x : Action α} {s s' : Store} {e : Error} :
    (discard x).outcome s = (.error e, s') ↔ x.outcome s = (.error e, s') :=
  map_error_iff

/-! ### One step for each item of a list -/

theorem forM_nil_ok_iff {f : α → Action Unit} {s s' : Store} {u : Unit} :
    (([] : List α).forM f).outcome s = (.ok u, s') ↔ s' = s := by
  rw [List.forM]
  exact pure_ok_iff.trans (by simp)

theorem forM_cons_ok_iff {f : α → Action Unit} {a : α} {l : List α} {s s' : Store} {u : Unit} :
    ((a :: l).forM f).outcome s = (.ok u, s') ↔
      ∃ t, (f a).outcome s = (.ok (), t) ∧ (l.forM f).outcome t = (.ok (), s') := by
  rw [List.forM]
  exact bind_ok_iff.trans
    ⟨fun ⟨_, t, ha, hl⟩ => ⟨t, ha, hl⟩, fun ⟨t, ha, hl⟩ => ⟨(), t, ha, hl⟩⟩

/-- What each step keeps, with one item fewer to come, holds at the end with none to come. -/
theorem forM_ok_induction {P : List α → Store → Prop} {f : α → Action Unit} {l : List α}
    {s s' : Store} (h : (l.forM f).outcome s = (.ok (), s')) (start : P l s)
    (step : ∀ a l t t', P (a :: l) t → (f a).outcome t = (.ok (), t') → P l t') : P [] s' := by
  induction l generalizing s with
  | nil => rw [forM_nil_ok_iff.1 h]; exact start
  | cons a l ih =>
      obtain ⟨t, ha, hl⟩ := forM_cons_ok_iff.1 h
      exact ih hl (step a l s t start ha)

/-- What each step keeps, told of the items that are done, holds at the end of all items. -/
theorem forM_ok_done {P : List α → Store → Prop} {f : α → Action Unit} {l : List α}
    {s s' : Store} (h : (l.forM f).outcome s = (.ok (), s')) (start : P [] s)
    (step : ∀ done a rest t t', l = done ++ a :: rest → P done t →
      (f a).outcome t = (.ok (), t') → P (done ++ [a]) t') : P l s' := by
  obtain ⟨done, hl, hdone⟩ := forM_ok_induction
    (P := fun rest t => ∃ done, l = done ++ rest ∧ P done t) h ⟨[], rfl, start⟩
    fun a rest t t' ⟨done, hl, hdone⟩ ha =>
      ⟨done ++ [a], by rw [hl, List.append_assoc, List.singleton_append],
        step done a rest t t' hl hdone ha⟩
  rw [List.append_nil] at hl
  exact hl ▸ hdone

/-- Several steps succeed if each does wherever the invariant holds. -/
theorem forM_total {P : List α → Store → Prop} {f : α → Action Unit} {l : List α} {s : Store}
    (start : P [] s)
    (step : ∀ done a rest t, l = done ++ a :: rest → P done t →
      ∃ t', (f a).outcome t = (.ok (), t') ∧ P (done ++ [a]) t') :
    ∃ s', (l.forM f).outcome s = (.ok (), s') ∧ P l s' := by
  -- The induction is on the items to come, after any that are done.
  suffices hrest : ∀ rest done s, l = done ++ rest → P done s →
      ∃ s', (rest.forM f).outcome s = (.ok (), s') ∧ P l s' from hrest l [] s rfl start
  intro rest
  induction rest with
  | nil =>
      intro done s hl hdone
      rw [List.append_nil] at hl
      exact ⟨s, forM_nil_ok_iff.2 rfl, hl ▸ hdone⟩
  | cons a rest ih =>
      intro done s hl hdone
      obtain ⟨t, ha, ht⟩ := step done a rest s hl hdone
      obtain ⟨s', hs', hend⟩ :=
        ih (done ++ [a]) t (by rw [hl, List.append_assoc, List.singleton_append]) ht
      exact ⟨s', forM_cons_ok_iff.2 ⟨t, ha, hs'⟩, hend⟩

/-- Several steps fail where one of them does. -/
theorem forM_error {f : α → Action Unit} {l : List α} {s s' : Store} {e : Error}
    (h : (l.forM f).outcome s = (.error e, s')) :
    ∃ a ∈ l, ∃ t, (f a).outcome t = (.error e, s') := by
  induction l generalizing s with
  | nil =>
      rw [List.forM] at h
      exact (pure_error_iff.1 h).elim
  | cons a l ih =>
      rw [List.forM] at h
      rcases bind_error_iff.1 h with ha | ⟨_, t, -, hl⟩
      · exact ⟨a, List.mem_cons_self, s, ha⟩
      · obtain ⟨b, hb, hf⟩ := ih hl
        exact ⟨b, List.mem_cons_of_mem a hb, hf⟩

/-! ### Reading the store -/

@[simp] theorem need_ok_iff {o : Option α} {s s' : Store} {a : α} :
    (need o).outcome s = (.ok a, s') ↔ o = some a ∧ s' = s := by
  cases o with
  | none => simp [need]
  | some b => rw [need, pure_ok_iff, Option.some.injEq, eq_comm (a := b)]

@[simp] theorem need_error_iff {o : Option α} {s s' : Store} {e : Error} :
    (need o).outcome s = (.error e, s') ↔ o = none ∧ e = .malformed ∧ s' = s := by
  cases o <;> simp [need]

@[simp] theorem scopeAt_ok_iff {i : ScopeId} {s s' : Store} {scope : Scope} :
    (scopeAt i).outcome s = (.ok scope, s') ↔ s.scopeAt? i = some scope ∧ s' = s := by
  simp [scopeAt, and_comm]

@[simp] theorem scopeAt_error_iff {i : ScopeId} {s s' : Store} {e : Error} :
    (scopeAt i).outcome s = (.error e, s') ↔ s.scopeAt? i = none ∧ e = .malformed ∧ s' = s := by
  simp [scopeAt]

@[simp] theorem referenceAt_ok_iff {r : ReferenceId} {s s' : Store} {ref : Reference} :
    (referenceAt r).outcome s = (.ok ref, s') ↔ s.referenceAt? r = some ref ∧ s' = s := by
  simp [referenceAt, and_comm]

@[simp] theorem referenceAt_error_iff {r : ReferenceId} {s s' : Store} {e : Error} :
    (referenceAt r).outcome s = (.error e, s') ↔
      s.referenceAt? r = none ∧ e = .malformed ∧ s' = s := by
  simp [referenceAt]

end Action

/-! ### Operations -/

namespace Operation

variable {s t : Store} {kind : ScopeKind} {n : Node} {c : Option ScopeId} {i : ScopeId} {e : Error}

theorem applyTo_eq (op : Operation) (s : Store) : op.applyTo s = op.apply.outcome s := rfl

theorem applyTo_enter_ok :
    (enter kind n c).applyTo s = (.ok (.entered i), t) ↔
      (Action.enter kind n c).outcome s = (.ok i, t) := by
  rw [applyTo_eq, apply, Action.outcome_bind_pure]
  rcases (Action.enter kind n c).outcome s with ⟨_ | j, u⟩ <;> simp [Except.map]

theorem applyTo_enter_error :
    (enter kind n c).applyTo s = (.error e, t) ↔
      (Action.enter kind n c).outcome s = (.error e, t) := by
  rw [applyTo_eq, apply, Action.outcome_bind_pure]
  rcases (Action.enter kind n c).outcome s with ⟨_ | j, u⟩ <;> simp [Except.map]

theorem applyTo_close_ok {out : Outcome} :
    (close i).applyTo s = (.ok out, t) ↔
      ∃ up, out = .closed up ∧ (Action.close i).outcome s = (.ok up, t) :=
  Action.bind_pure_ok_iff

theorem applyTo_close_error :
    (close i).applyTo s = (.error e, t) ↔ (Action.close i).outcome s = (.error e, t) := by
  rw [applyTo_eq, apply, Action.outcome_bind_pure]
  rcases (Action.close i).outcome s with ⟨_ | j, u⟩ <;> simp [Except.map]

end Operation

end LexScope
