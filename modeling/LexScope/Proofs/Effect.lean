import LexScope.Proofs.Outcome

/-!
# Proofs — Effect — what the actions on open scopes do

For each action that opens a scope, binds a name, makes a reference or sets a flag: exactly when it
succeeds and what the store is then (`…_ok_iff`), and what is left of the store when it fails
(`…_error`).  Only opening changes the store before it can still fail: the scope of a node that is
no object is there although its opening failed.
-/

namespace LexScope.Action

variable {s s' : Store} {i : ScopeId} {e : Error} {kind : ScopeKind} {n : Node}
  {upper : Option ScopeId}

/-! ### Opening -/

theorem openScope_ok_iff :
    (openScope kind n upper).outcome s = (.ok i, s') ↔
      ∃ above strict, s.strictAt? upper = some above ∧
        isStrict? s.options kind n above = some strict ∧ n.isObj = true ∧ i = s.scopes.size ∧
        s' = (s.addScope kind n upper strict).record
          (.opened kind s.scopes.size n.type strict) := by
  rw [openScope]
  cases n.isObj with
  | false => simp
  | true =>
      simp only [if_true, bind_ok_iff, get_ok_iff, need_ok_iff, modify_ok_iff, record_ok_iff,
        pure_ok_iff]
      constructor
      · rintro ⟨_, _, ⟨rfl, rfl⟩, above, _, ⟨ha, rfl⟩, _, _, ⟨rfl, rfl⟩, strict, _, ⟨hs, rfl⟩,
          _, _, ⟨rfl, rfl⟩, _, _, rfl, _, _, rfl, rfl, rfl⟩
        exact ⟨above, strict, ha, hs, trivial, rfl, rfl⟩
      · rintro ⟨above, strict, ha, hs, -, rfl, rfl⟩
        exact ⟨_, _, ⟨rfl, rfl⟩, above, _, ⟨ha, rfl⟩, _, _, ⟨rfl, rfl⟩, strict, _, ⟨hs, rfl⟩,
          _, _, ⟨rfl, rfl⟩, (), _, rfl, (), _, rfl, rfl, rfl⟩

theorem openScope_error (h : (openScope kind n upper).outcome s = (.error e, s')) :
    e = .malformed ∧ (s' = s ∨ ∃ above strict, s.strictAt? upper = some above ∧
      s' = s.addScope kind n upper strict) := by
  rw [openScope] at h
  cases hn : n.isObj with
  | true =>
      simp [-Bool.exists_bool, hn] at h
      rcases h with ⟨-, rfl, rfl⟩ | ⟨_, -, -, rfl, rfl⟩ <;> exact ⟨rfl, .inl rfl⟩
  | false =>
      simp [-Bool.exists_bool, hn] at h
      rcases h with ⟨-, rfl, rfl⟩ | ⟨_, ha, (⟨-, rfl, rfl⟩ | ⟨strict, -, rfl, rfl⟩)⟩
      · exact ⟨rfl, .inl rfl⟩
      · exact ⟨rfl, .inl rfl⟩
      · exact ⟨rfl, .inr ⟨_, strict, ha, rfl⟩⟩

/-! ### Binding names -/

@[simp] theorem bindNew_ok_iff {key : Name} {var : Variable} {v : VariableId} :
    (bindNew i key var).outcome s = (.ok v, s') ↔ v = s.vars.size ∧ s' = s.bindNew i key var := by
  simp only [bindNew, bind_ok_iff, get_ok_iff, modify_ok_iff, pure_ok_iff]
  constructor
  · rintro ⟨_, _, ⟨rfl, rfl⟩, _, _, rfl, rfl, rfl⟩
    exact ⟨rfl, rfl⟩
  · rintro ⟨rfl, rfl⟩
    exact ⟨_, _, ⟨rfl, rfl⟩, (), _, rfl, rfl, rfl⟩

@[simp] theorem bindNew_error_iff {key : Name} {var : Variable} :
    (bindNew i key var).outcome s = (.error e, s') ↔ False := by
  simp [bindNew]

theorem define_ok_iff {d : Definition} {w : Option VariableId} :
    (define i n d).outcome s = (.ok w, s') ↔
      (n.isIdentifier = false ∧ w = none ∧ s' = s) ∨
      (n.isIdentifier = true ∧ ∃ key scope, Name.ofTree? (n.value.get "name") = some key ∧
        s.scopeAt? i = some scope ∧
        ((∃ v, scope.table.find? key = some v ∧ w = some v ∧ s' = s.addDefinition v d) ∨
          (scope.table.find? key = none ∧ w = some s.vars.size ∧
            s' = s.bindNew i key { name := n.value.get "name", scope := i, defs := [d] }))) := by
  rw [define]
  cases n.isIdentifier with
  | false => simp
  | true =>
      simp only [Bool.not_true, Bool.false_eq_true, if_false, bind_ok_iff, need_ok_iff,
        scopeAt_ok_iff, Bool.true_eq_false, false_and, false_or, true_and]
      constructor
      · rintro ⟨key, _, ⟨hk, rfl⟩, scope, _, ⟨hs, rfl⟩, h⟩
        refine ⟨key, scope, hk, hs, ?_⟩
        cases hf : scope.table.find? key with
        | none =>
            simp [hf] at h
            obtain ⟨rfl, rfl⟩ := h
            exact .inr ⟨rfl, rfl, rfl⟩
        | some v =>
            simp [hf] at h
            obtain ⟨rfl, rfl⟩ := h
            exact .inl ⟨v, rfl, rfl, rfl⟩
      · rintro ⟨key, scope, hk, hs, ⟨v, hf, rfl, rfl⟩ | ⟨hf, rfl, rfl⟩⟩
        · exact ⟨key, s, ⟨hk, rfl⟩, scope, s, ⟨hs, rfl⟩, by simp [hf]⟩
        · exact ⟨key, s, ⟨hk, rfl⟩, scope, s, ⟨hs, rfl⟩, by simp [hf]⟩

theorem define_error {d : Definition} (h : (define i n d).outcome s = (.error e, s')) :
    e = .malformed ∧ s' = s := by
  rw [define] at h
  cases hn : n.isIdentifier with
  | false => simp [hn] at h
  | true =>
      simp only [hn, Bool.not_true, Bool.false_eq_true, if_false, bind_error_iff, need_error_iff,
        need_ok_iff, scopeAt_ok_iff, scopeAt_error_iff] at h
      rcases h with ⟨-, rfl, rfl⟩ | ⟨key, _, ⟨-, rfl⟩, ⟨-, rfl, rfl⟩ | ⟨scope, _, ⟨-, rfl⟩, h⟩⟩
      · exact ⟨rfl, rfl⟩
      · exact ⟨rfl, rfl⟩
      · cases hf : scope.table.find? key <;> simp [hf] at h

/-! ### Making references -/

theorem refer_ok_iff {u : Use} {r : Option ReferenceId} :
    (refer i u).outcome s = (.ok r, s') ↔
      (u.identifier.isIdentifier = false ∧ r = none ∧ s' = s) ∨
      (u.identifier.isIdentifier = true ∧ r = some s.references.size ∧ s' = s.addReference i u ∧
        ∃ scope, s.scopeAt? i = some scope ∧ scope.isClosed = false) := by
  rw [refer]
  cases u.identifier.isIdentifier with
  | false => simp
  | true =>
      simp only [Bool.not_true, Bool.false_eq_true, if_false, bind_ok_iff, scopeAt_ok_iff,
        Bool.true_eq_false, false_and, false_or, true_and]
      constructor
      · rintro ⟨scope, _, ⟨hs, rfl⟩, h⟩
        cases hc : scope.isClosed with
        | true => simp [hc] at h
        | false =>
            simp [hc] at h
            exact ⟨h.2.symm, h.1, scope, hs, hc⟩
      · rintro ⟨rfl, rfl, scope, hs, hc⟩
        exact ⟨scope, s, ⟨hs, rfl⟩, by simp [hc]⟩

theorem refer_error {u : Use} (h : (refer i u).outcome s = (.error e, s')) :
    s' = s ∧ (e = .malformed ∨ ∃ scope, s.scopeAt? i = some scope ∧ scope.isClosed = true) := by
  rw [refer] at h
  cases hn : u.identifier.isIdentifier with
  | false => simp [hn] at h
  | true =>
      simp only [hn, Bool.not_true, Bool.false_eq_true, if_false, bind_error_iff, scopeAt_ok_iff,
        scopeAt_error_iff] at h
      rcases h with ⟨-, rfl, rfl⟩ | ⟨scope, _, ⟨hs, rfl⟩, h⟩
      · exact ⟨rfl, .inl rfl⟩
      · cases hc : scope.isClosed with
        | false => simp [hc] at h
        | true =>
            simp [hc] at h
            exact ⟨h.2, .inr ⟨scope, hs, hc⟩⟩

/-! ### Flags -/

theorem noteEval_ok_iff {u : Unit} :
    (noteEval i).outcome s = (.ok u, s') ↔
      (∃ scope, s.scopeAt? i = some scope) ∧ s' = s.noteEval i := by
  simp [noteEval]

theorem noteEval_error (h : (noteEval i).outcome s = (.error e, s')) :
    e = .malformed ∧ s' = s := by
  simp [noteEval] at h
  exact h.2

theorem noteThis_ok_iff {u : Unit} :
    (noteThis i).outcome s = (.ok u, s') ↔
      (∃ scope, s.scopeAt? i = some scope) ∧ s' = s.noteThis i := by
  simp [noteThis]

theorem noteThis_error (h : (noteThis i).outcome s = (.error e, s')) :
    e = .malformed ∧ s' = s := by
  simp [noteThis] at h
  exact h.2

end LexScope.Action
