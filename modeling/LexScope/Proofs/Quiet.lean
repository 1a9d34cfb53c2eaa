import LexScope.Proofs.Change

/-!
# Proofs — Quiet — which actions are quiet

Opening scopes, binding names and setting flags are quiet (`enter_quiets`, `nest_quiets`,
`define_quiets`, `noteEval_quiets`, `noteThis_quiets`), whether the action succeeds or fails.  Only
making a reference and closing a scope are not.
-/

namespace LexScope

open Store

/-! ### Flags -/

theorem Store.noteEval_quiets {A : ScopeId → Prop} (s : Store) (i : ScopeId)
    (hA : ∀ j ∈ s.chain i, A j) : Quiets A s (s.noteEval i) := by
  refine .head (.reflag (hA i (self_mem_chain s i)) ?_)
    (quiets_updateScopes (fun t j hj => .reflag (hA j hj) ?_) _)
  · intro a
    exact ⟨rfl, rfl, rfl, rfl, rfl, rfl, rfl, id⟩
  · intro a
    exact ⟨rfl, rfl, rfl, rfl, rfl, rfl, rfl, fun _ => rfl⟩

theorem Store.noteThis_quiet {A : ScopeId → Prop} (s : Store) (i : ScopeId) (hA : A i) :
    Quiet A s (s.noteThis i) :=
  .reflag hA fun _ => ⟨rfl, rfl, rfl, rfl, rfl, rfl, rfl, id⟩

namespace Action

variable {A : ScopeId → Prop} {s s' : Store} {i : ScopeId} {kind : ScopeKind} {n : Node}
  {upper : Option ScopeId}

theorem noteEval_quiets {r : Except Error Unit} (h : (noteEval i).outcome s = (r, s'))
    (hA : ∀ j ∈ s.chain i, A j) : Quiets A s s' := by
  cases r with
  | ok _ => rw [(noteEval_ok_iff.1 h).2]; exact s.noteEval_quiets i hA
  | error e => rw [(noteEval_error h).2]

theorem noteThis_quiets {r : Except Error Unit} (h : (noteThis i).outcome s = (r, s')) (hA : A i) :
    Quiets A s s' := by
  cases r with
  | ok _ => rw [(noteThis_ok_iff.1 h).2]; exact .single (s.noteThis_quiet i hA)
  | error e => rw [(noteThis_error h).2]

/-! ### Binding names -/

theorem define_quiets {d : Definition} {r : Except Error (Option VariableId)}
    (h : (define i n d).outcome s = (r, s')) (hA : A i) : Quiets A s s' := by
  cases r with
  | error e => rw [(define_error h).2]
  | ok w =>
      obtain ⟨-, -, rfl⟩ | ⟨-, key, scope, hk, hs, ⟨v, hf, -, rfl⟩ | ⟨hf, -, rfl⟩⟩ :=
        define_ok_iff.1 h
      · exact .refl
      · exact .single (.addDefinition d hA hs hf)
      · exact .single (.bindNew hA hs (.inl hf) rfl hk rfl)

/-- A name that is bound has an entry, a variable of the scope that has the definition. -/
theorem define_bound {d : Definition} {v : VariableId} (hs : s.Sound)
    (h : (define i n d).outcome s = (.ok (some v), s')) :
    ∃ key a var, Name.ofTree? (n.value.get "name") = some key ∧ s'.scopeAt? i = some a ∧
      a.table.find? key = some v ∧ s'.variableAt? v = some var ∧ var.scope = i ∧ d ∈ var.defs := by
  obtain ⟨-, hv, -⟩ | ⟨-, key, scope, hk, hi, ⟨w, hf, hv, rfl⟩ | ⟨hf, hv, rfl⟩⟩ :=
    define_ok_iff.1 h
  · cases hv
  · obtain rfl := Option.some.inj hv
    obtain ⟨var, hvar, hscope, -⟩ := hs.of_find? hi hf
    exact ⟨key, scope, { var with defs := var.defs ++ [d] }, hk, hi, hf, by simp [hvar], hscope,
      List.mem_append_right _ List.mem_cons_self⟩
  · obtain rfl := Option.some.inj hv
    exact ⟨key, scope.bind key s.vars.size, _, hk, by simp [hi], by simp [Scope.bind],
      by rw [variableAt?_bindNew, if_pos rfl], rfl, List.mem_cons_self⟩

theorem defineArguments_quiets {r : Except Error VariableId} {scope : Scope}
    (h : (defineArguments i).outcome s = (r, s')) (hs : s.scopeAt? i = some scope) (hA : A i) :
    Quiets A s s' := by
  cases r with
  | error e => exact absurd h (by simp [defineArguments])
  | ok v =>
      obtain ⟨-, rfl⟩ := bindNew_ok_iff.1 h
      exact .single (.bindNew hA hs (.inr rfl) rfl rfl rfl)

/-! ### Opening -/

theorem upper_lt_of_strictAt? {b : Bool} (h : s.strictAt? upper = some b) (u : ScopeId)
    (hu : upper = some u) : u < s.scopes.size := by
  subst hu
  obtain ⟨scope, hs, -⟩ := Option.map_eq_some_iff.1 h
  exact scopeAt?_lt hs

theorem openScope_quiets {r : Except Error ScopeId}
    (h : (openScope kind n upper).outcome s = (r, s')) (hA : ∀ u, upper = some u → A u) :
    Quiets A s s' := by
  cases r with
  | error e =>
      obtain ⟨-, rfl | ⟨above, strict, ha, rfl⟩⟩ := openScope_error h
      · exact .refl
      · exact .single (.addScope kind n strict fun u hu => ⟨hA u hu, upper_lt_of_strictAt? ha u hu⟩)
  | ok i =>
      obtain ⟨above, strict, ha, -, -, -, rfl⟩ := openScope_ok_iff.1 h
      exact .tail (.single (.addScope kind n strict fun u hu =>
        ⟨hA u hu, upper_lt_of_strictAt? ha u hu⟩)) (.record _)

/-- A scope just opened is there. -/
theorem openScope_scopeAt? (h : (openScope kind n upper).outcome s = (.ok i, s')) :
    i = s.scopes.size ∧ ∃ strict, s'.scopeAt? i = some (s.freshScope kind n upper strict) := by
  obtain ⟨above, strict, ha, -, -, rfl, rfl⟩ := openScope_ok_iff.1 h
  refine ⟨rfl, strict, ?_⟩
  rw [scopeAt?_record, scopeAt?_addScope_new (upper_lt_of_strictAt? ha)]

theorem enter_ok_iff :
    (enter kind n upper).outcome s = (.ok i, s') ↔
      ∃ t, (openScope kind n upper).outcome s = (.ok i, t) ∧
        (provide kind n i).outcome t = (.ok (), s') := by
  simp only [enter, bind_ok_iff, pure_ok_iff]
  constructor
  · rintro ⟨j, t, ho, _, _, hp, rfl, rfl⟩
    exact ⟨t, ho, hp⟩
  · rintro ⟨t, ho, hp⟩
    exact ⟨i, t, ho, (), s', hp, rfl, rfl⟩

/-- All that a new scope can be provided with. -/
theorem provide_ok (h : (provide kind n i).outcome s = (.ok (), s')) : s' = s ∨
    (∃ v, (defineArguments i).outcome s = (.ok v, s')) ∨
      ∃ w, (define i (n.get "id") (.ofFunction n)).outcome s = (.ok w, s') := by
  unfold provide at h
  split at h
  · split at h
    · exact .inr (.inl (discard_ok_iff.1 h))
    · exact .inl (pure_ok_iff.1 h).2
  · exact .inr (.inr (discard_ok_iff.1 h))
  · exact .inl (pure_ok_iff.1 h).2

theorem provide_quiets {r : Except Error Unit} {scope : Scope}
    (h : (provide kind n i).outcome s = (r, s')) (hs : s.scopeAt? i = some scope) (hA : A i) :
    Quiets A s s' := by
  have hpure : ∀ {t : Store}, (pure () : Action Unit).outcome s = (r, t) → Quiets A s t := by
    intro t ht
    cases r with
    | ok _ => rw [(pure_ok_iff.1 ht).2]
    | error e => exact absurd ht (by simp)
  unfold provide at h
  split at h
  · split at h
    · rename_i hn
      cases r with
      | ok _ =>
          obtain ⟨v, h⟩ := discard_ok_iff.1 h
          exact defineArguments_quiets h hs hA
      | error e => exact defineArguments_quiets (discard_error_iff.1 h) hs hA
    · exact hpure h
  · cases r with
    | ok _ =>
        obtain ⟨v, h⟩ := discard_ok_iff.1 h
        exact define_quiets h hA
    | error e => exact define_quiets (discard_error_iff.1 h) hA
  · exact hpure h

theorem enter_quiets {r : Except Error ScopeId} (h : (enter kind n upper).outcome s = (r, s'))
    (hA : ∀ u, upper = some u → A u) (hnew : A s.scopes.size) : Quiets A s s' := by
  have provided {i : ScopeId} {t : Store} {r : Except Error Unit}
      (ho : (openScope kind n upper).outcome s = (.ok i, t))
      (hp : (provide kind n i).outcome t = (r, s')) : Quiets A s s' := by
    obtain ⟨rfl, strict, hs⟩ := openScope_scopeAt? ho
    exact (openScope_quiets ho hA).trans (provide_quiets hp hs hnew)
  cases r with
  | ok i =>
      obtain ⟨t, ho, hp⟩ := enter_ok_iff.1 h
      exact provided ho hp
  | error e =>
      simp only [enter, bind_error_iff, pure_error_iff, and_false, exists_false, or_false] at h
      rcases h with ho | ⟨i, t, ho, hp⟩
      · exact openScope_quiets ho hA
      · exact provided ho hp

theorem provide_error {e : Error} (h : (provide kind n i).outcome s = (.error e, s')) :
    e = .malformed := by
  unfold provide at h
  split at h
  · split at h
    · exact absurd (discard_error_iff.1 h) (by simp [defineArguments])
    · exact (pure_error_iff.1 h).elim
  · exact (define_error (discard_error_iff.1 h)).1
  · exact (pure_error_iff.1 h).elim

theorem enter_error {e : Error} (h : (enter kind n upper).outcome s = (.error e, s')) :
    e = .malformed := by
  simp only [enter, bind_error_iff, pure_error_iff, and_false, exists_false, or_false] at h
  rcases h with ho | ⟨i, t, -, hp⟩
  · exact (openScope_error ho).1
  · exact provide_error hp

theorem enterAll_quiets {kinds : List ScopeKind} {r : Except Error (Option ScopeId)}
    (h : (enterAll n kinds upper).outcome s = (r, s')) : Quiets (fun _ => True) s s' := by
  induction kinds generalizing s upper with
  | nil =>
      cases r with
      | ok _ => rw [(pure_ok_iff.1 h).2]
      | error e => exact absurd h (by simp [enterAll])
  | cons kind rest ih =>
      cases r with
      | ok _ =>
          obtain ⟨i, t, he, hr⟩ := bind_ok_iff.1 h
          exact (enter_quiets he (fun _ _ => trivial) trivial).trans (ih hr)
      | error e =>
          rcases bind_error_iff.1 h with he | ⟨i, t, he, hr⟩
          · exact enter_quiets he (fun _ _ => trivial) trivial
          · exact (enter_quiets he (fun _ _ => trivial) trivial).trans (ih hr)

theorem nest_quiets {isMethod : Bool} {r : Except Error ScopeId}
    (h : (nest n upper isMethod).outcome s = (r, s')) : Quiets (fun _ => True) s s' := by
  cases r with
  | ok i =>
      simp only [nest, bind_ok_iff, need_ok_iff] at h
      obtain ⟨_, _, ⟨-, rfl⟩, _, _, h, -, rfl⟩ := h
      exact enterAll_quiets h
  | error e =>
      simp only [nest, bind_error_iff, need_error_iff, need_ok_iff] at h
      obtain ⟨-, -, rfl⟩ | ⟨_, _, ⟨-, rfl⟩, h | ⟨_, _, h, -, -, rfl⟩⟩ := h
      · exact .refl
      · exact enterAll_quiets h
      · exact enterAll_quiets h

end Action

end LexScope
