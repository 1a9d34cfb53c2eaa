import LexScope.Proofs.Quiet

/-!
# Proofs — Closing — what closing a scope does

A successful close makes the implicit globals, which is quiet, then settles the pending references
one after the other, then shuts the scope (`close_ok_iff`).  A reference is settled in one of four
ways: it is tied to a variable of the scope, handed to the scope above, left at the top, or let go
through the whole chain (`settle_ok_iff`, `escape_ok_iff`).

* `close_changes`: a close touches nothing but the scope and the scopes above it.
* `close_error`: a close of an open scope fails only for a value of the wrong form.
-/

namespace LexScope

open Store

namespace Action

variable {A : ScopeId → Prop} {s s' : Store} {i : ScopeId} {r : ReferenceId} {e : Error}
  {scope : Scope} {pending : List ReferenceId}

/-! ### Settling one reference -/

theorem resolveTo_ok_iff {v : VariableId} {u : Unit} :
    (resolveTo r v).outcome s = (.ok u, s') ↔
      ∃ ref, s.referenceAt? r = some ref ∧ s' = s.link r ref.scope v := by
  simp only [resolveTo, bind_ok_iff, referenceAt_ok_iff, modify_ok_iff]
  constructor
  · rintro ⟨ref, _, ⟨hr, rfl⟩, rfl⟩
    exact ⟨ref, hr, rfl⟩
  · rintro ⟨ref, hr, rfl⟩
    exact ⟨ref, s, ⟨hr, rfl⟩, rfl⟩

/-- A reference is handed to an open scope above, or just leaves where there is none. -/
theorem handUp_ok_iff {u : Unit} :
    (handUp i r).outcome s = (.ok u, s') ↔
      ∃ scope, s.scopeAt? i = some scope ∧
        ((scope.upper = none ∧ s' = s.updateScope i (·.pass r)) ∨
          ∃ w above, scope.upper = some w ∧ s.scopeAt? w = some above ∧ above.isClosed = false ∧
            s' = (s.updateScope w (·.receive r)).updateScope i (·.pass r)) := by
  rw [handUp, bind_ok_iff]
  simp only [scopeAt_ok_iff]
  constructor
  · rintro ⟨scope, _, ⟨hs, rfl⟩, h⟩
    refine ⟨scope, hs, ?_⟩
    cases hu : scope.upper with
    | none =>
        simp only [hu] at h
        exact .inl ⟨rfl, modify_ok_iff.1 h⟩
    | some w =>
        simp only [hu, bind_ok_iff, scopeAt_ok_iff] at h
        obtain ⟨above, _, ⟨ha, rfl⟩, h⟩ := h
        cases hc : above.isClosed with
        | true => simp [hc] at h
        | false =>
            simp [hc] at h
            exact .inr ⟨w, above, rfl, ha, hc, h⟩
  · rintro ⟨scope, hs, ⟨hu, rfl⟩ | ⟨w, above, hu, ha, hc, rfl⟩⟩
    · exact ⟨scope, s, ⟨hs, rfl⟩, by simp [hu]⟩
    · exact ⟨scope, s, ⟨hs, rfl⟩, by simp [hu, ha, hc]⟩

theorem settle_ok_iff {u : Unit} :
    (settle i r).outcome s = (.ok u, s') ↔
      ∃ ref key scope, s.referenceAt? r = some ref ∧ Name.ofTree? ref.name = some key ∧
        s.scopeAt? i = some scope ∧
        ((∃ v, scope.table.find? key = some v ∧ s' = s.link r ref.scope v) ∨
          (scope.table.find? key = none ∧ (handUp i r).outcome s = (.ok (), s'))) := by
  simp only [settle, bind_ok_iff, referenceAt_ok_iff, need_ok_iff, scopeAt_ok_iff]
  constructor
  · rintro ⟨ref, _, ⟨hr, rfl⟩, key, _, ⟨hk, rfl⟩, scope, _, ⟨hs, rfl⟩, h⟩
    refine ⟨ref, key, scope, hr, hk, hs, ?_⟩
    cases hf : scope.table.find? key with
    | some v =>
        rw [hf] at h
        obtain ⟨ref', hr', rfl⟩ := resolveTo_ok_iff.1 h
        rw [hr, Option.some.injEq] at hr'
        exact .inl ⟨v, rfl, by rw [hr']⟩
    | none =>
        rw [hf] at h
        exact .inr ⟨rfl, h⟩
  · rintro ⟨ref, key, scope, hr, hk, hs, h⟩
    refine ⟨ref, s, ⟨hr, rfl⟩, key, s, ⟨hk, rfl⟩, scope, s, ⟨hs, rfl⟩, ?_⟩
    rcases h with ⟨v, hf, rfl⟩ | ⟨hf, h⟩
    · rw [hf]
      exact resolveTo_ok_iff.2 ⟨ref, hr, rfl⟩
    · rw [hf]
      exact h

theorem settle_error (h : (settle i r).outcome s = (.error e, s')) : e = .malformed := by
  simp only [settle, bind_error_iff, referenceAt_error_iff, referenceAt_ok_iff, need_error_iff,
    need_ok_iff, scopeAt_error_iff, scopeAt_ok_iff] at h
  obtain ⟨-, rfl, -⟩ | ⟨ref, _, ⟨hr, rfl⟩, ⟨-, rfl, -⟩ |
    ⟨key, _, ⟨-, rfl⟩, ⟨-, rfl, -⟩ | ⟨scope, _, ⟨hs, rfl⟩, h⟩⟩⟩ := h
  · rfl
  · rfl
  · rfl
  · cases hf : scope.table.find? key with
    | some v =>
        rw [hf] at h
        simp [resolveTo, hr] at h
    | none =>
        rw [hf, handUp] at h
        cases hu : scope.upper with
        | none => simp [hs, hu] at h
        | some w =>
            simp only [bind_error_iff, scopeAt_ok_iff, scopeAt_error_iff] at h
            obtain ⟨h, -⟩ | ⟨_, _, ⟨hs', rfl⟩, h⟩ := h
            · rw [hs] at h; cases h
            · rw [hs, Option.some.injEq] at hs'
              subst hs'
              simp only [hu, bind_error_iff, scopeAt_ok_iff, scopeAt_error_iff] at h
              obtain ⟨-, rfl, -⟩ | ⟨above, _, ⟨-, rfl⟩, h⟩ := h
              · rfl
              · cases hc : above.isClosed with
                | true => simp [hc] at h; exact h.1
                | false => simp [hc] at h

@[simp] theorem escape_ok_iff {u : Unit} :
    (escape i r).outcome s = (.ok u, s') ↔ s' = s.updateScopes (s.chain i) (·.pass r) :=
  modify_ok_iff

@[simp] theorem escape_error_iff :
    (escape i r).outcome s = (.error e, s') ↔ False := modify_error_iff

/-! ### Implicit globals -/

theorem makeImplicit_ok_iff {c : Candidate} {u : Unit} :
    (makeImplicit i c).outcome s = (.ok u, s') ↔
      ∃ v t key, (define i c.pattern
          { kind := .variable, name := c.pattern, node := c.node }).outcome s = (.ok (some v), t) ∧
        Name.ofTree? (c.pattern.value.get "name") = some key ∧
        s' = t.updateScope i (·.bindImplicit key v) := by
  simp only [makeImplicit, bind_ok_iff, need_ok_iff, modify_ok_iff]
  constructor
  · rintro ⟨_, t, hd, v, _, ⟨rfl, rfl⟩, key, _, ⟨hk, rfl⟩, rfl⟩
    exact ⟨v, _, key, hd, hk, rfl⟩
  · rintro ⟨v, t, key, hd, hk, rfl⟩
    exact ⟨_, t, hd, v, t, ⟨rfl, rfl⟩, key, t, ⟨hk, rfl⟩, rfl⟩

theorem makeImplicit_error {c : Candidate} (h : (makeImplicit i c).outcome s = (.error e, s')) :
    e = .malformed := by
  simp only [makeImplicit, bind_error_iff, need_error_iff, need_ok_iff, modify_error_iff,
    and_false, exists_false, or_false] at h
  obtain h | ⟨_, _, -, ⟨-, rfl, -⟩ | ⟨_, _, ⟨-, rfl⟩, -, rfl, -⟩⟩ := h
  · exact (define_error h).1
  · rfl
  · rfl

theorem openCandidates_cons_ok_iff {table : Table VariableId} {cs : List Candidate} :
    (openCandidates table (r :: pending)).outcome s = (.ok cs, s') ↔
      ∃ ref, s.referenceAt? r = some ref ∧
        ((ref.candidate = none ∧ (openCandidates table pending).outcome s = (.ok cs, s')) ∨
          ∃ c key others, ref.candidate = some c ∧ Name.ofTree? ref.name = some key ∧
            (openCandidates table pending).outcome s = (.ok others, s') ∧
            cs = if (table.find? key).isSome then others else c :: others) := by
  rw [openCandidates, bind_ok_iff]
  simp only [referenceAt_ok_iff]
  constructor
  · rintro ⟨ref, _, ⟨href, rfl⟩, h⟩
    refine ⟨ref, href, ?_⟩
    cases hc : ref.candidate with
    | none => rw [hc] at h; exact .inl ⟨rfl, h⟩
    | some c =>
        simp only [hc, bind_ok_iff, need_ok_iff, pure_ok_iff] at h
        obtain ⟨key, _, ⟨hk, rfl⟩, others, _, h, rfl, rfl⟩ := h
        exact .inr ⟨c, key, others, rfl, hk, h, rfl⟩
  · rintro ⟨ref, href, ⟨hc, h⟩ | ⟨c, key, others, hc, hk, h, rfl⟩⟩
    · exact ⟨ref, s, ⟨href, rfl⟩, by rw [hc]; exact h⟩
    · refine ⟨ref, s, ⟨href, rfl⟩, ?_⟩
      simp only [hc, bind_ok_iff, need_ok_iff, pure_ok_iff]
      exact ⟨key, s, ⟨hk, rfl⟩, others, s', h, rfl, rfl⟩

theorem openCandidates_ok {table : Table VariableId} {cs : List Candidate}
    (h : (openCandidates table pending).outcome s = (.ok cs, s')) : s' = s := by
  induction pending generalizing cs with
  | nil => exact (pure_ok_iff.1 h).2
  | cons r l ih =>
      obtain ⟨ref, -, ⟨-, h⟩ | ⟨c, key, others, -, -, h, -⟩⟩ := openCandidates_cons_ok_iff.1 h
      · exact ih h
      · exact ih h

theorem openCandidates_error {table : Table VariableId}
    (h : (openCandidates table pending).outcome s = (.error e, s')) : e = .malformed := by
  induction pending generalizing s with
  | nil => exact (pure_error_iff.1 h).elim
  | cons r l ih =>
      simp only [openCandidates, bind_error_iff, referenceAt_ok_iff, referenceAt_error_iff] at h
      obtain ⟨-, rfl, -⟩ | ⟨ref, _, ⟨-, rfl⟩, h⟩ := h
      · rfl
      · cases hc : ref.candidate with
        | none => rw [hc] at h; exact ih h
        | some c =>
            simp only [hc, bind_error_iff, need_error_iff, need_ok_iff, pure_error_iff, and_false,
              exists_false, or_false] at h
            obtain ⟨-, rfl, -⟩ | ⟨_, _, ⟨-, rfl⟩, h⟩ := h
            · rfl
            · exact ih h

theorem makeImplicit_quiets {c : Candidate} (hs : s.Sound)
    (h : (makeImplicit i c).outcome s = (.ok (), s')) : Quiets (· = i) s s' := by
  obtain ⟨v, u, key, hd, hk, rfl⟩ := makeImplicit_ok_iff.1 h
  obtain ⟨key', a, var, hk', ha, hf, -⟩ := define_bound hs hd
  obtain rfl : key = key' := Option.some.inj (hk.symm.trans hk')
  have hbound : Quiets (· = i) s u := define_quiets hd rfl
  exact hbound.tail (.bindImplicit rfl ha hf)

/-- What is kept by making one implicit global is kept by making all. -/
theorem bindImplicits_induction {P : Store → Prop}
    (h : (bindImplicits i scope pending).outcome s = (.ok (), s')) (h₀ : P s)
    (step : ∀ c t t', P t → (makeImplicit i c).outcome t = (.ok (), t') → P t') : P s' := by
  rw [bindImplicits] at h
  split at h
  · obtain ⟨cs, t, hc, h⟩ := bind_ok_iff.1 h
    rw [openCandidates_ok hc] at h
    exact forM_ok_induction (P := fun _ t => P t) h h₀ fun c _ t t' ht hm => step c t t' ht hm
  · rw [(pure_ok_iff.1 h).2]
    exact h₀

/-- Making implicit globals adds variables and notes them, in one scope. -/
theorem bindImplicits_quiets (hs : s.Sound)
    (h : (bindImplicits i scope pending).outcome s = (.ok (), s')) : Quiets (· = i) s s' := by
  refine bindImplicits_induction h .refl ?_
  intro c t t' ih hm
  exact ih.trans (makeImplicit_quiets (ih.changes.sound hs) hm)

theorem bindImplicits_error (h : (bindImplicits i scope pending).outcome s = (.error e, s')) :
    e = .malformed := by
  rw [bindImplicits] at h
  split at h
  · rcases bind_error_iff.1 h with h | ⟨cs, t, -, h⟩
    · exact openCandidates_error h
    · obtain ⟨c, -, t', hm⟩ := forM_error h
      exact makeImplicit_error hm
  · exact (pure_error_iff.1 h).elim

/-! ### Settling all -/

/-- What is kept by settling one reference, and by letting one escape, is kept by settling all.  It
may depend on the references that are still to come. -/
theorem settleAll_induction {settled : Bool} {P : List ReferenceId → Store → Prop}
    (h : (settleAll i settled pending).outcome s = (.ok (), s')) (h₀ : P pending s)
    (hsettle : ∀ r l t t', P (r :: l) t → (settle i r).outcome t = (.ok (), t') → P l t')
    (hescape : ∀ r l t, P (r :: l) t → P l (t.updateScopes (t.chain i) (·.pass r))) : P [] s' := by
  rw [settleAll] at h
  split at h
  · exact forM_ok_induction h h₀ hsettle
  · refine forM_ok_induction h h₀ ?_
    intro r l t t' ht hr
    rw [escape_ok_iff.1 hr]
    exact hescape r l t ht

theorem settleAll_error {settled : Bool}
    (h : (settleAll i settled pending).outcome s = (.error e, s')) : e = .malformed := by
  rw [settleAll] at h
  split at h
  · obtain ⟨r, -, t, hr⟩ := forM_error h
    exact settle_error hr
  · obtain ⟨r, -, t, hr⟩ := forM_error h
    exact (escape_error_iff.1 hr).elim

/-! ### Closing -/

/-- The entry that records a close. -/
def closedEntry (scope : Scope) : LogRecord :=
  .closed scope.kind scope.block.type scope.references.length scope.through.length

theorem close_ok_iff {up : Option ScopeId} :
    (close i).outcome s = (.ok up, s') ↔
      ∃ scope pending t u last, s.scopeAt? i = some scope ∧ scope.pending = some pending ∧
        (bindImplicits i scope pending).outcome s = (.ok (), t) ∧
        (settleAll i (settles t.options scope) pending).outcome t = (.ok (), u) ∧
        u.scopeAt? i = some last ∧ last.block.isObj = true ∧ up = last.upper ∧
        s' = (u.updateScope i (·.shut)).record (closedEntry last) := by
  rw [close, bind_ok_iff]
  simp only [scopeAt_ok_iff]
  constructor
  · rintro ⟨scope, _, ⟨hs, rfl⟩, h⟩
    cases hp : scope.pending with
    | none => simp [hp] at h
    | some pending =>
        simp only [hp, bind_ok_iff, get_ok_iff, modify_ok_iff, scopeAt_ok_iff] at h
        obtain ⟨_, t, hb, _, _, ⟨rfl, rfl⟩, _, u, hset, _, _, rfl, closed, _, ⟨hc, rfl⟩, h⟩ := h
        -- The scope is read again after it was shut; `last` is what it was just before.
        obtain ⟨last, hl, rfl⟩ := Option.map_eq_some_iff.1
          (((scopeAt?_updateScope u i i _).trans (if_pos rfl)).symm.trans hc)
        have hblock : last.shut.block = last.block := rfl
        rw [hblock] at h
        cases ho : last.block.isObj with
        | false => simp [ho] at h
        | true =>
            simp only [ho, if_true, bind_ok_iff, record_ok_iff, pure_ok_iff] at h
            obtain ⟨_, _, rfl, rfl, rfl⟩ := h
            exact ⟨scope, pending, _, u, last, hs, hp, hb, hset, hl, ho, rfl, rfl⟩
  · rintro ⟨scope, pending, t, u, last, hs, hp, hb, hset, hl, ho, rfl, rfl⟩
    refine ⟨scope, s, ⟨hs, rfl⟩, ?_⟩
    simp only [hp, bind_ok_iff, get_ok_iff, modify_ok_iff, scopeAt_ok_iff]
    refine ⟨(), t, hb, t, t, ⟨rfl, rfl⟩, (), u, hset, (), _, rfl, last.shut, _,
      ⟨by rw [scopeAt?_updateScope, if_pos rfl, hl]; rfl, rfl⟩, ?_⟩
    have ho' : last.shut.block.isObj = true := ho
    rw [if_pos ho']
    simp [Scope.shut, closedEntry]

/-! ### What a close touches -/

theorem settle_changes (hs : s.Sound) (h : (settle i r).outcome s = (.ok (), s')) :
    Changes (· ∈ s.chain i) s s' := by
  have hself : i ∈ s.chain i := self_mem_chain s i
  obtain ⟨ref, key, scope, -, -, hi, ⟨v, hf, rfl⟩ | ⟨-, h⟩⟩ := settle_ok_iff.1 h
  · exact .single (.link r ref.scope hself hi hf)
  · obtain ⟨scope', hi', ⟨-, rfl⟩ | ⟨w, above, hu, -, -, rfl⟩⟩ := handUp_ok_iff.1 h
    · exact .single (.pass r hself)
    · have hw : w ∈ s.chain i := upper_mem_chain hs.rooted hself ((upperOf_eq hi').trans hu)
      exact .tail (.single (.receive r hw)) (.pass r hself)

theorem settleAll_changes {settled : Bool} (hs : s.Sound) (hi : i < s.scopes.size)
    (h : (settleAll i settled pending).outcome s = (.ok (), s')) :
    Changes (· ∈ s.chain i) s s' := by
  -- Settling does not change the way up, so each step touches the same scopes.
  have hchain : ∀ t, Changes (· ∈ s.chain i) s t → t.chain i = s.chain i := by
    intro t ih
    exact (ih.evolves hs).chain hs (ih.sound hs) hi
  refine settleAll_induction (P := fun _ t => Changes (· ∈ s.chain i) s t) h .refl ?_ ?_
  · intro r _ t t' ih hr
    refine ih.trans ((settle_changes (ih.sound hs) hr).mono ?_)
    intro j hj
    exact hchain t ih ▸ hj
  · intro r _ t ih
    rw [hchain t ih]
    exact ih.trans (changes_updateScopes (fun _ j hj => .pass r hj) t)

/-- **A close touches the scope and the scopes above it, and nothing else.** -/
theorem close_changes {up : Option ScopeId} (hs : s.Sound)
    (h : (close i).outcome s = (.ok up, s')) : Changes (· ∈ s.chain i) s s' := by
  obtain ⟨scope, pending, t, u, last, hi, -, hb, hset, -, -, -, rfl⟩ := close_ok_iff.1 h
  have hself : i ∈ s.chain i := self_mem_chain s i
  have hst : Changes (· ∈ s.chain i) s t :=
    (bindImplicits_quiets hs hb).changes.mono fun j hj => hj ▸ hself
  have ht := hst.sound hs
  obtain ⟨b, hbt, -⟩ := (hst.evolves hs).scope i scope hi
  have htu := settleAll_changes ht (scopeAt?_lt hbt) hset
  rw [(hst.evolves hs).chain hs ht (scopeAt?_lt hi)] at htu
  exact ((hst.trans htu).tail (.shut hself)).tail (.quiet (.record _))

theorem close_error (h : (close i).outcome s = (.error e, s')) :
    e = .malformed ∨ ∃ scope, s.scopeAt? i = some scope ∧ scope.isClosed = true := by
  rw [close, bind_error_iff] at h
  simp only [scopeAt_ok_iff, scopeAt_error_iff] at h
  obtain ⟨-, rfl, -⟩ | ⟨scope, _, ⟨hs, rfl⟩, h⟩ := h
  · exact .inl rfl
  · cases hp : scope.pending with
    | none => exact .inr ⟨scope, hs, by simp [Scope.isClosed, hp]⟩
    | some pending =>
        simp only [hp, bind_error_iff, get_ok_iff, get_error_iff, modify_ok_iff,
          modify_error_iff, scopeAt_ok_iff, scopeAt_error_iff, false_or] at h
        obtain h | ⟨_, t, -, _, _, ⟨rfl, rfl⟩, h | ⟨_, u, -, _, _, rfl, ⟨-, rfl, -⟩ |
          ⟨closed, _, ⟨-, rfl⟩, h⟩⟩⟩ := h
        · exact .inl (bindImplicits_error h)
        · exact .inl (settleAll_error h)
        · exact .inl rfl
        · left
          cases ho : closed.block.isObj with
          | true => simp [ho] at h
          | false => simp [ho] at h; exact h.1

end Action

end LexScope
