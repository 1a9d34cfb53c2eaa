import LexScope.Proofs.Effect

/-!
# Proofs — View — what each change of the store shows

A store is looked at through `scopeAt?`, `variableAt?` and `referenceAt?`.  For every change that
the actions make, the lemmas here say what these three show afterwards; together with the frame
lemmas beside `Store` they are all that later proofs use of the arrays underneath.
-/

namespace LexScope.Store

variable (s : Store)

/-! ### Numbers in use -/

theorem scopeAt?_lt {s : Store} {i : ScopeId} {scope : Scope} (h : s.scopeAt? i = some scope) :
    i < s.scopes.size := (Array.getElem?_eq_some_iff.1 h).1

theorem scopeAt?_of_lt {s : Store} {i : ScopeId} (h : i < s.scopes.size) :
    ∃ scope, s.scopeAt? i = some scope := ⟨_, Array.getElem?_eq_getElem h⟩

theorem scopeAt?_eq_none {s : Store} {i : ScopeId} : s.scopeAt? i = none ↔ s.scopes.size ≤ i :=
  Array.getElem?_eq_none_iff

theorem variableAt?_lt {s : Store} {v : VariableId} {var : Variable}
    (h : s.variableAt? v = some var) : v < s.vars.size := (Array.getElem?_eq_some_iff.1 h).1

theorem referenceAt?_lt {s : Store} {r : ReferenceId} {ref : Reference}
    (h : s.referenceAt? r = some ref) : r < s.references.size :=
  (Array.getElem?_eq_some_iff.1 h).1

/-- Two stores are one if they show the same. -/
theorem ext_views {s t : Store} (ho : s.options = t.options)
    (hs : ∀ i, s.scopeAt? i = t.scopeAt? i) (hv : ∀ v, s.variableAt? v = t.variableAt? v)
    (hr : ∀ r, s.referenceAt? r = t.referenceAt? r) (hg : s.global = t.global)
    (hl : s.log = t.log) : s = t := by
  cases s
  cases t
  obtain rfl : _ = _ := ho
  obtain rfl : _ = _ := hg
  obtain rfl : _ = _ := hl
  have e₁ := Array.ext_getElem? hs
  have e₂ := Array.ext_getElem? hv
  have e₃ := Array.ext_getElem? hr
  simp only at e₁ e₂ e₃
  subst e₁ e₂ e₃
  rfl

/-! ### Recording -/

@[simp] theorem scopeAt?_record (entry : LogRecord) (i : ScopeId) :
    (s.record entry).scopeAt? i = s.scopeAt? i := rfl

@[simp] theorem variableAt?_record (entry : LogRecord) (v : VariableId) :
    (s.record entry).variableAt? v = s.variableAt? v := rfl

@[simp] theorem referenceAt?_record (entry : LogRecord) (r : ReferenceId) :
    (s.record entry).referenceAt? r = s.referenceAt? r := rfl

/-! ### Opening -/

@[simp] theorem variableAt?_addScope (kind : ScopeKind) (n : Node) (upper : Option ScopeId)
    (strict : Bool) (v : VariableId) :
    (s.addScope kind n upper strict).variableAt? v = s.variableAt? v := by
  unfold addScope
  cases upper <;> by_cases h : kind = .global <;> simp only [h, if_true, if_false] <;> rfl

@[simp] theorem referenceAt?_addScope (kind : ScopeKind) (n : Node) (upper : Option ScopeId)
    (strict : Bool) (r : ReferenceId) :
    (s.addScope kind n upper strict).referenceAt? r = s.referenceAt? r := by
  unfold addScope
  cases upper <;> by_cases h : kind = .global <;> simp only [h, if_true, if_false] <;> rfl

theorem scopeAt?_pushScope (scope : Scope) (j : ScopeId) :
    (s.pushScope scope).scopeAt? j = if j = s.scopes.size then some scope else s.scopeAt? j :=
  Array.getElem?_push

theorem scopeAt?_addScope (kind : ScopeKind) (n : Node) (upper : Option ScopeId) (strict : Bool)
    (hu : ∀ u, upper = some u → u < s.scopes.size) (j : ScopeId) :
    (s.addScope kind n upper strict).scopeAt? j =
      if j = s.scopes.size then some (s.freshScope kind n upper strict)
      else (s.scopeAt? j).map fun scope =>
        if upper = some j then scope.adopt s.scopes.size else scope := by
  -- Which scope is the global one does not matter for what is looked up.
  have hglobal : ∀ t : Store, (if kind = .global then { t with global := some s.scopes.size }
      else t).scopeAt? j = t.scopeAt? j := by
    intro t
    split <;> rfl
  unfold addScope
  simp only [hglobal]
  cases upper with
  | none => simp [scopeAt?_pushScope]
  | some u =>
      have hne : s.scopes.size ≠ u := (hu u rfl).ne'
      simp only [scopeAt?_updateScope, scopeAt?_pushScope, Option.some.injEq]
      by_cases hj : j = s.scopes.size
      · subst hj; simp [hne.symm]
      · by_cases he : u = j <;> simp [hj, he]

section AddScope

variable {s} {kind : ScopeKind} {n : Node} {upper : Option ScopeId} {strict : Bool} {j : ScopeId}
  {a b : Scope}

/-- The scope that was just opened. -/
theorem scopeAt?_addScope_new (hu : ∀ u, upper = some u → u < s.scopes.size) :
    (s.addScope kind n upper strict).scopeAt? s.scopes.size =
      some (s.freshScope kind n upper strict) := by
  rw [scopeAt?_addScope s kind n upper strict hu, if_pos rfl]

/-- A scope that was there stays as it is, but for its children. -/
theorem scopeAt?_addScope_keep (hu : ∀ u, upper = some u → u < s.scopes.size)
    (ha : s.scopeAt? j = some a) :
    ∃ l, (s.addScope kind n upper strict).scopeAt? j = some { a with children := l } := by
  rw [scopeAt?_addScope s kind n upper strict hu, if_neg (scopeAt?_lt ha).ne, ha]
  by_cases hj : upper = some j
  · exact ⟨_, congrArg some (if_pos hj)⟩
  · exact ⟨a.children, congrArg some (if_neg hj)⟩

/-- **A scope is the one that was just opened, or it was there**, and differs by its children. -/
theorem scopeAt?_addScope_cases (hu : ∀ u, upper = some u → u < s.scopes.size)
    (hb : (s.addScope kind n upper strict).scopeAt? j = some b) :
    j = s.scopes.size ∧ b = s.freshScope kind n upper strict ∨
      ∃ a l, s.scopeAt? j = some a ∧ b = { a with children := l } := by
  by_cases hj : j = s.scopes.size
  · subst hj
    rw [scopeAt?_addScope_new hu] at hb
    exact .inl ⟨rfl, (Option.some.inj hb).symm⟩
  · rw [scopeAt?_addScope s kind n upper strict hu, if_neg hj] at hb
    obtain ⟨a, ha, rfl⟩ := Option.map_eq_some_iff.1 hb
    by_cases hupper : upper = some j
    · exact .inr ⟨a, _, ha, if_pos hupper⟩
    · exact .inr ⟨a, a.children, ha, if_neg hupper⟩

end AddScope

@[simp] theorem options_addScope (kind : ScopeKind) (n : Node) (upper : Option ScopeId)
    (strict : Bool) : (s.addScope kind n upper strict).options = s.options := by
  unfold addScope
  cases upper <;> by_cases h : kind = .global <;> simp only [h, if_true, if_false] <;> rfl

/-! ### Binding names -/

@[simp] theorem scopeAt?_bindNew (i : ScopeId) (key : Name) (var : Variable) (j : ScopeId) :
    (s.bindNew i key var).scopeAt? j =
      if i = j then (s.scopeAt? j).map (·.bind key s.vars.size) else s.scopeAt? j :=
  scopeAt?_updateScope _ _ _ _

@[simp] theorem variableAt?_bindNew (i : ScopeId) (key : Name) (var : Variable) (v : VariableId) :
    (s.bindNew i key var).variableAt? v =
      if v = s.vars.size then some var else s.variableAt? v :=
  Array.getElem?_push

@[simp] theorem referenceAt?_bindNew (i : ScopeId) (key : Name) (var : Variable)
    (r : ReferenceId) : (s.bindNew i key var).referenceAt? r = s.referenceAt? r := rfl

@[simp] theorem scopeAt?_addDefinition (v : VariableId) (d : Definition) (i : ScopeId) :
    (s.addDefinition v d).scopeAt? i = s.scopeAt? i := rfl

@[simp] theorem variableAt?_addDefinition (v : VariableId) (d : Definition) (w : VariableId) :
    (s.addDefinition v d).variableAt? w =
      if v = w then (s.variableAt? w).map fun var => { var with defs := var.defs ++ [d] }
      else s.variableAt? w :=
  variableAt?_updateVariable _ _ _ _

@[simp] theorem referenceAt?_addDefinition (v : VariableId) (d : Definition) (r : ReferenceId) :
    (s.addDefinition v d).referenceAt? r = s.referenceAt? r := rfl

/-! ### Making references -/

@[simp] theorem scopeAt?_addReference (i : ScopeId) (u : Use) (j : ScopeId) :
    (s.addReference i u).scopeAt? j =
      if i = j then (s.scopeAt? j).map (·.take s.references.size) else s.scopeAt? j :=
  scopeAt?_updateScope _ _ _ _

@[simp] theorem variableAt?_addReference (i : ScopeId) (u : Use) (v : VariableId) :
    (s.addReference i u).variableAt? v = s.variableAt? v := rfl

@[simp] theorem referenceAt?_addReference (i : ScopeId) (u : Use) (r : ReferenceId) :
    (s.addReference i u).referenceAt? r =
      if r = s.references.size then some { u with scope := i } else s.referenceAt? r :=
  Array.getElem?_push

/-! ### Several scopes at once -/

/-- Changing scopes that are listed once each changes exactly those. -/
theorem scopeAt?_updateScopes {l : List ScopeId} (hl : l.Nodup) (f : Scope → Scope) (j : ScopeId) :
    (s.updateScopes l f).scopeAt? j =
      if j ∈ l then (s.scopeAt? j).map f else s.scopeAt? j := by
  induction l generalizing s with
  | nil => simp [updateScopes]
  | cons i l ih =>
      obtain ⟨hi, hl⟩ := List.nodup_cons.1 hl
      show ((s.updateScope i f).updateScopes l f).scopeAt? j = _
      rw [ih (s.updateScope i f) hl, scopeAt?_updateScope]
      by_cases hj : i = j
      · subst hj; simp [hi]
      · simp [hj, Ne.symm hj]

@[simp] theorem variableAt?_updateScopes (l : List ScopeId) (f : Scope → Scope) (v : VariableId) :
    (s.updateScopes l f).variableAt? v = s.variableAt? v := by
  induction l generalizing s with
  | nil => rfl
  | cons i l ih => exact ih (s.updateScope i f)

@[simp] theorem referenceAt?_updateScopes (l : List ScopeId) (f : Scope → Scope)
    (r : ReferenceId) : (s.updateScopes l f).referenceAt? r = s.referenceAt? r := by
  induction l generalizing s with
  | nil => rfl
  | cons i l ih => exact ih (s.updateScope i f)

@[simp] theorem options_updateScopes (l : List ScopeId) (f : Scope → Scope) :
    (s.updateScopes l f).options = s.options := by
  induction l generalizing s with
  | nil => rfl
  | cons i l ih => exact ih (s.updateScope i f)

/-! ### Tying a reference to a variable -/

@[simp] theorem scopeAt?_link (r : ReferenceId) (origin : ScopeId) (v : VariableId)
    (i : ScopeId) : (s.link r origin v).scopeAt? i = s.scopeAt? i := rfl

@[simp] theorem variableAt?_link (r : ReferenceId) (origin : ScopeId) (v w : VariableId) :
    (s.link r origin v).variableAt? w =
      if v = w then (s.variableAt? w).map fun var =>
        { var with
          references := var.references ++ [r]
          stack := var.stack &&
            decide (s.variableScope? origin = s.variableScope? var.scope) }
      else s.variableAt? w :=
  variableAt?_updateVariable _ _ _ _

@[simp] theorem referenceAt?_link (r : ReferenceId) (origin : ScopeId) (v : VariableId)
    (q : ReferenceId) :
    (s.link r origin v).referenceAt? q =
      if r = q then (s.referenceAt? q).map fun ref => { ref with resolved := some v }
      else s.referenceAt? q :=
  referenceAt?_updateReference _ _ _ _

/-! ### What was there before -/

section

variable {s} {i j : ScopeId} {v w : VariableId} {r q : ReferenceId} {b : Scope} {x : Variable}
  {ref : Reference}

/-- A scope is the one that was changed, or it is as before. -/
theorem scopeAt?_updateScope_cases {f : Scope → Scope}
    (hb : (s.updateScope i f).scopeAt? j = some b) :
    (i = j ∧ ∃ a, s.scopeAt? j = some a ∧ b = f a) ∨ i ≠ j ∧ s.scopeAt? j = some b := by
  rw [scopeAt?_updateScope] at hb
  by_cases hj : i = j
  · rw [if_pos hj] at hb
    obtain ⟨a, ha, rfl⟩ := Option.map_eq_some_iff.1 hb
    exact .inl ⟨hj, a, ha, rfl⟩
  · rw [if_neg hj] at hb
    exact .inr ⟨hj, hb⟩

theorem scopeAt?_bindNew_cases {key : Name} {var : Variable}
    (hb : (s.bindNew i key var).scopeAt? j = some b) :
    (i = j ∧ ∃ a, s.scopeAt? j = some a ∧ b = a.bind key s.vars.size) ∨
      i ≠ j ∧ s.scopeAt? j = some b :=
  scopeAt?_updateScope_cases hb

theorem scopeAt?_addReference_cases {u : Use} (hb : (s.addReference i u).scopeAt? j = some b) :
    (i = j ∧ ∃ a, s.scopeAt? j = some a ∧ b = a.take s.references.size) ∨
      i ≠ j ∧ s.scopeAt? j = some b :=
  scopeAt?_updateScope_cases hb

/-- A variable is the one that was made, or it was there. -/
theorem variableAt?_bindNew_cases {key : Name} {var : Variable}
    (hx : (s.bindNew i key var).variableAt? v = some x) :
    v = s.vars.size ∧ x = var ∨ s.variableAt? v = some x := by
  rw [variableAt?_bindNew] at hx
  split at hx
  · exact .inl ⟨‹_›, (Option.some.inj hx).symm⟩
  · exact .inr hx

/-- A variable is the one that was changed, or it is as before. -/
theorem variableAt?_updateVariable_cases {f : Variable → Variable}
    (hx : (s.updateVariable v f).variableAt? w = some x) :
    (v = w ∧ ∃ y, s.variableAt? w = some y ∧ x = f y) ∨ v ≠ w ∧ s.variableAt? w = some x := by
  rw [variableAt?_updateVariable] at hx
  by_cases hw : v = w
  · rw [if_pos hw] at hx
    obtain ⟨y, hy, rfl⟩ := Option.map_eq_some_iff.1 hx
    exact .inl ⟨hw, y, hy, rfl⟩
  · rw [if_neg hw] at hx
    exact .inr ⟨hw, hx⟩

theorem variableAt?_addDefinition_cases {d : Definition}
    (hx : (s.addDefinition v d).variableAt? w = some x) :
    (v = w ∧ ∃ y, s.variableAt? w = some y ∧ x = { y with defs := y.defs ++ [d] }) ∨
      v ≠ w ∧ s.variableAt? w = some x :=
  variableAt?_updateVariable_cases hx

theorem variableAt?_link_cases {origin : ScopeId}
    (hx : (s.link r origin v).variableAt? w = some x) :
    (v = w ∧ ∃ y, s.variableAt? w = some y ∧
      x = { y with
        references := y.references ++ [r]
        stack := y.stack && decide (s.variableScope? origin = s.variableScope? y.scope) }) ∨
      v ≠ w ∧ s.variableAt? w = some x :=
  variableAt?_updateVariable_cases hx

/-- A reference is the one that was made, or it was there. -/
theorem referenceAt?_addReference_cases {u : Use}
    (hr : (s.addReference i u).referenceAt? r = some ref) :
    r = s.references.size ∧ ref = { u with scope := i } ∨ s.referenceAt? r = some ref := by
  rw [referenceAt?_addReference] at hr
  split at hr
  · exact .inl ⟨‹_›, (Option.some.inj hr).symm⟩
  · exact .inr hr

/-- A reference that was tied is resolved now; any other is as before. -/
theorem referenceAt?_link_cases {origin : ScopeId}
    (hr : (s.link r origin v).referenceAt? q = some ref) :
    (r = q ∧ ∃ ref₀, s.referenceAt? q = some ref₀ ∧ ref = { ref₀ with resolved := some v }) ∨
      r ≠ q ∧ s.referenceAt? q = some ref := by
  rw [referenceAt?_link] at hr
  by_cases hq : r = q
  · rw [if_pos hq] at hr
    obtain ⟨ref₀, href₀, rfl⟩ := Option.map_eq_some_iff.1 hr
    exact .inl ⟨hq, ref₀, href₀, rfl⟩
  · rw [if_neg hq] at hr
    exact .inr ⟨hq, hr⟩

end

end LexScope.Store
