import LexScope.Proofs.RenamePlan

/-!
# Proofs — RenameStore — the store of a renamed program

A store is renamed by renaming its nodes, the variable itself, and the entry of the variable in the
tables of its scope (`Store.rename`).  Numbers, flags and lists of references stay as they are.

Each change of a store commutes with renaming.  A change that puts an entry into a table does so as
long as the new name is not bound in the scope of the variable: the renamed entry stands where the
entry stood, and look-up finds what it found (`find?_table`, `put_table`).
-/

namespace LexScope

/-! ### Tables -/

namespace Table

variable {α : Type} {t : Table α} {old new key : Name}

/-- A table with another name for one of its entries. -/
def rekey (t : Table α) (old new : Name) : Table α :=
  t.map fun e => if e.1 = old then (new, e.2) else e

/-- Look-up under the new name finds what the old one did, and under the old one nothing. -/
theorem find?_rekey (h : t.find? new = none) (key : Name) : (t.rekey old new).find? key =
    if key = new then t.find? old else if key = old then none else t.find? key := by
  induction t with
  | nil => simp [rekey, find?]
  | cons e t ih =>
      obtain ⟨k, a⟩ := e
      have hk : k ≠ new := by
        rintro rfl
        simp [find?] at h
      have ht : find? t new = none := by simpa [find?, hk] using h
      have ih := ih ht
      by_cases ho : k = old
      · subst ho
        -- The first entry has the old name: it is found under the new one, and not under its own.
        by_cases hn : key = new
        · subst hn; simp [rekey, find?]
        · have hne : new ≠ key := fun e => hn e.symm
          have : find? (rekey ((k, a) :: t) k new) key = find? (rekey t k new) key := by
            simp [rekey, find?, hne]
          rw [this, ih, if_neg hn, if_neg hn]
          by_cases hko : key = k
          · rw [if_pos hko, if_pos hko]
          · rw [if_neg hko, if_neg hko, find?, if_neg fun e => hko e.symm]
      · have hcons : rekey ((k, a) :: t) old new = (k, a) :: rekey t old new := by
          simp [rekey, ho]
        rw [hcons, find?, ih]
        by_cases hkk : k = key
        · subst hkk; simp [hk, ho, find?]
        · by_cases hn : key = new
          · subst hn; simp [hk, ho, find?]
          · simp [hkk, hn, find?]

/-- Putting an entry in commutes with giving one another name. -/
theorem put_rekey (h : t.find? new = none) (hk : key ≠ new) (a : α) :
    (t.put key a).rekey old new =
      (t.rekey old new).put (if key = old then new else key) a := by
  induction t with
  | nil => by_cases ho : key = old <;> simp [rekey, put, ho]
  | cons e t ih =>
      obtain ⟨k, b⟩ := e
      have hkn : k ≠ new := by
        rintro rfl
        simp [find?] at h
      have ih := ih (by simpa [find?, hkn] using h)
      by_cases he : k = key
      · subst he
        by_cases ho : k = old <;> simp [rekey, put, ho]
      · have hput : put ((k, b) :: t) key a = (k, b) :: put t key a := by simp [put, he]
        rw [hput]
        by_cases ho : k = old
        · subst ho
          have hcons : ∀ u : Table α, rekey ((k, b) :: u) k new = (new, b) :: rekey u k new :=
            fun u => by simp [rekey]
          rw [hcons, hcons, ih, if_neg fun e => he e.symm, put, if_neg fun e => hk e.symm]
        · have hcons : ∀ u : Table α, rekey ((k, b) :: u) old new = (k, b) :: rekey u old new :=
            fun u => by simp [rekey, ho]
          have hne : k ≠ if key = old then new else key := by
            split
            · exact hkn
            · exact he
          rw [hcons, hcons, ih, put, if_neg hne]

end Table

/-! ### Renaming a store -/

namespace Renaming

variable (ρ : Renaming)

/-- The name that an entry of a scope has after renaming. -/
def key (i : ScopeId) (key : Name) : Name :=
  if i = ρ.scope ∧ key = .text ρ.old then .text ρ.new else key

/-- A table of a scope after renaming. -/
def table (i : ScopeId) (t : Table VariableId) : Table VariableId :=
  if i = ρ.scope then t.rekey (.text ρ.old) (.text ρ.new) else t

variable {i : ScopeId} {t : Table VariableId} {name : Name}

theorem key_old : ρ.key ρ.scope (.text ρ.old) = .text ρ.new := if_pos ⟨rfl, rfl⟩

theorem key_of_ne (h : ¬(i = ρ.scope ∧ name = .text ρ.old)) : ρ.key i name = name := if_neg h

theorem table_of_ne (h : i ≠ ρ.scope) : ρ.table i t = t := if_neg h

theorem table_scope : ρ.table ρ.scope t = t.rekey (.text ρ.old) (.text ρ.new) := if_pos rfl

theorem find?_table (h : i = ρ.scope → t.find? (.text ρ.new) = none)
    (hn : i = ρ.scope → name ≠ .text ρ.new) :
    (ρ.table i t).find? (ρ.key i name) = t.find? name := by
  by_cases hi : i = ρ.scope
  · subst hi
    rw [table_scope, Table.find?_rekey (h rfl)]
    by_cases ho : name = .text ρ.old
    · rw [ho, key_old, if_pos rfl]
    · rw [ρ.key_of_ne fun e => ho e.2, if_neg (hn rfl), if_neg ho]
  · rw [ρ.table_of_ne hi, ρ.key_of_ne fun e => hi e.1]

theorem put_table (h : i = ρ.scope → t.find? (.text ρ.new) = none)
    (hn : i = ρ.scope → name ≠ .text ρ.new) (v : VariableId) :
    ρ.table i (t.put name v) = (ρ.table i t).put (ρ.key i name) v := by
  by_cases hi : i = ρ.scope
  · subst hi
    rw [table_scope, table_scope, Table.put_rekey (h rfl) (hn rfl), key]
    simp only [true_and]
  · rw [ρ.table_of_ne hi, ρ.table_of_ne hi, ρ.key_of_ne fun e => hi e.1]

end Renaming

/-- A scope with its node renamed, and the entry of the variable if it is the variable's scope. -/
def Scope.rename (ρ : Renaming) (i : ScopeId) (a : Scope) : Scope :=
  { a with
    block := a.block.rename ρ
    table := ρ.table i a.table
    implicit := ρ.table i a.implicit }

/-- A variable with its nodes renamed, and itself if it is the one. -/
def Variable.rename (ρ : Renaming) (v : VariableId) (a : Variable) : Variable :=
  { a with
    name := if v = ρ.var then .str ρ.new else a.name
    defs := a.defs.map (Definition.rename ρ) }

/-- A reference with its nodes renamed. -/
def Reference.rename (ρ : Renaming) (ref : Reference) : Reference :=
  { ref with toUse := ref.toUse.rename ρ }

namespace Store

/-- The store of the renamed program. -/
def rename (ρ : Renaming) (s : Store) : Store :=
  { s with
    scopes := s.scopes.mapIdx (Scope.rename ρ)
    vars := s.vars.mapIdx (Variable.rename ρ)
    references := s.references.map (Reference.rename ρ) }

variable (ρ : Renaming) (s : Store)

@[simp] theorem scopeAt?_rename (i : ScopeId) :
    (s.rename ρ).scopeAt? i = (s.scopeAt? i).map (Scope.rename ρ i) := Array.getElem?_mapIdx

@[simp] theorem variableAt?_rename (v : VariableId) :
    (s.rename ρ).variableAt? v = (s.variableAt? v).map (Variable.rename ρ v) :=
  Array.getElem?_mapIdx

@[simp] theorem referenceAt?_rename (r : ReferenceId) :
    (s.rename ρ).referenceAt? r = (s.referenceAt? r).map (Reference.rename ρ) :=
  Array.getElem?_map

@[simp] theorem size_scopes_rename : (s.rename ρ).scopes.size = s.scopes.size := Array.size_mapIdx

@[simp] theorem size_vars_rename : (s.rename ρ).vars.size = s.vars.size := Array.size_mapIdx

@[simp] theorem size_references_rename : (s.rename ρ).references.size = s.references.size :=
  Array.size_map

/-! ### What reads the same -/

theorem chainFrom_rename (fuel : Nat) (i : Option ScopeId) :
    (s.rename ρ).chainFrom fuel i = s.chainFrom fuel i := by
  induction fuel generalizing i with
  | zero => rfl
  | succ fuel ih =>
      cases i with
      | none => rfl
      | some i =>
          have hupper : ((s.rename ρ).scopeAt? i).bind (·.upper) =
              (s.scopeAt? i).bind (·.upper) := by
            rw [scopeAt?_rename]
            cases s.scopeAt? i <;> rfl
          rw [chainFrom, chainFrom, hupper, ih]

@[simp] theorem chain_rename (i : ScopeId) : (s.rename ρ).chain i = s.chain i :=
  chainFrom_rename ρ s _ _

@[simp] theorem variableScope?_rename (i : ScopeId) :
    (s.rename ρ).variableScope? i = s.variableScope? i := by
  rw [variableScope?, scopeAt?_rename, variableScope?]
  cases s.scopeAt? i <;> rfl

@[simp] theorem strictAt?_rename (upper : Option ScopeId) :
    (s.rename ρ).strictAt? upper = s.strictAt? upper := by
  cases upper with
  | none => rfl
  | some u =>
      rw [strictAt?, scopeAt?_rename, strictAt?]
      cases s.scopeAt? u <;> rfl

/-! ### Changes commute with renaming -/

variable {ρ s}

theorem rename_record (entry : LogRecord) :
    (s.record entry).rename ρ = (s.rename ρ).record entry := rfl

theorem rename_updateScope {i : ScopeId} {f g : Scope → Scope}
    (h : ∀ a, s.scopeAt? i = some a → (f a).rename ρ i = g (a.rename ρ i)) :
    (s.updateScope i f).rename ρ = (s.rename ρ).updateScope i g := by
  refine ext_views rfl (fun j => ?_) (fun v => by simp) (fun r => by simp) rfl rfl
  rw [scopeAt?_rename, scopeAt?_updateScope, scopeAt?_updateScope, scopeAt?_rename]
  by_cases hj : i = j
  · subst hj
    rw [if_pos rfl, if_pos rfl]
    cases ha : s.scopeAt? i with
    | none => rfl
    | some a => exact congrArg some (h a ha)
  · rw [if_neg hj, if_neg hj]

theorem rename_updateVariable {v : VariableId} {f g : Variable → Variable}
    (h : ∀ a, (f a).rename ρ v = g (a.rename ρ v)) :
    (s.updateVariable v f).rename ρ = (s.rename ρ).updateVariable v g := by
  refine ext_views rfl (fun i => by simp) (fun w => ?_) (fun r => by simp) rfl rfl
  rw [variableAt?_rename, variableAt?_updateVariable, variableAt?_updateVariable,
    variableAt?_rename]
  by_cases hw : v = w
  · subst hw
    rw [if_pos rfl, if_pos rfl]
    cases s.variableAt? v with
    | none => rfl
    | some a => exact congrArg some (h a)
  · rw [if_neg hw, if_neg hw]

theorem rename_updateReference {r : ReferenceId} {f g : Reference → Reference}
    (h : ∀ a, (f a).rename ρ = g (a.rename ρ)) :
    (s.updateReference r f).rename ρ = (s.rename ρ).updateReference r g := by
  refine ext_views rfl (fun i => by simp) (fun v => by simp) (fun q => ?_) rfl rfl
  rw [referenceAt?_rename, referenceAt?_updateReference, referenceAt?_updateReference,
    referenceAt?_rename]
  by_cases hq : r = q
  · subst hq
    rw [if_pos rfl, if_pos rfl]
    cases s.referenceAt? r with
    | none => rfl
    | some a => exact congrArg some (h a)
  · rw [if_neg hq, if_neg hq]

theorem rename_updateScopes {f : Scope → Scope}
    (h : ∀ i a, (f a).rename ρ i = f (a.rename ρ i)) (l : List ScopeId) :
    (s.updateScopes l f).rename ρ = (s.rename ρ).updateScopes l f := by
  induction l generalizing s with
  | nil => rfl
  | cons i l ih =>
      show ((s.updateScope i f).updateScopes l f).rename ρ = _
      rw [ih, rename_updateScope fun a _ => h i a]
      rfl

theorem rename_pushScope (a : Scope) :
    (s.pushScope a).rename ρ = (s.rename ρ).pushScope (a.rename ρ s.scopes.size) := by
  simp only [pushScope, rename, Array.mapIdx_push]

theorem rename_freshScope (kind : ScopeKind) (n : Node) (upper : Option ScopeId) (strict : Bool) :
    (s.freshScope kind n upper strict).rename ρ s.scopes.size =
      (s.rename ρ).freshScope kind (n.rename ρ) upper strict := by
  have houter : upper.bind (fun u => ((s.rename ρ).scopeAt? u).map (·.variableScope)) =
      upper.bind fun u => (s.scopeAt? u).map (·.variableScope) :=
    congrArg upper.bind (funext fun u => variableScope?_rename ρ s u)
  have hempty : ρ.table s.scopes.size [] = [] := by
    rw [Renaming.table]
    split <;> rfl
  simp only [freshScope, Scope.rename, hempty, houter, size_scopes_rename]

theorem rename_addScope (kind : ScopeKind) (n : Node) (upper : Option ScopeId) (strict : Bool) :
    (s.addScope kind n upper strict).rename ρ =
      (s.rename ρ).addScope kind (n.rename ρ) upper strict := by
  have hpush : (s.pushScope (s.freshScope kind n upper strict)).rename ρ =
      (s.rename ρ).pushScope ((s.rename ρ).freshScope kind (n.rename ρ) upper strict) := by
    rw [rename_pushScope, rename_freshScope]
  have hglobal : ∀ {t u : Store}, t.rename ρ = u →
      (if kind = .global then { t with global := some s.scopes.size } else t).rename ρ =
        if kind = .global then { u with global := some s.scopes.size } else u := by
    rintro t u rfl
    split <;> rfl
  unfold addScope
  simp only [size_scopes_rename]
  cases upper with
  | none => exact hglobal hpush
  | some u =>
      refine hglobal ?_
      rw [rename_updateScope (g := (·.adopt s.scopes.size)) fun a _ => rfl, hpush]

theorem rename_addDefinition (v : VariableId) (d : Definition) :
    (s.addDefinition v d).rename ρ = (s.rename ρ).addDefinition v (d.rename ρ) :=
  rename_updateVariable fun a => by simp only [Variable.rename, List.map_append, List.map_cons,
    List.map_nil]

theorem rename_addReference (i : ScopeId) (u : Use) :
    (s.addReference i u).rename ρ = (s.rename ρ).addReference i (u.rename ρ) := by
  have hpush : ({ s with references := s.references.push { u with scope := i } } : Store).rename ρ =
      { s.rename ρ with
        references := (s.rename ρ).references.push { u.rename ρ with scope := i } } := by
    simp only [rename, Array.map_push]
    rfl
  unfold addReference
  rw [rename_updateScope (g := (·.take s.references.size)) fun a _ => rfl, hpush,
    size_references_rename]

theorem rename_noteEval (i : ScopeId) : (s.noteEval i).rename ρ = (s.rename ρ).noteEval i := by
  unfold noteEval
  rw [rename_updateScopes (fun j a => rfl),
    rename_updateScope (g := fun a => { a with callsEval := true }) fun a _ => rfl, chain_rename]

theorem rename_noteThis (i : ScopeId) : (s.noteThis i).rename ρ = (s.rename ρ).noteThis i :=
  rename_updateScope fun _ _ => rfl

theorem rename_link (r : ReferenceId) (origin : ScopeId) (v : VariableId) :
    (s.link r origin v).rename ρ = (s.rename ρ).link r origin v := by
  rw [link]
  rw [rename_updateReference (g := fun ref => { ref with resolved := some v }) fun a => rfl]
  refine congrArg (fun t : Store => t.updateReference r _) (rename_updateVariable fun a => ?_)
  simp only [variableScope?_rename]
  rfl

/-- A new entry gets the key that the renamed table has for it, and its variable the name. -/
theorem rename_bindNew {i : ScopeId} {key : Name} {var : Variable}
    (h : ∀ a, s.scopeAt? i = some a → i = ρ.scope → a.table.find? (.text ρ.new) = none)
    (hk : i = ρ.scope → key ≠ .text ρ.new) :
    (s.bindNew i key var).rename ρ =
      (s.rename ρ).bindNew i (ρ.key i key) (var.rename ρ s.vars.size) := by
  have hpush : ({ s with vars := s.vars.push var } : Store).rename ρ =
      { s.rename ρ with vars := (s.rename ρ).vars.push (var.rename ρ s.vars.size) } := by
    simp only [rename, Array.mapIdx_push]
  unfold bindNew
  rw [rename_updateScope (g := (·.bind (ρ.key i key) s.vars.size)) fun a ha => ?_, hpush,
    size_vars_rename]
  simp only [Scope.rename, Scope.bind, ρ.put_table (h a ha) hk]

theorem rename_bindImplicit {i : ScopeId} {key : Name} {v : VariableId}
    (h : ∀ a, s.scopeAt? i = some a → i = ρ.scope → a.implicit.find? (.text ρ.new) = none)
    (hk : i = ρ.scope → key ≠ .text ρ.new) :
    (s.updateScope i (·.bindImplicit key v)).rename ρ =
      (s.rename ρ).updateScope i (·.bindImplicit (ρ.key i key) v) :=
  rename_updateScope fun a ha => by
    simp only [Scope.rename, Scope.bindImplicit, ρ.put_table (h a ha) hk]

end Store

end LexScope
