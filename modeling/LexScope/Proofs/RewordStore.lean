import LexScope.Proofs.RewordPlan

/-!
# Proofs — RewordStore — the store of a reworded program

A store is reworded by rewording its nodes, giving variables and entries of tables their other names
and rewording what the log says of nodes (`Store.reword`).  Numbers, flags and lists of references
stay as they are.

Each change of a store commutes with rewording.  A change that looks a name up, or puts an entry
into a table, does so because different names stay different (`Table.find?_mapNames`,
`Table.put_mapNames`).
-/

namespace LexScope

/-! ### Names and tables -/

namespace Table

variable {α : Type} {f : Name → Name}

/-- A table with other names. -/
def mapNames (f : Name → Name) (t : Table α) : Table α := t.map fun e => (f e.1, e.2)

@[simp] theorem entries_mapNames (t : Table α) : (t.mapNames f).entries = t.entries := by
  rw [entries, mapNames, List.map_map]
  rfl

theorem find?_mapNames (hf : f.Injective) (t : Table α) (key : Name) :
    (t.mapNames f).find? (f key) = t.find? key := by
  induction t with
  | nil => rfl
  | cons e t ih =>
      obtain ⟨k, a⟩ := e
      show (if f k = f key then some a else (mapNames f t).find? (f key)) = _
      rw [ih, find?]
      simp only [hf.eq_iff]

theorem put_mapNames (hf : f.Injective) (t : Table α) (key : Name) (a : α) :
    (t.put key a).mapNames f = (t.mapNames f).put (f key) a := by
  induction t with
  | nil => rfl
  | cons e t ih =>
      obtain ⟨k, b⟩ := e
      show _ = if f k = f key then (f k, a) :: mapNames f t
        else (f k, b) :: (mapNames f t).put (f key) a
      rw [put, ← ih]
      simp only [hf.eq_iff]
      split <;> rfl

end Table

namespace Wording

variable (w : Wording)

/-- What becomes of a name. -/
def key : Name → Name
  | .text s => .text (w.name s)
  | k => k

theorem key_injective {w : Wording} (hw : w.Faithful) : w.key.Injective := by
  intro a b h
  cases a <;> cases b <;> simp_all [key, hw.injective.eq_iff]

theorem ofTree?_relabel (t : Tree) :
    Name.ofTree? (t.relabel w) = (Name.ofTree? t).map w.key := by
  cases t with
  | float bits =>
      show Name.ofTree? (.float bits) = _
      rw [Name.ofTree?]
      split <;> rfl
  | _ => rfl

end Wording

/-! ### Rewording a store -/

variable (w : Wording)

/-- A record of a log in other words. -/
def LogRecord.reword : LogRecord → LogRecord
  | .analyzing type version sourceType => .analyzing (type.reword w) version sourceType
  | .opened kind handle type strict => .opened kind handle (type.reword w) strict
  | .closed kind type references through => .closed kind (type.reword w) references through
  | entry => entry

/-- A scope in other words. -/
def Scope.reword (a : Scope) : Scope :=
  { a with
    block := a.block.reword w
    table := a.table.mapNames w.key
    implicit := a.implicit.mapNames w.key }

/-- A variable in other words. -/
def Variable.reword (x : Variable) : Variable :=
  { x with
    name := x.name.relabel w
    defs := x.defs.map (Definition.reword w) }

/-- A reference in other words. -/
def Reference.reword (ref : Reference) : Reference := { ref with toUse := ref.toUse.reword w }

/-- A reference has the other name, if it was made from an identifier. -/
theorem Reference.name_reword {ref : Reference} (h : ref.identifier.isIdentifier = true) :
    (ref.reword w).name = ref.name.relabel w := Node.name_reword w ref.identifier h

namespace Store

/-- The store of a program in other words. -/
def reword (s : Store) : Store :=
  { s with
    scopes := s.scopes.map (Scope.reword w)
    vars := s.vars.map (Variable.reword w)
    references := s.references.map (Reference.reword w)
    log := s.log.map (LogRecord.reword w) }

variable (s : Store)

@[simp] theorem scopeAt?_reword (i : ScopeId) :
    (s.reword w).scopeAt? i = (s.scopeAt? i).map (Scope.reword w) := Array.getElem?_map

@[simp] theorem variableAt?_reword (v : VariableId) :
    (s.reword w).variableAt? v = (s.variableAt? v).map (Variable.reword w) := Array.getElem?_map

@[simp] theorem referenceAt?_reword (r : ReferenceId) :
    (s.reword w).referenceAt? r = (s.referenceAt? r).map (Reference.reword w) :=
  Array.getElem?_map

@[simp] theorem size_scopes_reword : (s.reword w).scopes.size = s.scopes.size := Array.size_map

@[simp] theorem size_vars_reword : (s.reword w).vars.size = s.vars.size := Array.size_map

@[simp] theorem size_references_reword : (s.reword w).references.size = s.references.size :=
  Array.size_map

/-! ### What reads the same -/

theorem chainFrom_reword (fuel : Nat) (i : Option ScopeId) :
    (s.reword w).chainFrom fuel i = s.chainFrom fuel i := by
  induction fuel generalizing i with
  | zero => rfl
  | succ fuel ih =>
      cases i with
      | none => rfl
      | some i =>
          have hupper : ((s.reword w).scopeAt? i).bind (·.upper) =
              (s.scopeAt? i).bind (·.upper) := by
            rw [scopeAt?_reword]
            cases s.scopeAt? i <;> rfl
          rw [chainFrom, chainFrom, hupper, ih]

@[simp] theorem chain_reword (i : ScopeId) : (s.reword w).chain i = s.chain i :=
  chainFrom_reword w s _ _

@[simp] theorem variableScope?_reword (i : ScopeId) :
    (s.reword w).variableScope? i = s.variableScope? i := by
  rw [variableScope?, scopeAt?_reword, variableScope?]
  cases s.scopeAt? i <;> rfl

@[simp] theorem strictAt?_reword (upper : Option ScopeId) :
    (s.reword w).strictAt? upper = s.strictAt? upper := by
  cases upper with
  | none => rfl
  | some u =>
      rw [strictAt?, scopeAt?_reword, strictAt?]
      cases s.scopeAt? u <;> rfl

/-! ### Changes commute with rewording -/

variable {w s}

theorem reword_record (entry : LogRecord) :
    (s.record entry).reword w = (s.reword w).record (entry.reword w) := by
  simp only [record, reword, Array.map_push]

theorem reword_updateScope {i : ScopeId} {f g : Scope → Scope}
    (h : ∀ a, (f a).reword w = g (a.reword w)) :
    (s.updateScope i f).reword w = (s.reword w).updateScope i g := by
  refine ext_views rfl (fun j => ?_) (fun v => by simp) (fun r => by simp) rfl rfl
  rw [scopeAt?_reword, scopeAt?_updateScope, scopeAt?_updateScope, scopeAt?_reword]
  split
  · rw [Option.map_map, Option.map_map]
    exact congrArg (Option.map · _) (funext h)
  · rfl

theorem reword_updateVariable {v : VariableId} {f g : Variable → Variable}
    (h : ∀ x, (f x).reword w = g (x.reword w)) :
    (s.updateVariable v f).reword w = (s.reword w).updateVariable v g := by
  refine ext_views rfl (fun i => by simp) (fun u => ?_) (fun r => by simp) rfl rfl
  rw [variableAt?_reword, variableAt?_updateVariable, variableAt?_updateVariable,
    variableAt?_reword]
  split
  · rw [Option.map_map, Option.map_map]
    exact congrArg (Option.map · _) (funext h)
  · rfl

theorem reword_updateReference {r : ReferenceId} {f g : Reference → Reference}
    (h : ∀ ref, (f ref).reword w = g (ref.reword w)) :
    (s.updateReference r f).reword w = (s.reword w).updateReference r g := by
  refine ext_views rfl (fun i => by simp) (fun v => by simp) (fun q => ?_) rfl rfl
  rw [referenceAt?_reword, referenceAt?_updateReference, referenceAt?_updateReference,
    referenceAt?_reword]
  split
  · rw [Option.map_map, Option.map_map]
    exact congrArg (Option.map · _) (funext h)
  · rfl

theorem reword_updateScopes {f : Scope → Scope} (h : ∀ a, (f a).reword w = f (a.reword w))
    (l : List ScopeId) : (s.updateScopes l f).reword w = (s.reword w).updateScopes l f := by
  induction l generalizing s with
  | nil => rfl
  | cons i l ih =>
      show ((s.updateScope i f).updateScopes l f).reword w = _
      rw [ih, reword_updateScope h]
      rfl

theorem reword_pushScope (a : Scope) :
    (s.pushScope a).reword w = (s.reword w).pushScope (a.reword w) := by
  simp only [pushScope, reword, Array.map_push]

theorem reword_freshScope (kind : ScopeKind) (n : Node) (upper : Option ScopeId) (strict : Bool) :
    (s.freshScope kind n upper strict).reword w =
      (s.reword w).freshScope kind (n.reword w) upper strict := by
  have houter : upper.bind (fun u => ((s.reword w).scopeAt? u).map (·.variableScope)) =
      upper.bind fun u => (s.scopeAt? u).map (·.variableScope) :=
    congrArg upper.bind (funext fun u => variableScope?_reword w s u)
  simp only [freshScope, Scope.reword, houter, size_scopes_reword]
  rfl

theorem reword_addScope (kind : ScopeKind) (n : Node) (upper : Option ScopeId) (strict : Bool) :
    (s.addScope kind n upper strict).reword w =
      (s.reword w).addScope kind (n.reword w) upper strict := by
  have hpush : (s.pushScope (s.freshScope kind n upper strict)).reword w =
      (s.reword w).pushScope ((s.reword w).freshScope kind (n.reword w) upper strict) := by
    rw [reword_pushScope, reword_freshScope]
  have hglobal : ∀ {t u : Store}, t.reword w = u →
      (if kind = .global then { t with global := some s.scopes.size } else t).reword w =
        if kind = .global then { u with global := some s.scopes.size } else u := by
    rintro t u rfl
    split <;> rfl
  unfold addScope
  simp only [size_scopes_reword]
  cases upper with
  | none => exact hglobal hpush
  | some u =>
      refine hglobal ?_
      rw [reword_updateScope (g := (·.adopt s.scopes.size)) fun a => rfl, hpush]

theorem reword_addDefinition (v : VariableId) (d : Definition) :
    (s.addDefinition v d).reword w = (s.reword w).addDefinition v (d.reword w) :=
  reword_updateVariable fun x => by
    simp only [Variable.reword, List.map_append, List.map_cons, List.map_nil]

theorem reword_addReference (i : ScopeId) (u : Use) :
    (s.addReference i u).reword w = (s.reword w).addReference i (u.reword w) := by
  have hpush : ({ s with references := s.references.push { u with scope := i } } : Store).reword w =
      { s.reword w with
        references := (s.reword w).references.push { u.reword w with scope := i } } := by
    simp only [reword, Array.map_push]
    rfl
  unfold addReference
  rw [reword_updateScope (g := (·.take s.references.size)) fun a => rfl, hpush,
    size_references_reword]

theorem reword_noteEval (i : ScopeId) : (s.noteEval i).reword w = (s.reword w).noteEval i := by
  unfold noteEval
  rw [reword_updateScopes (f := fun a => { a with dynamic := true }) fun a => rfl,
    reword_updateScope (g := fun a => { a with callsEval := true }) fun a => rfl, chain_reword]

theorem reword_noteThis (i : ScopeId) : (s.noteThis i).reword w = (s.reword w).noteThis i :=
  reword_updateScope fun _ => rfl

theorem reword_link (r : ReferenceId) (origin : ScopeId) (v : VariableId) :
    (s.link r origin v).reword w = (s.reword w).link r origin v := by
  rw [link]
  rw [reword_updateReference (g := fun ref => { ref with resolved := some v }) fun ref => rfl]
  refine congrArg (fun t : Store => t.updateReference r _) (reword_updateVariable fun x => ?_)
  simp only [variableScope?_reword]
  rfl

/-- A new entry gets the other name, and so does its variable. -/
theorem reword_bindNew (hw : w.Faithful) (i : ScopeId) (key : Name) (x : Variable) :
    (s.bindNew i key x).reword w = (s.reword w).bindNew i (w.key key) (x.reword w) := by
  have hpush : ({ s with vars := s.vars.push x } : Store).reword w =
      { s.reword w with vars := (s.reword w).vars.push (x.reword w) } := by
    simp only [reword, Array.map_push]
  unfold bindNew
  rw [reword_updateScope (g := (·.bind (w.key key) s.vars.size)) fun a => ?_, hpush,
    size_vars_reword]
  simp only [Scope.reword, Scope.bind, Table.put_mapNames (Wording.key_injective hw)]

theorem reword_bindImplicit (hw : w.Faithful) (i : ScopeId) (key : Name) (v : VariableId) :
    (s.updateScope i (·.bindImplicit key v)).reword w =
      (s.reword w).updateScope i (·.bindImplicit (w.key key) v) :=
  reword_updateScope fun a => by
    simp only [Scope.reword, Scope.bindImplicit, Table.put_mapNames (Wording.key_injective hw)]

end Store

end LexScope
