import LexScope.Proofs.SoleProgram

/-!
# Proofs — Twin — stores that differ in what was resolved

Optimism decides only which scopes settle their references.  Two stores are *twins* when they agree
in everything else: in what the scopes are (`Scope.outline`), in what was declared in them
(`Store.declared`) and in which references were made.  They need not agree in what is pending, what
left a scope, what is resolved, and which variables were made for writes; so a variable may have
different numbers in the two stores, and what was declared is compared by content.

* `Twin.define`, `Twin.enter`, `Twin.refer`: what succeeds in a store succeeds in its twin, and the
  stores are twins again.
* `close_twin`: **closing a scope settles references and changes nothing else**, whatever the
  options.
-/

namespace LexScope

open Store LexScope.Action

theorem Table.put_of_find?_none {α : Type} {t : Table α} {key : Name} (h : t.find? key = none)
    (a : α) : t.put key a = t ++ [(key, a)] := by
  induction t with
  | nil => rfl
  | cons e t ih =>
      obtain ⟨k, b⟩ := e
      have hne : k ≠ key := by
        rintro rfl
        rw [find?, if_pos rfl] at h
        cases h
      rw [find?, if_neg hne] at h
      rw [put, if_neg hne, ih h, List.cons_append]

/-! ### What optimism leaves alone -/

/-- What is known of a scope apart from its variables and its unsettled references. -/
structure Outline where
  kind : ScopeKind
  block : Node
  upper : Option ScopeId
  strict : Bool
  variableScope : ScopeId
  dynamic : Bool
  references : List ReferenceId
  children : List ScopeId
  callsEval : Bool
  usesThis : Bool
  isClosed : Bool
  deriving Repr, DecidableEq

/-- The outline of a scope. -/
def Scope.outline (a : Scope) : Outline where
  kind := a.kind
  block := a.block
  upper := a.upper
  strict := a.strict
  variableScope := a.variableScope
  dynamic := a.dynamic
  references := a.references
  children := a.children
  callsEval := a.callsEval
  usesThis := a.usesThis
  isClosed := a.isClosed

/-- The entries of a scope that were declared and not made for writes. -/
def Scope.declarations (a : Scope) : Table VariableId :=
  a.table.filter fun e => (a.implicit.find? e.1).isNone

/-- A variable apart from its uses. -/
def Variable.unused (v : Variable) : Variable := { v with references := [], stack := true }

namespace Store

/-- The outline of a scope with a given number. -/
def outlineAt? (s : Store) (i : ScopeId) : Option Outline := (s.scopeAt? i).map (·.outline)

/-- The use that a reference is, and where it was made. -/
def useAt? (s : Store) (r : ReferenceId) : Option (Use × ScopeId) :=
  (s.referenceAt? r).map fun ref => (ref.toUse, ref.scope)

/-- What was declared in a scope, in order: names, and variables apart from their uses. -/
def declared (s : Store) (i : ScopeId) : List (Name × Option Variable) :=
  ((s.scopeAt? i).map (·.declarations)).getD [] |>.map fun e =>
    (e.1, (s.variableAt? e.2).map (·.unused))

/-- Two stores differ at most in what was settled. -/
structure Twin (s t : Store) : Prop where
  options : ∃ optimistic, t.options = { s.options with optimistic }
  outline : ∀ i, t.outlineAt? i = s.outlineAt? i
  declared : ∀ i, t.declared i = s.declared i
  use : ∀ r, t.useAt? r = s.useAt? r
  global : t.global = s.global

variable {A : ScopeId → Prop} {s t u s' t' : Store} {i j : ScopeId} {r : ReferenceId}
  {key : Name} {v : VariableId} {a b : Scope}

theorem Twin.refl (s : Store) : Twin s s :=
  ⟨⟨s.options.optimistic, rfl⟩, fun _ => rfl, fun _ => rfl, fun _ => rfl, rfl⟩

theorem Twin.symm (h : Twin s t) : Twin t s := by
  obtain ⟨v, ho⟩ := h.options
  exact ⟨⟨s.options.optimistic, by rw [ho]⟩, fun i => (h.outline i).symm,
    fun i => (h.declared i).symm, fun r => (h.use r).symm, h.global.symm⟩

theorem Twin.trans (h : Twin s t) (k : Twin t u) : Twin s u := by
  obtain ⟨v, ho⟩ := h.options
  obtain ⟨w, ho'⟩ := k.options
  exact ⟨⟨w, by rw [ho', ho]⟩, fun i => (k.outline i).trans (h.outline i),
    fun i => (k.declared i).trans (h.declared i), fun r => (k.use r).trans (h.use r),
    k.global.trans h.global⟩

theorem outlineAt?_eq (h : s.scopeAt? i = some a) : s.outlineAt? i = some a.outline := by
  rw [outlineAt?, h]
  rfl

theorem declared_eq (h : s.scopeAt? i = some a) : s.declared i =
    a.declarations.map fun e => (e.1, (s.variableAt? e.2).map (·.unused)) := by
  rw [Store.declared, h]
  rfl

/-- Where there is no scope, nothing is declared. -/
theorem declared_eq_nil (hi : s.scopes.size ≤ i) : s.declared i = [] := by
  rw [Store.declared, scopeAt?_eq_none.2 hi]
  rfl

/-- A scope has its likeness in a twin. -/
theorem Twin.scopeAt? (h : Twin s t) (ha : s.scopeAt? i = some a) :
    ∃ b, t.scopeAt? i = some b ∧ b.outline = a.outline :=
  Option.map_eq_some_iff.1 ((h.outline i).trans (outlineAt?_eq ha))

theorem Twin.size_scopes (h : Twin s t) : t.scopes.size = s.scopes.size := by
  have hnone : ∀ i, t.scopeAt? i = none ↔ s.scopeAt? i = none := by
    intro i
    have hi := h.outline i
    rw [outlineAt?, outlineAt?] at hi
    rw [← Option.map_eq_none_iff (f := Scope.outline), hi, Option.map_eq_none_iff]
  refine le_antisymm ?_ ?_
  · exact scopeAt?_eq_none.1 ((hnone _).2 (scopeAt?_eq_none.2 le_rfl))
  · exact scopeAt?_eq_none.1 ((hnone _).1 (scopeAt?_eq_none.2 le_rfl))

theorem Twin.size_references (h : Twin s t) : t.references.size = s.references.size := by
  have hnone : ∀ r, t.references.size ≤ r ↔ s.references.size ≤ r := by
    intro r
    have hr := h.use r
    rw [useAt?, useAt?, referenceAt?, referenceAt?] at hr
    rw [← Array.getElem?_eq_none_iff, ← Array.getElem?_eq_none_iff,
      ← Option.map_eq_none_iff (f := fun ref : Reference => (ref.toUse, ref.scope)), hr,
      Option.map_eq_none_iff]
  exact le_antisymm ((hnone _).2 le_rfl) ((hnone _).1 le_rfl)

theorem Twin.upperOf (h : Twin s t) (i : ScopeId) : t.upperOf i = s.upperOf i := by
  have hi := h.outline i
  rw [outlineAt?, outlineAt?] at hi
  have hmap : ∀ u : Store, u.upperOf i = ((u.scopeAt? i).map Scope.outline).bind (·.upper) := by
    intro u
    rw [Store.upperOf]
    cases u.scopeAt? i <;> rfl
  rw [hmap, hmap, hi]

theorem Twin.chain (h : Twin s t) (hs : s.Rooted) (ht : t.Rooted) (i : ScopeId) :
    t.chain i = s.chain i := chain_congr hs ht fun j _ => h.upperOf j

/-- Where the same was used, a reference is there with its use. -/
theorem referenceAt?_of_use {ref : Reference} (h : t.useAt? r = s.useAt? r)
    (href : s.referenceAt? r = some ref) :
    ∃ ref', t.referenceAt? r = some ref' ∧ ref'.toUse = ref.toUse ∧ ref'.scope = ref.scope := by
  rw [useAt?, useAt?, href] at h
  obtain ⟨ref', href', heq⟩ := Option.map_eq_some_iff.1 h
  exact ⟨ref', href', (Prod.mk.inj heq).1, (Prod.mk.inj heq).2⟩

theorem referenceAt?_eq_none_of_use (h : t.useAt? r = s.useAt? r)
    (hr : s.referenceAt? r = none) : t.referenceAt? r = none := by
  rwa [useAt?, useAt?, hr, Option.map_none, Option.map_eq_none_iff] at h

theorem Twin.referenceAt? {ref : Reference} (h : Twin s t) (href : s.referenceAt? r = some ref) :
    ∃ ref', t.referenceAt? r = some ref' ∧ ref'.toUse = ref.toUse ∧ ref'.scope = ref.scope :=
  referenceAt?_of_use (h.use r) href

/-! ### Changes that keep twins -/

/-- The same change of one scope in both stores. -/
theorem Twin.updateScope (h : Twin s t) (i : ScopeId) {f : Scope → Scope} {g : Outline → Outline}
    (hf : ∀ a, (f a).outline = g a.outline) (hd : ∀ a, (f a).declarations = a.declarations) :
    Twin (s.updateScope i f) (t.updateScope i f) := by
  have houtline : ∀ u : Store, ∀ j, (u.updateScope i f).outlineAt? j =
      if i = j then (u.outlineAt? j).map g else u.outlineAt? j := by
    intro u j
    rw [outlineAt?, scopeAt?_updateScope, outlineAt?]
    by_cases hj : i = j <;> cases u.scopeAt? j <;> simp [hj, hf]
  have hdeclared : ∀ u : Store, ∀ j, (u.updateScope i f).declared j = u.declared j := by
    intro u j
    rw [Store.declared, Store.declared, scopeAt?_updateScope]
    by_cases hj : i = j <;> cases u.scopeAt? j <;> simp [hj, hd]
  refine ⟨h.options, fun j => ?_, fun j => ?_, h.use, h.global⟩
  · rw [houtline, houtline, h.outline]
  · rw [hdeclared, hdeclared, h.declared]

/-- A change of one scope that shows neither in its outline nor in what was declared. -/
theorem twin_updateScope {f : Scope → Scope} (hf : ∀ a, (f a).outline = a.outline)
    (hd : ∀ a, (f a).declarations = a.declarations) : Twin s (s.updateScope i f) := by
  refine ⟨⟨s.options.optimistic, rfl⟩, fun j => ?_, fun j => ?_, fun _ => rfl, rfl⟩
  · rw [outlineAt?, scopeAt?_updateScope, outlineAt?]
    by_cases hj : i = j <;> cases s.scopeAt? j <;> simp [hj, hf]
  · rw [Store.declared, Store.declared, scopeAt?_updateScope]
    by_cases hj : i = j <;> cases s.scopeAt? j <;> simp [hj, hd]

theorem twin_updateScopes {l : List ScopeId} {f : Scope → Scope}
    (hf : ∀ a, (f a).outline = a.outline) (hd : ∀ a, (f a).declarations = a.declarations) :
    Twin s (s.updateScopes l f) := by
  induction l generalizing s with
  | nil => exact .refl s
  | cons i l ih => exact (twin_updateScope hf hd).trans ih

theorem twin_record (entry : LogRecord) : Twin s (s.record entry) :=
  ⟨⟨s.options.optimistic, rfl⟩, fun _ => rfl, fun _ => rfl, fun _ => rfl, rfl⟩

theorem Twin.record (h : Twin s t) (e e' : LogRecord) : Twin (s.record e) (t.record e') :=
  ((twin_record e).symm.trans h).trans (twin_record e')

theorem twin_link (r : ReferenceId) (origin : ScopeId) (v : VariableId) :
    Twin s (s.link r origin v) := by
  refine ⟨⟨s.options.optimistic, rfl⟩, fun _ => rfl, fun j => ?_, fun q => ?_, rfl⟩
  · rw [Store.declared, Store.declared, scopeAt?_link]
    refine List.map_congr_left fun e _ => ?_
    rw [variableAt?_link]
    by_cases hv : v = e.2 <;> cases s.variableAt? e.2 <;> simp [hv, Variable.unused]
  · rw [useAt?, useAt?, referenceAt?_link]
    by_cases hq : r = q <;> cases s.referenceAt? q <;> simp [hq]

theorem Twin.updateScopes (h : Twin s t) (l : List ScopeId) {f : Scope → Scope}
    {g : Outline → Outline} (hf : ∀ a, (f a).outline = g a.outline)
    (hd : ∀ a, (f a).declarations = a.declarations) :
    Twin (s.updateScopes l f) (t.updateScopes l f) := by
  induction l generalizing s t with
  | nil => exact h
  | cons i l ih => exact ih (h.updateScope i hf hd)

/-! ### Opening and binding -/

/-- The outline that a scope opens with. -/
theorem outline_freshScope (h : Twin s t) (kind : ScopeKind) (n : Node) (upper : Option ScopeId)
    (strict : Bool) :
    (t.freshScope kind n upper strict).outline = (s.freshScope kind n upper strict).outline := by
  have houter : ∀ u,
      (t.scopeAt? u).map (·.variableScope) = (s.scopeAt? u).map (·.variableScope) := by
    intro u
    have hu := congrArg (Option.map Outline.variableScope) (h.outline u)
    rwa [outlineAt?, outlineAt?, Option.map_map, Option.map_map] at hu
  simp only [freshScope, h.size_scopes, houter]

theorem Twin.addScope (h : Twin s t) (kind : ScopeKind) (n : Node) {upper : Option ScopeId}
    (strict : Bool) (hu : ∀ u, upper = some u → u < s.scopes.size) :
    Twin (s.addScope kind n upper strict) (t.addScope kind n upper strict) := by
  have hut : ∀ u, upper = some u → u < t.scopes.size := h.size_scopes ▸ hu
  obtain ⟨v, ho⟩ := h.options
  refine ⟨⟨v, by rw [options_addScope, options_addScope, ho]⟩, fun j => ?_, fun j => ?_,
    fun r => ?_, ?_⟩
  · rw [outlineAt?, outlineAt?, scopeAt?_addScope t kind n upper strict hut,
      scopeAt?_addScope s kind n upper strict hu, h.size_scopes]
    by_cases hj : j = s.scopes.size
    · rw [if_pos hj, if_pos hj, Option.map_some, Option.map_some, outline_freshScope h]
    · rw [if_neg hj, if_neg hj]
      have hmap : ∀ u : Store, ((u.scopeAt? j).map fun scope =>
          if upper = some j then scope.adopt s.scopes.size else scope).map Scope.outline =
          (u.outlineAt? j).map fun o =>
            if upper = some j then { o with children := o.children ++ [s.scopes.size] } else o := by
        intro u
        rw [outlineAt?]
        cases u.scopeAt? j <;> by_cases hj : upper = some j <;>
          simp [hj, Scope.adopt, Scope.outline, Scope.isClosed]
      rw [hmap, hmap, h.outline]
  · have hmap : ∀ u : Store, (∀ w, upper = some w → w < u.scopes.size) →
        (u.addScope kind n upper strict).declared j = u.declared j := by
      intro u hw
      rw [Store.declared, Store.declared, scopeAt?_addScope u kind n upper strict hw]
      by_cases hj : j = u.scopes.size
      · rw [if_pos hj, hj, scopeAt?_eq_none.2 le_rfl]
        rfl
      · rw [if_neg hj]
        cases u.scopeAt? j with
        | none => rfl
        | some a =>
            by_cases hj : upper = some j <;>
              simp [hj, Scope.adopt, Scope.declarations, variableAt?_addScope]
    rw [hmap t hut, hmap s hu, h.declared]
  · rw [useAt?, useAt?, referenceAt?_addScope, referenceAt?_addScope]
    exact h.use r
  · rw [global_addScope, global_addScope, h.size_scopes, h.global]

/-! ### Binding a name -/

/-- Where no variables were made for writes, the table is what was declared. -/
theorem declarations_eq (hi : a.implicit = []) : a.declarations = a.table := by
  rw [Scope.declarations, hi]
  exact List.filter_eq_self.2 fun _ _ => rfl

theorem Twin.names (h : Twin s t) (ha : s.scopeAt? i = some a) (hb : t.scopeAt? i = some b)
    (hs : a.implicit = []) (ht : b.implicit = []) : b.table.names = a.table.names := by
  have hd := congrArg (List.map (·.1)) (h.declared i)
  rwa [declared_eq hb, declared_eq ha, declarations_eq hs, declarations_eq ht, List.map_map,
    List.map_map] at hd

/-- What a new variable adds to what was declared. -/
theorem declared_bindNew (hs : s.Sound) (ha : s.scopeAt? i = some a)
    (hi : a.implicit = []) (hf : a.table.find? key = none) (var : Variable) (j : ScopeId) :
    (s.bindNew i key var).declared j =
      if i = j then s.declared j ++ [(key, some var.unused)] else s.declared j := by
  have hold : ∀ {k b}, s.scopeAt? k = some b → ∀ e ∈ b.declarations,
      (s.bindNew i key var).variableAt? e.2 = s.variableAt? e.2 := by
    intro k b hb e he
    obtain ⟨x, hx, -⟩ := hs.table k b e.1 e.2 hb (List.mem_filter.1 he).1
    rw [variableAt?_bindNew, if_neg (variableAt?_lt hx).ne]
  by_cases hj : i = j
  · subst hj
    have hb : (s.bindNew i key var).scopeAt? i = some (a.bind key s.vars.size) := by simp [ha]
    have hput : a.table.put key s.vars.size = a.table ++ [(key, s.vars.size)] :=
      Table.put_of_find?_none hf _
    rw [if_pos rfl, declared_eq hb, declared_eq ha, declarations_eq (a := a.bind _ _) hi,
      declarations_eq hi, Scope.bind, hput, List.map_append]
    congr 1
    · exact List.map_congr_left fun e he => by
        rw [hold ha e (by rw [declarations_eq hi]; exact he)]
    · simp
  · rw [if_neg hj, Store.declared, Store.declared, scopeAt?_bindNew, if_neg hj]
    cases hb : s.scopeAt? j with
    | none => rfl
    | some b => exact List.map_congr_left fun e he => by rw [hold hb e he]

/-- What a definition added to a variable adds to what was declared. -/
def amend (key : Name) (d : Definition) (e : Name × Option Variable) : Name × Option Variable :=
  if e.1 = key then (e.1, e.2.map fun var => { var with defs := var.defs ++ [d] }) else e

theorem declared_addDefinition (hs : s.Sound) (hd : s.Distinct) (ha : s.scopeAt? i = some a)
    (hf : a.table.find? key = some v) (d : Definition) (j : ScopeId) :
    (s.addDefinition v d).declared j =
      if i = j then (s.declared j).map (amend key d) else s.declared j := by
  -- A variable stands in the table of its scope only, and there under its name only.
  have honly : ∀ {b e}, s.scopeAt? j = some b → e ∈ b.table → (v = e.2 ↔ i = j ∧ e.1 = key) := by
    intro b e hb he
    constructor
    · rintro rfl
      obtain ⟨hij, hkey⟩ := hs.entry_unique ha (Table.mem_of_find? hf) hb he
      exact ⟨hij, hkey.symm⟩
    · rintro ⟨rfl, rfl⟩
      obtain rfl := Option.some.inj (ha.symm.trans hb)
      exact Option.some.inj (hf.symm.trans (Table.find?_of_mem (hd i a ha) he))
  rw [Store.declared, Store.declared, scopeAt?_addDefinition]
  cases hb : s.scopeAt? j with
  | none => split <;> rfl
  | some b =>
      have hmem : ∀ e ∈ b.declarations, e ∈ b.table := fun e he => (List.mem_filter.1 he).1
      by_cases hj : i = j
      · rw [if_pos hj, List.map_map]
        refine List.map_congr_left fun e he => ?_
        have hv := honly hb (hmem e he)
        rw [variableAt?_addDefinition, Function.comp_apply, amend]
        by_cases hkey : e.1 = key
        · rw [if_pos (hv.2 ⟨hj, hkey⟩), if_pos hkey]
          cases s.variableAt? e.2 <;> rfl
        · rw [if_neg fun h => hkey (hv.1 h).2, if_neg hkey]
      · rw [if_neg hj]
        refine List.map_congr_left fun e he => ?_
        rw [variableAt?_addDefinition, if_neg fun h => hj ((honly hb (hmem e he)).1 h).1]

theorem Twin.bindNew (h : Twin s t) (hs : s.Sound) (ht : t.Sound) (ha : s.scopeAt? i = some a)
    (hb : t.scopeAt? i = some b) (hia : a.implicit = []) (hib : b.implicit = [])
    (hfa : a.table.find? key = none) (hfb : b.table.find? key = none) (var : Variable) :
    Twin (s.bindNew i key var) (t.bindNew i key var) := by
  have houtline : ∀ u : Store, ∀ j, (u.bindNew i key var).outlineAt? j = u.outlineAt? j := by
    intro u j
    rw [outlineAt?, outlineAt?, scopeAt?_bindNew]
    split <;> cases u.scopeAt? j <;> rfl
  refine ⟨h.options, fun j => ?_, fun j => ?_, h.use, h.global⟩
  · rw [houtline, houtline, h.outline]
  · rw [declared_bindNew hs ha hia hfa, declared_bindNew ht hb hib hfb, h.declared]

theorem Twin.addDefinition {w : VariableId} (h : Twin s t) (hs : s.Sound) (ht : t.Sound)
    (hds : s.Distinct) (hdt : t.Distinct) (ha : s.scopeAt? i = some a)
    (hb : t.scopeAt? i = some b) (hfa : a.table.find? key = some v)
    (hfb : b.table.find? key = some w) (d : Definition) :
    Twin (s.addDefinition v d) (t.addDefinition w d) :=
  ⟨h.options, h.outline, fun j => by
    rw [declared_addDefinition hs hds ha hfa, declared_addDefinition ht hdt hb hfb, h.declared],
    h.use, h.global⟩

/-! ### References and flags -/

theorem Twin.addReference (h : Twin s t) (i : ScopeId) (u : Use) :
    Twin (s.addReference i u) (t.addReference i u) := by
  have houtline : ∀ w : Store, ∀ j, (w.addReference i u).outlineAt? j =
      if i = j then (w.outlineAt? j).map fun o =>
        { o with references := o.references ++ [w.references.size] } else w.outlineAt? j := by
    intro w j
    rw [outlineAt?, outlineAt?, scopeAt?_addReference]
    by_cases hj : i = j <;> cases w.scopeAt? j <;>
      simp [hj, Scope.take, Scope.outline, Scope.isClosed]
  have hdeclared : ∀ w : Store, ∀ j, (w.addReference i u).declared j = w.declared j := by
    intro w j
    rw [Store.declared, Store.declared, scopeAt?_addReference]
    by_cases hj : i = j <;> cases w.scopeAt? j <;> simp [hj, Scope.take, Scope.declarations]
  refine ⟨h.options, fun j => ?_, fun j => ?_, fun r => ?_, h.global⟩
  · rw [houtline, houtline, h.outline, h.size_references]
  · rw [hdeclared, hdeclared, h.declared]
  · rw [useAt?, useAt?, referenceAt?_addReference, referenceAt?_addReference, h.size_references]
    by_cases hr : r = s.references.size
    · rw [if_pos hr, if_pos hr]
    · rw [if_neg hr, if_neg hr]
      exact h.use r

theorem Twin.noteEval (h : Twin s t) (hs : s.Rooted) (ht : t.Rooted) (i : ScopeId) :
    Twin (s.noteEval i) (t.noteEval i) := by
  have hcalls := h.updateScope i (f := fun a => { a with callsEval := true })
    (g := fun o => { o with callsEval := true }) (fun _ => rfl) fun _ => rfl
  rw [Store.noteEval, Store.noteEval, h.chain hs ht]
  exact hcalls.updateScopes (s.chain i) (f := fun a => { a with dynamic := true })
    (g := fun o => { o with dynamic := true }) (fun _ => rfl) fun _ => rfl

theorem Twin.noteThis (h : Twin s t) (i : ScopeId) : Twin (s.noteThis i) (t.noteThis i) :=
  h.updateScope i (g := fun o => { o with usesThis := true }) (fun _ => rfl) fun _ => rfl

/-! ### Actions -/

/-- What binds a name in a scope does so in the twin. -/
theorem Twin.define {n : Node} {d : Definition} {w : Option VariableId} (h : Twin s t)
    (hs : s.Sound) (ht : t.Sound) (hds : s.Distinct) (hdt : t.Distinct)
    (hi : s.implicitAt i = []) (hi' : t.implicitAt i = [])
    (hd : (define i n d).outcome s = (.ok w, s')) :
    ∃ w' t', (define i n d).outcome t = (.ok w', t') ∧ Twin s' t' := by
  obtain ⟨hn, -, rfl⟩ | ⟨hn, key, a, hk, ha, hd⟩ := define_ok_iff.1 hd
  · exact ⟨none, t, define_ok_iff.2 (.inl ⟨hn, rfl, rfl⟩), h⟩
  · obtain ⟨b, hb, -⟩ := h.scopeAt? ha
    have hia : a.implicit = [] := (implicitAt_eq ha).symm.trans hi
    have hib : b.implicit = [] := (implicitAt_eq hb).symm.trans hi'
    have hnames := h.names ha hb hia hib
    rcases hd with ⟨v, hf, -, rfl⟩ | ⟨hf, -, rfl⟩
    · obtain ⟨v', hf'⟩ : ∃ v', b.table.find? key = some v' :=
        Table.mem_names_iff.1 (hnames ▸ Table.mem_names_iff.2 ⟨v, hf⟩)
      exact ⟨some v', _, define_ok_iff.2 (.inr ⟨hn, key, b, hk, hb, .inl ⟨v', hf', rfl, rfl⟩⟩),
        h.addDefinition hs ht hds hdt ha hb hf hf' d⟩
    · have hf' : b.table.find? key = none := by
        cases hf' : b.table.find? key with
        | none => rfl
        | some v' =>
            obtain ⟨v, hv⟩ := Table.mem_names_iff.1 (hnames ▸ Table.mem_names_iff.2 ⟨v', hf'⟩)
            rw [hf] at hv
            cases hv
      exact ⟨some t.vars.size, _, define_ok_iff.2 (.inr ⟨hn, key, b, hk, hb, .inr ⟨hf', rfl, rfl⟩⟩),
        h.bindNew hs ht ha hb hia hib hf hf' _⟩

theorem Twin.provide {kind : ScopeKind} {n : Node} (h : Twin s t) (hs : s.Sound) (ht : t.Sound)
    (hds : s.Distinct) (hdt : t.Distinct) (ha : s.scopeAt? i = some a) (hb : t.scopeAt? i = some b)
    (hia : a.implicit = [] ∧ a.table = []) (hib : b.implicit = [] ∧ b.table = [])
    (hp : (provide kind n i).outcome s = (.ok (), s')) :
    ∃ t', (provide kind n i).outcome t = (.ok (), t') ∧ Twin s' t' := by
  have hpure : ∀ {u : Store}, (pure () : Action Unit).outcome s = (.ok (), u) →
      ∃ t', (pure () : Action Unit).outcome t = (.ok (), t') ∧ Twin u t' := fun hu =>
    ⟨t, rfl, (pure_ok_iff.1 hu).2 ▸ h⟩
  unfold Action.provide at hp ⊢
  split at hp
  · split at hp
    · rename_i harg
      obtain ⟨v, hv⟩ := discard_ok_iff.1 hp
      obtain ⟨-, rfl⟩ := bindNew_ok_iff.1 hv
      rw [if_pos harg]
      refine ⟨_, discard_ok_iff.2 ⟨_, bindNew_ok_iff.2 ⟨rfl, rfl⟩⟩, ?_⟩
      exact h.bindNew hs ht ha hb hia.1 hib.1 (hia.2 ▸ rfl) (hib.2 ▸ rfl) _
    · rename_i harg
      rw [if_neg harg]
      exact hpure hp
  · obtain ⟨w, hw⟩ := discard_ok_iff.1 hp
    obtain ⟨w', t', hw', ht'⟩ := h.define hs ht hds hdt ((implicitAt_eq ha).trans hia.1)
      ((implicitAt_eq hb).trans hib.1) hw
    exact ⟨t', discard_ok_iff.2 ⟨w', hw'⟩, ht'⟩
  · exact hpure hp

theorem Twin.strictAt? (h : Twin s t) (upper : Option ScopeId) :
    t.strictAt? upper = s.strictAt? upper := by
  cases upper with
  | none => rfl
  | some u =>
      have hu := congrArg (Option.map Outline.strict) (h.outline u)
      rwa [outlineAt?, outlineAt?, Option.map_map, Option.map_map] at hu

/-- What opens a scope opens it in the twin. -/
theorem Twin.enter {kind : ScopeKind} {n : Node} {upper : Option ScopeId} (h : Twin s t)
    (hs : s.Sound) (ht : t.Sound) (hds : s.Distinct) (hdt : t.Distinct)
    (he : (enter kind n upper).outcome s = (.ok i, s')) :
    ∃ t', (enter kind n upper).outcome t = (.ok i, t') ∧ Twin s' t' := by
  obtain ⟨u, ho, hp⟩ := enter_ok_iff.1 he
  obtain ⟨above, strict, habove, hstrict, hobj, rfl, rfl⟩ := openScope_ok_iff.1 ho
  have hupper := upper_lt_of_strictAt? habove
  have hupper' : ∀ w, upper = some w → w < t.scopes.size := h.size_scopes ▸ hupper
  obtain ⟨v, hopt⟩ := h.options
  have ho' : (openScope kind n upper).outcome t = (.ok s.scopes.size,
      (t.addScope kind n upper strict).record (.opened kind t.scopes.size n.type strict)) := by
    refine openScope_ok_iff.2 ⟨above, strict, (h.strictAt? upper).trans habove, ?_, hobj,
      h.size_scopes.symm, rfl⟩
    rw [hopt]
    exact hstrict
  have htwin := (h.addScope kind n strict hupper).record
    (.opened kind s.scopes.size n.type strict) (.opened kind t.scopes.size n.type strict)
  have hq := openScope_quiets (A := fun _ => True) ho fun _ _ => trivial
  have hq' := openScope_quiets (A := fun _ => True) ho' fun _ _ => trivial
  have ha : ((s.addScope kind n upper strict).record
      (.opened kind s.scopes.size n.type strict)).scopeAt? s.scopes.size =
      some (s.freshScope kind n upper strict) := by
    rw [scopeAt?_record, scopeAt?_addScope_new hupper]
  have hb : ((t.addScope kind n upper strict).record
      (.opened kind t.scopes.size n.type strict)).scopeAt? s.scopes.size =
      some (t.freshScope kind n upper strict) := by
    rw [scopeAt?_record, ← h.size_scopes, scopeAt?_addScope_new hupper']
  obtain ⟨t', hp', ht'⟩ := htwin.provide (hq.changes.sound hs) (hq'.changes.sound ht)
    (hds.changes hq.changes) (hdt.changes hq'.changes) ha hb ⟨rfl, rfl⟩ ⟨rfl, rfl⟩ hp
  exact ⟨t', enter_ok_iff.2 ⟨_, ho', hp'⟩, ht'⟩

theorem Twin.refer {u : Use} {w : Option ReferenceId} (h : Twin s t)
    (hr : (refer i u).outcome s = (.ok w, s')) :
    ∃ w' t', (refer i u).outcome t = (.ok w', t') ∧ Twin s' t' := by
  obtain ⟨hn, -, rfl⟩ | ⟨hn, -, rfl, a, ha, hc⟩ := refer_ok_iff.1 hr
  · exact ⟨none, t, refer_ok_iff.2 (.inl ⟨hn, rfl, rfl⟩), h⟩
  · obtain ⟨b, hb, hab⟩ := h.scopeAt? ha
    have hclosed : b.isClosed = a.isClosed := congrArg Outline.isClosed hab
    exact ⟨some t.references.size, _, refer_ok_iff.2 (.inr ⟨hn, rfl, rfl, b, hb, hclosed.trans hc⟩),
      h.addReference i u⟩

/-! ### Closing -/

theorem declarations_congr (ht : b.table = a.table)
    (hi : ∀ e ∈ a.table, (b.implicit.find? e.1).isNone = (a.implicit.find? e.1).isNone) :
    b.declarations = a.declarations := by
  rw [Scope.declarations, Scope.declarations, ht]
  exact List.filter_congr hi

theorem mem_declarations {e : Name × VariableId} (h : e ∈ a.declarations) :
    e ∈ a.table ∧ a.implicit.find? e.1 = none :=
  ⟨(List.mem_filter.1 h).1, Option.isNone_iff_eq_none.1 (List.mem_filter.1 h).2⟩

/-- A further definition of a variable that was made for writes. -/
theorem twin_addDefinition (hs : s.Sound) (ha : s.scopeAt? i = some a)
    (hf : a.table.find? key = some v) (hi : a.implicit.find? key = some v) (d : Definition) :
    Twin s (s.addDefinition v d) := by
  refine ⟨⟨_, rfl⟩, fun _ => rfl, fun j => ?_, fun _ => rfl, rfl⟩
  unfold Store.declared
  rw [scopeAt?_addDefinition]
  cases hb : s.scopeAt? j with
  | none => rfl
  | some b =>
      refine List.map_congr_left fun e he => ?_
      obtain ⟨hmem, hnone⟩ := mem_declarations he
      -- The variable stands in no other table, and in this one it was not declared.
      rw [variableAt?_addDefinition, if_neg]
      rintro rfl
      obtain ⟨rfl, hkey⟩ := hs.entry_unique ha (Table.mem_of_find? hf) hb hmem
      obtain rfl := Option.some.inj (ha.symm.trans hb)
      rw [← hkey, hi] at hnone
      cases hnone

/-- Noting once more that a variable was made for writes. -/
theorem twin_bindImplicit (ha : s.scopeAt? i = some a) (hi : a.implicit.find? key = some v) :
    Twin s (s.updateScope i (·.bindImplicit key v)) := by
  have hsame : (a.bindImplicit key v).declarations = a.declarations := by
    refine declarations_congr rfl fun e _ => ?_
    show ((a.implicit.put key v).find? e.1).isNone = _
    rw [Table.find?_put]
    by_cases he : key = e.1
    · rw [if_pos he, ← he, hi]
    · rw [if_neg he]
  refine ⟨⟨_, rfl⟩, fun j => ?_, fun j => ?_, fun _ => rfl, rfl⟩
  · rw [outlineAt?, outlineAt?, scopeAt?_updateScope]
    split <;> cases s.scopeAt? j <;> rfl
  · unfold Store.declared
    rw [scopeAt?_updateScope]
    by_cases hj : i = j
    · subst hj
      rw [if_pos rfl, ha, Option.map_some, Option.map_some, Option.map_some, hsame]
      rfl
    · rw [if_neg hj]
      rfl

/-- A variable made for a write. -/
theorem twin_bindNew (hs : s.Sound) (ha : s.scopeAt? i = some a)
    (hf : a.table.find? key = none) (var : Variable) :
    Twin s ((s.bindNew i key var).updateScope i (·.bindImplicit key s.vars.size)) := by
  have hold : ∀ {j b}, s.scopeAt? j = some b → ∀ e ∈ b.declarations,
      (s.bindNew i key var).variableAt? e.2 = s.variableAt? e.2 := by
    intro j b hb e he
    obtain ⟨x, hx, -⟩ := hs.table j b e.1 e.2 hb (mem_declarations he).1
    rw [variableAt?_bindNew, if_neg (variableAt?_lt hx).ne]
  have hsame : ((a.bind key s.vars.size).bindImplicit key s.vars.size).declarations =
      a.declarations := by
    show ((a.table.put key s.vars.size).filter fun e =>
      ((a.implicit.put key s.vars.size).find? e.1).isNone) = _
    have hlast : ([(key, s.vars.size)] : Table VariableId).filter (fun e =>
        ((a.implicit.put key s.vars.size).find? e.1).isNone) = [] := by simp
    rw [Table.put_of_find?_none hf, List.filter_append, hlast, List.append_nil,
      Scope.declarations]
    refine List.filter_congr fun e he => ?_
    have hne : key ≠ e.1 := by
      rintro rfl
      obtain ⟨v, hv⟩ := Table.mem_names_iff.1 (List.mem_map.2 ⟨e, he, rfl⟩)
      rw [hf] at hv
      cases hv
    rw [Table.find?_put, if_neg hne]
  refine ⟨⟨_, rfl⟩, fun j => ?_, fun j => ?_, fun _ => rfl, rfl⟩
  · rw [outlineAt?, outlineAt?, scopeAt?_updateScope, scopeAt?_bindNew]
    split <;> cases s.scopeAt? j <;> rfl
  · unfold Store.declared
    rw [scopeAt?_updateScope, scopeAt?_bindNew]
    by_cases hj : i = j
    · subst hj
      rw [if_pos rfl, if_pos rfl, ha, Option.map_some, Option.map_some, Option.map_some,
        Option.map_some, hsame]
      exact List.map_congr_left fun e he => by rw [variableAt?_updateScope, hold ha e he]
    · rw [if_neg hj, if_neg hj]
      cases hb : s.scopeAt? j with
      | none => rfl
      | some b =>
          exact List.map_congr_left fun e he => by rw [variableAt?_updateScope, hold hb e he]

/-- Making a variable for a write declares nothing. -/
theorem Imputed.makeImplicit_twin {base : Table VariableId} {cs : List Candidate} {c : Candidate}
    (h : s.Imputed i base cs a) (hs : s.Sound) (hc : c.key? = some key)
    (hk : base.find? key = none) (hm : (Action.makeImplicit i c).outcome s = (.ok (), s')) :
    Twin s s' := by
  obtain ⟨w, t, key', hd, hk', rfl⟩ := makeImplicit_ok_iff.1 hm
  obtain rfl : key' = key := Option.some.inj (hk'.symm.trans hc)
  have htable := h.table key' hk
  obtain ⟨-, hw, -⟩ | ⟨-, key, b, hkey, hb, hd⟩ := define_ok_iff.1 hd
  · cases hw
  obtain rfl : key = key' := Option.some.inj (hkey.symm.trans hc)
  obtain rfl : a = b := Option.some.inj (h.scope.symm.trans hb)
  rcases hd with ⟨v, hf, hw, rfl⟩ | ⟨hf, hw, rfl⟩
  · obtain rfl := Option.some.inj hw
    rw [hf] at htable
    exact (twin_addDefinition hs hb hf htable.symm _).trans
      (twin_bindImplicit (by rw [scopeAt?_addDefinition, hb]) htable.symm)
  · obtain rfl := Option.some.inj hw
    exact twin_bindNew hs hb hf _

/-- Making the variables that are asked for declares nothing. -/
theorem bindImplicits_twin {pending : List ReferenceId} (hs : s.Sound)
    (hP : s.OwnCandidates) (ha : s.scopeAt? i = some a) (hi : a.implicit = [])
    (h : (Action.bindImplicits i a pending).outcome s = (.ok (), s')) : Twin s s' := by
  rw [Action.bindImplicits] at h
  split at h
  · obtain ⟨cs, t, ho, hm⟩ := bind_ok_iff.1 h
    obtain rfl : t = s := openCandidates_ok ho
    obtain ⟨hopen, -⟩ := hP.openCandidates ho
    obtain ⟨-, htwin, -⟩ := forM_ok_done
      (P := fun done u => u.Sound ∧ Twin t u ∧ ∃ b, u.Imputed i a.table done b) hm
      ⟨hs, .refl t, a, .start ha hi⟩ fun done c rest u u' hcs hinv hmake => by
        obtain ⟨hu, htwin, b, hdone⟩ := hinv
        obtain ⟨key, hck, hf⟩ := hopen c (hcs ▸ List.mem_append_right _ List.mem_cons_self)
        exact ⟨(makeImplicit_quiets hu hmake).changes.sound hu,
          htwin.trans (hdone.makeImplicit_twin hu hck hf hmake),
          hdone.makeImplicit hu hck hf hmake⟩
    exact htwin
  · rw [(pure_ok_iff.1 h).2]
    exact .refl s

theorem settle_twin (h : (settle i r).outcome s = (.ok (), s')) : Twin s s' := by
  have hpass : ∀ {u : Store}, Twin u (u.updateScope i (·.pass r)) := fun {u} =>
    twin_updateScope (f := (·.pass r)) (fun _ => rfl) fun _ => rfl
  obtain ⟨ref, key, a, -, -, -, ⟨v, -, rfl⟩ | ⟨-, hup⟩⟩ := settle_ok_iff.1 h
  · exact twin_link r ref.scope v
  · obtain ⟨a, -, ⟨-, rfl⟩ | ⟨w, above, -, -, -, rfl⟩⟩ := handUp_ok_iff.1 hup
    · exact hpass
    · refine Twin.trans (twin_updateScope (f := (·.receive r)) (fun a => ?_) fun _ => rfl) hpass
      simp [Scope.outline, Scope.receive, Scope.isClosed]

theorem settleAll_twin {settled : Bool} {pending : List ReferenceId}
    (h : (settleAll i settled pending).outcome s = (.ok (), s')) : Twin s s' := by
  refine settleAll_induction (P := fun _ t => Twin s t) h (.refl s) ?_ ?_
  · exact fun r _ t t' ih hr => ih.trans (settle_twin hr)
  · exact fun r _ t ih =>
      ih.trans (twin_updateScopes (f := (·.pass r)) (fun _ => rfl) fun _ => rfl)

/-- **Closing a scope settles references and changes nothing else.** -/
theorem close_twin {up : Option ScopeId} (hs : s.Sound) (hP : s.OwnCandidates)
    (hi : s.implicitAt i = []) (h : (close i).outcome s = (.ok up, s')) :
    Twin (s.updateScope i (·.shut)) s' := by
  obtain ⟨a, pending, t, u, last, ha, -, himp, hset, -, -, -, rfl⟩ := close_ok_iff.1 h
  have hopen := bindImplicits_twin hs hP ha ((implicitAt_eq ha).symm.trans hi) himp
  exact ((hopen.trans (settleAll_twin hset)).updateScope i (f := (·.shut))
    (g := fun o => { o with isClosed := true }) (fun _ => rfl) fun _ => rfl).trans (twin_record _)

theorem Twin.close {up up' : Option ScopeId} (h : Twin s t) (hs : s.Sound)
    (ht : t.Sound) (hP : s.OwnCandidates) (hQ : t.OwnCandidates) (hi : s.implicitAt i = [])
    (hi' : t.implicitAt i = []) (hc : (close i).outcome s = (.ok up, s'))
    (hc' : (close i).outcome t = (.ok up', t')) : Twin s' t' := by
  have hshut : Twin (s.updateScope i (·.shut)) (t.updateScope i (·.shut)) :=
    h.updateScope i (f := (·.shut)) (g := fun o => { o with isClosed := true }) (fun _ => rfl)
      fun _ => rfl
  exact ((close_twin hs hP hi hc).symm.trans hshut).trans (close_twin ht hQ hi' hc')

/-! ### Variables that were declared -/

/-- What was declared in a scope was declared in its likeness, by a variable that is the same but
for its references. -/
theorem Twin.unused {x : Variable} (h : Twin s t) (ht : t.Distinct) (ha : s.scopeAt? i = some a)
    (hb : t.scopeAt? i = some b) (hf : a.table.find? key = some v)
    (hi : a.implicit.find? key = none) (hx : s.variableAt? v = some x) :
    ∃ w y, b.table.find? key = some w ∧ b.implicit.find? key = none ∧
      t.variableAt? w = some y ∧ y.unused = x.unused := by
  have hmem : (key, v) ∈ a.declarations :=
    List.mem_filter.2 ⟨Table.mem_of_find? hf, Option.isNone_iff_eq_none.2 hi⟩
  have hd := h.declared i
  rw [declared_eq ha, declared_eq hb] at hd
  obtain ⟨e, he, heq⟩ := List.mem_map.1
    (hd ▸ List.mem_map.2 ⟨(key, v), hmem, rfl⟩ :
      (key, (s.variableAt? v).map (·.unused)) ∈ b.declarations.map _)
  obtain ⟨htable, hnone⟩ := mem_declarations he
  obtain ⟨hkey, hvar⟩ := Prod.mk.inj heq
  obtain rfl : e.1 = key := hkey
  rw [hx, Option.map_some] at hvar
  obtain ⟨y, hy, hxy⟩ := Option.map_eq_some_iff.1 hvar
  exact ⟨e.2, y, Table.find?_of_mem (ht i b hb) htable, hnone, hy, hxy⟩

theorem Twin.find?_declared (h : Twin s t) (hs : s.Sound) (ht : t.Distinct)
    (ha : s.scopeAt? i = some a) (hb : t.scopeAt? i = some b) (hf : a.table.find? key = some v)
    (hi : a.implicit.find? key = none) :
    ∃ w, b.table.find? key = some w ∧ b.implicit.find? key = none := by
  obtain ⟨x, hx, -⟩ := hs.of_find? ha hf
  obtain ⟨w, -, hw, hnone, -⟩ := h.unused ht ha hb hf hi hx
  exact ⟨w, hw, hnone⟩

end Store

end LexScope
