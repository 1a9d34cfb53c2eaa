import LexScope.Proofs.Chain

/-!
# Proofs — Change — the steps that every action is made of

Whatever an action does to a store, it does by few kinds of steps (`Change`).  The *quiet* ones
(`Quiet`) leave alone which references wait, left or were resolved.  A change is tied to the scopes
it may touch, a predicate `A`: it touches no scope outside `A` and no variable of one.

* `Change.sound`: a change keeps a store *sound* (`Sound`): scopes are numbered from the outside in,
  the scope for `var` declarations is on the chain, an entry of a table is a variable of that scope
  under its own name, and every implicit global has a name that the table knows.
* `Change.evolves`: a change only adds (`Evolves`).  What a scope is never changes, definitions,
  references and `through` only grow, and a closed scope stays closed.
-/

namespace LexScope

/-! ### What only grows -/

/-- What a scope is: the part of it that never changes. -/
def Scope.frame (a : Scope) : ScopeKind × Node × Option ScopeId × Bool × ScopeId :=
  (a.kind, a.block, a.upper, a.strict, a.variableScope)

/-- One scope later on. -/
structure Scope.Evolves (a b : Scope) : Prop where
  frame : b.frame = a.frame
  table : ∀ key v, key ≠ .text argumentsName → a.table.find? key = some v →
    b.table.find? key = some v
  through : a.through ⊆ b.through
  dynamic : a.dynamic = true → b.dynamic = true
  closed : a.isClosed = true → b.isClosed = true

/-- One variable later on. -/
structure Variable.Evolves (a b : Variable) : Prop where
  name : b.name = a.name
  scope : b.scope = a.scope
  defs : a.defs ⊆ b.defs
  references : a.references ⊆ b.references

/-- One store later on, when nothing outside `A` was touched. -/
structure Store.Evolves (A : ScopeId → Prop) (s t : Store) : Prop where
  options : t.options = s.options
  scope : ∀ i a, s.scopeAt? i = some a →
    ∃ b, t.scopeAt? i = some b ∧ a.Evolves b ∧ (A i ∨ b = a)
  var : ∀ v a, s.variableAt? v = some a →
    ∃ b, t.variableAt? v = some b ∧ a.Evolves b ∧ (A a.scope ∨ b = a)
  reference : ∀ r a, s.referenceAt? r = some a →
    ∃ b, t.referenceAt? r = some b ∧ b.toUse = a.toUse ∧ b.scope = a.scope

namespace Scope

variable {a b : Scope}

theorem kind_of_frame (h : b.frame = a.frame) : b.kind = a.kind := congrArg (·.1) h

theorem block_of_frame (h : b.frame = a.frame) : b.block = a.block := congrArg (·.2.1) h

theorem upper_of_frame (h : b.frame = a.frame) : b.upper = a.upper := congrArg (·.2.2.1) h

theorem strict_of_frame (h : b.frame = a.frame) : b.strict = a.strict := congrArg (·.2.2.2.1) h

theorem variableScope_of_frame (h : b.frame = a.frame) : b.variableScope = a.variableScope :=
  congrArg (·.2.2.2.2) h

end Scope

theorem Scope.Evolves.refl (a : Scope) : a.Evolves a :=
  ⟨rfl, fun _ _ _ h => h, List.Subset.refl _, id, id⟩

theorem Scope.Evolves.trans {a b c : Scope} (h : a.Evolves b) (k : b.Evolves c) : a.Evolves c :=
  ⟨k.frame.trans h.frame, fun key v hk hf => k.table key v hk (h.table key v hk hf),
    List.Subset.trans h.through k.through, fun hd => k.dynamic (h.dynamic hd),
    fun hc => k.closed (h.closed hc)⟩

theorem Variable.Evolves.refl (a : Variable) : a.Evolves a :=
  ⟨rfl, rfl, List.Subset.refl _, List.Subset.refl _⟩

theorem Variable.Evolves.trans {a b c : Variable} (h : a.Evolves b) (k : b.Evolves c) :
    a.Evolves c :=
  ⟨k.name.trans h.name, k.scope.trans h.scope, List.Subset.trans h.defs k.defs,
    List.Subset.trans h.references k.references⟩

namespace Store

variable {A B : ScopeId → Prop} {s t u : Store}

theorem Evolves.refl (s : Store) : Evolves A s s :=
  ⟨rfl, fun _ a h => ⟨a, h, .refl a, .inr rfl⟩, fun _ a h => ⟨a, h, .refl a, .inr rfl⟩,
    fun _ a h => ⟨a, h, rfl, rfl⟩⟩

theorem Evolves.trans (h : Evolves A s t) (k : Evolves A t u) : Evolves A s u := by
  refine ⟨k.options.trans h.options, ?_, ?_, ?_⟩
  · intro i a ha
    obtain ⟨b, hb, hab, hA⟩ := h.scope i a ha
    obtain ⟨c, hc, hbc, hA'⟩ := k.scope i b hb
    refine ⟨c, hc, hab.trans hbc, ?_⟩
    rcases hA with hA | rfl
    · exact .inl hA
    · exact hA'
  · intro v a ha
    obtain ⟨b, hb, hab, hA⟩ := h.var v a ha
    obtain ⟨c, hc, hbc, hA'⟩ := k.var v b hb
    refine ⟨c, hc, hab.trans hbc, ?_⟩
    rcases hA with hA | rfl
    · exact .inl hA
    · exact hA'
  · intro r a ha
    obtain ⟨b, hb, hu, hs⟩ := h.reference r a ha
    obtain ⟨c, hc, hu', hs'⟩ := k.reference r b hb
    exact ⟨c, hc, hu'.trans hu, hs'.trans hs⟩

theorem Evolves.mono (h : Evolves A s t) (hAB : ∀ i, A i → B i) : Evolves B s t :=
  ⟨h.options,
    fun i a ha => let ⟨b, hb, hab, hA⟩ := h.scope i a ha; ⟨b, hb, hab, hA.imp_left (hAB i)⟩,
    fun v a ha => let ⟨b, hb, hab, hA⟩ := h.var v a ha; ⟨b, hb, hab, hA.imp_left (hAB _)⟩,
    h.reference⟩

/-- A change of one scope and of nothing else. -/
theorem evolves_updateScope {i : ScopeId} {f : Scope → Scope} (hA : A i)
    (hf : ∀ a : Scope, a.Evolves (f a)) : Evolves A s (s.updateScope i f) := by
  refine ⟨rfl, fun j a ha => ?_, fun v a ha => ⟨a, ha, .refl a, .inr rfl⟩,
    fun r a ha => ⟨a, ha, rfl, rfl⟩⟩
  rw [scopeAt?_updateScope, ha]
  by_cases hj : i = j
  · subst hj; exact ⟨f a, by simp, hf a, .inl hA⟩
  · exact ⟨a, by simp [hj], .refl a, .inr rfl⟩

/-! ### Sound stores -/

/-- What holds of the tables and the chains of a store at any time. -/
structure Sound (s : Store) : Prop where
  rooted : s.Rooted
  varScope : ∀ i a, s.scopeAt? i = some a → a.variableScope ∈ s.chain i
  table : ∀ i a key v, s.scopeAt? i = some a → (key, v) ∈ a.table →
    ∃ var, s.variableAt? v = some var ∧ var.scope = i ∧ Name.ofTree? var.name = some key
  implicit : ∀ i a e, s.scopeAt? i = some a → e ∈ a.implicit → (a.table.find? e.1).isSome = true

theorem Sound.of_find? (h : s.Sound) {i : ScopeId} {a : Scope} {key : Name} {v : VariableId}
    (ha : s.scopeAt? i = some a) (hf : a.table.find? key = some v) :
    ∃ var, s.variableAt? v = some var ∧ var.scope = i ∧ Name.ofTree? var.name = some key :=
  h.table i a key v ha (Table.mem_of_find? hf)

/-- The variable of an entry belongs to the scope whose table this is, and has the entry's name. -/
theorem Sound.home (h : s.Sound) {i : ScopeId} {a : Scope} {key : Name} {v : VariableId}
    {var : Variable} (ha : s.scopeAt? i = some a) (hf : a.table.find? key = some v)
    (hvar : s.variableAt? v = some var) :
    var.scope = i ∧ Name.ofTree? var.name = some key := by
  obtain ⟨var', hvar', hhome⟩ := h.of_find? ha hf
  obtain rfl := Option.some.inj (hvar.symm.trans hvar')
  exact hhome

/-- **A variable stands in the table of one scope, under one name.** -/
theorem Sound.entry_unique (h : s.Sound) {i j : ScopeId} {a b : Scope} {key key' : Name}
    {v : VariableId} (ha : s.scopeAt? i = some a) (he : (key, v) ∈ a.table)
    (hb : s.scopeAt? j = some b) (he' : (key', v) ∈ b.table) : i = j ∧ key = key' := by
  obtain ⟨x, hx, hscope, hname⟩ := h.table i a key v ha he
  obtain ⟨y, hy, hscope', hname'⟩ := h.table j b key' v hb he'
  obtain rfl := Option.some.inj (hx.symm.trans hy)
  exact ⟨hscope.symm.trans hscope', Option.some.inj (hname.symm.trans hname')⟩

theorem upperOf_of_frame (h : ∀ i, (t.scopeAt? i).map Scope.frame = (s.scopeAt? i).map Scope.frame)
    (i : ScopeId) : t.upperOf i = s.upperOf i := by
  have hi := h i
  unfold upperOf
  cases hs : s.scopeAt? i <;> cases ht : t.scopeAt? i <;> rw [hs, ht] at hi <;>
    simp [Scope.frame] at hi ⊢
  exact hi.2.2.1

theorem rooted_of_frame (hs : s.Rooted)
    (h : ∀ i, (t.scopeAt? i).map Scope.frame = (s.scopeAt? i).map Scope.frame) : t.Rooted :=
  fun i u hu => hs i u ((upperOf_of_frame h i).symm.trans hu)

theorem chain_of_frame (hs : s.Rooted)
    (h : ∀ i, (t.scopeAt? i).map Scope.frame = (s.scopeAt? i).map Scope.frame) (i : ScopeId) :
    t.chain i = s.chain i :=
  chain_congr hs (rooted_of_frame hs h) fun j _ => upperOf_of_frame h j

/-- A store stays sound when its scopes stay what they are, tables stay the same, implicit globals
get names that are known, and variables keep scope and name. -/
theorem Sound.of_frame (h : s.Sound)
    (hf : ∀ i, (t.scopeAt? i).map Scope.frame = (s.scopeAt? i).map Scope.frame)
    (ht : ∀ i b, t.scopeAt? i = some b → ∃ a, s.scopeAt? i = some a ∧ b.table = a.table ∧
      ∀ e ∈ b.implicit, e ∈ a.implicit ∨ (a.table.find? e.1).isSome = true)
    (hv : ∀ v a, s.variableAt? v = some a →
      ∃ b, t.variableAt? v = some b ∧ b.scope = a.scope ∧ b.name = a.name) : t.Sound := by
  refine ⟨rooted_of_frame h.rooted hf, ?_, ?_, ?_⟩
  · intro i b hb
    have hi := hf i
    rw [hb] at hi
    cases ha : s.scopeAt? i with
    | none => rw [ha] at hi; cases hi
    | some a =>
        rw [ha] at hi
        rw [chain_of_frame h.rooted hf, Scope.variableScope_of_frame (Option.some.inj hi)]
        exact h.varScope i a ha
  · intro i b key v hb he
    obtain ⟨a, ha, htable, -⟩ := ht i b hb
    obtain ⟨var, hvar, hsc, hn⟩ := h.table i a key v ha (htable ▸ he)
    obtain ⟨var', hvar', hsc', hn'⟩ := hv v var hvar
    exact ⟨var', hvar', hsc'.trans hsc, by rw [hn', hn]⟩
  · intro i b e hb he
    obtain ⟨a, ha, htable, himp⟩ := ht i b hb
    rw [htable]
    exact (himp e he).elim (h.implicit i a e ha) id

theorem frame_updateScope {f : Scope → Scope} (hf : ∀ a, (f a).frame = a.frame) (s : Store)
    (i j : ScopeId) :
    ((s.updateScope i f).scopeAt? j).map Scope.frame = (s.scopeAt? j).map Scope.frame := by
  rw [scopeAt?_updateScope]
  cases s.scopeAt? j <;> by_cases h : i = j <;> simp [h, hf]

/-- A change of one scope that leaves its table alone, and makes no implicit global but of a known
name, keeps a store sound. -/
theorem Sound.updateScope (h : s.Sound) (i : ScopeId) {f : Scope → Scope}
    (hf : ∀ a, (f a).frame = a.frame) (ht : ∀ a, (f a).table = a.table)
    (hi : ∀ a, s.scopeAt? i = some a →
      ∀ e ∈ (f a).implicit, e ∈ a.implicit ∨ (a.table.find? e.1).isSome = true) :
    (s.updateScope i f).Sound := by
  refine h.of_frame (frame_updateScope hf s i) (fun j b hb => ?_)
    fun v a ha => ⟨a, ha, rfl, rfl⟩
  obtain ⟨rfl, a, ha, rfl⟩ | ⟨-, hb⟩ := scopeAt?_updateScope_cases hb
  · exact ⟨a, ha, ht a, hi a ha⟩
  · exact ⟨b, hb, rfl, fun _ => .inl⟩

end Store

/-! ### Quiet changes -/

/-- One scope when only flags differ. -/
structure Scope.Reflagged (a b : Scope) : Prop where
  frame : b.frame = a.frame
  table : b.table = a.table
  implicit : b.implicit = a.implicit
  references : b.references = a.references
  through : b.through = a.through
  children : b.children = a.children
  pending : b.pending = a.pending
  dynamic : a.dynamic = true → b.dynamic = true

/-- A change that touches no scope outside `A` and no reference. -/
inductive Store.Quiet (A : ScopeId → Prop) (s : Store) : Store → Prop where
  | record (entry : LogRecord) : Quiet A s (s.record entry)
  | addScope (kind : ScopeKind) (n : Node) {upper : Option ScopeId} (strict : Bool)
      (hu : ∀ u, upper = some u → A u ∧ u < s.scopes.size) :
      Quiet A s (s.addScope kind n upper strict)
  | bindNew {i : ScopeId} {a : Scope} {key : Name} {var : Variable} (hA : A i)
      (ha : s.scopeAt? i = some a) (hf : a.table.find? key = none ∨ key = .text argumentsName)
      (hi : var.scope = i) (hk : Name.ofTree? var.name = some key) (hr : var.references = []) :
      Quiet A s (s.bindNew i key var)
  | addDefinition {i : ScopeId} {a : Scope} {key : Name} {v : VariableId} (d : Definition)
      (hA : A i) (ha : s.scopeAt? i = some a) (hf : a.table.find? key = some v) :
      Quiet A s (s.addDefinition v d)
  | reflag {i : ScopeId} {f : Scope → Scope} (hA : A i) (hf : ∀ a : Scope, a.Reflagged (f a)) :
      Quiet A s (s.updateScope i f)
  | bindImplicit {i : ScopeId} {a : Scope} {key : Name} {v : VariableId} (hA : A i)
      (ha : s.scopeAt? i = some a) (hf : a.table.find? key = some v) :
      Quiet A s (s.updateScope i (·.bindImplicit key v))

/-- A change that touches no scope outside `A`. -/
inductive Store.Change (A : ScopeId → Prop) (s : Store) : Store → Prop where
  | quiet {t : Store} (h : Quiet A s t) : Change A s t
  | addReference {i : ScopeId} (u : Use) (hA : A i) : Change A s (s.addReference i u)
  | link {i : ScopeId} {a : Scope} {key : Name} {v : VariableId} (r : ReferenceId)
      (origin : ScopeId) (hA : A i) (ha : s.scopeAt? i = some a)
      (hf : a.table.find? key = some v) : Change A s (s.link r origin v)
  | receive {i : ScopeId} (r : ReferenceId) (hA : A i) : Change A s (s.updateScope i (·.receive r))
  | pass {i : ScopeId} (r : ReferenceId) (hA : A i) : Change A s (s.updateScope i (·.pass r))
  | shut {i : ScopeId} (hA : A i) : Change A s (s.updateScope i (·.shut))

/-- Quiet changes one after the other. -/
abbrev Store.Quiets (A : ScopeId → Prop) : Store → Store → Prop :=
  Relation.ReflTransGen (Store.Quiet A)

/-- Changes one after the other. -/
abbrev Store.Changes (A : ScopeId → Prop) : Store → Store → Prop :=
  Relation.ReflTransGen (Store.Change A)

namespace Store

variable {A B : ScopeId → Prop} {s t : Store}

theorem Quiet.mono (h : Quiet A s t) (hAB : ∀ i, A i → B i) : Quiet B s t := by
  cases h with
  | record entry => exact .record entry
  | addScope kind n strict hu =>
      exact .addScope kind n strict fun u h => ⟨hAB u (hu u h).1, (hu u h).2⟩
  | bindNew hA ha hf hi hk hr => exact .bindNew (hAB _ hA) ha hf hi hk hr
  | addDefinition d hA ha hf => exact .addDefinition d (hAB _ hA) ha hf
  | reflag hA hf => exact .reflag (hAB _ hA) hf
  | bindImplicit hA ha hf => exact .bindImplicit (hAB _ hA) ha hf

theorem Change.mono (h : Change A s t) (hAB : ∀ i, A i → B i) : Change B s t := by
  cases h with
  | quiet h => exact .quiet (h.mono hAB)
  | addReference u hA => exact .addReference u (hAB _ hA)
  | link r origin hA ha hf => exact .link r origin (hAB _ hA) ha hf
  | receive r hA => exact .receive r (hAB _ hA)
  | pass r hA => exact .pass r (hAB _ hA)
  | shut hA => exact .shut (hAB _ hA)

theorem Changes.mono (h : Changes A s t) (hAB : ∀ i, A i → B i) : Changes B s t := by
  induction h with
  | refl => exact .refl
  | tail _ h ih => exact ih.tail (h.mono hAB)

theorem Quiets.changes (h : Quiets A s t) : Changes A s t := by
  induction h with
  | refl => exact .refl
  | tail _ h ih => exact ih.tail (.quiet h)

/-- Changing several scopes is changing one after the other. -/
theorem changes_updateScopes {l : List ScopeId} {f : Scope → Scope}
    (h : ∀ (s : Store) (i : ScopeId), i ∈ l → Change A s (s.updateScope i f)) (s : Store) :
    Changes A s (s.updateScopes l f) := by
  induction l generalizing s with
  | nil => exact .refl
  | cons i l ih =>
      exact .head (h s i List.mem_cons_self)
        (ih (fun s j hj => h s j (List.mem_cons_of_mem i hj)) (s.updateScope i f))

theorem quiets_updateScopes {l : List ScopeId} {f : Scope → Scope}
    (h : ∀ (s : Store) (i : ScopeId), i ∈ l → Quiet A s (s.updateScope i f)) (s : Store) :
    Quiets A s (s.updateScopes l f) := by
  induction l generalizing s with
  | nil => exact .refl
  | cons i l ih =>
      exact .head (h s i List.mem_cons_self)
        (ih (fun s j hj => h s j (List.mem_cons_of_mem i hj)) (s.updateScope i f))

/-! ### Every change keeps a store sound -/

theorem upperOf_addScope (kind : ScopeKind) (n : Node) {upper : Option ScopeId} (strict : Bool)
    (hu : ∀ u, upper = some u → u < s.scopes.size) (j : ScopeId) :
    (s.addScope kind n upper strict).upperOf j =
      if j = s.scopes.size then upper else s.upperOf j := by
  rw [upperOf, scopeAt?_addScope s kind n upper strict hu]
  by_cases hj : j = s.scopes.size
  · simp [hj, freshScope]
  · rw [if_neg hj, if_neg hj, upperOf]
    cases s.scopeAt? j with
    | none => rfl
    | some a => by_cases h : upper = some j <;> simp [h, Scope.adopt]

theorem rooted_addScope (h : s.Rooted) (kind : ScopeKind) (n : Node) {upper : Option ScopeId}
    (strict : Bool) (hu : ∀ u, upper = some u → u < s.scopes.size) :
    (s.addScope kind n upper strict).Rooted := by
  intro i u hi
  rw [upperOf_addScope kind n strict hu] at hi
  by_cases hj : i = s.scopes.size
  · rw [if_pos hj] at hi; rw [hj]; exact hu u hi
  · rw [if_neg hj] at hi; exact h i u hi

theorem chain_addScope (h : s.Rooted) (kind : ScopeKind) (n : Node) {upper : Option ScopeId}
    (strict : Bool) (hu : ∀ u, upper = some u → u < s.scopes.size) {i : ScopeId}
    (hi : i < s.scopes.size) : (s.addScope kind n upper strict).chain i = s.chain i := by
  refine chain_congr h (rooted_addScope h kind n strict hu) ?_
  intro j hj
  rw [upperOf_addScope kind n strict hu, if_neg]
  exact ((le_of_mem_chain h hj).trans_lt hi).ne

theorem Sound.addScope (h : s.Sound) (kind : ScopeKind) (n : Node) {upper : Option ScopeId}
    (strict : Bool) (hu : ∀ u, upper = some u → u < s.scopes.size) :
    (s.addScope kind n upper strict).Sound := by
  have hroot := rooted_addScope h.rooted kind n strict hu
  refine ⟨hroot, fun i b hb => ?_, fun i b key v hb he => ?_, fun i b e hb he => ?_⟩
  · obtain ⟨rfl, rfl⟩ | ⟨a, l, ha, rfl⟩ := scopeAt?_addScope_cases hu hb
    · show (if kind.holdsVars then _ else _) ∈ _
      -- A scope that holds no variables has the variable scope of the one above it.
      by_cases hk : kind.holdsVars = true
      · rw [if_pos hk]; exact self_mem_chain _ _
      · rw [if_neg hk]
        cases upper with
        | none => exact self_mem_chain _ _
        | some u =>
            obtain ⟨a, ha⟩ := scopeAt?_of_lt (hu u rfl)
            rw [chain_step hroot (by rw [upperOf_addScope kind n strict hu, if_pos rfl]),
              chain_addScope h.rooted kind n strict hu (hu u rfl)]
            simp only [Option.bind_some, ha, Option.map_some, Option.getD_some]
            exact List.mem_cons_of_mem _ (h.varScope u a ha)
    · rw [chain_addScope h.rooted kind n strict hu (scopeAt?_lt ha)]
      exact h.varScope i a ha
  · obtain ⟨-, rfl⟩ | ⟨a, l, ha, rfl⟩ := scopeAt?_addScope_cases hu hb
    · cases he
    · simpa using h.table i a key v ha he
  · obtain ⟨-, rfl⟩ | ⟨a, l, ha, rfl⟩ := scopeAt?_addScope_cases hu hb
    · cases he
    · exact h.implicit i a e ha he

theorem Sound.bindNew (h : s.Sound) {i : ScopeId} {key : Name} {var : Variable}
    (hi : var.scope = i) (hk : Name.ofTree? var.name = some key) : (s.bindNew i key var).Sound := by
  have hframe : ∀ j, ((s.bindNew i key var).scopeAt? j).map Scope.frame =
      (s.scopeAt? j).map Scope.frame := by
    intro j
    rw [scopeAt?_bindNew]
    cases s.scopeAt? j <;> by_cases hj : i = j <;> simp [hj, Scope.bind, Scope.frame]
  have hold : ∀ v a, s.variableAt? v = some a → (s.bindNew i key var).variableAt? v = some a := by
    intro v a ha
    rw [variableAt?_bindNew, if_neg (variableAt?_lt ha).ne, ha]
  refine ⟨rooted_of_frame h.rooted hframe, fun j b hb => ?_, fun j b k v hb he => ?_,
    fun j b e hb he => ?_⟩
  · rw [chain_of_frame h.rooted hframe]
    obtain ⟨-, a, ha, rfl⟩ | ⟨-, hb⟩ := scopeAt?_bindNew_cases hb
    · exact h.varScope j a ha
    · exact h.varScope j b hb
  · obtain ⟨hj, a, ha, rfl⟩ | ⟨-, hb⟩ := scopeAt?_bindNew_cases hb
    · -- An entry is the new variable's, or it was there before.
      rcases Table.mem_put he with he | he
      · obtain ⟨rfl, rfl⟩ := Prod.mk.inj he
        exact ⟨var, by rw [variableAt?_bindNew, if_pos rfl], hi.trans hj, hk⟩
      · obtain ⟨w, hw, hws⟩ := h.table j a k v ha he
        exact ⟨w, hold v w hw, hws⟩
    · obtain ⟨w, hw, hws⟩ := h.table j b k v hb he
      exact ⟨w, hold v w hw, hws⟩
  · obtain ⟨-, a, ha, rfl⟩ | ⟨-, hb⟩ := scopeAt?_bindNew_cases hb
    · show ((a.table.put key s.vars.size).find? e.1).isSome = true
      rw [Table.find?_put]
      by_cases hk : key = e.1
      · rw [if_pos hk]; rfl
      · rw [if_neg hk]; exact h.implicit j a e ha he
    · exact h.implicit j b e hb he

/-- Changes of variables that keep scope and name keep a store sound. -/
theorem Sound.updateVariable (h : s.Sound) (v : VariableId) {f : Variable → Variable}
    (hf : ∀ a, (f a).scope = a.scope ∧ (f a).name = a.name) : (s.updateVariable v f).Sound := by
  refine h.of_frame (fun _ => rfl) (fun _ b hb => ⟨b, hb, rfl, fun _ => .inl⟩) ?_
  intro w a ha
  rw [variableAt?_updateVariable, ha]
  by_cases hw : v = w
  · exact ⟨f a, by simp [hw], hf a⟩
  · exact ⟨a, by simp [hw], rfl, rfl⟩

theorem Quiet.sound (h : Quiet A s t) (hs : s.Sound) : t.Sound := by
  cases h with
  | record entry =>
      exact hs.of_frame (fun _ => rfl) (fun _ b hb => ⟨b, hb, rfl, fun _ => .inl⟩)
        fun v a ha => ⟨a, ha, rfl, rfl⟩
  | addScope kind n strict hu => exact hs.addScope kind n strict fun u h => (hu u h).2
  | bindNew _ _ _ hi hk _ => exact hs.bindNew hi hk
  | addDefinition d _ _ _ => exact hs.updateVariable _ fun a => ⟨rfl, rfl⟩
  | reflag _ hf =>
      exact hs.updateScope _ (fun a => (hf a).frame) (fun a => (hf a).table)
        fun a _ e he => .inl ((hf a).implicit ▸ he)
  | @bindImplicit i a key v _ ha hf =>
      refine hs.updateScope _ (fun _ => rfl) (fun _ => rfl) ?_
      intro b hb e he
      obtain rfl : a = b := Option.some.inj (ha.symm.trans hb)
      rcases Table.mem_put he with rfl | he
      · exact .inr (by rw [hf]; rfl)
      · exact .inl he

theorem Change.sound (h : Change A s t) (hs : s.Sound) : t.Sound := by
  cases h with
  | quiet h => exact h.sound hs
  | @addReference i u _ =>
      have hpush : ({ s with references := s.references.push { u with scope := i } } :
          Store).Sound :=
        hs.of_frame (fun _ => rfl) (fun _ b hb => ⟨b, hb, rfl, fun _ => .inl⟩)
          fun _ a ha => ⟨a, ha, rfl, rfl⟩
      exact hpush.updateScope i (fun _ => rfl) (fun _ => rfl) fun _ _ _ => .inl
  | @link i a key v r origin _ _ _ =>
      have hnoted : (s.updateVariable v fun var =>
          { var with
            references := var.references ++ [r]
            stack := var.stack &&
              decide (s.variableScope? origin = s.variableScope? var.scope) }).Sound :=
        hs.updateVariable v fun _ => ⟨rfl, rfl⟩
      exact hnoted.of_frame (fun _ => rfl) (fun _ b hb => ⟨b, hb, rfl, fun _ => .inl⟩)
        fun _ a ha => ⟨a, ha, rfl, rfl⟩
  | receive r _ => exact hs.updateScope _ (fun _ => rfl) (fun _ => rfl) fun _ _ _ => .inl
  | pass r _ => exact hs.updateScope _ (fun _ => rfl) (fun _ => rfl) fun _ _ _ => .inl
  | shut _ => exact hs.updateScope _ (fun _ => rfl) (fun _ => rfl) fun _ _ _ => .inl

theorem Changes.sound (h : Changes A s t) (hs : s.Sound) : t.Sound := by
  induction h with
  | refl => exact hs
  | tail _ h ih => exact h.sound ih

/-! ### Every change only adds -/

theorem Quiet.evolves (h : Quiet A s t) (hs : s.Sound) : Evolves A s t := by
  cases h with
  | record entry =>
      exact ⟨rfl, fun _ a ha => ⟨a, ha, .refl a, .inr rfl⟩,
        fun _ a ha => ⟨a, ha, .refl a, .inr rfl⟩, fun _ a ha => ⟨a, ha, rfl, rfl⟩⟩
  | @addScope kind n upper strict hu =>
      refine ⟨options_addScope .., fun i a ha => ?_, fun v a ha => ⟨a, by simpa using ha, .refl a,
        .inr rfl⟩, fun r a ha => ⟨a, by simpa using ha, rfl, rfl⟩⟩
      rw [scopeAt?_addScope s kind n upper strict fun u h => (hu u h).2,
        if_neg (scopeAt?_lt ha).ne, ha]
      by_cases hi : upper = some i
      · exact ⟨a.adopt s.scopes.size, by simp [hi],
          ⟨rfl, fun _ _ _ h => h, List.Subset.refl _, id, id⟩, .inl (hu i hi).1⟩
      · exact ⟨a, by simp [hi], .refl a, .inr rfl⟩
  | @bindNew i a key var hA ha hf hi hk hr =>
      refine ⟨rfl, ?_, fun v b hb => ⟨b, ?_, .refl b, .inr rfl⟩, fun r b hb => ⟨b, hb, rfl, rfl⟩⟩
      · intro j b hb
        rw [scopeAt?_bindNew, hb]
        by_cases hj : i = j
        · subst hj
          rw [ha, Option.some.injEq] at hb
          subst hb
          refine ⟨a.bind key s.vars.size, by simp, ⟨rfl, fun k v hk' hv => ?_,
            List.Subset.refl _, id, id⟩, .inl hA⟩
          show (a.table.put key s.vars.size).find? k = some v
          rw [Table.find?_put, if_neg, hv]
          rintro rfl
          -- Only under `arguments` can an entry be replaced, and that name is excepted.
          rcases hf with hf | hf
          · rw [hf] at hv; cases hv
          · exact hk' hf
        · exact ⟨b, by simp [hj], .refl b, .inr rfl⟩
      · rw [variableAt?_bindNew, if_neg (variableAt?_lt hb).ne, hb]
  | @addDefinition i a key v d hA ha hf =>
      refine ⟨rfl, fun j b hb => ⟨b, hb, .refl b, .inr rfl⟩, fun w b hb => ?_,
        fun r b hb => ⟨b, hb, rfl, rfl⟩⟩
      rw [variableAt?_addDefinition, hb]
      by_cases hw : v = w
      · subst hw
        obtain ⟨var, hvar, hsc, -⟩ := hs.of_find? ha hf
        rw [hb, Option.some.injEq] at hvar
        subst hvar
        exact ⟨{ b with defs := b.defs ++ [d] }, by simp,
          ⟨rfl, rfl, List.subset_append_left _ _, List.Subset.refl _⟩, .inl (hsc ▸ hA)⟩
      · exact ⟨b, by simp [hw], .refl b, .inr rfl⟩
  | reflag hA hf =>
      refine evolves_updateScope hA ?_
      intro a
      have h := hf a
      refine ⟨h.frame, fun _ _ _ hk => ?_, ?_, h.dynamic, fun hc => ?_⟩
      · rw [h.table]; exact hk
      · rw [h.through]; exact List.Subset.refl _
      · rw [Scope.isClosed, h.pending]; exact hc
  | bindImplicit hA _ _ =>
      exact evolves_updateScope hA fun a => ⟨rfl, fun _ _ _ h => h, List.Subset.refl _, id,
        fun hc => hc⟩

theorem Change.evolves (h : Change A s t) (hs : s.Sound) : Evolves A s t := by
  cases h with
  | quiet h => exact h.evolves hs
  | @addReference i u hA =>
      refine ⟨rfl, ?_, fun v b hb => ⟨b, hb, .refl b, .inr rfl⟩, ?_⟩
      · intro j b hb
        rw [scopeAt?_addReference, hb]
        by_cases hj : i = j
        · subst hj
          refine ⟨b.take s.references.size, by simp, ⟨rfl, fun _ _ _ h => h, List.Subset.refl _,
            id, fun hc => ?_⟩, .inl hA⟩
          simpa [Scope.isClosed, Scope.take] using hc
        · exact ⟨b, by simp [hj], .refl b, .inr rfl⟩
      · intro r b hb
        exact ⟨b, by rw [referenceAt?_addReference, if_neg (referenceAt?_lt hb).ne, hb], rfl, rfl⟩
  | @link i a key v r origin hA ha hf =>
      refine ⟨rfl, fun j b hb => ⟨b, hb, .refl b, .inr rfl⟩, ?_, ?_⟩
      · intro w b hb
        rw [variableAt?_link, hb]
        by_cases hw : v = w
        · subst hw
          obtain ⟨var, hvar, hsc, -⟩ := hs.of_find? ha hf
          rw [hb, Option.some.injEq] at hvar
          subst hvar
          refine ⟨_, by rw [if_pos rfl, Option.map_some], ?_, .inl (hsc ▸ hA)⟩
          exact ⟨rfl, rfl, List.Subset.refl _, List.subset_append_left _ _⟩
        · exact ⟨b, by simp [hw], .refl b, .inr rfl⟩
      · intro q b hb
        rw [referenceAt?_link, hb]
        by_cases hq : r = q
        · exact ⟨{ b with resolved := some v }, by simp [hq], rfl, rfl⟩
        · exact ⟨b, by simp [hq], rfl, rfl⟩
  | receive r hA =>
      exact evolves_updateScope hA fun a => ⟨rfl, fun _ _ _ h => h, List.Subset.refl _, id,
        fun hc => by simpa [Scope.isClosed, Scope.receive] using hc⟩
  | pass r hA =>
      exact evolves_updateScope hA fun a => ⟨rfl, fun _ _ _ h => h,
        List.subset_append_left _ _, id, id⟩
  | shut hA =>
      exact evolves_updateScope hA fun a => ⟨rfl, fun _ _ _ h => h, List.Subset.refl _, id,
        fun _ => rfl⟩

theorem Changes.evolves (h : Changes A s t) (hs : s.Sound) : Evolves A s t := by
  induction h with
  | refl => exact .refl s
  | tail hst h ih => exact ih.trans (h.evolves (Changes.sound hst hs))

/-! ### What stays for good -/

section

variable {i : ScopeId} {b : Scope}

/-- A scope of a number that was there before is that scope later on. -/
theorem Evolves.scope_of_lt (h : Evolves A s t) (hi : i < s.scopes.size)
    (hb : t.scopeAt? i = some b) : ∃ a, s.scopeAt? i = some a ∧ a.Evolves b := by
  obtain ⟨a, ha⟩ := scopeAt?_of_lt hi
  obtain ⟨b', hb', hab, -⟩ := h.scope i a ha
  exact ⟨a, ha, Option.some.inj (hb.symm.trans hb') ▸ hab⟩

theorem Evolves.lt (h : Evolves A s t) (hi : i < s.scopes.size) : i < t.scopes.size := by
  obtain ⟨a, ha⟩ := scopeAt?_of_lt hi
  obtain ⟨b, hb, -⟩ := h.scope i a ha
  exact scopeAt?_lt hb

/-- The scope above a scope never changes. -/
theorem Evolves.upperOf (h : Evolves A s t) (hi : i < s.scopes.size) :
    t.upperOf i = s.upperOf i := by
  obtain ⟨a, ha⟩ := scopeAt?_of_lt hi
  obtain ⟨b, hb, hab, -⟩ := h.scope i a ha
  rw [upperOf_eq hb, upperOf_eq ha, Scope.upper_of_frame hab.frame]

/-- The way up from a scope never changes. -/
theorem Evolves.chain (h : Evolves A s t) (hs : s.Sound) (ht : t.Sound)
    (hi : i < s.scopes.size) : t.chain i = s.chain i :=
  chain_congr hs.rooted ht.rooted fun _ hj =>
    h.upperOf ((le_of_mem_chain hs.rooted hj).trans_lt hi)

/-- The scope for the `var` declarations of a scope never changes. -/
theorem variableScope?_evolves (h : Evolves A s t) (hi : i < s.scopes.size) :
    t.variableScope? i = s.variableScope? i := by
  obtain ⟨a, ha⟩ := scopeAt?_of_lt hi
  obtain ⟨b, hb, hab, -⟩ := h.scope i a ha
  rw [variableScope?, variableScope?, ha, hb, Option.map_some, Option.map_some,
    Scope.variableScope_of_frame hab.frame]

/-- Nor does that of the scope above, if there is one. -/
theorem bind_variableScope?_evolves (h : Evolves A s t) {upper : Option ScopeId}
    (hu : ∀ u, upper = some u → u < s.scopes.size) :
    upper.bind t.variableScope? = upper.bind s.variableScope? := by
  cases upper with
  | none => rfl
  | some u => exact variableScope?_evolves h (hu u rfl)

/-- A scope that can hold `var` declarations holds its own; any other leaves them to the scope that
holds those of the scope above it, if there is one. -/
def Hoists (s : Store) : Prop :=
  ∀ i a, s.scopeAt? i = some a →
    a.variableScope = if a.kind.holdsVars then i else (a.upper.bind s.variableScope?).getD i

/-- A scope that was there leaves its `var` declarations to what it left them to. -/
theorem Hoists.old (h : s.Hoists) (hE : Evolves A s t) (hs : s.Sound) (hi : i < s.scopes.size)
    (hb : t.scopeAt? i = some b) :
    b.variableScope = if b.kind.holdsVars then i else (b.upper.bind t.variableScope?).getD i := by
  obtain ⟨a, ha, hab⟩ := hE.scope_of_lt hi hb
  have hlt : ∀ u, a.upper = some u → u < s.scopes.size := fun u hu =>
    (hs.rooted i u ((upperOf_eq ha).trans hu)).trans hi
  rw [Scope.variableScope_of_frame hab.frame, Scope.kind_of_frame hab.frame,
    Scope.upper_of_frame hab.frame, bind_variableScope?_evolves hE hlt, h i a ha]

/-- A new scope is opened so. -/
theorem hoists_of_fresh {kind : ScopeKind} {n : Node} {upper : Option ScopeId} {strict : Bool}
    (hE : Evolves A s t) (hu : ∀ u, upper = some u → u < s.scopes.size)
    (hf : b.frame = (s.freshScope kind n upper strict).frame) :
    b.variableScope = if b.kind.holdsVars then s.scopes.size else
      (b.upper.bind t.variableScope?).getD s.scopes.size := by
  rw [Scope.variableScope_of_frame hf, Scope.kind_of_frame hf, Scope.upper_of_frame hf]
  show (if kind.holdsVars then _ else (upper.bind s.variableScope?).getD _) =
    if kind.holdsVars then _ else (upper.bind _).getD _
  rw [bind_variableScope?_evolves hE hu]

end

end Store

end LexScope
