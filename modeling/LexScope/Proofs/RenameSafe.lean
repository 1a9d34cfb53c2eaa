import LexScope.Proofs.RenameAction
import LexScope.Proofs.Named

/-!
# Proofs — RenameSafe — a name that is not in use can be given to a variable

The *identifiers* of a variable are those of its definitions and those of its references
(`Store.identifiersOf`).  The variable can be *renamed* when nothing else is named by one of them
and the new name is used neither in its scope nor in a scope on the way from one of its references
to that scope (`Store.Renameable`).

* `Step.rename`: each step of the walk over a program is followed, in the renamed store, by the walk
  over the renamed program.
* `analyze_rename`: **the analysis of the renamed program is the renamed analysis**: the same
  scopes, definitions, references and implicit globals, and each reference resolved to what it was.
-/

namespace LexScope

open Store LexScope.Action

/-! ### Walks -/

/-- An operation with its nodes renamed. -/
def Operation.rename (ρ : Renaming) : Operation → Operation
  | .nest n upper isMethod => .nest (n.rename ρ) upper isMethod
  | .enter kind n upper => .enter kind (n.rename ρ) upper
  | .define i n d => .define i (n.rename ρ) (d.rename ρ)
  | .refer i u => .refer i (u.rename ρ)
  | .visit n current => .visit (n.rename ρ) current
  | op => op

namespace Walk

/-- The events still to happen in a scope, renamed. -/
def Frame.rename (ρ : Renaming) (f : Frame) : Frame := ⟨f.scope, renameAll ρ f.todo⟩

/-- A moment of the walk over the renamed program. -/
def Moment.rename (ρ : Renaming) (m : Moment) : Moment :=
  ⟨m.frames.map (Frame.rename ρ), m.store.rename ρ⟩

variable {ρ : Renaming} {F : Store} {m m' : Moment} {op : Option Operation}

theorem Event.operation?_rename (s : Store) (c : ScopeId) (e : Event) :
    (e.rename ρ).operation? (s.rename ρ) c = (e.operation? s c).map (Operation.rename ρ) := by
  cases e with
  | define target n d =>
      have htarget : target.scope? (s.rename ρ) c = target.scope? s c := by
        cases target with
        | here => rfl
        | hoisted => exact variableScope?_rename ρ s c
      rw [Event.rename, operation?, operation?, htarget, Option.map_map]
      rfl
  | refer u =>
      rw [Event.rename, operation?, operation?, scopeAt?_rename, Option.map_map, Option.map_map]
      refine congrArg (Option.map · _) (funext fun a => ?_)
      cases ha : a.strict <;> simp [Scope.rename, Operation.rename, Use.rename, ha]
  | callEval =>
      simp only [Event.rename, operation?, variableScope?_rename, Option.map_map]
      rfl
  | useThis =>
      simp only [Event.rename, operation?, variableScope?_rename, Option.map_map]
      rfl
  | _ => rfl

/-- An operation of a walk that comes to a store comes to the renamed store in the renamed one. -/
theorem applyTo_rename {s t : Store} {c : ScopeId} {e : Event} {owner : Option Path}
    {op : Operation} {out : Outcome} (h : ρ.Safe F) (hs : s.Sound) (hE : t.Becomes F)
    (he : e.operation? s c = some op) (htidy : e.Tidy owner) (hop : op.applyTo s = (.ok out, t)) :
    (op.rename ρ).applyTo (s.rename ρ) = (.ok out, t.rename ρ) := by
  cases Event.does he hop with
  | define _ hd => exact bind_pure_ok_iff.2 ⟨_, rfl, h.define hs hE htidy hd⟩
  | refer _ hr => exact bind_pure_ok_iff.2 ⟨_, rfl, Renaming.Safe.refer hr⟩
  | callEval _ ha =>
      exact bind_pure_ok_iff.2 ⟨(), rfl, Renaming.Safe.noteEval (noteEval_ok_iff.2 ⟨⟨_, ha⟩, rfl⟩)⟩
  | useThis _ ha =>
      exact bind_pure_ok_iff.2 ⟨(), rfl, Renaming.Safe.noteThis (noteThis_ok_iff.2 ⟨⟨_, ha⟩, rfl⟩)⟩

/-- **Each step of a walk, renamed, is a step of the walk over the renamed program.** -/
theorem Step.rename (h : ρ.Safe F) (hg : m.Good) (hE : m'.store.Becomes F) (hs : Step m op m') :
    Step (m.rename ρ) (op.map (Operation.rename ρ)) (m'.rename ρ) := by
  have hsound := hg.disciplined.sound
  cases hs with
  | @act c e todo rest s t op out he hop =>
      have htidy := (hg.tidy _ List.mem_cons_self).1
      have he' := Event.operation?_rename (ρ := ρ) s c e
      rw [he] at he'
      exact .act he' (applyTo_rename h hsound hE he htidy hop)
  | enter he =>
      have hent := h.enter hsound hE (Operation.applyTo_enter_ok.1 he)
      exact .enter (Operation.applyTo_enter_ok.2 hent)
  | leave hc =>
      obtain ⟨up, rfl, hclose⟩ := Operation.applyTo_close_ok.1 hc
      exact .leave (Operation.applyTo_close_ok.2 ⟨up, rfl, h.close hsound hE hclose⟩)
  | needScope => exact .needScope
  | phase => exact .phase
  | @keep c n todo rest s hk =>
      refine .keep ?_
      intro i hi
      obtain ⟨a, ha, hsame⟩ := hk i hi
      refine ⟨a.rename ρ i, ?_, (a.block.same_rename ρ n).trans hsame⟩
      show (s.rename ρ).scopeAt? i = _
      rw [scopeAt?_rename, ha]
      rfl

theorem Steps.rename {ops : List Operation} (h : ρ.Safe F) (hg : m.Good)
    (hE : m'.store.Becomes F) (hs : Steps m ops m') :
    Steps (m.rename ρ) (ops.map (Operation.rename ρ)) (m'.rename ρ) := by
  induction hs with
  | refl m => exact .refl _
  | @more m m₁ m' op ops hs hrest ih =>
      have hg₁ := hg.step hs
      -- Safety is known of the end, so each step needs that the walk goes on to it.
      have hE₁ : m₁.store.Becomes F :=
        ((hg₁.evolves hrest).mono fun _ _ => trivial).trans hE
      have hmore := Steps.more (hs.rename h hg hE₁) (ih hg₁ hE)
      cases op with
      | none => exact hmore
      | some op => exact hmore

theorem Moment.start_rename (ho : ρ.old ≠ "eval") (hn : ρ.new ≠ "eval") (o : Options)
    (tree : Tree) : Moment.start o (tree.rename ρ []) = (Moment.start o tree).rename ρ := by
  have hplan : plan (.ofOptions o) (.root (tree.rename ρ [])) =
      renameAll ρ (plan (.ofOptions o) (.root tree)) := plan_rename ho hn _ (.root tree)
  have htype : (tree.rename ρ []).get "type" = tree.get "type" :=
    Tree.get_rename_metadata ρ [] (by decide) tree
  have hnew : (Store.new o).rename ρ = Store.new o := by simp [Store.rename, Store.new]
  simp only [Moment.start, hplan, htype, Moment.rename, List.map_cons, List.map_nil,
    Frame.rename, rename_record, hnew]

/-- The analysis of a renamed program, for a safe renaming. -/
theorem analyze_of_safe {o : Options} {tree : Tree} {ops : List Operation}
    (ho : ρ.old ≠ "eval") (hn : ρ.new ≠ "eval") (h : ρ.Safe F)
    (hs : Steps (.start o tree) ops m) (hover : m.Over) (hE : m.store.Becomes F)
    (hobj : tree.isObj = true) : analyze o (tree.rename ρ []) =
      .ok ((m.store.record (.analyzed m.store.scopes.size)).rename ρ) := by
  have hsteps := hs.rename h (Moment.start_good o tree) hE
  rw [← Moment.start_rename ho hn] at hsteps
  have hover' : (m.rename ρ).frames = [⟨none, []⟩] := by
    rw [Moment.rename, hover]
    rfl
  rw [analyze_eq (by rw [Tree.isObj_rename, hobj]), hsteps.resume, hover']
  have hsize : (m.rename ρ).store.scopes.size = m.store.scopes.size := size_scopes_rename ρ m.store
  show Except.ok ((m.store.rename ρ).record (.analyzed (m.rename ρ).store.scopes.size)) = _
  rw [hsize, rename_record]

end Walk

/-! ### Variables that can be renamed -/

namespace Store

/-- The identifiers of a variable: those of its definitions and those of its references. -/
def identifiersOf (s : Store) (v : VariableId) : List Node :=
  ((s.variableAt? v).map (·.identifiers)).getD [] ++
    (s.linksOf v).filterMap fun r => (s.referenceAt? r).map (·.identifier)

/-- The renaming of exactly the identifiers of a variable of a scope. -/
def renamingOf (s : Store) (i : ScopeId) (v : VariableId) (old new : String) : Renaming :=
  ⟨v, i, old, new, (s.identifiersOf v).map (·.path)⟩

/-- A variable of a scope that can get a new name. -/
structure Renameable (s : Store) (i : ScopeId) (v : VariableId) (old new : String) : Prop where
  bound : ∃ a ∈ s.scopeAt? i, a.table.find? (.text old) = some v
  oldName : old ≠ "eval" ∧ old ≠ argumentsName
  newName : new ≠ "eval" ∧ new ≠ argumentsName
  /-- The new name is not used in the scope. -/
  unused : ∀ a ∈ s.scopeAt? i, s.isUsedName? a (.str new) = some false
  /-- Nor is it on the way from a reference of the variable to the scope. -/
  way : ∀ r ∈ s.linksOf v, ∀ ref ∈ s.referenceAt? r, ∀ j ∈ s.chain ref.scope, i ∈ s.chain j →
    ∀ a ∈ s.scopeAt? j, s.isUsedName? a (.str new) = some false
  /-- No other variable is defined by one of the identifiers. -/
  defs : ∀ n ∈ s.identifiersOf v, ∀ w < s.vars.size, w ≠ v → ∀ var ∈ s.variableAt? w,
    ∀ d ∈ var.defs, d.name.path ≠ n.path
  /-- And nothing else is referred to by one. -/
  uses : ∀ n ∈ s.identifiersOf v, ∀ r < s.references.size, ∀ ref ∈ s.referenceAt? r,
    ref.resolved ≠ some v → ref.identifier.path ≠ n.path

instance (s : Store) (i : ScopeId) (v : VariableId) (old new : String) :
    Decidable (s.Renameable i v old new) :=
  decidable_of_iff
    ((∃ a ∈ s.scopeAt? i, a.table.find? (.text old) = some v) ∧
      (old ≠ "eval" ∧ old ≠ argumentsName) ∧ (new ≠ "eval" ∧ new ≠ argumentsName) ∧
      (∀ a ∈ s.scopeAt? i, s.isUsedName? a (.str new) = some false) ∧
      (∀ r ∈ s.linksOf v, ∀ ref ∈ s.referenceAt? r, ∀ j ∈ s.chain ref.scope, i ∈ s.chain j →
        ∀ a ∈ s.scopeAt? j, s.isUsedName? a (.str new) = some false) ∧
      (∀ n ∈ s.identifiersOf v, ∀ w < s.vars.size, w ≠ v → ∀ var ∈ s.variableAt? w,
        ∀ d ∈ var.defs, d.name.path ≠ n.path) ∧
      ∀ n ∈ s.identifiersOf v, ∀ r < s.references.size, ∀ ref ∈ s.referenceAt? r,
        ref.resolved ≠ some v → ref.identifier.path ≠ n.path)
    ⟨fun ⟨hb, ho, hn, hu, hw, hd, hr⟩ => ⟨hb, ho, hn, hu, hw, hd, hr⟩,
      fun ⟨hb, ho, hn, hu, hw, hd, hr⟩ => ⟨hb, ho, hn, hu, hw, hd, hr⟩⟩

variable {s : Store} {i : ScopeId} {v : VariableId} {old new : String}

/-- A name that is not used in a scope is not bound there and leaves it with no reference. -/
theorem isUsedName?_eq_false {a : Scope} {name : String}
    (h : s.isUsedName? a (.str name) = some false) :
    a.table.find? (.text name) = none ∧ ∀ r ref, r ∈ a.through → s.referenceAt? r = some ref →
      Name.ofTree? ref.name ≠ some (.text name) := by
  have hkey : Name.ofTree? (.str name) = some (.text name) := rfl
  simp only [isUsedName?, hkey, Option.map_some, Option.some.injEq, Bool.or_eq_false_iff,
    Option.isSome_eq_false_iff, Option.isNone_iff_eq_none] at h
  refine ⟨h.1, fun r ref hr href hname => ?_⟩
  have hnot := List.any_eq_false.1 h.2 r hr
  rw [href] at hnot
  exact hnot (by simpa using hname)

theorem mem_identifiersOf_def {var : Variable} {d : Definition} (hv : s.variableAt? v = some var)
    (hd : d ∈ var.defs) : d.name ∈ s.identifiersOf v := by
  rw [identifiersOf, hv]
  exact List.mem_append_left _ (List.mem_map_of_mem hd)

theorem mem_identifiersOf_ref {r : ReferenceId} {ref : Reference} (hr : r ∈ s.linksOf v)
    (href : s.referenceAt? r = some ref) : ref.identifier ∈ s.identifiersOf v := by
  refine List.mem_append_right _ (List.mem_filterMap.2 ⟨r, hr, ?_⟩)
  rw [href]
  rfl

theorem mem_identifiersOf {n : Node} (h : n ∈ s.identifiersOf v) :
    (∃ var d, s.variableAt? v = some var ∧ d ∈ var.defs ∧ d.name = n) ∨
      ∃ r ref, r ∈ s.linksOf v ∧ s.referenceAt? r = some ref ∧ ref.identifier = n := by
  rcases List.mem_append.1 h with hd | hr
  · cases hv : s.variableAt? v with
    | none => rw [hv] at hd; cases hd
    | some var =>
        rw [hv] at hd
        obtain ⟨d, hmem, rfl⟩ := List.mem_map.1 hd
        exact .inl ⟨var, d, rfl, hmem, rfl⟩
  · obtain ⟨r, hlink, hn⟩ := List.mem_filterMap.1 hr
    obtain ⟨ref, href, rfl⟩ := Option.map_eq_some_iff.1 hn
    exact .inr ⟨r, ref, hlink, href, rfl⟩

variable {P : ScopeId → List ReferenceId} {D : ScopeId → Prop} {r : ReferenceId} {ref : Reference}

/-- A reference that left a scope did so on its way to the scope of its variable. -/
theorem Books.mem_chain_of_through (h : s.Books P D) (href : s.referenceAt? r = some ref)
    {var : Variable} (hres : ref.resolved = some v) (hvar : s.variableAt? v = some var)
    {j : ScopeId} (hr : r ∈ s.throughAt j) : j ∈ s.chain ref.scope ∧ var.scope ∈ s.chain j := by
  have hw := h.account_of_resolved href hres
  have hahead : s.ahead (.resolved v) = s.chain var.scope := by
    simp only [ahead, hvar, Option.elim_some]
  have hcount := hw.count_throughAt h.sound j
  rw [hahead] at hcount
  obtain ⟨hj, hnot⟩ : j ∈ s.chain ref.scope ∧ j ∉ s.chain var.scope := by
    by_contra hno
    rw [if_neg hno] at hcount
    exact List.count_eq_zero.1 hcount hr
  have hscope : var.scope ∈ s.chain ref.scope := by
    obtain ⟨behind, hb, -⟩ := hw.way
    rw [hb, hahead]
    exact List.mem_append_right _ (self_mem_chain s var.scope)
  -- Both are on one chain, and the scope that was left is not above the other.
  refine ⟨hj, mem_chain_of_le h.sound.rooted hj hscope ?_⟩
  by_contra hlt
  exact hnot (mem_chain_of_le h.sound.rooted hscope hj (Nat.le_of_not_le hlt))

/-- **A variable that can be renamed is renamed safely.** -/
theorem Renameable.safe (h : s.Renameable i v old new) (hb : s.Books P D) :
    (s.renamingOf i v old new).Safe s := by
  obtain ⟨a, ha, hf⟩ := h.bound
  obtain ⟨hnew, hthrough⟩ := isUsedName?_eq_false (h.unused a ha)
  obtain ⟨var, hvar, hscope, -⟩ := hb.sound.of_find? ha hf
  refine ⟨hb.sound, h.oldName.2, h.newName.2, ⟨a, ha, hf, hnew⟩, ?_, ?_,
    fun w r ref hr href => (hb.mem_linksOf_iff href).1 hr, ?_, ?_⟩
  · intro w b d hw hd
    constructor
    · intro hp
      obtain ⟨n, hn, hpath⟩ := List.mem_map.1 hp
      by_contra hne
      exact h.defs n hn w (variableAt?_lt hw) hne b hw d hd hpath.symm
    · rintro rfl
      exact List.mem_map_of_mem (mem_identifiersOf_def hw hd)
  · intro r ref href
    constructor
    · intro hp
      obtain ⟨n, hn, hpath⟩ := List.mem_map.1 hp
      by_contra hne
      exact h.uses n hn r (referenceAt?_lt href) ref href hne hpath.symm
    · intro hres
      exact List.mem_map_of_mem (mem_identifiersOf_ref ((hb.mem_linksOf_iff href).2 hres) href)
  · intro r ref hr href
    exact hthrough r ref (throughAt_eq ha ▸ hr) href
  · intro r ref j b href hres hr hj
    obtain ⟨hchain, hup⟩ := hb.mem_chain_of_through href hres hvar hr
    have hlink := (hb.mem_linksOf_iff href).2 hres
    exact (isUsedName?_eq_false (h.way r hlink ref href j hchain (hscope ▸ hup) b hj)).1

/-- All identifiers of a variable have its name, and get the new one. -/
theorem Renameable.name (h : s.Renameable i v old new) (hb : s.Books P D) (hn : s.Named)
    {n : Node} (hmem : n ∈ s.identifiersOf v) : n.value.get "name" = .str old ∧
      (n.rename (s.renamingOf i v old new)).value.get "name" = .str new := by
  obtain ⟨a, ha, hf⟩ := h.bound
  obtain ⟨var, hvar, -, hname⟩ := hb.sound.of_find? ha hf
  have hkey : Name.ofTree? (n.value.get "name") = some (.text old) := by
    obtain ⟨var', d, hvar', hd, rfl⟩ | ⟨r, ref, hr, href, rfl⟩ := mem_identifiersOf hmem
    · obtain rfl : var = var' := Option.some.inj (hvar.symm.trans hvar')
      exact (hn v var d hvar hd).trans hname
    · have hw := hb.account_of_resolved href ((hb.mem_linksOf_iff href).1 hr)
      obtain ⟨var', hvar', -, key, hk, hkr⟩ := hw.bound v rfl
      obtain rfl : var = var' := Option.some.inj (hvar.symm.trans hvar')
      exact hkr.trans (hk.symm.trans hname)
  have hold := Name.ofTree?_eq_text.1 hkey
  have hrenamed : n.IsRenamed (s.renamingOf i v old new) := ⟨List.mem_map_of_mem hmem, hold⟩
  refine ⟨hold, ?_⟩
  rw [n.name_rename _ hkey, if_pos hrenamed]
  rfl

end Store

namespace Walk

/-- **Renaming a variable is safe.**  If the new name is used neither in the scope of a variable nor
on the way from its references to it, and its identifiers name nothing else, then the program with
exactly these identifiers renamed is analyzed as before, up to the renaming: with the same scopes
and flags, the same definitions, the same lists of references, and each reference resolved to the
same variable. -/
theorem analyze_rename {o : Options} {tree : Tree} {s : Store} {i : ScopeId} {v : VariableId}
    {old new : String} (h : analyze o tree = .ok s) (hr : s.Renameable i v old new) :
    analyze o (tree.rename (s.renamingOf i v old new) []) =
        .ok (s.rename (s.renamingOf i v old new)) ∧
      ∀ n ∈ s.identifiersOf v, n.value.get "name" = .str old ∧
        (n.rename (s.renamingOf i v old new)).value.get "name" = .str new := by
  have hobj : tree.isObj = true := by
    by_contra ho
    rw [analyze, analysis, Bool.eq_false_of_not_eq_true ho] at h
    cases h
  obtain ⟨ops, m, hs, hover, hg, rfl⟩ := analyze_ok h
  have hbooks := (Disciplined.record hg.disciplined (.analyzed m.store.scopes.size)).books
  have hstart : (Moment.start o tree).store.Named := by
    intro w var d hw _
    rw [show (Moment.start o tree).store.variableAt? w = none from rfl] at hw
    cases hw
  have hnamed : (m.store.record (.analyzed m.store.scopes.size)).Named :=
    ((Moment.start_good o tree).named hstart hs).of_vars fun _ => rfl
  have hE : m.store.Becomes (m.store.record (.analyzed m.store.scopes.size)) :=
    Changes.evolves (.single (.quiet (.record _))) hg.disciplined.sound
  exact ⟨analyze_of_safe hr.oldName.1 hr.newName.1 (hr.safe hbooks) hs hover hE hobj,
    fun n hn => hr.name hbooks hnamed hn⟩

/-- The variable of the sample can be called `y`. -/
theorem analyze_rename_sample : ∃ s, analyze {} sampleProgram = .ok s ∧
    s.Renameable 0 0 "x" "y" ∧ (s.renamingOf 0 0 "x" "y").places.length = 2 ∧
    analyze {} (sampleProgram.rename (s.renamingOf 0 0 "x" "y") []) =
      .ok (s.rename (s.renamingOf 0 0 "x" "y")) := by
  have hsample : (analyze {} sampleProgram).toOption.any (fun s =>
      decide (s.Renameable 0 0 "x" "y" ∧ (s.renamingOf 0 0 "x" "y").places.length = 2)) = true := by
    decide +kernel
  cases hs : analyze {} sampleProgram with
  | error e => rw [hs] at hsample; cases hsample
  | ok s =>
      rw [hs] at hsample
      obtain ⟨hr, hlen⟩ : s.Renameable 0 0 "x" "y" ∧
          (s.renamingOf 0 0 "x" "y").places.length = 2 := of_decide_eq_true hsample
      exact ⟨s, rfl, hr, hlen, (analyze_rename hs hr).1⟩

end Walk

end LexScope
