import LexScope.Proofs.Legacy

/-!
# Proofs — Editions — legacy programs mean the same in every edition

From the sixth edition on, blocks and `switch` statements have scopes.  In a legacy program no name
is bound there, so these scopes can be merged into the ones around them, and what is left is what an
analysis before the sixth edition returns (`Store.Contraction`).

* `Contraction.resolved`: what a contraction says of a single reference.
* `analyze_editions`: **a legacy program is analyzed alike under every version**, but for the scopes
  of blocks.
-/

namespace LexScope

open Walk Store

namespace Store

variable {φ : ScopeId → ScopeId} {s t : Store} {i j k : ScopeId} {a b : Scope}
  {line : List ScopeId} {P : ScopeId → List ReferenceId} {r : ReferenceId} {ref : Reference}
  {v : VariableId}

/-- A store is another one without the scopes of blocks.  Variables and references have the same
numbers in both; scopes have other numbers, and a map says which. -/
structure Contraction (φ : ScopeId → ScopeId) (s t : Store) : Prop where
  /-- The one has no scopes of blocks. -/
  blockless : ∀ i b, s.scopeAt? i = some b → b.kind.isBlock = false
  /-- Those of the other bind nothing, and go where the scopes around them go. -/
  block : ∀ j a, t.scopeAt? j = some a → a.kind.isBlock = true →
    a.table = [] ∧ ∃ u, a.upper = some u ∧ φ j = φ u
  /-- All other scopes are there in both: of one kind and node, below scopes that correspond, as
  strict, with one scope for `var` declarations and with the same content. -/
  outer : ∀ j a, t.scopeAt? j = some a → a.kind.isBlock = false →
    ∃ b, s.scopeAt? (φ j) = some b ∧ b.frame = a.frameUnder φ ∧ b.content = a.content
  /-- They correspond one to one and have the same order. -/
  mono : ∀ j k, t.IsOuter j → t.IsOuter k → j < k → φ j < φ k
  onto : ∀ i, i < s.scopes.size → ∃ j, t.IsOuter j ∧ φ j = i
  /-- Below a scope are those that were below it or below scopes of blocks merged into it. -/
  children : ∀ j k, t.IsOuter j → t.IsOuter k →
    (φ k ∈ s.childrenAt (φ j) ↔ ∃ i, φ i = φ j ∧ k ∈ t.childrenAt i)
  ordered : ∀ i, (s.childrenAt i).Pairwise (· < ·) ∧ (t.childrenAt i).Pairwise (· < ·)
  /-- Variables belong to scopes that correspond, and have the same definitions, references and
  flag. -/
  home : ∀ v x, t.variableAt? v = some x → t.IsOuter x.scope
  vars : ∀ v, s.variableAt? v = (t.variableAt? v).map (·.under φ)
  /-- References are the same uses, made in corresponding scopes, and resolved to the same
  variables. -/
  refs : ∀ r, s.referenceAt? r = (t.referenceAt? r).map (·.under φ)
  global : s.global = t.global.map φ

/-! ### Scopes below others -/

theorem Adopted.mem_iff (h : s.Adopted) (hj : j < s.scopes.size) :
    j ∈ s.childrenAt i ↔ s.upperOf j = some i := by
  rw [h i, List.mem_filter, List.mem_range, decide_eq_true_eq]
  exact and_iff_right hj

theorem Adopted.lt (h : s.Adopted) (hj : j ∈ s.childrenAt i) : j < s.scopes.size := by
  rw [h i, List.mem_filter, List.mem_range] at hj
  exact hj.1

theorem Adopted.pairwise (h : s.Adopted) (i : ScopeId) : (s.childrenAt i).Pairwise (· < ·) := by
  rw [h i]
  exact List.pairwise_lt_range.filter _

/-- **Where all is settled, a contracted store is a contraction.** -/
theorem Contracted.contraction (h : Contracted φ line P s t) (hs : s.Adopted) (ht : t.Adopted) :
    Contraction φ s t where
  blockless i b hb := by
    obtain ⟨j, ⟨a, ha, hk⟩, rfl⟩ := h.onto i (scopeAt?_lt hb)
    obtain ⟨b', hb', hf⟩ := h.outer j a ha hk
    obtain rfl := Option.some.inj (hb.symm.trans hb')
    rw [(Layout.frame_eq hf).1, hk]
  block j a ha hk := by
    obtain ⟨u, b, hu, -, hφ, -⟩ := h.block j a ha hk
    exact ⟨(h.blank j a ha hk).1, u, hu, hφ⟩
  outer j a ha hk := h.scopeAt? ha hk
  mono := h.mono
  onto := h.onto
  children j k hj hk := by
    obtain ⟨a, ha, hblock⟩ := hk
    obtain ⟨b, hb, hf⟩ := h.outer k a ha hblock
    have hlt := scopeAt?_lt ha
    rw [hs.mem_iff (scopeAt?_lt hb), upperOf_eq hb, (Layout.frame_eq hf).2.2.1,
      Option.map_eq_some_iff]
    constructor
    · rintro ⟨u, hu, hφ⟩
      exact ⟨u, hφ, (ht.mem_iff hlt).2 ((upperOf_eq ha).trans hu)⟩
    · rintro ⟨u, hφ, hu⟩
      exact ⟨u, (upperOf_eq ha).symm.trans ((ht.mem_iff hlt).1 hu), hφ⟩
  ordered i := ⟨hs.pairwise i, ht.pairwise i⟩
  home := h.isOuter_variable
  vars := h.vars
  refs := h.refs
  global := h.global

/-! ### Single references -/

/-- **A reference resolves in both stores to the variable of one name in the scope of one kind and
node, or in neither.** -/
theorem Contraction.resolved (h : Contraction φ s t) (hr : t.referenceAt? r = some ref) :
    ∃ ref', s.referenceAt? r = some ref' ∧ ref'.toUse = ref.toUse ∧ ref'.resolved = ref.resolved ∧
      ∀ v x, ref.resolved = some v → t.variableAt? v = some x →
        ∃ x' a b, s.variableAt? v = some x' ∧ x'.name = x.name ∧ t.scopeAt? x.scope = some a ∧
          s.scopeAt? x'.scope = some b ∧ b.kind = a.kind ∧ b.block = a.block := by
  refine ⟨ref.under φ, ?_, rfl, rfl, fun v x _ hx => ?_⟩
  · rw [h.refs, hr]
    rfl
  · obtain ⟨a, ha, hk⟩ := h.home v x hx
    obtain ⟨b, hb, hf, -⟩ := h.outer _ a ha hk
    obtain ⟨hkind, hnode, -⟩ := Layout.frame_eq hf
    refine ⟨x.under φ, a, b, ?_, rfl, ha, hb, hkind, hnode⟩
    rw [h.vars, hx]
    rfl

/-- Where nothing has been opened, nothing has to be contracted. -/
theorem contracted_new (φ : ScopeId → ScopeId) (o : Options) (w : Int) :
    Contracted φ [] P (.new { o with ecmaVersion := w }) (.new o) where
  options := ⟨w, rfl⟩
  rooted _ _ h := by cases h
  rooted_contracted _ _ h := by cases h
  outer _ _ h := by cases h
  block _ _ h := by cases h
  mono _ _ h := by
    obtain ⟨_, ha, _⟩ := h
    cases ha
  onto _ h := absurd h (Nat.not_lt_zero _)
  held _ _ h := by cases h
  implied _ _ _ h := by cases h
  global := rfl
  isOuter_global _ h := by cases h
  content _ h := by
    obtain ⟨_, ha, _⟩ := h
    cases ha
  blank _ _ h := by cases h
  pending _ := rfl
  vars _ := rfl
  refs _ := rfl
  isOuter_variable _ _ h := by cases h
  lt_reference _ _ h := by cases h

end Store

/-! ### Whole analyses -/

namespace Walk

variable {o : Options} {tree : Tree} {s : Store}

theorem kept_adopted : Kept Store.Adopted where
  record _ hI := hI
  operation hI := hI.apply

/-- An analysis that returns has run all events of the plan. -/
theorem analyze_ok_iff (ht : tree.isObj = true) : analyze o tree = .ok s ↔
    ∃ t, (runAll (plan (.ofOptions o) (.root tree)) none).outcome (Moment.start o tree).store =
      (.ok (), t) ∧ s = t.record (.analyzed t.scopes.size) := by
  have hresume : resume (Moment.start o tree).frames =
    runAll (plan (.ofOptions o) (.root tree)) none := rfl
  rw [analyze_eq ht, hresume]
  rcases (runAll (plan (.ofOptions o) (.root tree)) none).outcome (Moment.start o tree).store with
    ⟨e | u, t⟩
  · constructor
    · intro h
      cases h
    · rintro ⟨t, h, -⟩
      cases h
  · constructor
    · intro h
      exact ⟨t, rfl, (Except.ok.inj h).symm⟩
    · rintro ⟨t', h, rfl⟩
      cases h
      rfl

/-- At the start of two analyses, one walk is beside the other. -/
theorem beside_start (φ : ScopeId → ScopeId) (o : Options) (v : Int) (tree : Tree) :
    Beside φ none (Moment.start { o with ecmaVersion := v } tree).store
      (Moment.start o tree).store where
  contracted := ((contracted_new φ o v).record_left _).record_right _
  disciplined := (Moment.start_good o tree).disciplined
  disciplined_contracted := (Moment.start_good { o with ecmaVersion := v } tree).disciplined

/-- The gates of a script before the sixth edition are those after it, without blocks. -/
theorem trim_ofOptions (hs : o.sourceType = .script) {v w : Int} (hv : v < 6) (hw : 6 ≤ w) :
    (Gates.ofOptions { o with ecmaVersion := w }).trim .bare =
      .ofOptions { o with ecmaVersion := v } := by
  have hscript : o.isModule = false := by
    rw [Options.isModule, hs]
    rfl
  have hafter : Options.isEs6 { o with ecmaVersion := w } = true := decide_eq_true hw
  have hbefore : Options.isEs6 { o with ecmaVersion := v } = false :=
    decide_eq_false (Int.not_le.2 hv)
  rw [Gates.ofOptions, Gates.ofOptions, hafter, hbefore]
  show (⟨true && !true, true && o.isModule, _⟩ : Gates) = ⟨false, false && o.isModule, _⟩
  rw [hscript]
  rfl

end Walk

open Grammar in
/-- **A legacy program means the same in every edition.**  Where `eval` is ignored or resolved
through, it is analyzed under every version, and an analysis before the sixth edition returns what
one from the sixth edition on does, without the scopes of blocks. -/
theorem analyze_editions {tree : Tree} (hc : Conforms tree) (hn : tree.TextNames)
    (hl : Legacy tree) {o : Options} (hs : o.sourceType = .script)
    (he : o.optimistic.truthy = true ∨ o.ignoreEval.truthy = true) {v w : Int} (hv : v < 6)
    (hw : 6 ≤ w) : ∃ s t φ, analyze { o with ecmaVersion := v } tree = .ok s ∧
      analyze { o with ecmaVersion := w } tree = .ok t ∧ Contraction φ s t := by
  have hobject : tree.isObj = true := hc.walked.holds.isObj
  obtain ⟨t, ht⟩ := hl.analyze_total hc hn { o with ecmaVersion := w }
  obtain ⟨t', hrun, rfl⟩ := (analyze_ok_iff hobject).1 ht
  -- The events of the one walk happen alongside those of the other.
  have halong := alongside_trimAll (plan (.ofOptions { o with ecmaVersion := w }) (.root tree))
  rw [hl.trim, trim_ofOptions hs hv hw] at halong
  have hcontracts := hl.contracts (g := .ofOptions { o with ecmaVersion := w })
    (o := { o with ecmaVersion := w }) hc (decide_eq_true hw) he (analyze_records ht).fails
  obtain ⟨φ, s', hrun', hbeside, -⟩ := halong.run
    (beside_start id { o with ecmaVersion := w } v tree)
    (allTidy_plan _ _ fun _ h => by cases h) (allTidy_plan _ _ fun _ h => by cases h)
    hcontracts hrun
  have hs' : analyze { o with ecmaVersion := v } tree =
      .ok (s'.record (.analyzed s'.scopes.size)) :=
    (analyze_ok_iff hobject).2 ⟨s', hrun', rfl⟩
  have hnew : ∀ o, (Store.new o).Adopted := fun _ _ => rfl
  exact ⟨_, _, φ, hs', ht, ((hbeside.contracted.record_left _).record_right _).contraction
    (kept_adopted.analyze (hnew _) hs') (kept_adopted.analyze (hnew _) ht)⟩

/-- `var x; { x = 1; y = x; }` -/
def blockProgram : Tree :=
  let name (text : String) : Tree := .obj [("type", .str "Identifier"), ("name", .str text)]
  let assign (left : Tree) (right : Tree) : Tree :=
    .obj [("type", .str "ExpressionStatement"), ("expression",
      .obj [("type", .str "AssignmentExpression"), ("operator", .str "="), ("left", left),
        ("right", right)])]
  .obj [("type", .str "Program"), ("body", .arr [
    .obj [("type", .str "VariableDeclaration"), ("kind", .str "var"),
      ("declarations", .arr [.obj [("type", .str "VariableDeclarator"), ("id", name "x")]])],
    .obj [("type", .str "BlockStatement"), ("body", .arr [
      assign (name "x") (.obj [("type", .str "Literal"), ("value", .int 1)]),
      assign (name "y") (name "x")])]])]

/-- The block of the sample has a scope in the sixth edition only. -/
theorem blockProgram_editions : Grammar.Conforms blockProgram ∧ blockProgram.TextNames ∧
    Grammar.Legacy blockProgram ∧ ∃ s t φ,
      analyze { ecmaVersion := 5, ignoreEval := .bool true } blockProgram = .ok s ∧
      analyze { ecmaVersion := 6, ignoreEval := .bool true } blockProgram = .ok t ∧
      Contraction φ s t ∧ s.scopes.size = 1 ∧ t.scopes.size = 2 := by
  have hc : Grammar.Conforms blockProgram := by decide +kernel
  have hn : blockProgram.TextNames := by decide +kernel
  have hl : Grammar.Legacy blockProgram := by decide +kernel
  obtain ⟨s, t, φ, hs, ht, h⟩ := analyze_editions hc hn hl
    (o := { ignoreEval := .bool true }) rfl (.inr rfl) (v := 5) (w := 6) (by decide) (by decide)
  have hbefore : (analyze { ecmaVersion := 5, ignoreEval := .bool true } blockProgram).map
      (·.scopes.size) = .ok 1 := by decide +kernel
  have hafter : (analyze { ecmaVersion := 6, ignoreEval := .bool true } blockProgram).map
      (·.scopes.size) = .ok 2 := by decide +kernel
  rw [show analyze _ _ = .ok s from hs] at hbefore
  rw [show analyze _ _ = .ok t from ht] at hafter
  exact ⟨hc, hn, hl, s, t, φ, hs, ht, h, Except.ok.inj hbefore, Except.ok.inj hafter⟩

end LexScope
