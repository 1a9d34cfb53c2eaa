import LexScope.Proofs.Course

/-!
# Proofs — Closed — what a walk has closed stays as it is

A walk touches open scopes and new ones only (`Good.changes`).  So a closed scope is *frozen*
(`Store.Frozen`): it keeps its record and its variables, and of the references made in it only those
that left it can still be resolved.  Each scope is closed by exactly one operation (`Good.closes`).

* `analyze_disciplined`: **the closing discipline of an analysis**, for every tree and all options.
-/

namespace LexScope

open Store LexScope.Walk

/-! ### Frozen scopes -/

namespace Store

variable {A : ScopeId → Prop} {s t : Store} {i : ScopeId}

/-- A scope is in a later store what it is in an earlier one, but for the references passed on. -/
structure Frozen (s t : Store) (i : ScopeId) : Prop where
  scope : t.scopeAt? i = s.scopeAt? i
  var : ∀ v a, s.variableAt? v = some a → a.scope = i → t.variableAt? v = some a
  reference : ∀ r ref, s.referenceAt? r = some ref → ref.scope = i →
    ∃ w, t.referenceAt? r = some { ref with resolved := w } ∧
      (r ∉ s.throughAt i → w = ref.resolved)

/-- A reference made in a closed scope that has not left it is resolved to one of its variables. -/
theorem Account.stays {r : ReferenceId} {ref : Reference} {w : Whereabouts} (hs : s.Sound)
    (h : s.Account s.pendingAt s.IsClosed r ref w) (hc : s.IsClosed ref.scope)
    (hr : r ∉ s.throughAt ref.scope) :
    ∃ v var, w = .resolved v ∧ s.variableAt? v = some var ∧ var.scope = ref.scope := by
  obtain ⟨behind, hb, hcount⟩ := h.way
  rw [chain_cons hs.rooted] at hb
  cases behind with
  | cons j behind =>
      rw [List.cons_append, List.cons.injEq] at hb
      have := hcount ref.scope
      rw [← hb.1, List.count_cons_self, List.count_eq_zero.2 (hb.1 ▸ hr)] at this
      cases this
  | nil =>
      -- The reference has left nothing, so what lies ahead of it begins with its own scope.
      have hhead : ∀ {j}, s.ahead w = s.chain j → j = ref.scope := fun {j} hj => by
        rw [List.nil_append, hj, chain_cons hs.rooted] at hb
        exact (List.cons.inj hb).1.symm
      cases w with
      | pending j =>
          have hj : j = ref.scope := hhead rfl
          exact absurd (hj ▸ hc) (isOpen_of_pendingAt h.waits).not_isClosed
      | escaped => cases hb
      | resolved v =>
          obtain ⟨var, hvar, -⟩ := h.bound v rfl
          exact ⟨v, var, rfl, hvar, hhead (by simp only [ahead, hvar, Option.elim_some])⟩

/-- If only what is not closed is touched, what is closed is frozen. -/
theorem Frozen.of_evolves (hE : Evolves A s t) (hA : ∀ j, A j → ¬ s.IsClosed j)
    (hs : s.Books s.pendingAt s.IsClosed) (ht : t.Books t.pendingAt t.IsClosed)
    (hc : s.IsClosed i) : s.Frozen t i := by
  have hscope : t.scopeAt? i = s.scopeAt? i := by
    obtain ⟨a, ha⟩ := scopeAt?_of_lt hc.lt
    obtain ⟨b, hb, -, hAi⟩ := hE.scope i a ha
    rw [hb, ha, hAi.resolve_left fun h => hA i h hc]
  have hvar : ∀ v a, s.variableAt? v = some a → a.scope = i → t.variableAt? v = some a := by
    rintro v a ha rfl
    obtain ⟨b, hb, -, hAi⟩ := hE.var v a ha
    rw [hb, hAi.resolve_left fun h => hA _ h hc]
  refine ⟨hscope, hvar, ?_⟩
  rintro r ref href rfl
  obtain ⟨ref', href', huse, hsc⟩ := hE.reference r ref href
  have heta : ref' = { ref with resolved := ref'.resolved } := by
    cases ref'
    cases ref
    obtain rfl : _ = _ := huse
    obtain rfl : _ = _ := hsc
    rfl
  refine ⟨ref'.resolved, by rw [href', ← heta], fun hr => ?_⟩
  obtain ⟨w, hw⟩ := hs.account r ref href
  obtain ⟨v, var, rfl, hv, hvs⟩ := hw.stays hs.sound hc hr
  have hres : ref.resolved = some v := hw.resolved
  have hlinks : t.linksOf v = s.linksOf v := by
    simp only [linksOf, hvar v var hv hvs, hv]
  -- The variable is as it was, so the reference is still noted with it.
  have hlink : r ∈ t.linksOf v := hlinks ▸ (hs.mem_linksOf_iff href).2 hres
  rw [(ht.mem_linksOf_iff href').1 hlink, hres]

end Store

/-- The scope that an operation closes. -/
def Operation.closes? : Operation → Option ScopeId
  | .close i => some i
  | _ => none

namespace Walk

variable {m m' : Moment} {op : Option Operation} {ops : List Operation}

/-- A step touches nothing that is closed. -/
theorem Moment.Good.changes (h : m.Good) (hs : Step m op m') :
    Changes (fun j => ¬ m.store.IsClosed j) m.store m'.store := by
  obtain ⟨o, out, -, ho, hop, -⟩ | ⟨-, -, heq | ⟨entry, heq⟩⟩ := h.step_cases hs
  · refine (h.disciplined.changes ho hop).mono ?_
    rintro j (hj | hj)
    · exact hj.not_isClosed
    · exact fun hc => absurd hc.lt (Nat.not_lt.2 hj)
  · exact heq ▸ .refl
  · rw [heq]
    exact .single (.quiet (.record entry))

/-- What is closed at a moment is not touched any more. -/
theorem Moment.Good.evolves (h : m.Good) (hs : Steps m ops m') :
    Evolves (fun j => ¬ m.store.IsClosed j) m.store m'.store := by
  induction hs with
  | refl m => exact .refl m.store
  | more hs _ ih =>
      have hE := (h.changes hs).evolves h.disciplined.sound
      exact hE.trans ((ih (h.step hs)).mono fun j hj hc => hj (hE.isClosed hc))

theorem Moment.Good.frozen (h : m.Good) (hs : Steps m ops m') {i : ScopeId}
    (hc : m.store.IsClosed i) : m.store.Frozen m'.store i :=
  .of_evolves (h.evolves hs) (fun _ => id) h.disciplined.books (h.steps hs).disciplined.books hc

/-! ### Each scope is closed once -/

theorem Moment.Good.isClosed_iff (h : m.Good) (hs : Step m op m') (i : ScopeId) :
    m'.store.IsClosed i ↔ m.store.IsClosed i ∨ op = some (.close i) := by
  obtain ⟨o, out, rfl, ho, hop, -⟩ | ⟨rfl, -, heq | ⟨entry, heq⟩⟩ := h.step_cases hs
  · rw [Option.some.injEq]
    exact h.disciplined.isClosed_iff ho hop
  all_goals
    rw [heq]
    exact ⟨.inl, fun h => h.resolve_right nofun⟩

/-- **What a walk closes it closes once**: the scopes it closes are those that are closed at the end
and were not at the beginning, and no scope is listed twice. -/
theorem Moment.Good.closes (h : m.Good) (hs : Steps m ops m') :
    (ops.filterMap Operation.closes?).Nodup ∧ ∀ i, i ∈ ops.filterMap Operation.closes? ↔
      ¬ m.store.IsClosed i ∧ m'.store.IsClosed i := by
  induction hs with
  | refl m => exact ⟨List.nodup_nil, fun i => ⟨nofun, fun ⟨hn, hc⟩ => absurd hc hn⟩⟩
  | @more m m₁ m' op ops hs hrest ih =>
      obtain ⟨hnodup, hmem⟩ := ih (h.step hs)
      have hfirst := h.isClosed_iff hs
      have hlast : ∀ i, m₁.store.IsClosed i → m'.store.IsClosed i := fun i =>
        ((h.step hs).evolves hrest).isClosed
      -- What the first step closes was open before and stays closed, so it is closed once.
      by_cases hop : ∃ i, op = some (.close i)
      · obtain ⟨i, rfl⟩ := hop
        have hi : ¬ m.store.IsClosed i := by
          have hd := h.disciplined
          rw [show m.current = some i from h.orderly hs.attempts] at hd
          exact (hd.open_of_mem (self_mem_chain m.store i)).not_isClosed
        have hlist : ((some (Operation.close i)).toList ++ ops).filterMap Operation.closes? =
            i :: ops.filterMap Operation.closes? := rfl
        rw [hlist]
        refine ⟨List.nodup_cons.2 ⟨fun hin => ((hmem i).1 hin).1 ((hfirst i).2 (.inr rfl)), hnodup⟩,
          fun j => ?_⟩
        rw [List.mem_cons, hmem]
        constructor
        · rintro (rfl | ⟨hn, hc⟩)
          · exact ⟨hi, hlast j ((hfirst j).2 (.inr rfl))⟩
          · exact ⟨fun hj => hn ((hfirst j).2 (.inl hj)), hc⟩
        · rintro ⟨hn, hc⟩
          by_cases hj : m₁.store.IsClosed j
          · have := ((hfirst j).1 hj).resolve_left hn
            simp only [Option.some.injEq, Operation.close.injEq] at this
            exact .inl this.symm
          · exact .inr ⟨hj, hc⟩
      · have hlist : (op.toList ++ ops).filterMap Operation.closes? =
            ops.filterMap Operation.closes? := by
          cases op with
          | none => rfl
          | some o =>
              cases o with
              | close i => exact absurd ⟨i, rfl⟩ hop
              | _ => rfl
        have hsame : ∀ i, m₁.store.IsClosed i ↔ m.store.IsClosed i := fun i =>
          (hfirst i).trans ⟨fun hc => hc.resolve_right fun e => hop ⟨i, e⟩, .inl⟩
        rw [hlist]
        exact ⟨hnodup, fun i => by rw [hmem, hsame]⟩

/-! ### From the beginning of an analysis to its end -/

theorem Moment.start_good (o : Options) (tree : Tree) : (Moment.start o tree).Good := by
  have hnew : (Store.new o).Disciplined none := by
    refine ⟨.new o, fun i => ⟨fun ⟨a, ha, _⟩ => ?_, nofun⟩⟩
    rw [show (Store.new o).scopeAt? i = none from rfl] at ha
    cases ha
  refine ⟨Disciplined.record hnew _, rfl, fun f hf => ?_⟩
  rw [List.mem_singleton.1 hf]
  exact allTidy_plan _ _ nofun

/-- When the walk is over, nothing is open. -/
theorem Moment.Good.not_isOpen (h : m.Good) (ho : m.Over) (i : ScopeId) : ¬ m.store.IsOpen i := by
  intro hi
  have hline := (h.disciplined.isOpen i).1 hi
  rw [Moment.current, ho] at hline
  cases hline

/-- An analysis that returns has walked to the end. -/
theorem analyze_ok {o : Options} {tree : Tree} {s : Store} (h : analyze o tree = .ok s) :
    ∃ ops m, Steps (.start o tree) ops m ∧ m.Over ∧ m.Good ∧
      s = m.store.record (.analyzed m.store.scopes.size) := by
  cases ho : tree.isObj with
  | false =>
      rw [analyze, analysis, ho] at h
      cases h
  | true =>
      rw [analyze_eq ho] at h
      obtain ⟨ops, m, hs, hg, hover | ⟨e, hf⟩⟩ := (Moment.start_good o tree).ends
      · rw [hs.resume, hover] at h
        exact ⟨ops, m, hs, hover, hg, (Except.ok.inj h).symm⟩
      · obtain ⟨t, ht⟩ := hf.resume
        rw [hs.resume, ht] at h
        cases h

/-- What an analysis returns has the options that it was given. -/
theorem analyze_options {o : Options} {tree : Tree} {s : Store} (h : analyze o tree = .ok s) :
    s.options = o := by
  obtain ⟨ops, m, hs, -, -, rfl⟩ := analyze_ok h
  exact ((Moment.start_good o tree).evolves hs).options

/-- An analysis that fails has stopped on its walk, unless there was none to walk. -/
theorem analyze_error {o : Options} {tree : Tree} {e : Error} (h : analyze o tree = .error e) :
    e.OfTree ∧ (tree.isObj = true → ∃ ops m, Steps (.start o tree) ops m ∧ Fails m e) := by
  cases ho : tree.isObj with
  | false =>
      rw [analyze, analysis, ho] at h
      obtain rfl := Except.error.inj h
      refine ⟨trivial, ?_⟩
      intro htrue
      cases htrue
  | true =>
      rw [analyze_eq ho] at h
      obtain ⟨ops, m, hs, hg, hover | ⟨e', hf⟩⟩ := (Moment.start_good o tree).ends
      · rw [hs.resume, hover] at h
        cases h
      · obtain ⟨t, ht⟩ := hf.resume
        rw [hs.resume, ht] at h
        obtain rfl := Except.error.inj h
        exact ⟨hg.fails hf, fun _ => ⟨ops, m, hs, hf⟩⟩

/-- A moment as the closing discipline wants it. -/
structure Moment.InOrder (m : Moment) : Prop where
  /-- The open scopes are one chain, from the current scope up to a scope below none. -/
  chain : ∀ i, m.store.IsOpen i ↔ i ∈ m.store.line m.current
  /-- Whatever happens next, happens where it should. -/
  next : ∀ op, Attempts m op → op.Orderly m.store m.current
  /-- A scope is closed when all scopes below it are closed and all above it are open. -/
  close : ∀ i, Attempts m (.close i) → (∀ j ∈ m.store.chain i, m.store.IsOpen j) ∧
    ∀ j, j < m.store.scopes.size → i ∈ m.store.chain j → j ≠ i → m.store.IsClosed j

theorem Moment.Good.inOrder (h : m.Good) : m.InOrder := by
  refine ⟨h.disciplined.isOpen, fun op => h.orderly, fun i hi => ?_⟩
  have hd := h.disciplined
  rw [show m.current = some i from h.orderly hi] at hd
  exact ⟨fun j hj => hd.open_of_mem hj, fun j hj hc hne => hd.below_closed hj hc hne⟩

/-- **The closing discipline of an analysis.**  At every moment the open scopes are one chain, the
next operation is orderly and a closed scope stays as it is for good.  An analysis never fails
because a scope is closed twice or a reference made in a closed one.  When it returns, every scope
is closed and was closed by one operation. -/
theorem analyze_disciplined (o : Options) (tree : Tree) :
    (∀ ops m, Steps (.start o tree) ops m → m.InOrder ∧
      ∀ ops' m', Steps m ops' m' → ∀ i, m.store.IsClosed i → m.store.Frozen m'.store i) ∧
    (∀ e, analyze o tree = .error e →
      (∀ p, e ≠ .analysis .closedTwice p ∧ e ≠ .analysis .closedReference p) ∧
      (tree.isObj = true → ∃ ops m, Steps (.start o tree) ops m ∧ Fails m e)) ∧
    (∀ s, analyze o tree = .ok s → ∃ ops m, Steps (.start o tree) ops m ∧ m.Over ∧
      s = m.store.record (.analyzed m.store.scopes.size) ∧
      ∀ i, i < s.scopes.size → s.IsClosed i ∧ (ops.filterMap Operation.closes?).count i = 1) := by
  have hstart := Moment.start_good o tree
  refine ⟨?_, ?_, ?_⟩
  · intro ops m hs
    have hg := hstart.steps hs
    exact ⟨hg.inOrder, fun ops' m' hs' i hc => hg.frozen hs' hc⟩
  · intro e he
    obtain ⟨htree, hsteps⟩ := analyze_error he
    exact ⟨fun p => ⟨by rintro rfl; exact htree, by rintro rfl; exact htree⟩, hsteps⟩
  · intro s hs
    obtain ⟨ops, m, hsteps, hover, hg, rfl⟩ := analyze_ok hs
    refine ⟨ops, m, hsteps, hover, rfl, fun i hi => ?_⟩
    have hc : m.store.IsClosed i := (isOpen_or_isClosed hi).resolve_left (hg.not_isOpen hover i)
    obtain ⟨hnodup, hmem⟩ := hstart.closes hsteps
    refine ⟨hc, List.count_eq_one_of_mem hnodup ((hmem i).2 ⟨?_, hc⟩)⟩
    rintro ⟨a, ha, -⟩
    rw [show (Moment.start o tree).store.scopeAt? i = none from rfl] at ha
    cases ha

/-- `let x; { x }`. -/
def sampleProgram : Tree :=
  let x : Tree := .obj [("type", .str "Identifier"), ("name", .str "x")]
  .obj [("type", .str "Program"), ("body", .arr [
    .obj [("type", .str "VariableDeclaration"), ("kind", .str "let"), ("declarations", .arr [
      .obj [("type", .str "VariableDeclarator"), ("id", x)]])],
    .obj [("type", .str "BlockStatement"), ("body", .arr [
      .obj [("type", .str "ExpressionStatement"), ("expression", x)]])]])]

theorem analyze_sample : ∃ s ref, analyze {} sampleProgram = .ok s ∧ s.scopes.size = 2 ∧
    s.referenceAt? 0 = some ref ∧ ref.resolved = some 0 := by
  have h : (analyze {} sampleProgram).toOption.map
      (fun s => (s.scopes.size, (s.referenceAt? 0).map (·.resolved))) =
        some (2, some (some 0)) := by
    decide +kernel
  cases hs : analyze {} sampleProgram with
  | error e => rw [hs] at h; cases h
  | ok s =>
      rw [hs] at h
      simp only [Except.toOption, Option.map_some, Option.some.injEq, Prod.mk.injEq,
        Option.map_eq_some_iff] at h
      obtain ⟨hsize, ref, hr, hv⟩ := h
      exact ⟨s, ref, rfl, hsize, hr, hv⟩

/-- The sample has two scopes, and each is closed once. -/
theorem sample_disciplined : ∃ s ops m, analyze {} sampleProgram = .ok s ∧
    Steps (.start {} sampleProgram) ops m ∧ ∀ i, i < 2 →
      s.IsClosed i ∧ (ops.filterMap Operation.closes?).count i = 1 := by
  obtain ⟨s, ref, hs, hsize, -⟩ := analyze_sample
  obtain ⟨-, -, hok⟩ := analyze_disciplined {} sampleProgram
  obtain ⟨ops, m, hsteps, -, -, hclosed⟩ := hok s hs
  exact ⟨s, ops, m, hs, hsteps, fun i hi => hclosed i (hsize ▸ hi)⟩

end Walk

end LexScope
