import LexScope.Proofs.Nesting

/-!
# Proofs — Innermost — every use sits in its innermost scope

A walk chooses for everything that it meets the scope in which it happens.  What a finished store
says of that choice agrees with where things stand in the program: scopes lie in one another as
their nodes do, what is used or bound stands within its scope, and a use within the node of a scope
is a use in it.

The exceptions are expressions that a construct evaluates before its scope is entered, and the two
scopes of an iteration, which have one node (`Walk.Bypasses`).  If the head of such an iteration has
an initializer, its names are also written in the scope in which they cannot be used yet
(`Store.WritesInitializer`).

* `Store.eq_of_around`: two scopes of a finished store differ in what is around them.
* `analyze_innermost`: **every use sits in its innermost scope.**
* `initializedHead_outside`: a head with an initializer.
-/

namespace LexScope

open Node Store Walk

open Grammar (inside openings)

variable {o : Options} {tree : Tree} {s : Store} {i j : ScopeId} {a b : Scope} {r : ReferenceId}
  {ref : Reference} {p : Node} {d : Definition} {key : Name} {v : VariableId} {var : Variable}

/-! ### From the store to the visits -/

/-- The scopes of a store are those that the plan opens. -/
theorem mem_openings_of_scope (h : analyze o tree = .ok s) (hi : i < s.scopes.size) :
    s.around i ∈ openings (sitesOf [] (plan (.ofOptions o) (.root tree))) := by
  have hmem : s.around i ∈ (List.range s.scopes.size).map s.around :=
    List.mem_map_of_mem (List.mem_range.2 hi)
  rwa [(analyze_records h).opens] at hmem

/-- A scope belongs to a stage of something that was visited. -/
theorem scope_visit (h : analyze o tree = .ok s) (ha : s.scopeAt? i = some a) :
    ∃ k ∈ visits (.ofOptions o) (.root tree), ∃ st ∈ stages (.ofOptions o) k.node, ∃ pre post,
      st.2 = pre ++ a.kind :: post ∧ a.block = st.1 ∧
      s.around i = (a.kind, st.1) :: inside k.around st.1 pre := by
  obtain ⟨k, hk, st, hst, pre, kind, post, hs, hx⟩ :=
    mem_openings_plan.1 (mem_openings_of_scope h (scopeAt?_lt ha))
  obtain ⟨c, hc⟩ := around_head (analyze_finished Tree.hereditary_true trivial h).sound.rooted ha
  obtain ⟨hhead, -⟩ := List.cons.inj (hc.symm.trans hx)
  obtain ⟨rfl, hblock⟩ := Prod.mk.inj hhead
  exact ⟨k, hk, st, hst, pre, post, hs, hblock, hx⟩

/-- A reference was made by something that was visited. -/
theorem reference_visit (h : analyze o tree = .ok s) (hr : s.referenceAt? r = some ref) :
    ∃ k ∈ visits (.ofOptions o) (.root tree), ∃ u : Use, u.identifier = ref.identifier ∧
      ref.identifier.isIdentifier = true ∧
      Refers (.ofOptions o) k.node k.around (s.around ref.scope) (.refer u) := by
  obtain ⟨hsite, hid⟩ := (analyze_records h).reference hr
  rw [sitesOf_eq] at hsite
  obtain ⟨⟨c, e⟩, hl, hsite⟩ := List.mem_filterMap.1 hsite
  obtain ⟨k, hk, hl⟩ := mem_leaves_plan.1 hl
  cases e with
  | refer u =>
      obtain ⟨rfl, hu⟩ := Site.mk.inj (Option.some.inj hsite)
      exact ⟨k, hk, u, Deed.uses.inj hu, hid, refers_of_mem hl⟩
  | define target n d => cases target <;> cases hsite
  | _ => cases hsite

/-- **Two scopes of a finished store differ in what is around them.** -/
theorem Store.eq_of_around (hkeys : tree.DistinctKeys) (h : analyze o tree = .ok s)
    (hi : i < s.scopes.size) (hj : j < s.scopes.size) (he : s.around i = s.around j) : i = j := by
  have hnodup : ((List.range s.scopes.size).map s.around).Nodup := by
    rw [(analyze_records h).opens]
    exact (openings_plan _ _ _).nodup_iff.2 (nodup_openings_visits hkeys [])
  exact List.inj_on_of_nodup_map hnodup (List.mem_range.2 hi) (List.mem_range.2 hj) he

/-- Where the same scopes are around, the scope above is the same. -/
theorem Store.eq_upper_of_around {u : ScopeId} {c : Around} {kind : ScopeKind} {n : Node}
    (hkeys : tree.DistinctKeys) (h : analyze o tree = .ok s) (ha : s.scopeAt? j = some a)
    (hj : s.around j = (kind, n) :: c) (hu : u < s.scopes.size) (hc : s.around u = c) :
    a.upper = some u := by
  have hs := (analyze_finished Tree.hereditary_true trivial h).sound
  cases hup : a.upper with
  | none =>
      rw [around_top hs.rooted ha hup] at hj
      obtain ⟨b, hb⟩ := scopeAt?_of_lt hu
      obtain ⟨c', hc'⟩ := around_head hs.rooted hb
      rw [hc', ← (List.cons.inj hj).2] at hc
      cases hc
  | some w =>
      rw [around_step hs.rooted ha hup] at hj
      have hw := (hs.rooted j w ((upperOf_eq ha).trans hup)).trans (scopeAt?_lt ha)
      rw [eq_of_around hkeys h hw hu ((List.cons.inj hj).2.trans hc.symm)]

/-! ### Nodes of scopes -/

theorem atOrBelow_of_isChain {x y : ScopeKind × Node} {c : Around}
    (h : (y :: c).IsChain Enclosed) (hx : x ∈ y :: c) : x.2.AtOrBelow y.2 := by
  induction c generalizing y with
  | nil =>
      rw [List.mem_singleton.1 hx]
      exact atOrBelow_self _
  | cons z c ih =>
      rcases List.mem_cons.1 hx with rfl | hx
      · exact atOrBelow_self _
      · obtain ⟨hyz, hrest⟩ := List.isChain_cons_cons.1 h
        refine (ih hrest hx).trans ?_
        rcases hyz with ⟨-, he⟩ | ⟨-, -, hb⟩
        · rw [he]
          exact atOrBelow_self _
        · exact hb.atOrBelow

/-- What stands below the node of a scope stands below those of all scopes on the way up. -/
theorem below_of_mem_chain (h : analyze o tree = .ok s) (hb : s.scopeAt? j = some b)
    (ha : s.scopeAt? i = some a) (hi : i ∈ s.chain j) (hp : b.block.Below p) :
    a.block.Below p := by
  have hs := (analyze_finished Tree.hereditary_true trivial h).sound
  obtain ⟨c, hc⟩ := around_head hs.rooted hb
  obtain ⟨c', hc'⟩ := around_head hs.rooted ha
  have hchain := isChain_of_mem_openings (mem_openings_of_scope h (scopeAt?_lt hb))
  have hmem : (a.kind, a.block) ∈ s.around j :=
    (around_suffix hs.rooted hi).subset (hc' ▸ List.mem_cons_self)
  rw [hc] at hchain hmem
  obtain ⟨q, hq⟩ := atOrBelow_of_isChain hchain hmem
  obtain ⟨q', hq', hpath⟩ := hp
  exact ⟨q ++ q', by simp [hq'], by rw [hpath, hq, List.append_assoc]⟩

/-- What stands below all that is directly around stands below the node of its scope. -/
theorem below_of_around (h : analyze o tree = .ok s) (ha : s.scopeAt? i = some a)
    (hp : ∀ y ∈ (s.around i).head?, y.2.Below p) : a.block.Below p := by
  obtain ⟨c, hc⟩ := around_head (analyze_finished Tree.hereditary_true trivial h).sound.rooted ha
  rw [hc] at hp
  exact hp _ rfl

/-- A reference stands below the node of its scope. -/
theorem reference_below (h : analyze o tree = .ok s) (hr : s.referenceAt? r = some ref)
    (ha : s.scopeAt? ref.scope = some a) : a.block.Below ref.identifier := by
  obtain ⟨k, hk, u, hu, -, hrefers⟩ := reference_visit h hr
  exact below_of_around h ha (hu ▸ hrefers.below (visited_over hk))

theorem Walk.Declares.name {g : Gates} {n : Node} {c c' : Around} {target : Target}
    (h : Declares g n c c' target p d) : d.name = p := by
  cases h <;> rfl

/-- What is defined stands below the node of its scope. -/
theorem definition_below (h : analyze o tree = .ok s) (ha : s.scopeAt? i = some a)
    (hf : a.table.find? key = some v) (hv : s.variableAt? v = some var) (hd : d ∈ var.defs) :
    a.block.Below d.name := by
  have hfin := analyze_finished Tree.hereditary_true trivial h
  rcases (analyze_attests h).origin hfin ha hf hv hd with
    ⟨j, target, n, hj, ht, hl, -, -⟩ | ⟨-, rfl, -, -⟩ | ⟨-, r, ref, c, hr, hc, hi, -, rfl⟩
  · obtain ⟨k, hk, hl⟩ := mem_leaves_plan.1 hl
    have hdeclares := define_mem_own.1 hl
    obtain ⟨b, hb⟩ := scopeAt?_of_lt hj
    have hbelow := below_of_around h hb (hdeclares.below (visited_over hk))
    rw [hdeclares.name]
    cases target with
    | here =>
        obtain rfl := Option.some.inj ht
        exact Option.some.inj (hb.symm.trans ha) ▸ hbelow
    | hoisted =>
        rw [Target.scope?, variableScope?, hb] at ht
        cases ht
        exact below_of_mem_chain h hb ha (hfin.sound.varScope j b hb) hbelow
  · exact below_get _ _
  · obtain ⟨b, hb⟩ := scopeAt?_of_lt (hfin.books.home r ref hr)
    rw [show c.definition.name = c.pattern from rfl, hfin.sourced.own r ref c hr hc]
    exact below_of_mem_chain h hb ha hi (reference_below h hr hb)

/-! ### The innermost scope -/

/-- A name of the head of an iteration is written where it cannot be used yet: the head has an
initializer. -/
def Store.WritesInitializer (s : Store) (o : Options) (a : Scope) (ref : Reference) : Prop :=
  IteratesLexically (.ofOptions o) a.block ∧ a.kind ≠ .deadZone ∧
    (∃ z, s.scopeAt? ref.scope = some z ∧ z.kind = .deadZone ∧ z.block = a.block) ∧
    ∃ d, declarator? (a.block.get "left") 0 = some d ∧ (d.get "init").isNull = false ∧
      ref.identifier ∈ Pattern.bound (d.get "id")

/-- What a finished store says of scopes agrees with where things stand in the program. -/
structure Store.Innermost (s : Store) (o : Options) : Prop where
  /-- A scope has the node of the one above it if they are the scopes of a function's name and of
  the function or of a program and its module; else its node is below. -/
  scopes : ∀ i a u b, s.scopeAt? i = some a → a.upper = some u → s.scopeAt? u = some b →
    (a.block = b.block ↔ Twins b.kind a.kind) ∧ (a.block ≠ b.block → b.block.Below a.block) ∧
      (b.kind = .functionName → a.kind = .function)
  references : ∀ r ref, s.referenceAt? r = some ref →
    ∃ a, s.scopeAt? ref.scope = some a ∧ a.block.Below ref.identifier
  definitions : ∀ i a key v var d, s.scopeAt? i = some a → a.table.find? key = some v →
    s.variableAt? v = some var → d ∈ var.defs → a.block.Below d.name
  /-- A use within the node of a scope is made in the scope or further in, with the exceptions. -/
  uses : ∀ r ref i a, s.referenceAt? r = some ref → s.scopeAt? i = some a →
    a.block.AtOrBelow ref.identifier → i ∉ s.chain ref.scope →
      Bypasses (.ofOptions o) a.kind a.block ref.identifier ∨ s.WritesInitializer o a ref

theorem not_twins_of_below {x y : ScopeKind × Node} (h : Enclosed x y) :
    (x.2 = y.2 ↔ Twins y.1 x.1) ∧ (x.2 ≠ y.2 → y.2.Below x.2) ∧
      (y.1 = .functionName → x.1 = .function) := by
  rcases h with ⟨ht, he⟩ | ⟨ht, hname, hb⟩
  · refine ⟨⟨fun _ => ht, fun _ => he⟩, fun hne => absurd he hne, fun hf => ?_⟩
    rcases ht with ⟨-, hk⟩ | ⟨hg, -⟩
    · exact hk
    · rw [hg] at hf
      cases hf
  · refine ⟨⟨fun he => ?_, fun h => absurd h ht⟩, fun _ => hb, fun hf => absurd hf hname⟩
    rw [he] at hb
    exact absurd (List.prefix_refl _) hb.not_isPrefix

/-- **Every use sits in its innermost scope.** -/
theorem analyze_innermost (hkeys : tree.DistinctKeys) (h : analyze o tree = .ok s) :
    s.Innermost o := by
  have hfin := analyze_finished Tree.hereditary_true trivial h
  have hrooted := hfin.sound.rooted
  refine ⟨fun i a u b ha hu hb => ?_, fun r ref hr => ?_, fun i a key v var d ha hf hv hd =>
    definition_below h ha hf hv hd, fun r ref i a hr ha hbelow hi => ?_⟩
  · have hchain := isChain_of_mem_openings (mem_openings_of_scope h (scopeAt?_lt ha))
    obtain ⟨c, hc⟩ := around_head hrooted hb
    rw [around_step hrooted ha hu, hc] at hchain
    exact not_twins_of_below (List.isChain_cons_cons.1 hchain).1
  · obtain ⟨a, ha⟩ := scopeAt?_of_lt (hfin.books.home r ref hr)
    exact ⟨a, ha, reference_below h hr ha⟩
  · obtain ⟨k, hk, st, hst, pre, post, hs, hblock, haround⟩ := scope_visit h ha
    obtain ⟨j, hj, u, hu, hid, hrefers⟩ := reference_visit h hr
    rw [hblock, ← hu] at hbelow
    rcases use_in_scope hkeys hk hj hst hs hrefers (hu ▸ hid) hbelow with hin | hb | hw
    · -- The same scopes are around the scope and around one on the way up.
      have hhome := hfin.books.home r ref hr
      obtain ⟨m, hm, he⟩ := mem_chain_of_around hrooted hhome hin
      obtain rfl := eq_of_around hkeys h ((le_of_mem_chain hrooted hm).trans_lt hhome)
        (scopeAt?_lt ha) (he.trans haround.symm)
      exact absurd hm hi
    · exact .inl (hblock ▸ hu ▸ hb)
    · obtain ⟨z, hz⟩ := scopeAt?_of_lt (hfin.books.home r ref hr)
      obtain ⟨c, hc⟩ := around_head hrooted hz
      have hzone := hw.fromZone
      rw [hc] at hzone
      obtain ⟨hkind, hnode⟩ := Prod.mk.inj (Option.some.inj hzone)
      rw [← hblock] at hw hnode
      exact .inr ⟨hw.iterates, hw.notZone, ⟨z, hz, hkind, hnode⟩, hu ▸ hw.written⟩

/-- `for (let x = 1 of y) ;` -/
def initializedHead : Tree :=
  let name (text : String) : Tree := .obj [("type", .str "Identifier"), ("name", .str text)]
  .obj [("type", .str "Program"), ("body", .arr [
    .obj [("type", .str "ForOfStatement"),
      ("left", .obj [("type", .str "VariableDeclaration"), ("kind", .str "let"),
        ("declarations", .arr [.obj [("type", .str "VariableDeclarator"), ("id", name "x"),
          ("init", .obj [("type", .str "Literal"), ("value", .int 1)])]])]),
      ("right", name "y"), ("body", .obj [("type", .str "EmptyStatement")])]])]

/-- The iteration of `initializedHead`. -/
def initializedIteration : Node := ((Node.root initializedHead).get "body").items.headD .absent

/-- The name in the head of `initializedHead`. -/
def initializedName : Node :=
  ((((initializedIteration.get "left").get "declarations").items.headD .absent).get "id")

theorem initializedHead_innermost : initializedHead.DistinctKeys ∧
    ∃ s, analyze {} initializedHead = .ok s ∧ s.Innermost {} := by
  have hkeys : initializedHead.DistinctKeys := by decide +kernel
  have hok : (analyze {} initializedHead).toOption.isSome = true := by decide +kernel
  cases hs : analyze {} initializedHead with
  | error e =>
      rw [hs] at hok
      cases hok
  | ok s => exact ⟨hkeys, s, rfl, analyze_innermost hkeys hs⟩

/-- The name is written from the dead zone, which is not in the scope that the name is declared in,
and none of the exceptions accounts for it. -/
theorem initializedHead_outside : initializedHead.DistinctKeys ∧
    ∃ s ref a, analyze {} initializedHead = .ok s ∧ s.referenceAt? 0 = some ref ∧
      s.scopeAt? 2 = some a ∧ a.block.AtOrBelow ref.identifier ∧ 2 ∉ s.chain ref.scope ∧
      ¬ Bypasses (.ofOptions {}) a.kind a.block ref.identifier := by
  have hkeys : initializedHead.DistinctKeys := by decide +kernel
  have hrun : (analyze {} initializedHead).toOption.map (fun s =>
      ((s.referenceAt? 0).map fun ref => (ref.identifier, ref.scope),
        (s.scopeAt? 2).map fun a => (a.kind, a.block), s.chain 1)) =
      some (some (initializedName, 1), some (.block, initializedIteration), [1, 0]) := by
    decide +kernel
  cases hs : analyze {} initializedHead with
  | error e =>
      rw [hs] at hrun
      cases hrun
  | ok s =>
      rw [hs] at hrun
      simp only [Except.toOption, Option.map_some, Option.some.injEq, Prod.mk.injEq,
        Option.map_eq_some_iff] at hrun
      obtain ⟨⟨ref, href, hid, hscope⟩, ⟨a, ha, hkind, hblock⟩, hchain⟩ := hrun
      refine ⟨hkeys, s, ref, a, rfl, href, ha, ?_, ?_, ?_⟩
      · rw [hid, hblock]
        exact ⟨_, rfl⟩
      · rw [hscope, hchain]
        decide
      · rw [hid, hblock, hkind]
        rintro (⟨h, -⟩ | ⟨h, -⟩ | ⟨h, -⟩ | ⟨-, h, -⟩ | ⟨-, -, h⟩)
        · exact absurd h (by decide)
        · exact absurd h (by decide)
        · exact absurd h (by decide)
        · cases h
        · exact absurd h.isPrefix (by decide)

end LexScope
