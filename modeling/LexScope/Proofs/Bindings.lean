import LexScope.Proofs.Innermost

/-!
# Proofs — Bindings — every binding lands in the scope that its kind prescribes

The table `Walk.Declares` says where a rule binds which identifier, by the scopes around.  In a
finished store the scopes around tell the scope, so the table says which scope holds a definition.
Only a `var` declaration binds further up than where it is met, in the scope that holds the `var`
declarations of the one it is met in; and the name of a function expression is bound by its own
scope when that is entered.

* `table_functionName`: the scope of a function's name holds that name only.
* `prescribed`: every definition is in the scope that its kind prescribes.
* `analyze_bindings`: **that, and every identifier of the table is defined where the table says.**
-/

namespace LexScope

open Node Store Walk

open Grammar (inside openings)

variable {g : Gates} {o : Options} {tree : Tree} {s : Store} {i j : ScopeId} {a b : Scope}
  {n f p : Node} {d : Definition} {key : Name} {v : VariableId} {var : Variable}
  {c c' x : Around} {k : Call} {target : Target} {kinds : List ScopeKind} {kind : ScopeKind}
  {isMethod : Bool}

/-! ### The scopes that a node introduces -/

theorem Walk.scopeKinds_of_hasType {type : String} (h : n.hasType type = true) :
    scopeKinds? n isMethod =
      some (if ScopeKind.ofType (.str type) = .function && n.namesItself && !isMethod then
        [.functionName, ScopeKind.ofType (.str type)] else [ScopeKind.ofType (.str type)]) := by
  have ht : n.type = .str type := by simpa [Node.hasType] using h
  have ho : n.isObj = true := isObj_of_hasType h
  rw [scopeKinds?, ScopeKind.ofNode?, ht, ho]
  rfl

theorem hasType_unique {type type' : String} (h : n.hasType type = true)
    (h' : n.hasType type' = true) : type = type' := by
  rw [Node.hasType, decide_eq_true_eq] at h h'
  exact Tree.str.inj (h.symm.trans h')

theorem namesItself_of_hasType {type : String} (h : n.hasType type = true)
    (hne : type ≠ "FunctionExpression") : n.namesItself = false := by
  rw [Node.namesItself, Bool.and_eq_false_iff]
  exact .inl (Bool.eq_false_iff.2 fun h' => hne (hasType_unique h h'))

/-- A function that is run has a scope of its own, innermost. -/
theorem Walk.Runs.around (h : Runs n f isMethod) (hk : scopeKinds? f isMethod = some kinds)
    (c : Around) : ∃ c', inside c f kinds = (.function, f) :: c' := by
  have hkind : ∀ {type : String}, f.hasType type = true →
      ScopeKind.ofType (.str type) = .function → ∃ c', inside c f kinds = (.function, f) :: c' := by
    intro type ht hfunction
    rw [scopeKinds_of_hasType ht, hfunction] at hk
    cases hk
    split <;> exact ⟨_, rfl⟩
  cases h with
  | function h =>
      obtain ⟨type, ht, hfamily⟩ := Option.map_eq_some_iff.1 h
      have htype : n.hasType type = true := by
        rw [Node.hasType, Grammar.type_eq ht]
        exact decide_eq_true rfl
      refine hkind htype ?_
      unfold Family.ofType at hfamily
      split at hfamily <;> first | rfl | cases hfamily
  | method h hm hf =>
      rcases Bool.or_eq_true_iff.1 hf with hf | hf
      · exact hkind hf rfl
      · exact hkind hf rfl

theorem Walk.around_catchClause (h : Family.catchClause.Covers n)
    (hk : scopeKinds? n isMethod = some kinds) : inside c n kinds = (.catchClause, n) :: c := by
  obtain ⟨type, ht, hfamily⟩ := Option.map_eq_some_iff.1 h
  have htype : type = "CatchClause" := by
    unfold Family.ofType at hfamily
    split at hfamily <;> first | rfl | cases hfamily
  have hn : n.hasType "CatchClause" = true := by
    rw [Node.hasType, Grammar.type_eq ht, htype]
    rfl
  rw [scopeKinds_of_hasType hn] at hk
  cases hk
  rfl

theorem Walk.namesItself_of_scopeKinds (h : scopeKinds? n isMethod = some kinds)
    (hk : .functionName ∈ kinds) : kinds = [.functionName, .function] ∧
      n.hasType "FunctionExpression" = true := by
  rw [scopeKinds?, Option.map_eq_some_iff] at h
  obtain ⟨kind, hkind, rfl⟩ := h
  split at hk
  · rename_i hf
    simp only [Bool.and_eq_true, decide_eq_true_eq, Node.namesItself] at hf
    rw [if_pos (by simp [hf, Node.namesItself]), hf.1.1]
    exact ⟨rfl, hf.1.2.1⟩
  · rename_i hf
    have hone : scopeKinds? n isMethod = some [kind] := by
      rw [scopeKinds?, hkind, Option.map_some, if_neg hf]
    rcases scopeKinds_shape hone with hs | ⟨kind', hs, hne, -⟩
    · cases hs
    · rw [hs, List.mem_singleton] at hk
      exact absurd hk.symm hne

/-! ### Inner scopes -/

/-- A scope has a scope of a node directly in it. -/
def Store.HasInner (s : Store) (i : ScopeId) (kind : ScopeKind) (n : Node) : Prop :=
  ∃ m b, s.scopeAt? m = some b ∧ b.kind = kind ∧ b.block = n ∧ b.upper = some i

/-- What the plan opens directly in a scope is there in the end. -/
theorem hasInner_of_opening (hkeys : tree.DistinctKeys) (h : analyze o tree = .ok s)
    (hi : i < s.scopes.size)
    (hx : (kind, n) :: s.around i ∈ openings (sitesOf [] (plan (.ofOptions o) (.root tree)))) :
    s.HasInner i kind n := by
  rw [openings, ← (analyze_records h).opens] at hx
  obtain ⟨m, hm, he⟩ := List.mem_map.1 hx
  have hs := (analyze_finished Tree.hereditary_true trivial h).sound
  obtain ⟨b, hb, hkind, hblock, -⟩ := scope_of_around hs.rooted (List.mem_range.1 hm) he
  exact ⟨m, b, hb, hkind, hblock, eq_upper_of_around hkeys h hb he hi rfl⟩

/-- The scope of a declaration lies directly in the scope in which it is met. -/
theorem hasInner_of_visit {type : String} {family : Family} (hkeys : tree.DistinctKeys)
    (h : analyze o tree = .ok s) (hi : i < s.scopes.size)
    (hk : k ∈ visits (.ofOptions o) (.root tree)) (hc : s.around i = k.around)
    (hf : family.Covers k.node)
    (hstages : ruleStages (.ofOptions o) k.node family = stagesOf k.node false)
    (ht : k.node.hasType type = true) (hname : k.node.namesItself = false) :
    s.HasInner i (ScopeKind.ofType (.str type)) k.node := by
  refine hasInner_of_opening hkeys h hi (mem_openings_plan.2 ⟨k, hk,
    (k.node, [ScopeKind.ofType (.str type)]), ?_, [], _, [], rfl, by rw [hc]; rfl⟩)
  rw [stages_of_family hf, hstages, mem_stagesOf]
  refine ⟨_, scopeKinds_of_hasType ht, ?_⟩
  rw [hname, Bool.and_false, Bool.false_and, if_neg (by decide)]

/-! ### The scope of a function's name -/

/-- A scope of a function's name belongs to a function expression, whose own scope is in it. -/
theorem functionName_scope (hkeys : tree.DistinctKeys) (h : analyze o tree = .ok s)
    (ha : s.scopeAt? i = some a) (hk : a.kind = .functionName) :
    a.block.hasType "FunctionExpression" = true ∧ s.HasInner i .function a.block := by
  obtain ⟨k, hvisit, st, hst, pre, post, hs, hblock, haround⟩ := scope_visit h ha
  have hmem : a.kind ∈ st.2 := hs ▸ List.mem_append_right pre List.mem_cons_self
  rw [hk] at hmem hs haround
  have hshape : st.2 = [.functionName, .function] ∧ st.1.hasType "FunctionExpression" = true := by
    rcases stage_cases hst with ⟨f, isMethod, kinds, -, hkinds, rfl⟩ | rfl | ⟨-, rfl⟩
    · exact namesItself_of_scopeKinds hkinds hmem
    · exact absurd hmem (by simp)
    · exact absurd hmem (by simp)
  have hpre : pre = [] := by
    rw [hshape.1] at hs
    cases pre with
    | nil => rfl
    | cons y pre =>
        obtain ⟨-, hrest⟩ := List.cons.inj hs
        cases pre with
        | nil => cases (List.cons.inj hrest).1
        | cons z pre => exact absurd (List.cons.inj hrest).2 (by simp)
  refine ⟨hblock ▸ hshape.2, hasInner_of_opening hkeys h (scopeAt?_lt ha) ?_⟩
  rw [mem_openings_plan]
  refine ⟨k, hvisit, st, hst, [.functionName], .function, [], hshape.1, ?_⟩
  rw [haround, hpre, hblock]
  rfl

/-- What is bound at a visited node is not bound in the scope of a function's name. -/
theorem Walk.Declares.not_functionName (h : Declares g n c c' target p d) (hc : Over c n)
    {y : ScopeKind × Node} (hy : y ∈ c'.head?) : y.1 ≠ .functionName := by
  have hout : y ∈ c.head? → y.1 ≠ .functionName := fun hy => (hc.2 y hy).1
  have hin : ∀ {f kinds isMethod}, scopeKinds? f isMethod = some kinds →
      y ∈ (inside c f kinds).head? → y.1 ≠ .functionName := fun hk hy => by
    rcases scopeKinds_shape hk with rfl | ⟨kind, rfl, hne, -⟩
    · cases hy
      exact nofun
    · cases hy
      exact hne
  cases h with
  | «variable» | functionName | className | imported => exact hout hy
  | parameter h hk | innerName h hk | caught h hk | turn h hk => exact hin hk hy
  | deadZone =>
      cases hy
      exact nofun

/-- Only its own `var` declarations would be held by the scope of a function's name: right inside
it is the function. -/
theorem eq_of_variableScope (h : analyze o tree = .ok s) (ha : s.scopeAt? i = some a)
    (hk : a.kind = .functionName) (hj : s.variableScope? j = some i) : j = i := by
  have hfin := analyze_finished Tree.hereditary_true trivial h
  have hattests := analyze_attests h
  induction j using hfin.sound.rooted.induction with
  | step j ih =>
    obtain ⟨b, hb, hscope⟩ := Option.map_eq_some_iff.1 hj
    have hholder := hattests.holder j b hb
    rw [hscope] at hholder
    split at hholder
    · exact hholder.symm
    · rename_i hholds
      cases hu : b.upper with
      | none =>
          rw [hu] at hholder
          exact hholder.symm
      | some u =>
          have huj : s.upperOf j = some u := (upperOf_eq hb).trans hu
          obtain ⟨e, he⟩ := scopeAt?_of_lt ((hfin.sound.rooted j u huj).trans (scopeAt?_lt hb))
          have hvu : s.variableScope? u = some e.variableScope := by rw [variableScope?, he]; rfl
          rw [hu, Option.bind_some, hvu, Option.getD_some] at hholder
          obtain rfl := ih u huj (hholder ▸ hvu)
          have hchain := isChain_of_mem_openings (mem_openings_of_scope h (scopeAt?_lt hb))
          obtain ⟨c, hc⟩ := around_head hfin.sound.rooted ha
          rw [around_step hfin.sound.rooted hb hu, hc, hk] at hchain
          have hfunction := (not_twins_of_below (List.isChain_cons_cons.1 hchain).1).2.2 rfl
          exact absurd (by rw [show b.kind = .function from hfunction]; rfl) hholds

/-- In the scope of a function's name every entry is for that name. -/
theorem name_of_entry (h : analyze o tree = .ok s) (ha : s.scopeAt? i = some a)
    (hk : a.kind = .functionName) (hf : a.table.find? key = some v) :
    Name.ofTree? ((a.block.get "id").value.get "name") = some key := by
  have hfin := analyze_finished Tree.hereditary_true trivial h
  have hbare : a.implicit = [] := hfin.bare i a ha (by rw [hk]; nofun)
  obtain ⟨var, hvar, -⟩ := hfin.sound.of_find? ha hf
  have hdeclared := mem_declared ha hf (by rw [hbare]; rfl) hvar
  obtain ⟨var', hvar', hempty, hdefs⟩ := (analyze_attests h).declared i a ha _ hdeclared
  cases hd : var'.defs with
  | nil =>
      rw [(hempty hd).1] at hk
      cases hk
  | cons d rest =>
      rcases hdefs d (hd ▸ List.mem_cons_self) with ⟨j, target, n, hj, ht, hl, -, -⟩ | hself
      · -- A binding that was met there would be met in a scope of a function's name.
        obtain ⟨k, hvisit, hl⟩ := mem_leaves_plan.1 hl
        have hji : j = i := by
          cases target with
          | here => exact Option.some.inj ht
          | hoisted => exact eq_of_variableScope h ha hk ht
        subst hji
        obtain ⟨c, hc⟩ := around_head hfin.sound.rooted ha
        rw [hc] at hl
        exact absurd hk ((define_mem_own.1 hl).not_functionName (visited_over hvisit) rfl)
      · exact hself.2.2.2

/-- **The scope of a function's name holds that name only.** -/
theorem table_functionName (h : analyze o tree = .ok s) (ha : s.scopeAt? i = some a)
    (hk : a.kind = .functionName) (hf : a.table.find? key = some v) : a.table = [(key, v)] := by
  have hfin := analyze_finished Tree.hereditary_true trivial h
  have hnames : ∀ e ∈ a.table, Name.ofTree? ((a.block.get "id").value.get "name") = some e.1 :=
    fun e he => name_of_entry h ha hk (Table.find?_of_mem (hfin.distinct i a ha) he)
  have hmem := Table.mem_of_find? hf
  have hkey := hnames _ hmem
  have hnodup : (a.table.map (·.1)).Nodup := hfin.distinct i a ha
  cases ht : a.table with
  | nil =>
      rw [ht] at hmem
      cases hmem
  | cons e rest =>
      have hall : ∀ e' ∈ a.table, e'.1 = key := fun e' he' =>
        Option.some.inj ((hnames e' he').symm.trans hkey)
      cases rest with
      | nil =>
          rw [ht] at hmem
          rw [List.mem_singleton.1 hmem]
      | cons e' rest =>
          rw [ht] at hnodup hall
          have h₁ := hall e List.mem_cons_self
          have h₂ := hall e' (List.mem_cons_of_mem _ List.mem_cons_self)
          rw [List.map_cons, List.nodup_cons, List.map_cons, h₁, h₂] at hnodup
          exact absurd List.mem_cons_self hnodup.1

/-! ### What the kinds prescribe -/

/-- A declaration is met in the scopes around a place of the walk: it is visited there, or it is the
head of an iteration that is visited there and declares its names for each turn. -/
inductive Walk.MetAt (g : Gates) (tree : Tree) : Node → Around → Prop
  | visited {k : Call} (hk : k ∈ visits g (.root tree)) (h : Family.declaration.Covers k.node) :
      MetAt g tree k.node k.around
  | head {k : Call} {kinds : List ScopeKind} (hk : k ∈ visits g (.root tree))
      (h : IteratesLexically g k.node) (hkinds : scopeKinds? k.node false = some kinds) :
      MetAt g tree (k.node.get "left") (inside k.around k.node kinds)

/-- A definition is in a scope that its kind prescribes. -/
def Store.Prescribes (s : Store) (o : Options) (tree : Tree) (i : ScopeId) (a : Scope)
    (d : Definition) : Prop :=
  match d.kind with
  | .variable => d.declarationKind = .str "var" → a.variableScope = i ∧
      ∃ j, j < s.scopes.size ∧ MetAt (.ofOptions o) tree d.parent (s.around j) ∧
        s.variableScope? j = some i
  | .deadZone => a.kind = .deadZone
  | .parameter => a.kind = .function ∧ a.block = d.node ∧ ∃ (n : Nat) (params : List Node)
      (param : Node), d.index = .int n ∧ (d.node.get "params").sequence? = some params ∧
        params[n]? = some param ∧ d.name ∈ Pattern.bound param
  | .catchClause => a.kind = .catchClause ∧ a.block = d.node
  | .functionName =>
      (d.node.hasType "FunctionExpression" = true → a.kind = .functionName ∧ a.block = d.node ∧
        (∃ e, a.table = [e]) ∧ s.HasInner i .function d.node) ∧
      (d.node.hasType "FunctionDeclaration" = true → s.HasInner i .function d.node) ∧
      (d.node.hasType "FunctionExpression" = true ∨ d.node.hasType "FunctionDeclaration" = true)
  | .className => a.block = d.node ∨
      d.node.hasType "ClassDeclaration" = true ∧ s.HasInner i .classBody d.node
  | _ => True

/-- A scope that holds its own `var` declarations holds them. -/
theorem holds_of_kind (h : analyze o tree = .ok s) (ha : s.scopeAt? i = some a)
    (hk : a.kind.holdsVars = true) : a.variableScope = i := by
  rw [(analyze_attests h).holder i a ha, if_pos hk]

/-- The names of a head are declared with `var` only where the scope of a turn is a function's. -/
theorem Walk.around_turn (h : IteratesLexically g n) (hk : scopeKinds? n false = some kinds)
    (hvar : ((n.get "left").get "kind").value = .str "var") :
    inside c n kinds = (.function, n) :: c := by
  rcases h with h | ⟨-, -, hlexical⟩
  · obtain ⟨type, ht, hfamily⟩ := Option.map_eq_some_iff.1 h
    have htype : type = "lexical_for_in" := by
      unfold Family.ofType at hfamily
      split at hfamily <;> first | rfl | cases hfamily
    have hn : n.hasType "lexical_for_in" = true := by
      rw [Node.hasType, Grammar.type_eq ht, htype]
      rfl
    have hname := namesItself_of_hasType hn (by decide)
    rw [scopeKinds_of_hasType hn, hname, Bool.and_false, Bool.false_and, if_neg (by decide)] at hk
    cases hk
    rfl
  · simp [isLexical, hvar] at hlexical

/-- What the table makes of a definition is prescribed by its kind. -/
theorem prescribed_of_declares (hkeys : tree.DistinctKeys) (h : analyze o tree = .ok s)
    (hk : k ∈ visits (.ofOptions o) (.root tree)) (hj : j < s.scopes.size)
    (hd : Declares (.ofOptions o) k.node k.around (s.around j) target p d)
    (ht : target.scope? s j = some i) (ha : s.scopeAt? i = some a) :
    s.Prescribes o tree i a d := by
  have hfin := analyze_finished Tree.hereditary_true trivial h
  have hrooted := hfin.sound.rooted
  obtain ⟨head, hhead⟩ := around_head hrooted ha
  have hat : ∀ {kind n c}, s.around i = (kind, n) :: c → a.kind = kind ∧ a.block = n := fun he =>
    Prod.mk.inj (List.cons.inj (hhead.symm.trans he)).1
  have hlt := scopeAt?_lt ha
  generalize hc : s.around j = c' at hd
  cases hd with
  | «variable» hf hs hx ho hp =>
      intro hvar
      have hvar : (k.node.get "kind").value = .str "var" := hvar
      rw [if_pos hvar] at ht
      obtain ⟨b, hb, hscope⟩ := Option.map_eq_some_iff.1 ht
      obtain ⟨b', hb', hheld⟩ := (analyze_records h).hoisting.held j b hb
      rw [hscope] at hb' hheld
      exact ⟨Option.some.inj (hb'.symm.trans ha) ▸ hheld, j, hj, hc ▸ .visited hk hf, ht⟩
  | functionName hf htype =>
      obtain rfl := Option.some.inj ht
      refine ⟨fun hexp => ?_, fun _ => ?_, .inr htype⟩
      · exact absurd (hasType_unique hexp htype) (by decide)
      · have hname := namesItself_of_hasType htype (by decide)
        exact hasInner_of_visit hkeys h hlt hk hc hf rfl htype hname
  | parameter hr hkinds hs hi hp =>
      obtain rfl := Option.some.inj ht
      obtain ⟨c', he⟩ := hr.around hkinds k.around
      obtain ⟨hkind, hblock⟩ := hat (hc.trans he)
      exact ⟨hkind, hblock, _, _, _, rfl, hs, hi, hp⟩
  | className hf htype =>
      obtain rfl := Option.some.inj ht
      have hname := namesItself_of_hasType htype (by decide)
      exact .inr ⟨htype, hasInner_of_visit hkeys h hlt hk hc hf rfl htype hname⟩
  | innerName hf hkinds hid =>
      obtain rfl := Option.some.inj ht
      refine .inl ?_
      have hy := head_inside hkinds (y := (a.kind, a.block)) (c := k.around)
        (by rw [← hc, hhead]; rfl)
      exact hy
  | caught hf hkinds hp =>
      obtain rfl := Option.some.inj ht
      exact hat (hc.trans (around_catchClause hf hkinds))
  | deadZone hl hx hp =>
      obtain rfl := Option.some.inj ht
      exact (hat hc).1
  | turn hl hkinds hx hp =>
      obtain rfl := Option.some.inj ht
      intro hvar
      have hkind := (hat (hc.trans (around_turn hl hkinds hvar))).1
      have hheld : a.variableScope = j := holds_of_kind h ha (by rw [hkind]; rfl)
      exact ⟨hheld, j, hj, hc ▸ .head hk hl hkinds,
        by rw [variableScope?, ha, Option.map_some, hheld]⟩
  | imported => exact trivial

/-- **Every definition is in a scope that its kind prescribes.** -/
theorem prescribed (hkeys : tree.DistinctKeys) (h : analyze o tree = .ok s)
    (ha : s.scopeAt? i = some a) (hf : a.table.find? key = some v)
    (hv : s.variableAt? v = some var) (hd : d ∈ var.defs) : s.Prescribes o tree i a d := by
  have hfin := analyze_finished Tree.hereditary_true trivial h
  rcases (analyze_attests h).origin hfin ha hf hv hd with
    ⟨j, target, n, hj, ht, hl, -, -⟩ | ⟨hk, rfl, -, -⟩ | ⟨-, r, ref, c, -, -, -, -, rfl⟩
  · obtain ⟨k, hk, hl⟩ := mem_leaves_plan.1 hl
    exact prescribed_of_declares hkeys h hk hj (define_mem_own.1 hl) ht ha
  · obtain ⟨hexp, hinner⟩ := functionName_scope hkeys h ha hk
    have htable := table_functionName h ha hk hf
    exact ⟨fun _ => ⟨hk, rfl, ⟨_, htable⟩, hinner⟩, fun _ => hinner, .inl hexp⟩
  · intro hvar
    cases hvar

/-- What a table of definitions has under the name of an identifier. -/
def Store.HasDefinition (s : Store) (a : Scope) (p : Node) (d : Definition) : Prop :=
  ∃ key v var, Name.ofTree? (p.value.get "name") = some key ∧ a.table.find? key = some v ∧
    s.variableAt? v = some var ∧ d ∈ var.defs

/-- Every binding is in the scope that its kind prescribes, and none is missing. -/
structure Store.Binds (s : Store) (o : Options) (tree : Tree) : Prop where
  prescribed : ∀ i a key v var d, s.scopeAt? i = some a → a.table.find? key = some v →
    s.variableAt? v = some var → d ∈ var.defs → s.Prescribes o tree i a d
  /-- An identifier of the table is defined in the scope that the table tells by what is around. -/
  defined : ∀ k ∈ visits (.ofOptions o) (.root tree), ∀ c target p d,
    Declares (.ofOptions o) k.node k.around c target p d → p.isIdentifier = true →
      ∃ j i a, j < s.scopes.size ∧ s.around j = c ∧ target.scope? s j = some i ∧
        s.scopeAt? i = some a ∧ s.HasDefinition a p d
  /-- The name of a function expression is defined in the scope that is made for it. -/
  named : ∀ i a, s.scopeAt? i = some a → a.kind = .functionName →
    (a.block.get "id").isIdentifier = true → s.HasDefinition a (a.block.get "id") (.ofFunction a.block)

/-- **Every binding lands in the scope that its kind prescribes.** -/
theorem analyze_bindings (hkeys : tree.DistinctKeys) (h : analyze o tree = .ok s) :
    s.Binds o tree := by
  have hfin := analyze_finished Tree.hereditary_true trivial h
  have hattests := analyze_attests h
  refine ⟨fun i a key v var d => prescribed hkeys h, fun k hk c target p d hd hid => ?_,
    fun i a ha hk hid => ?_⟩
  · obtain ⟨j, i, key, var, hj, hc, ht, hkey, hdeclared, hmem⟩ := hattests.bound c target p d
      (mem_leaves_plan.2 ⟨k, hk, define_mem_own.2 hd⟩) hid
    have hi : i < s.scopes.size := by
      by_contra hge
      rw [declared, scopeAt?_eq_none.2 (Nat.le_of_not_lt hge)] at hdeclared
      cases hdeclared
    obtain ⟨a, ha⟩ := scopeAt?_of_lt hi
    obtain ⟨v, var', hf, -, hv, hdefs⟩ := find?_of_mem_declared hfin.distinct ha hdeclared
    exact ⟨j, i, a, hj, hc, ht, ha, key, v, var', hkey, hf, hv, hdefs ▸ hmem⟩
  · obtain ⟨key, var, hdeclared, hmem⟩ := hattests.named i a ha hk hid
    obtain ⟨v, var', hf, -, hv, hdefs⟩ := find?_of_mem_declared hfin.distinct ha hdeclared
    exact ⟨key, v, var', name_of_entry h ha hk hf, hf, hv, hdefs ▸ hmem⟩

/-- `(function f(p) { try {} catch (e) { var x; } })` -/
def hoistedProgram : Tree :=
  let name (text : String) : Tree := .obj [("type", .str "Identifier"), ("name", .str text)]
  let block (body : List Tree) : Tree := .obj [("type", .str "BlockStatement"), ("body", .arr body)]
  let declaration : Tree :=
    .obj [("type", .str "VariableDeclaration"), ("kind", .str "var"),
      ("declarations", .arr [.obj [("type", .str "VariableDeclarator"), ("id", name "x")]])]
  let handler : Tree :=
    .obj [("type", .str "CatchClause"), ("param", name "e"), ("body", block [declaration])]
  .obj [("type", .str "Program"), ("body", .arr [
    .obj [("type", .str "ExpressionStatement"),
      ("expression", .obj [("type", .str "FunctionExpression"), ("id", name "f"),
        ("params", .arr [name "p"]),
        ("body", block [.obj [("type", .str "TryStatement"), ("block", block []),
          ("handler", handler)]])])]])]

/-- The variable that is declared in the `catch` is one of the function. -/
theorem hoistedProgram_bindings : hoistedProgram.DistinctKeys ∧
    ∃ s, analyze {} hoistedProgram = .ok s ∧ s.Binds {} hoistedProgram ∧
      s.scopes.toList.map (fun a => (a.kind, a.table.map (·.1))) =
        [(.global, []), (.functionName, [.text "f"]),
          (.function, [.text "arguments", .text "p", .text "x"]), (.block, []),
          (.catchClause, [.text "e"]), (.block, [])] := by
  have hkeys : hoistedProgram.DistinctKeys := by decide +kernel
  have hview : (analyze {} hoistedProgram).toOption.map (fun s =>
      s.scopes.toList.map (fun a => (a.kind, a.table.map (·.1)))) =
        some [(.global, []), (.functionName, [.text "f"]),
          (.function, [.text "arguments", .text "p", .text "x"]), (.block, []),
          (.catchClause, [.text "e"]), (.block, [])] := by
    decide +kernel
  cases hs : analyze {} hoistedProgram with
  | error e =>
      rw [hs] at hview
      cases hview
  | ok s =>
      rw [hs] at hview
      exact ⟨hkeys, s, rfl, analyze_bindings hkeys hs, Option.some.inj hview⟩

end LexScope
