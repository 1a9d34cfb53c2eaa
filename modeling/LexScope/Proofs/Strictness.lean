import LexScope.Proofs.Edits

/-!
# Proofs — Strictness — a scope is strict because something above it says so

What makes a scope strict is said without reading a prologue step by step: one of its statements is
a directive for strict mode and all before it are directives (`HasUseStrict`); the classes and the
modules need none (`Scope.DeclaresStrict`).

* `Directive.prologue?_iff`: the prologue loop finds such a statement if there is one, in either
  way of telling directives, and for every list it can read.
* `Store.Inherits`: every scope was told by the scope above whether it is strict; edits keep this.
* `Arises.strict_iff`: **a scope is strict exactly if everything is, or a scope on the way up from
  it declares it.**
* `Arises.strict_of_mem_chain`: what is strict stays strict further down.
* `Edits.spares`: a walk makes no reference with a candidate in a strict scope.
-/

namespace LexScope

open Store LexScope.Action

/-! ### Directives -/

/-- A statement is a directive: it has the field of one, or the form of a text standing alone. -/
def Node.IsDirective (byField : Bool) (statement : Node) : Prop :=
  statement.hasType "ExpressionStatement" = true ∧
    if byField then (statement.get "directive").isNull = false
    else (statement.get "expression").hasType "Literal" = true ∧
      ∃ text, (statement.value.get "expression").get "value" = .str text

/-- A directive asks for strict mode: the field says so, or else the source text does, or else,
where that is not known, the value. -/
def Node.SaysUseStrict (byField : Bool) (statement : Node) : Prop :=
  if byField then statement.value.get "directive" = .str "use strict"
  else
    let literal := statement.value.get "expression"
    literal.get "raw" = .str "\"use strict\"" ∨ literal.get "raw" = .str "'use strict'" ∨
      literal.get "raw" = .null ∧ literal.get "value" = .str "use strict"

/-- One of the statements is a directive for strict mode, and all before it are directives. -/
def HasUseStrict (byField : Bool) (statements : List Node) : Prop :=
  ∃ (i : Nat) (statement : Node), statements[i]? = some statement ∧
    statement.IsDirective byField ∧ statement.SaysUseStrict byField ∧
    ∀ j, j < i → ∀ earlier : Node, statements[j]? = some earlier → earlier.IsDirective byField

/-- What a scope belongs to declares it strict: it is a class or a module, or the statements of its
program or of its function's block begin with directives that say so. -/
def DeclaresStrict (byField : Bool) (kind : ScopeKind) (n : Node) : Prop :=
  match kind with
  | .classBody | .moduleTop => True
  | .global => HasUseStrict byField (n.get "body").items
  | .function =>
      (n.get "body").hasType "BlockStatement" = true ∧
        HasUseStrict byField ((n.get "body").get "body").items
  | _ => False

namespace Directive

variable {byField : Bool} {statement : Node} {d : Directive} {statements : List Node}

theorem ofBool_ne_none (b : Bool) : ofBool b ≠ .none := by cases b <;> nofun

theorem ofBool_eq_useStrict {b : Bool} : ofBool b = .useStrict ↔ b = true := by
  cases b <;> simp [ofBool]

/-- What the field says. -/
theorem ofField_spec (statement : Node) :
    (ofField statement ≠ .none ↔ (statement.get "directive").isNull = false) ∧
      (ofField statement = .useStrict ↔ statement.value.get "directive" = .str "use strict") := by
  rw [ofField, Node.isNull]
  show (_ ↔ decide (statement.value.get "directive" = .null) = false) ∧ _
  by_cases hn : (statement.get "directive").value = .null
  · have hv : statement.value.get "directive" = .null := hn
    simp [hn, hv]
  · have hv : ¬ statement.value.get "directive" = .null := hn
    rw [if_neg hn]
    exact ⟨by simp [ofBool_ne_none, hv], by rw [ofBool_eq_useStrict, decide_eq_true_iff]; rfl⟩

/-- What the form says. -/
theorem ofLiteral_spec (e : Tree) :
    (ofLiteral e ≠ .none ↔ e.get "type" = .str "Literal" ∧ ∃ text, e.get "value" = .str text) ∧
      (ofLiteral e = .useStrict ↔ (e.get "type" = .str "Literal" ∧
        ∃ text, e.get "value" = .str text) ∧ (e.get "raw" = .str "\"use strict\"" ∨
          e.get "raw" = .str "'use strict'" ∨
          e.get "raw" = .null ∧ e.get "value" = .str "use strict")) := by
  unfold ofLiteral
  split
  · rename_i text htype hvalue
    rw [htype, hvalue]
    by_cases hraw : e.get "raw" = .null
    · rw [if_pos hraw, hraw]
      exact ⟨by simp [ofBool_ne_none], by simp [ofBool_eq_useStrict]⟩
    · rw [if_neg hraw]
      exact ⟨by simp [ofBool_ne_none], by simp [ofBool_eq_useStrict, hraw]⟩
  · rename_i hform
    have hno : ¬ (e.get "type" = .str "Literal" ∧ ∃ text, e.get "value" = .str text) :=
      fun ⟨ht, text, hv⟩ => hform text ht hv
    exact ⟨by simp [hno], by simp [hno]⟩

/-- **What a statement means for the prologue**: whether it is a directive, and which. -/
theorem ofStatement?_spec (h : ofStatement? byField statement = some d) :
    (d ≠ .none ↔ statement.IsDirective byField) ∧
      (d = .useStrict ↔ statement.IsDirective byField ∧ statement.SaysUseStrict byField) := by
  rw [ofStatement?] at h
  split at h
  · cases h
  cases ht : statement.hasType "ExpressionStatement" with
  | false =>
      simp only [ht, Bool.not_false, if_true, Option.some.injEq] at h
      subst h
      simp [Node.IsDirective, ht]
  | true =>
      simp only [ht, Bool.not_true, Bool.false_eq_true, if_false] at h
      cases byField with
      | true =>
          obtain rfl := Option.some.inj h
          obtain ⟨hd, hu⟩ := ofField_spec statement
          refine ⟨by simp [Node.IsDirective, ht, hd], ?_⟩
          rw [hu]
          simp only [Node.IsDirective, Node.SaysUseStrict, ht, if_true, true_and]
          refine ⟨fun hv => ⟨?_, hv⟩, And.right⟩
          show decide (statement.value.get "directive" = .null) = false
          rw [hv]
          rfl
      | false =>
          obtain ⟨e, he, rfl⟩ := Option.map_eq_some_iff.1 h
          obtain ⟨hd, hu⟩ := ofLiteral_spec e
          simp only [Tree.get_of_objectAt? he] at hd hu
          have htype : (statement.get "expression").hasType "Literal" = true ↔
              (statement.value.get "expression").get "type" = .str "Literal" :=
            decide_eq_true_iff
          refine ⟨?_, ?_⟩
          · rw [hd]
            simp [Node.IsDirective, ht, htype]
          · rw [hu]
            simp [Node.IsDirective, Node.SaysUseStrict, ht, htype]

/-- A directive at the head adds nothing but its own word. -/
theorem hasUseStrict_cons (hd : statement.IsDirective byField) :
    HasUseStrict byField (statement :: statements) ↔
      statement.SaysUseStrict byField ∨ HasUseStrict byField statements := by
  constructor
  · rintro ⟨i, st, hi, hdir, hword, hbefore⟩
    cases i with
    | zero =>
        obtain rfl := Option.some.inj hi
        exact .inl hword
    | succ i =>
        exact .inr ⟨i, st, hi, hdir, hword, fun j hj e he =>
          hbefore (j + 1) (Nat.succ_lt_succ hj) e he⟩
  · rintro (hword | ⟨i, st, hi, hdir, hword, hbefore⟩)
    · exact ⟨0, statement, rfl, hd, hword, nofun⟩
    · refine ⟨i + 1, st, hi, hdir, hword, fun j hj e he => ?_⟩
      cases j with
      | zero => exact Option.some.inj he ▸ hd
      | succ j => exact hbefore j (Nat.lt_of_succ_lt_succ hj) e he

/-- What is no directive ends the prologue. -/
theorem not_hasUseStrict_cons (hd : ¬ statement.IsDirective byField) :
    ¬ HasUseStrict byField (statement :: statements) := by
  rintro ⟨i, st, hi, hdir, -, hbefore⟩
  cases i with
  | zero => exact hd (Option.some.inj hi ▸ hdir)
  | succ i => exact hd (hbefore 0 i.succ_pos statement rfl)

/-- **The prologue loop finds what it looks for**: it answers exactly whether one of the statements
is a directive for strict mode with only directives before it. -/
theorem prologue?_iff {b : Bool} (h : prologue? byField statements = some b) :
    b = true ↔ HasUseStrict byField statements := by
  induction statements with
  | nil =>
      obtain rfl := Option.some.inj h
      simp [HasUseStrict]
  | cons statement rest ih =>
      rw [prologue?] at h
      cases hd : ofStatement? byField statement with
      | none => rw [hd] at h; cases h
      | some d =>
          obtain ⟨hdir, hstrict⟩ := ofStatement?_spec hd
          rw [hd] at h
          cases d with
          | useStrict =>
              obtain rfl := Option.some.inj h
              obtain ⟨his, hword⟩ := hstrict.1 rfl
              exact ⟨fun _ => (hasUseStrict_cons his).2 (.inl hword), fun _ => rfl⟩
          | other =>
              have his := hdir.1 nofun
              have hno : ¬ statement.SaysUseStrict byField := fun hword => by
                cases hstrict.2 ⟨his, hword⟩
              rw [ih h, hasUseStrict_cons his, or_iff_right hno]
          | none =>
              obtain rfl := Option.some.inj h
              have hno : ¬ statement.IsDirective byField := fun his => hdir.2 his rfl
              exact ⟨nofun, fun hu => absurd hu (not_hasUseStrict_cons hno)⟩

/-! ### The statements of a program or a function -/

/-- Nothing that is no object has a readable prologue. -/
theorem prologue?_eq_none (hn : statement.isObj = false) :
    prologue? byField (statement :: statements) = Option.none := by
  rw [prologue?, ofStatement?, hn]
  rfl

/-- What can be read as a prologue at a member is read off the items there. -/
theorem sequence?_iff {n : Node} {b : Bool} (hs : n.sequence? = some statements)
    (h : prologue? byField statements = some b) :
    b = true ↔ HasUseStrict byField n.items := by
  rw [prologue?_iff h]
  suffices hitems : statements = n.items by rw [hitems]
  rw [Node.sequence?] at hs
  rw [Node.items]
  cases hv : n.value with
  | arr items =>
      rw [hv] at hs
      cases items with
      | nil => exact (Option.some.inj hs).symm
      | cons t ts => exact (Option.some.inj hs).symm
  | str text =>
      rw [hv] at hs
      -- The characters of a text are no statements, so only the empty text can be read.
      by_cases ht : text = ""
      · subst ht
        exact (Option.some.inj hs).symm
      · have htruthy : (Tree.str text).truthy = true := by simpa [Tree.truthy] using ht
        rw [htruthy] at hs
        obtain rfl := Option.some.inj hs
        cases hl : text.toList with
        | nil => rfl
        | cons c cs =>
            rw [hl] at h
            rw [show Node.itemsFrom n.path 0 ((c :: cs).map fun c => Tree.str c.toString) =
              ⟨n.path ++ [.item 0], .str c.toString⟩ :: _ from rfl] at h
            rw [prologue?_eq_none rfl] at h
            cases h
  | obj members =>
      rw [hv] at hs
      cases members with
      | nil => exact (Option.some.inj hs).symm
      | cons m ms =>
          obtain rfl := Option.some.inj hs
          rw [List.map_cons, Node.itemsFrom, prologue?_eq_none rfl] at h
          cases h
  | null => rw [hv] at hs; exact (Option.some.inj hs).symm
  | bool b =>
      rw [hv] at hs
      cases b with
      | false => exact (Option.some.inj hs).symm
      | true => cases hs
  | int k =>
      rw [hv] at hs
      cases hk : (Tree.int k).truthy with
      | false => rw [hk] at hs; exact (Option.some.inj hs).symm
      | true => rw [hk] at hs; cases hs
  | float bits =>
      rw [hv] at hs
      cases hk : (Tree.float bits).truthy with
      | false => rw [hk] at hs; exact (Option.some.inj hs).symm
      | true => rw [hk] at hs; cases hs

end Directive

/-- **Whether a new scope is strict**: everything is, or the scope above it, or it is declared. -/
theorem isStrict?_iff {o : Options} {kind : ScopeKind} {n : Node} {above strict : Bool}
    (h : isStrict? o kind n above = some strict) :
    strict = true ↔ o.impliedStrict.truthy = true ∨ above = true ∨
      DeclaresStrict o.directive.truthy kind n := by
  rw [isStrict?] at h
  split at h
  · rename_i hup
    obtain rfl := Option.some.inj h
    simp only [Bool.or_eq_true] at hup
    exact ⟨fun _ => hup.imp_right .inl, fun _ => rfl⟩
  rename_i hup
  simp only [Bool.or_eq_true, not_or] at hup
  rw [or_iff_right hup.1, or_iff_right hup.2]
  split at h
  · rename_i hkind
    obtain rfl := Option.some.inj h
    simp only [Bool.or_eq_true, decide_eq_true_iff] at hkind
    rcases hkind with rfl | rfl <;> exact ⟨fun _ => trivial, fun _ => rfl⟩
  · rename_i hkind
    obtain ⟨statements, hs, hp⟩ := Option.bind_eq_some_iff.1 h
    have hplain : statements = [] → (strict = true ↔ False) := by
      rintro rfl
      obtain rfl := Option.some.inj hp
      simp
    cases kind with
    | global => exact Directive.sequence?_iff hs hp
    | function =>
        rw [prologueOf?] at hs
        split at hs
        · cases hs
        split at hs
        · rename_i hblock
          rw [hplain (Option.some.inj hs).symm]
          simp only [Bool.not_eq_true'] at hblock
          simp [DeclaresStrict, hblock]
        · rename_i hblock
          simp only [Bool.not_eq_true', Bool.not_eq_false] at hblock
          rw [Directive.sequence?_iff hs hp]
          exact (and_iff_right hblock).symm
    | moduleTop => exact absurd rfl hkind
    | classBody => exact absurd rfl hkind
    | _ => exact hplain (Option.some.inj hs).symm

/-! ### Every scope inherits -/

namespace Store

variable {o : Options} {s t : Store} {i j : ScopeId} {a b : Scope}

/-- Every scope is as strict as it was told to be when it opened. -/
def Inherits (s : Store) : Prop :=
  ∀ i a, s.scopeAt? i = some a → ∃ above, s.strictAt? a.upper = some above ∧
    isStrict? s.options a.kind a.block above = some a.strict

/-- What a scope that keeps is says of strictness stays the same. -/
theorem strictAt?_of_frame {u : Option ScopeId} {above : Bool}
    (h : ∀ i < s.scopes.size, t.frameAt? i = s.frameAt? i) (hu : s.strictAt? u = some above) :
    t.strictAt? u = some above := by
  cases u with
  | none => exact hu
  | some u =>
      have hf := congrArg (Option.map fun f => f.2.2.2.1)
        (h u (upper_lt_of_strictAt? hu u rfl))
      rw [frameAt?, frameAt?, Option.map_map, Option.map_map] at hf
      exact hf.trans hu

/-- An edit keeps what every scope inherits. -/
theorem Inherits.edit {R : Store → ScopeId → Use → Prop} (h : s.Inherits) (he : Edit R s t)
    (hs : s.Rooted) : t.Inherits := by
  have hold : ∀ i < s.scopes.size, t.frameAt? i = s.frameAt? i := fun i hi =>
    Edits.frameAt? (.single he) hs hi
  -- What was there is as it was; what is new was told at this moment.
  have hkeep : ∀ i b, i < s.scopes.size → t.scopeAt? i = some b →
      ∃ above, t.strictAt? b.upper = some above ∧
        isStrict? t.options b.kind b.block above = some b.strict := by
    intro i b hi hb
    obtain ⟨a, ha⟩ := scopeAt?_of_lt hi
    obtain ⟨above, habove, hstrict⟩ := h i a ha
    have hf := hold i hi
    rw [frameAt?, frameAt?, ha, hb] at hf
    have hframe : b.frame = a.frame := Option.some.inj hf
    rw [Scope.kind_of_frame hframe, Scope.block_of_frame hframe, Scope.upper_of_frame hframe,
      Scope.strict_of_frame hframe, he.options]
    exact ⟨above, strictAt?_of_frame hold habove, hstrict⟩
  rcases he.frames hs with hf | ⟨kind, n, upper, above, strict, habove, hstrict, rfl⟩
  · intro i b hb
    exact hkeep i b (size_scopes_of_frame hf ▸ scopeAt?_lt hb) hb
  · intro i b hb
    by_cases hi : i < s.scopes.size
    · exact hkeep i b hi hb
    · obtain ⟨-, rfl⟩ | ⟨a, -, ha, -⟩ :=
        scopeAt?_addScope_cases (upper_lt_of_strictAt? habove) hb
      · exact ⟨above, strictAt?_of_frame hold habove, by rwa [options_addScope]⟩
      · exact absurd (scopeAt?_lt ha) hi

theorem Arises.inherits (h : Arises o s) : s.Inherits := by
  have hrun := h.edits
  clear h
  induction hrun with
  | refl => exact fun i a ha => by cases ha
  | tail hst he ih => exact ih.edit he (Edits.rooted hst (Sound.new o).rooted)

/-- **A scope is strict exactly if everything is, or a scope on the way up from it declares it.** -/
theorem Arises.strict_iff (h : Arises o s) (ha : s.scopeAt? i = some a) :
    a.strict = true ↔ o.impliedStrict.truthy = true ∨
      ∃ j ∈ s.chain i, ∃ b, s.scopeAt? j = some b ∧
        DeclaresStrict o.directive.truthy b.kind b.block := by
  induction i using h.rooted.induction generalizing a with
  | step i ih =>
      obtain ⟨above, habove, hstrict⟩ := h.inherits i a ha
      have hi := isStrict?_iff hstrict
      rw [h.options] at hi
      cases hu : a.upper with
      | none =>
          rw [hu] at habove
          obtain rfl := Option.some.inj habove
          rw [hi, chain_top h.rooted ((upperOf_eq ha).trans hu)]
          simp [ha]
      | some u =>
          have hup := (upperOf_eq ha).trans hu
          rw [hu] at habove
          obtain ⟨b, hb, rfl⟩ := Option.map_eq_some_iff.1 habove
          rw [hi, ih u hup hb, chain_step h.rooted hup]
          simp only [List.mem_cons, exists_eq_or_imp, ha, Option.some.injEq, exists_eq_left']
          have hshuffle : ∀ p q r : Prop, p ∨ (p ∨ q) ∨ r ↔ p ∨ r ∨ q := by tauto
          exact hshuffle _ _ _

/-- What is strict stays strict further down. -/
theorem Arises.strict_of_mem_chain (h : Arises o s) (ha : s.scopeAt? i = some a)
    (hb : s.scopeAt? j = some b) (hij : i ∈ s.chain j) (hstrict : a.strict = true) :
    b.strict = true := by
  rw [h.strict_iff hb]
  refine ((h.strict_iff ha).1 hstrict).imp_right ?_
  rintro ⟨k, hk, c, hc, hdecl⟩
  exact ⟨k, mem_chain_trans h.rooted hij hk, c, hc, hdecl⟩

/-! ### What walks leave out -/

/-- From a given reference on, those made in strict scopes have no candidate. -/
def Spares (s : Store) (start : ReferenceId) : Prop :=
  ∀ r ref a, start ≤ r → s.referenceAt? r = some ref → s.scopeAt? ref.scope = some a →
    a.strict = true → ref.candidate = none

/-- A walk makes no reference with a candidate in a strict scope. -/
theorem Edits.spares (h : Edits Guarded s t) (hs : s.Rooted) : t.Spares s.references.size := by
  -- Where it was made, the scope was there and as strict as it is now.
  have hguarded : ∀ r u i, s.references.size ≤ r → t.useAt? r = some (u, i) → Guarded t i u := by
    induction h with
    | refl =>
        intro r u i hr hu
        rw [useAt?, referenceAt?, Array.getElem?_eq_none hr] at hu
        cases hu
    | @tail m t hsm he ih =>
        intro r u i hr hu
        have hroot := Edits.rooted hsm hs
        obtain ⟨a, ha, hguard⟩ : Guarded m i u := (he.use hu).elim (ih r u i hr) id
        obtain ⟨b, hb, hab⟩ := he.scope hroot ha
        refine ⟨b, hb, fun hstrict => hguard ?_⟩
        rw [← Scope.strict_of_frame hab.frame, hstrict]
  intro r ref a hr href ha hstrict
  obtain ⟨b, hb, hguard⟩ := hguarded r ref.toUse ref.scope hr (by rw [useAt?, href]; rfl)
  obtain rfl := Option.some.inj (ha.symm.trans hb)
  exact hguard hstrict

/-! ### Strictness as a whole -/

/-- **Strictness is inherited or declared.**  In every store that operations or an analysis come to,
a scope is strict exactly if everything is, or a scope on the way up from it, itself included,
declares it; so what is below a strict scope is strict.  A walk in such a store, even one that
fails, makes no reference with a candidate in a strict scope, and an analysis makes none at all. -/
theorem Arises.strictness (h : Arises o s) :
    (∀ i a, s.scopeAt? i = some a → (a.strict = true ↔ o.impliedStrict.truthy = true ∨
      ∃ j ∈ s.chain i, ∃ b, s.scopeAt? j = some b ∧
        DeclaresStrict o.directive.truthy b.kind b.block)) ∧
    (∀ i j a b, s.scopeAt? i = some a → s.scopeAt? j = some b → i ∈ s.chain j →
      a.strict = true → b.strict = true) ∧
    (∀ n current, ((Operation.visit n current).applyTo s).2.Spares s.references.size) ∧
    ∀ tree t, analyze o tree = .ok t → t.Spares 0 := by
  refine ⟨fun i a ha => h.strict_iff ha, fun i j a b ha hb hij => h.strict_of_mem_chain ha hb hij,
    fun n current => ?_, fun tree t ht => (analyze_edits ht).spares (Sound.new o).rooted⟩
  have hvisit : (Operation.visit n current).apply.Editing Guarded :=
    (editing_visit n current).bind fun _ => (still_pure _).editing
  exact (hvisit s).spares h.rooted

/-- A function that asks for strict mode after another directive, in a program that does not, and a
dead zone below the function. -/
def strictOperations : List Operation :=
  let text (raw : String) : Tree := .obj [("type", .str "ExpressionStatement"),
    ("expression", .obj [("type", .str "Literal"), ("value", .str raw)])]
  let body : Tree := .obj [("type", .str "BlockStatement"),
    ("body", .arr [text "use asm", text "use strict"])]
  let program : Node := ⟨[], .obj [("type", .str "Program")]⟩
  let function : Node :=
    ⟨[.item 0], .obj [("type", .str "FunctionDeclaration"), ("body", body)]⟩
  let loop : Node := ⟨[.item 1], .obj [("type", .str "ForOfStatement")]⟩
  [.enter .global program none, .enter .function function (some 0), .enter .deadZone loop (some 1)]

/-- A write to a name, `x = 1`. -/
def plainWrite : Node :=
  ⟨[.item 2], .obj [("type", .str "AssignmentExpression"), ("operator", .str "="),
    ("left", .obj [("type", .str "Identifier"), ("name", .str "x")]),
    ("right", .obj [("type", .str "Literal"), ("value", .int 1)])]⟩

theorem strictness_sample : ∃ s, Arises {} s ∧
    ((s.scopeAt? 0).map (·.strict) = some false ∧ (s.scopeAt? 2).map (·.strict) = some true) ∧
    (∃ j ∈ s.chain 2, ∃ b, s.scopeAt? j = some b ∧ DeclaresStrict false b.kind b.block) ∧
    ∃ ref, ((Operation.visit plainWrite (some 2)).applyTo s).2.referenceAt? 0 = some ref ∧
      ref.candidate = none := by
  have hb : Arises {} ((Store.new {}).after strictOperations) := .operations _
  obtain ⟨a, ha, hstrict⟩ : ∃ a, ((Store.new {}).after strictOperations).scopeAt? 2 = some a ∧
      a.strict = true := ⟨_, rfl, by decide +kernel⟩
  refine ⟨_, hb, ⟨by decide +kernel, by decide +kernel⟩, ?_, ?_⟩
  · exact ((hb.strictness.1 2 a ha).1 hstrict).resolve_left (by decide)
  · obtain ⟨ref, b, href, hscope, hs⟩ : ∃ ref b, ((Operation.visit plainWrite (some 2)).applyTo
        ((Store.new {}).after strictOperations)).2.referenceAt? 0 = some ref ∧
        ((Operation.visit plainWrite (some 2)).applyTo
          ((Store.new {}).after strictOperations)).2.scopeAt? ref.scope = some b ∧
        b.strict = true := ⟨_, _, rfl, rfl, by decide +kernel⟩
    exact ⟨ref, href, hb.strictness.2.2.1 _ _ 0 ref b (by decide +kernel) href hscope hs⟩

end Store

end LexScope
