import LexScope.Proofs.Sites

/-!
# Proofs — Blockless — what a plan is without its blocks

Which events a program has depends on the language version only in that blocks, `switch` statements
and lexical loop heads have scopes of their own.  To *trim* events is to let what is inside a block
scope happen around it, or to leave calls of `eval` out, or both (`trimAll`).  Trimming goes through
every rule.

* `trimAll_plan`: **trimmed, a plan is the plan under the gates that leave out the same.**  So
  without its block scopes the plan of a program with no lexical declaration is the one before the
  sixth edition, and where `eval` is ignored there are no calls of it.
-/

namespace LexScope

/-- Whether scopes of this kind stand for blocks of statements. -/
def ScopeKind.isBlock : ScopeKind → Bool
  | .block | .switch => true
  | _ => false

namespace Walk

/-- What is to be left out of events. -/
structure Trim where
  /-- The scopes of blocks, but not what happens in them. -/
  blocks : Bool
  /-- Calls of `eval`. -/
  evals : Bool

mutual

/-- What is left of an event. -/
def Event.trim (c : Trim) : Event → List Event
  | .callEval => if c.evals then [] else [.callEval]
  | .within kind n inside =>
      if c.blocks && kind.isBlock then trimAll c inside else [.within kind n (trimAll c inside)]
  | e => [e]

/-- What is left of events. -/
def trimAll (c : Trim) : List Event → List Event
  | [] => []
  | e :: rest => e.trim c ++ trimAll c rest

end

/-- The gates under which what is to be left out never happens. -/
def Gates.trim (c : Trim) (g : Gates) : Gates := { g with es6 := g.es6 && !c.blocks }

variable {c : Trim} {g : Gates} {n m : Node} {a b : List Event} {kind : ScopeKind}

@[simp] theorem trimAll_nil : trimAll c [] = [] := rfl

@[simp] theorem trimAll_cons (e : Event) (rest : List Event) :
    trimAll c (e :: rest) = e.trim c ++ trimAll c rest := rfl

@[simp] theorem trimAll_append (a b : List Event) :
    trimAll c (a ++ b) = trimAll c a ++ trimAll c b := by
  induction a with
  | nil => rfl
  | cons e a ih => rw [List.cons_append, trimAll_cons, ih, trimAll_cons, List.append_assoc]

theorem trimAll_flatMap {α : Type} (l : List α) (f : α → List Event) :
    trimAll c (l.flatMap f) = l.flatMap fun x => trimAll c (f x) := by
  induction l with
  | nil => rfl
  | cons x l ih => rw [List.flatMap_cons, trimAll_append, ih, List.flatMap_cons]

@[simp] theorem trim_define (target : Target) (d : Definition) :
    (Event.define target n d).trim c = [.define target n d] := rfl

@[simp] theorem trim_refer (u : Use) : (Event.refer u).trim c = [.refer u] := rfl

@[simp] theorem trim_useThis : Event.useThis.trim c = [.useThis] := rfl

@[simp] theorem trim_needScope : Event.needScope.trim c = [.needScope] := rfl

@[simp] theorem trim_phase (p : Phase) : (Event.phase p).trim c = [.phase p] := rfl

@[simp] theorem trim_fail (e : Error) : (Event.fail e).trim c = [.fail e] := rfl

@[simp] theorem trim_closeOwned : (Event.closeOwned n).trim c = [.closeOwned n] := rfl

theorem trim_within_block (hc : c.blocks = true) (hk : kind.isBlock = true) :
    (Event.within kind n a).trim c = trimAll c a := if_pos (by rw [hc, hk]; rfl)

theorem trim_within (h : c.blocks = true → kind.isBlock = false) :
    (Event.within kind n a).trim c = [.within kind n (trimAll c a)] := by
  refine if_neg ?_
  rw [Bool.and_eq_true]
  rintro ⟨hc, hk⟩
  rw [h hc] at hk
  cases hk

/-! ### Parts of rules -/

theorem trimAll_ite {p : Prop} [Decidable p] :
    trimAll c (if p then a else b) = if p then trimAll c a else trimAll c b := by split <;> rfl

theorem trimAll_forBound (pattern : Node) (each : Node → List Event) :
    trimAll c (forBound pattern each) = forBound pattern fun p => trimAll c (each p) := by
  rw [forBound, trimAll_flatMap, forBound]
  refine List.flatMap_congr fun item _ => ?_
  cases item <;> rfl

/-- The kind of scope that a node of a type introduces. -/
theorem ofNode?_eq {type : String} (ht : n.typeName? = some type) :
    ScopeKind.ofNode? n = some (.ofType (.str type)) := by
  rw [ScopeKind.ofNode?, isObj_of_typeName? ht, Grammar.type_eq ht]
  rfl

theorem trimAll_nested {isMethod : Bool}
    (h : c.blocks = true → ∀ kind, ScopeKind.ofNode? n = some kind → kind.isBlock = false) :
    trimAll c (nested n isMethod a) = nested n isMethod (trimAll c a) := by
  have hwithin : ∀ kinds : List ScopeKind, (c.blocks = true → ∀ k ∈ kinds, k.isBlock = false) →
      trimAll c (kinds.foldr (fun kind inside => [.within kind n inside]) a) =
        kinds.foldr (fun kind inside => [.within kind n inside]) (trimAll c a) := by
    intro kinds hk
    induction kinds with
    | nil => rfl
    | cons k kinds ih =>
        rw [List.foldr_cons, trimAll_cons, trim_within fun hc => hk hc k List.mem_cons_self,
          ih fun hc k' hk' => hk hc k' (List.mem_cons_of_mem k hk')]
        rfl
  rw [nested, nested]
  cases hs : scopeKinds? n isMethod with
  | none => rfl
  | some kinds =>
      rw [trimAll_append, hwithin kinds]
      · rfl
      · intro hc k hk
        obtain ⟨kind, hkind, rfl⟩ := Option.map_eq_some_iff.1 hs
        split at hk
        · rcases List.mem_cons.1 hk with rfl | hk
          · rfl
          · rw [List.mem_singleton.1 hk]
            exact h hc kind hkind
        · rw [List.mem_singleton.1 hk]
          exact h hc kind hkind

/-- What belongs to a type that is none of a block. -/
theorem trimAll_nested_of_type {isMethod : Bool} {type : String} (ht : n.typeName? = some type)
    (hk : (ScopeKind.ofType (.str type)).isBlock = false) :
    trimAll c (nested n isMethod a) = nested n isMethod (trimAll c a) :=
  trimAll_nested fun _ kind hkind => by
    rw [ofNode?_eq ht] at hkind
    exact Option.some.inj hkind ▸ hk

theorem trimAll_nestedIf_of_not {condition : Bool} (h : c.blocks = true → condition = false) :
    trimAll c (nestedIf condition n a) = nestedIf condition n (trimAll c a) := by
  rw [nestedIf, nestedIf]
  cases condition with
  | true =>
      have hc : c.blocks = false := Bool.eq_false_iff.2 fun hc => by cases h hc
      exact trimAll_nested fun hb => absurd hb (by simp [hc])
  | false => simp

/-- The scope of a block is left out, or it is there. -/
theorem trimAll_nestedIf_block {type : String} (ht : n.typeName? = some type)
    (hk : ScopeKind.ofType (.str type) = .block ∨ ScopeKind.ofType (.str type) = .switch) :
    trimAll c (nestedIf g.es6 n a) = nestedIf (g.trim c).es6 n (trimAll c a) := by
  cases hc : c.blocks with
  | false =>
      rw [Gates.trim, hc]
      exact (trimAll_nestedIf_of_not (by simp [hc])).trans (by simp)
  | true =>
      have hkinds : scopeKinds? n false = some [ScopeKind.ofType (.str type)] := by
        rw [scopeKinds?, ofNode?_eq ht]
        rcases hk with hk | hk <;> rw [hk] <;> rfl
      have hblock : (ScopeKind.ofType (.str type)).isBlock = true := by
        rcases hk with hk | hk <;> rw [hk] <;> rfl
      cases hg : g.es6 with
      | true => simp [nestedIf, Gates.trim, hc, hg, nested, hkinds, trim_within_block hc hblock]
      | false => simp [nestedIf, Gates.trim, hg]

/-! ### Rules -/

/-- What is asked of the nodes further down. -/
def TrimVisit (c : Trim) (P : Tree → Prop) (visit visit' : Visit) : Prop :=
  ∀ n, P n.value → trimAll c (visit n) = visit' n

section Rules

variable {P : Tree → Prop} {visit visit' : Visit} (hP : Tree.Hereditary P)
  (hv : TrimVisit c P visit visit')

include hP hv

theorem TrimVisit.get (h : P n.value) (key : String) :
    trimAll c (visit (n.get key)) = visit' (n.get key) := hv _ (hP.get h key)

theorem TrimVisit.children (h : P n.value) :
    trimAll c (visitChildren visit n) = visitChildren visit' n := by
  rw [visitChildren, trimAll_flatMap]
  exact List.flatMap_congr fun m hm => hv m (hP.children h hm)

theorem TrimVisit.embedded (h : P n.value) :
    trimAll c (visitEmbedded visit n) = visitEmbedded visit' n := by
  rw [visitEmbedded, trimAll_flatMap]
  exact List.flatMap_congr fun m hm => hv m (hP.embedded h hm)

omit hP hv in
theorem trimAll_bindDeclarator (target : Target) (kind : DefinitionKind) (declaration : Node)
    (i : Nat) : trimAll c (bindDeclarator target kind declaration i n) =
      bindDeclarator target kind declaration i n := by
  rw [bindDeclarator, trimAll_forBound]
  congr 1
  funext p
  split <;> simp [initialWrite]

omit hv in
theorem trimAll_forSequence {each each' : List Node → List Event} (h : P n.value)
    (he : ∀ ns, (∀ m ∈ ns, P m.value) → trimAll c (each ns) = each' ns) :
    trimAll c (forSequence n each) = forSequence n each' := by
  rw [forSequence, forSequence]
  cases hs : n.sequence? with
  | none => rfl
  | some ns => exact he ns fun m hm => hP.sequence h hs hm

theorem TrimVisit.declare (h : P n.value) :
    trimAll c (declare visit n) = declare visit' n := by
  rw [Walk.declare, Walk.declare]
  dsimp only
  rw [trimAll_append, trimAll_forSequence hP (hP.get h _) fun ds hds => ?_]
  · congr 1
    split <;> rfl
  · rw [trimAll_flatMap]
    refine List.flatMap_congr fun e he => ?_
    have hd := hds e.1 (List.fst_mem_of_mem_zipIdx he)
    rw [trimAll_ite, trimAll_append, trimAll_append, trimAll_bindDeclarator,
      hv.embedded hP (hP.get hd _), hv.get hP hd]
    rfl

omit hP hv in
theorem trimAll_assignTo (pattern value : Node) :
    trimAll c (assignTo pattern value n) = assignTo pattern value n := by
  rw [assignTo, trimAll_forBound]
  rfl

theorem TrimVisit.assign (h : P n.value) : trimAll c (assign visit n) = assign visit' n := by
  have hleft := hP.get h "left"
  have hright := hP.get h "right"
  rw [Walk.assign, Walk.assign]
  split
  · rfl
  · rw [trimAll_append, hv _ hleft, hv _ hright]
  · rw [trimAll_ite, trimAll_append, trimAll_append, trimAll_assignTo, hv.embedded hP hleft,
      trimAll_cons, hv _ hright]
    rfl

theorem TrimVisit.update (h : P n.value) : trimAll c (update visit n) = update visit' n := by
  rw [Walk.update, Walk.update, trimAll_ite, hv.children hP h]
  rfl

theorem TrimVisit.functionBody (h : P n.value) :
    trimAll c (functionBody visit n) = functionBody visit' n := by
  rw [Walk.functionBody, Walk.functionBody, trimAll_ite, hv.children hP h, hv n h]

omit hP hv in
theorem trimAll_bindParameters (params : List Node) :
    trimAll c (bindParameters n params) = bindParameters n params := by
  rw [bindParameters, trimAll_flatMap]
  refine List.flatMap_congr fun e _ => ?_
  rw [trimAll_forBound]
  rfl

theorem TrimVisit.function {isMethod : Bool} {type : String} (h : P n.value)
    (ht : n.typeName? = some type) (hk : (ScopeKind.ofType (.str type)).isBlock = false) :
    trimAll c (function visit n isMethod) = function visit' n isMethod := by
  rw [Walk.function, Walk.function]
  rw [trimAll_append, trimAll_nested_of_type ht hk, trimAll_forSequence hP (hP.get h _)
    fun params hps => ?_]
  · congr 1
    split <;> rfl
  · rw [trimAll_append, trimAll_append, trimAll_bindParameters, trimAll_flatMap,
      hv.functionBody hP (hP.get h _)]
    congr 2
    exact List.flatMap_congr fun m hm => hv.embedded hP (hps m hm)

theorem TrimVisit.classDefinition {type : String} (h : P n.value)
    (ht : n.typeName? = some type) (hk : (ScopeKind.ofType (.str type)).isBlock = false) :
    trimAll c (classDefinition visit n) = classDefinition visit' n := by
  rw [Walk.classDefinition, Walk.classDefinition]
  rw [trimAll_append, trimAll_append, trimAll_nested_of_type ht hk, trimAll_append,
    hv.get hP h, hv.get hP h, trimAll_ite, trimAll_ite]
  rfl

theorem TrimVisit.property (h : P n.value) :
    trimAll c (property visit n) = property visit' n := by
  have hvalue := hP.get h "value"
  rw [Walk.property, Walk.property]
  rw [trimAll_append, trimAll_ite, hv.get hP h, trimAll_nil]
  congr 1
  split
  · rename_i hf
    obtain ⟨-, hf⟩ := Bool.and_eq_true_iff.1 hf
    rcases Bool.or_eq_true_iff.1 hf with hf | hf <;>
      exact hv.function hP hvalue (Grammar.hasType_iff.1 hf) (by decide)
  · exact hv _ hvalue

theorem TrimVisit.program {type : String} (h : P n.value) (ht : n.typeName? = some type)
    (hk : (ScopeKind.ofType (.str type)).isBlock = false) :
    trimAll c (program g visit n) = program (g.trim c) visit' n := by
  rw [Walk.program, Walk.program]
  rw [trimAll_nested_of_type ht hk, trimAll_ite, hv.children hP h, trimAll_cons,
    trim_within fun _ => rfl, hv.children hP h]
  rfl

theorem TrimVisit.catchClause {type : String} (h : P n.value) (ht : n.typeName? = some type)
    (hk : (ScopeKind.ofType (.str type)).isBlock = false) :
    trimAll c (catchClause visit n) = catchClause visit' n := by
  rw [Walk.catchClause, Walk.catchClause]
  rw [trimAll_nested_of_type ht hk, trimAll_append, trimAll_append, trimAll_forBound,
    hv.embedded hP (hP.get h _), hv.get hP h]
  rfl

omit hP hv in
theorem trimAll_bindHead (kind : DefinitionKind) :
    trimAll c (bindHead kind n) = bindHead kind n := by
  rw [bindHead]
  split
  · exact trimAll_bindDeclarator ..
  · rfl

omit hP hv in
theorem trimAll_writeHead (head : Node) : trimAll c (writeHead n head) = writeHead n head := by
  rw [writeHead]
  split
  · rw [trimAll_forBound]
    rfl
  · rfl

theorem TrimVisit.visitHead (h : P n.value) :
    trimAll c (visitHead visit n) = visitHead visit' n := by
  rw [Walk.visitHead, Walk.visitHead]
  cases hd : declarator? n 0 with
  | none => rfl
  | some d => exact hv.embedded hP (hP.get (sourced_of_declarator hP h hd) _)

theorem TrimVisit.lexicalIteration (h : P n.value)
    (hk : c.blocks = true → ∀ kind, ScopeKind.ofNode? n = some kind → kind.isBlock = false) :
    trimAll c (lexicalIteration visit n) = lexicalIteration visit' n := by
  rw [Walk.lexicalIteration, Walk.lexicalIteration]
  rw [trimAll_append, trimAll_nested hk]
  simp only [trimAll_append, trimAll_cons, trimAll_nil, trim_phase, trimAll_bindHead,
    trimAll_writeHead, hv.visitHead hP (hP.get h "left"), hv.get hP h, List.append_nil,
    trim_within fun _ : c.blocks = true => show ScopeKind.deadZone.isBlock = false from rfl,
    List.cons_append, List.nil_append]

theorem TrimVisit.iteration (h : P n.value)
    (hlex : c.blocks = true → isLexical (n.get "left") = false) :
    trimAll c (iteration g visit n) = iteration (g.trim c) visit' n := by
  have hleft := hP.get h "left"
  have hgate : ((g.trim c).es6 && isLexical (n.get "left")) =
      (g.es6 && isLexical (n.get "left")) := by
    cases hc : c.blocks with
    | false => simp [Gates.trim, hc]
    | true => simp [hlex hc]
  rw [Walk.iteration, Walk.iteration, hgate, trimAll_ite]
  split
  · refine hv.lexicalIteration hP h fun hc => ?_
    rename_i hlexical
    rw [hlex hc, Bool.and_false] at hlexical
    cases hlexical
  · rw [trimAll_append, trimAll_append, hv.get hP h, hv.get hP h]
    congr 2
    split
    · rw [trimAll_append, hv _ hleft, trimAll_writeHead]
    · split
      · rfl
      · rw [trimAll_append, trimAll_assignTo, hv.embedded hP hleft]
      · exact hv _ hleft

theorem TrimVisit.call (h : P n.value) (he : c.evals = true → g.ignoreEval = true) :
    trimAll c (call g visit n) = call (g.trim c) visit' n := by
  have hbody := hv.children hP h
  have heval : g.ignoreEval = false → Event.callEval.trim c = [.callEval] := fun hi =>
    if_neg fun hc => by rw [he hc] at hi; cases hi
  rw [Walk.call, Walk.call]
  show trimAll c (if g.ignoreEval then _ else _) = if g.ignoreEval then _ else _
  cases hi : g.ignoreEval with
  | true => exact hbody
  | false =>
      simp only [Bool.false_eq_true, if_false]
      rw [trimAll_ite, trimAll_ite, trimAll_cons, trimAll_cons, hbody, heval hi]
      rfl

omit hP hv in
theorem trimAll_onlyInModule :
    trimAll c (onlyInModule g n a) = onlyInModule (g.trim c) n (trimAll c a) := by
  rw [onlyInModule, onlyInModule, trimAll_ite]
  rfl

omit hv in
theorem trimAll_bindImports (h : P n.value) : trimAll c (bindImports n) = bindImports n := by
  rw [bindImports, trimAll_forSequence hP (hP.get h _) fun specifiers _ => ?_]
  rw [trimAll_flatMap]
  refine List.flatMap_congr fun specifier _ => ?_
  rw [trimAll_ite]
  rfl

theorem TrimVisit.exportNamed (h : P n.value) :
    trimAll c (exportNamed visit n) = exportNamed visit' n := by
  rw [Walk.exportNamed, Walk.exportNamed, trimAll_ite, trimAll_ite, hv.get hP h, hv.get hP h]
  rfl

end Rules

/-- The families of nodes whose own scopes are no blocks. -/
theorem isBlock_ofType {type : String} {family : Family} (hf : Family.ofType type = family)
    (h : family ∈ [.program, .catchClause, .withObject, .function, .classDefinition,
      .lexicalIteration]) : (ScopeKind.ofType (.str type)).isBlock = false := by
  unfold Family.ofType at hf
  split at hf <;> subst hf <;> first | rfl | simp at h

/-- The families of nodes that have the scope of a block from the sixth edition on. -/
theorem ofType_block {type : String}
    (hf : Family.ofType type = .block ∨ Family.ofType type = .switch) :
    ScopeKind.ofType (.str type) = .block ∨ ScopeKind.ofType (.str type) = .switch := by
  unfold Family.ofType at hf
  split at hf <;> first | exact .inl rfl | exact .inr rfl | simp at hf

/-- Every rule goes on without what is left out. -/
theorem TrimVisit.rule {P : Tree → Prop} {visit visit' : Visit} (hP : Tree.Hereditary P)
    (hv : TrimVisit c P visit visit') {type : String} (h : P n.value)
    (ht : n.typeName? = some type)
    (hlex : c.blocks = true → ∀ m, P m.value → isLexical m = false)
    (he : c.evals = true → g.ignoreEval = true) :
    trimAll c (rule g visit n (.ofType type)) = rule (g.trim c) visit' n (.ofType type) := by
  have hhead : ∀ key, c.blocks = true → isLexical (n.get key) = false :=
    fun key hc => hlex hc _ (hP.get h key)
  generalize hf : Family.ofType type = family
  cases family with
  | program => exact hv.program hP h ht (isBlock_ofType hf (by simp))
  | block =>
      exact (trimAll_nestedIf_block ht (ofType_block (.inl hf))).trans
        (congrArg _ (hv.children hP h))
  | switch =>
      refine (trimAll_append ..).trans (congrArg₂ _ (hv.get hP h _) ?_)
      exact (trimAll_nestedIf_block ht (ofType_block (.inr hf))).trans
        (congrArg _ (hv.get hP h _))
  | withObject =>
      refine (trimAll_append ..).trans (congrArg₂ _ (hv.get hP h _) ?_)
      exact (trimAll_nested_of_type ht (isBlock_ofType hf (by simp))).trans
        (congrArg _ (hv.get hP h _))
  | catchClause => exact hv.catchClause hP h ht (isBlock_ofType hf (by simp))
  | function => exact hv.function hP h ht (isBlock_ofType hf (by simp))
  | classDefinition => exact hv.classDefinition hP h ht (isBlock_ofType hf (by simp))
  | property => exact hv.property hP h
  | declaration => exact hv.declare hP h
  | assignment => exact hv.assign hP h
  | update => exact hv.update hP h
  | access =>
      refine (trimAll_append ..).trans (congrArg₂ _ (hv.get hP h _) ?_)
      rw [trimAll_ite, hv.get hP h]
      rfl
  | call => exact hv.call hP h he
  | label => exact hv.get hP h _
  | loop =>
      have hgate : ((g.trim c).es6 && isLexical (n.get "init")) =
          (g.es6 && isLexical (n.get "init")) := by
        cases hc : c.blocks with
        | false => simp [Gates.trim, hc]
        | true => simp [hhead _ hc]
      rw [Walk.rule, Walk.rule, loop, loop, hgate,
        trimAll_nestedIf_of_not fun hc => by rw [hhead _ hc, Bool.and_false], hv.children hP h]
  | iteration => exact hv.iteration hP h (hhead _)
  | lexicalIteration =>
      refine hv.lexicalIteration hP h fun _ kind hkind => ?_
      rw [ofNode?_eq ht] at hkind
      exact Option.some.inj hkind ▸ isBlock_ofType hf (by simp)
  | importing => exact trimAll_onlyInModule.trans (congrArg _ (trimAll_bindImports hP h))
  | exportNamed => exact trimAll_onlyInModule.trans (congrArg _ (hv.exportNamed hP h))
  | exportDefault => exact trimAll_onlyInModule.trans (congrArg _ (hv.get hP h _))
  | exportAll => exact trimAll_onlyInModule
  | exportSpecifier => exact hv.get hP h _
  | plain => exact hv.children hP h
  | declarator | identifier | this | inert => rfl

/-- **Trimmed, a plan is the plan under the gates that leave out the same**: blocks if no
declaration is lexical, and calls of `eval` if they are ignored. -/
theorem trimAll_plan {P : Tree → Prop} (hP : Tree.Hereditary P) (h : P n.value)
    (hlex : c.blocks = true → ∀ m, P m.value → isLexical m = false)
    (he : c.evals = true → g.ignoreEval = true) :
    trimAll c (plan g n) = plan (g.trim c) n := by
  suffices hv : ∀ depth, TrimVisit c P (planAt g depth) (planAt (g.trim c) depth) from hv _ n h
  intro depth
  induction depth with
  | zero => exact fun _ _ => rfl
  | succ depth ih =>
      intro n h
      rw [planAt, planAt, Walk.step, Walk.step]
      split
      · rw [trimAll_flatMap]
        exact List.flatMap_congr fun m hm => ih m (hP.items h hm)
      · cases ht : n.typeName? with
        | none => rfl
        | some type => exact ih.rule hP h ht hlex he

/-! ### Events without `eval` -/

/-- Without calls of `eval`, and with all else. -/
def Trim.mute : Trim := ⟨false, true⟩

theorem length_trimAll_mute_le (l : List Event) : (trimAll .mute l).length ≤ l.length := by
  induction l with
  | nil => exact le_rfl
  | cons e l ih =>
      have hone : (e.trim .mute).length ≤ 1 := by
        cases e with
        | callEval => exact Nat.zero_le 1
        | within kind n inside => rw [trim_within (c := .mute) fun hc => nomatch hc]; exact le_rfl
        | _ => exact le_rfl
      rw [trimAll_cons, List.length_append, List.length_cons]
      omega

/-- What is left whole calls no `eval`, nor does the rest of it. -/
theorem mute_cons {e : Event} {rest : List Event} (h : trimAll .mute (e :: rest) = e :: rest) :
    e ≠ .callEval ∧ trimAll .mute rest = rest ∧
      ∀ kind n inside, e = .within kind n inside → trimAll .mute inside = inside := by
  have hlength := length_trimAll_mute_le rest
  rw [trimAll_cons] at h
  cases e with
  | callEval =>
      have heq : trimAll .mute rest = .callEval :: rest := h
      rw [heq, List.length_cons] at hlength
      omega
  | within kind n inside =>
      rw [trim_within (c := .mute) fun hc => nomatch hc] at h
      obtain ⟨he, hrest⟩ := List.cons.inj h
      refine ⟨nofun, hrest, fun k m i hi => ?_⟩
      cases hi
      injection he
  | _ => exact ⟨nofun, (List.cons.inj h).2, nofun⟩

end Walk

end LexScope
