import LexScope.Proofs.Apart
import LexScope.Proofs.Placed

/-!
# Proofs — Deeds — what each rule does itself

A rule opens scopes, binds identifiers and uses them before it visits anything.  What it does so is
written here as three tables, each with one line for every place in the rules where it is done, and
for any tree at all.

* `openings_own`: the scopes that a rule opens are its *stages* (`stages`).
* `define_mem_own`: **the bindings that a rule makes are those of the table** `Declares`.
* `refers_of_mem`: the uses that a rule makes are in the table `Refers`.
-/

namespace LexScope.Walk

open Grammar (inside enters openings)

/-! ### Families of nodes -/

/-- A node is walked by the rule of a family. -/
def Family.Covers (family : Family) (n : Node) : Prop := n.typeName?.map Family.ofType = some family

instance (family : Family) (n : Node) : Decidable (family.Covers n) :=
  inferInstanceAs (Decidable (_ = _))

variable {g : Gates} {n m f p : Node} {c c' : Around} {l : Leaf} {e : Event} {events : List Event}
  {isMethod : Bool} {family : Family} {kinds : List ScopeKind}

theorem flatMap_nothing {α : Type} (l : List α) : (l.flatMap fun _ => ([] : List Event)) = [] := by
  simp

/-- What a rule does itself, it does as one of its family. -/
theorem mem_own : l ∈ leavesOf c (own g n) ↔
    ∃ family : Family, family.Covers n ∧ l ∈ leavesOf c (rule g (fun _ => []) n family) := by
  rw [own, step]
  split
  · rename_i ts hv
    have ht : n.typeName? = none := by rw [Node.typeName?, Node.type, hv]; rfl
    rw [flatMap_nothing]
    constructor
    · intro h
      cases h
    · rintro ⟨family, hf, -⟩
      rw [Family.Covers, ht] at hf
      cases hf
  · unfold Family.Covers
    cases n.typeName? with
    | none => simp
    | some type => simp

/-- The functions that a node runs itself, and whether as methods. -/
inductive Runs (n : Node) : Node → Bool → Prop
  | function (h : Family.function.Covers n) : Runs n n false
  | method (h : Family.property.Covers n)
      (hm : (n.hasType "MethodDefinition" || (n.get "method").truthy) = true)
      (hf : ((n.get "value").hasType "FunctionExpression" || (n.get "value").isArrow) = true) :
      Runs n (n.get "value") true

/-- An iteration whose head has scopes of its own. -/
def IteratesLexically (g : Gates) (n : Node) : Prop :=
  Family.lexicalIteration.Covers n ∨
    Family.iteration.Covers n ∧ g.es6 = true ∧ isLexical (n.get "left") = true

/-! ### Events without scopes -/

/-- Whether an event opens a scope. -/
def Event.opens : Event → Bool
  | .within .. => true
  | _ => false

/-- Events that open no scope. -/
def Flat (events : List Event) : Prop := ∀ kind n inside, Event.within kind n inside ∉ events

/-- What happens where no scope opens happens in the scopes around. -/
theorem Flat.leavesOf (h : Flat events) : leavesOf c events = events.map (⟨c, ·⟩) := by
  induction events with
  | nil => rfl
  | cons e events ih =>
      have hrest : Flat events := fun kind n inside hm =>
        h kind n inside (List.mem_cons_of_mem _ hm)
      rw [leavesOf_cons, ih hrest, List.map_cons]
      cases e with
      | within kind n inside => exact absurd List.mem_cons_self (h kind n inside)
      | _ => rfl

theorem Flat.mem_leavesOf (h : Flat events) : (⟨c', e⟩ : Leaf) ∈ Walk.leavesOf c events ↔
    c' = c ∧ e ∈ events := by
  rw [h.leavesOf, List.mem_map]
  constructor
  · rintro ⟨e', he, heq⟩
    cases heq
    exact ⟨rfl, he⟩
  · rintro ⟨rfl, he⟩
    exact ⟨e, he, rfl⟩

theorem flat_nil : Flat [] := fun _ _ _ h => nomatch h

theorem flat_one (h : e.opens = false) : Flat [e] := fun kind n inside hm => by
  rw [← List.mem_singleton.1 hm] at h
  cases h

theorem flat_flatMap {α : Type} {l : List α} {each : α → List Event} (h : ∀ a, Flat (each a)) :
    Flat (l.flatMap each) := fun kind n inside hm => by
  obtain ⟨a, -, ha⟩ := List.mem_flatMap.1 hm
  exact h a kind n inside ha

theorem flat_append {a b : List Event} (ha : Flat a) (hb : Flat b) : Flat (a ++ b) :=
  fun kind n inside hm => (List.mem_append.1 hm).elim (ha kind n inside) (hb kind n inside)

theorem flat_forBound {each : Node → List Event} (h : ∀ p, Flat (each p)) :
    Flat (forBound n each) := by
  refine flat_flatMap fun item => ?_
  cases item with
  | bound p => exact h p
  | embedded p => exact flat_nil
  | broken => simp [Flat]

theorem flat_forSequence {each : List Node → List Event} (h : ∀ ns, Flat (each ns)) :
    Flat (forSequence n each) := by
  unfold forSequence
  split
  · exact h _
  · simp [Flat]

theorem flat_bindDeclarator (target : Target) (kind : DefinitionKind) (n : Node) (i : Nat)
    (d : Node) : Flat (bindDeclarator target kind n i d) := by
  refine flat_forBound fun p => ?_
  split <;> simp [Flat, initialWrite]

theorem flat_bindHead (kind : DefinitionKind) (head : Node) : Flat (bindHead kind head) := by
  unfold bindHead
  split
  · exact flat_bindDeclarator _ _ _ _ _
  · simp [Flat]

theorem flat_writeHead (n head : Node) : Flat (writeHead n head) := by
  unfold writeHead
  split
  · exact flat_forBound fun p => by simp [Flat, initialWrite]
  · simp [Flat]

theorem flat_assignTo (pattern value n : Node) : Flat (assignTo pattern value n) :=
  flat_forBound fun p => by simp [Flat]

theorem flat_bindParameters (n : Node) (params : List Node) : Flat (bindParameters n params) :=
  flat_flatMap fun _ => flat_forBound fun p => by simp [Flat]

theorem flat_bindImports (n : Node) : Flat (bindImports n) :=
  flat_forSequence fun ns => flat_flatMap fun d => by
    dsimp only
    split <;> simp [Flat]

/-! ### Deeds -/

/-- Whether an event binds or uses an identifier. -/
def Event.isDeed : Event → Bool
  | .define .. | .refer _ => true
  | _ => false

theorem not_mem_single_of_deed {e' : Event} (he : e.isDeed = true)
    (hw : e'.opens = false) (h : e'.isDeed = false) :
    (⟨c', e⟩ : Leaf) ∉ leavesOf c [e'] := fun hm => by
  rw [List.mem_singleton.1 ((flat_one hw).mem_leavesOf.1 hm).2, h] at he
  cases he

/-- What is bound or used in the scopes that a node introduces. -/
theorem mem_nested_of_deed (he : e.isDeed = true) :
    (⟨c', e⟩ : Leaf) ∈ leavesOf c (nested n isMethod events) ↔
      ∃ kinds, scopeKinds? n isMethod = some kinds ∧
        (⟨c', e⟩ : Leaf) ∈ leavesOf (inside c n kinds) events := by
  unfold nested
  split
  · rename_i kinds hk
    have hfold : ∀ (kinds : List ScopeKind) (c : Around), (⟨c', e⟩ : Leaf) ∈ leavesOf c
        (kinds.foldr (fun kind inside => [.within kind n inside]) events) ↔
          (⟨c', e⟩ : Leaf) ∈ leavesOf (inside c n kinds) events := by
      intro kinds
      induction kinds with
      | nil => exact fun c => Iff.rfl
      | cons kind kinds ih =>
          intro c
          rw [List.foldr_cons, leavesOf_cons, leavesOf_nil, List.append_nil, Event.leaves,
            List.mem_cons, ih, Grammar.inside_cons, or_iff_right]
          rintro heq
          cases heq
          cases he
    rw [leavesOf_append, List.mem_append, hfold]
    have hclose : (⟨c', e⟩ : Leaf) ∉ leavesOf c [.closeOwned n] :=
      not_mem_single_of_deed he rfl rfl
    rw [or_iff_left hclose]
    simp [hk]
  · rename_i hk
    simp only [hk, reduceCtorEq, false_and, exists_false, iff_false]
    exact not_mem_single_of_deed he rfl rfl

theorem mem_nestedIf_of_deed {condition : Bool} (he : e.isDeed = true) :
    (⟨c', e⟩ : Leaf) ∉ leavesOf c (nestedIf condition n []) := by
  unfold nestedIf
  split
  · rw [mem_nested_of_deed he]
    exact fun ⟨_, _, h⟩ => nomatch h
  · exact not_mem_single_of_deed he rfl rfl

/-- What is bound or used for each identifier of a pattern. -/
theorem mem_forBound_of_deed {each : Node → List Event} (he : e.isDeed = true) :
    e ∈ forBound n each ↔ ∃ p ∈ Pattern.bound n, e ∈ each p := by
  rw [forBound, List.mem_flatMap]
  constructor
  · rintro ⟨item, hi, hm⟩
    cases item with
    | bound p => exact ⟨p, Pattern.mem_bound_iff.2 hi, hm⟩
    | embedded p => cases hm
    | broken =>
        cases List.mem_singleton.1 hm
        cases he
  · rintro ⟨p, hp, hm⟩
    exact ⟨.bound p, Pattern.mem_bound_iff.1 hp, hm⟩

theorem mem_forSequence_of_deed {each : List Node → List Event} (he : e.isDeed = true) :
    e ∈ forSequence n each ↔ ∃ ns, n.sequence? = some ns ∧ e ∈ each ns := by
  unfold forSequence
  split
  · rename_i ns hs
    simp [hs]
  · rename_i hs
    simp only [List.mem_singleton, hs, reduceCtorEq, false_and, exists_false, iff_false]
    rintro rfl
    cases he

/-! ### Scopes -/

/-- The scopes that a node introduces, outermost first, with the node. -/
def stagesOf (n : Node) (isMethod : Bool) : List (Node × List ScopeKind) :=
  (scopeKinds? n isMethod).toList.map (n, ·)

/-- The scopes that a rule opens one in the other for one node, outermost first.  An iteration has
two such stages. -/
def ruleStages (g : Gates) (n : Node) : Family → List (Node × List ScopeKind)
  | .program => (scopeKinds? n false).toList.map fun kinds =>
      (n, kinds ++ if g.isModule then [.moduleTop] else [])
  | .block | .switch => if g.es6 then stagesOf n false else []
  | .loop => if g.es6 && isLexical (n.get "init") then stagesOf n false else []
  | .withObject | .catchClause | .function | .classDefinition => stagesOf n false
  | .property =>
      if (n.hasType "MethodDefinition" || (n.get "method").truthy) &&
          ((n.get "value").hasType "FunctionExpression" || (n.get "value").isArrow) then
        stagesOf (n.get "value") true
      else []
  | .iteration =>
      if g.es6 && isLexical (n.get "left") then (n, [.deadZone]) :: stagesOf n false else []
  | .lexicalIteration => (n, [.deadZone]) :: stagesOf n false
  | _ => []

/-- The stages of any value. -/
def stages (g : Gates) (n : Node) : List (Node × List ScopeKind) :=
  match n.typeName? with
  | some type => ruleStages g n (.ofType type)
  | none => []

theorem mem_stages {st : Node × List ScopeKind} :
    st ∈ stages g n ↔ ∃ family : Family, family.Covers n ∧ st ∈ ruleStages g n family := by
  unfold stages Family.Covers
  cases n.typeName? with
  | none => exact ⟨nofun, fun ⟨_, h, _⟩ => nomatch h⟩
  | some type => simp

theorem Flat.openings (h : Flat events) : openings (sitesOf c events) = [] := by
  rw [sitesOf_eq, h.leavesOf]
  refine List.filterMap_eq_nil_iff.2 fun x hx => ?_
  obtain ⟨l, hl, hs⟩ := List.mem_filterMap.1 hx
  obtain ⟨e, he, rfl⟩ := List.mem_map.1 hl
  cases e with
  | within kind n inside => exact absurd he (h kind n inside)
  | define target n d =>
      cases target <;> cases hs
      rfl
  | refer u =>
      cases hs
      rfl
  | fail e =>
      cases hs
      rfl
  | _ => cases hs

/-- The scopes that a node introduces are opened one in the other. -/
theorem openings_nested (h : Flat events) : openings (sitesOf c (nested n isMethod events)) =
    (stagesOf n isMethod).flatMap fun st => openings (enters c st.1 st.2) := by
  unfold stagesOf
  cases hk : scopeKinds? n isMethod with
  | none =>
      rw [nested, hk]
      rfl
  | some kinds => simp [Grammar.sitesOf_nested hk, h.openings]

theorem openings_nestedIf {condition : Bool} (h : Flat events) :
    openings (sitesOf c (nestedIf condition n events)) =
      (if condition then stagesOf n false else []).flatMap fun st =>
        openings (enters c st.1 st.2) := by
  cases condition with
  | true => exact openings_nested h
  | false =>
      refine Flat.openings (flat_append h fun _ _ _ hm => ?_)
      cases List.mem_singleton.1 hm

theorem enters_append (a b : List ScopeKind) :
    enters c n (a ++ b) = enters c n a ++ enters (inside c n a) n b := by
  induction a generalizing c with
  | nil => rfl
  | cons kind a ih =>
      rw [List.cons_append, enters, ih, Grammar.inside_cons, enters, List.cons_append]

theorem visitChildren_nothing : visitChildren (fun _ => []) n = [] := flatMap_nothing _

theorem visitEmbedded_nothing : visitEmbedded (fun _ => []) = fun _ => [] :=
  funext fun _ => flatMap_nothing _

theorem functionBody_nothing : functionBody (fun _ => []) n = [] := by
  unfold functionBody
  split
  · exact visitChildren_nothing
  · rfl

theorem visitHead_nothing : visitHead (fun _ => []) n = [] := by
  unfold visitHead
  split
  · rw [visitEmbedded_nothing]
  · rfl

/-! ### Rules that open no scope, and what stands directly in one -/

theorem flat_definition {condition : Bool} {target : Target} {d : Definition} :
    Flat (if condition then [.define target p d] else []) := by
  split <;> simp [Flat]

theorem flat_parameters (n : Node) :
    Flat (forSequence (n.get "params") fun params => bindParameters n params ++
      params.flatMap (visitEmbedded fun _ => []) ++ functionBody (fun _ => []) (n.get "body")) :=
  flat_forSequence fun params => by
    rw [visitEmbedded_nothing, flatMap_nothing, functionBody_nothing, List.append_nil,
      List.append_nil]
    exact flat_bindParameters _ _

theorem flat_deadZone (n : Node) : Flat (bindHead .deadZone (n.get "left") ++
    .phase .visitRight :: [] ++ [.phase .closeDeadZone]) :=
  flat_append (flat_append (flat_bindHead _ _) (flat_one rfl)) (flat_one rfl)

theorem flat_turn (n : Node) : Flat (bindHead .variable (n.get "left") ++
    writeHead n (n.get "left") ++ [] ++ .phase .visitBody :: [] ++ [.phase .closeIteration]) :=
  flat_append (flat_append (flat_append (flat_append (flat_bindHead _ _) (flat_writeHead _ _))
    flat_nil) (flat_one rfl)) (flat_one rfl)

theorem flat_iteration (h : ¬ (g.es6 && isLexical (n.get "left")) = true) :
    Flat (iteration g (fun _ => []) n) := by
  rw [iteration, if_neg h]
  refine flat_append (flat_append ?_ flat_nil) flat_nil
  split
  · exact flat_writeHead _ _
  · split
    · exact flat_one rfl
    · rw [visitEmbedded_nothing, List.append_nil]
      exact flat_assignTo _ _ _
    · exact flat_nil

theorem flat_declare (n : Node) : Flat (declare (fun _ => []) n) := by
  refine flat_append ?_ (flat_forSequence fun ds => flat_flatMap fun d => ?_)
  · split <;> simp [Flat]
  · dsimp only
    split
    · exact flat_one rfl
    · rw [visitEmbedded_nothing, List.append_nil, List.append_nil]
      exact flat_bindDeclarator _ _ _ _ _

theorem flat_assign (n : Node) : Flat (assign (fun _ => []) n) := by
  simp only [assign, visitEmbedded_nothing, List.append_nil]
  split
  · exact flat_one rfl
  · exact flat_nil
  · split
    · exact flat_assignTo _ _ _
    · exact flat_one rfl

theorem flat_update (n : Node) : Flat (update (fun _ => []) n) := by
  simp only [update, visitChildren_nothing]
  split
  · exact flat_one rfl
  · exact flat_nil

theorem flat_call (n : Node) : Flat (call g (fun _ => []) n) := by
  simp only [call, visitChildren_nothing]
  split_ifs
  all_goals first | exact flat_nil | exact flat_one rfl

theorem flat_exportNamed (n : Node) : Flat (exportNamed (fun _ => []) n) := by
  simp only [exportNamed]
  split_ifs <;> exact flat_nil

theorem flat_onlyInModule (h : Flat events) : Flat (onlyInModule g n events) := by
  unfold onlyInModule
  split
  · exact h
  · exact flat_one rfl

/-! ### The scopes that each rule opens -/

theorem openings_program : openings (sitesOf c (program g (fun _ => []) n)) =
    (ruleStages g n .program).flatMap fun st => openings (enters c st.1 st.2) := by
  simp only [program, visitChildren_nothing, ruleStages]
  cases hk : scopeKinds? n false with
  | none =>
      rw [nested, hk]
      rfl
  | some kinds =>
      rw [Grammar.sitesOf_nested hk]
      cases g.isModule
      · simp
      · simp [enters_append, enters, Event.sites]

theorem openings_function : openings (sitesOf c (function (fun _ => []) n isMethod)) =
    (stagesOf n isMethod).flatMap fun st => openings (enters c st.1 st.2) := by
  unfold function
  dsimp only
  rw [sitesOf_append, Grammar.openings_append, flat_definition.openings, List.nil_append]
  exact openings_nested (flat_parameters n)

theorem openings_classDefinition : openings (sitesOf c (classDefinition (fun _ => []) n)) =
    (stagesOf n false).flatMap fun st => openings (enters c st.1 st.2) := by
  simp only [classDefinition, List.append_nil]
  rw [sitesOf_append, Grammar.openings_append, flat_definition.openings, List.nil_append]
  exact openings_nested flat_definition

theorem openings_lexicalIteration : openings (sitesOf c (lexicalIteration (fun _ => []) n)) =
    ((n, [.deadZone]) :: stagesOf n false).flatMap fun st => openings (enters c st.1 st.2) := by
  unfold lexicalIteration
  simp only [visitHead_nothing]
  rw [List.flatMap_cons, ← openings_nested (flat_turn n), sitesOf_append, Grammar.openings_append]
  refine congrArg (· ++ _) ?_
  have := (flat_deadZone n).openings (c := (.deadZone, n) :: c)
  simp only [sitesOf_cons, sitesOf_nil, Event.sites, List.append_nil, List.nil_append,
    Grammar.openings_opens, this, enters, Grammar.openings_nil]

theorem openings_rule (family : Family) :
    openings (sitesOf c (rule g (fun _ => []) n family)) =
      (ruleStages g n family).flatMap fun st => openings (enters c st.1 st.2) := by
  have hflat : Flat (rule g (fun _ => []) n family) → ruleStages g n family = [] →
      openings (sitesOf c (rule g (fun _ => []) n family)) =
        (ruleStages g n family).flatMap fun st => openings (enters c st.1 st.2) := fun h h' => by
    rw [h.openings, h', List.flatMap_nil]
  cases family with
  | program => exact openings_program
  | block =>
      simp only [rule, visitChildren_nothing, ruleStages]
      exact openings_nestedIf flat_nil
  | loop =>
      simp only [rule, loop, visitChildren_nothing, ruleStages]
      exact openings_nestedIf flat_nil
  | switch => exact openings_nestedIf flat_nil
  | withObject => exact openings_nested flat_nil
  | catchClause =>
      simp only [rule, catchClause, visitEmbedded_nothing, List.append_nil]
      exact openings_nested (flat_forBound fun p => flat_one rfl)
  | function => exact openings_function
  | classDefinition => exact openings_classDefinition
  | property =>
      simp only [rule, property, ruleStages]
      split_ifs
      all_goals first | exact openings_function | rfl
  | iteration =>
      by_cases hl : (g.es6 && isLexical (n.get "left")) = true
      · simp only [rule, iteration, ruleStages, if_pos hl]
        exact openings_lexicalIteration
      · exact hflat (flat_iteration hl) (if_neg hl)
  | lexicalIteration => exact openings_lexicalIteration
  | declaration => exact hflat (flat_declare n) rfl
  | assignment => exact hflat (flat_assign n) rfl
  | update => exact hflat (flat_update n) rfl
  | call => exact hflat (flat_call n) rfl
  | importing => exact hflat (flat_onlyInModule (flat_bindImports n)) rfl
  | exportNamed => exact hflat (flat_onlyInModule (flat_exportNamed n)) rfl
  | exportDefault | exportAll => exact hflat (flat_onlyInModule flat_nil) rfl
  | access =>
      refine hflat ?_ rfl
      simp only [rule, access, ite_self, List.append_nil]
      exact flat_nil
  | plain =>
      refine hflat ?_ rfl
      simp only [rule, visitChildren_nothing]
      exact flat_nil
  | identifier | declarator | this => exact hflat (flat_one rfl) rfl
  | label | inert | exportSpecifier => exact hflat flat_nil rfl

/-- **The scopes that a rule opens itself are those of its stages.** -/
theorem openings_own (g : Gates) (n : Node) (c : Around) : openings (sitesOf c (own g n)) =
    (stages g n).flatMap fun st => openings (enters c st.1 st.2) := by
  rw [own, step, stages]
  split
  · rename_i ts hv
    have ht : n.typeName? = none := by rw [Node.typeName?, Node.type, hv]; rfl
    rw [ht, flatMap_nothing]
    rfl
  · cases n.typeName? with
    | none => rfl
    | some type => exact openings_rule _

/-! ### What is bound and used by each rule -/

/-- A single binding, made only under a condition. -/
theorem mem_definition {condition : Bool} {target : Target} {d : Definition} :
    (⟨c', e⟩ : Leaf) ∈ leavesOf c (if condition then [.define target p d] else []) ↔
      e = .define target p d ∧ c' = c ∧ condition = true := by
  cases condition with
  | true =>
      have hflat : Flat [.define target p d] := flat_one rfl
      rw [if_pos rfl, hflat.mem_leavesOf, List.mem_singleton]
      simp [and_comm]
  | false => simp

theorem mem_use {u : Use} :
    (⟨c', e⟩ : Leaf) ∈ leavesOf c [.refer u] ↔ c' = c ∧ e = .refer u := by
  have hflat : Flat [.refer u] := flat_one rfl
  rw [hflat.mem_leavesOf, List.mem_singleton]

theorem deed_declare (he : e.isDeed = true) :
    (⟨c', e⟩ : Leaf) ∈ leavesOf c (declare (fun _ => []) n) ↔ c' = c ∧ ∃ ds i d,
      (n.get "declarations").sequence? = some ds ∧ ds[i]? = some d ∧ d.isObj = true ∧
      e ∈ bindDeclarator (if (n.get "kind").value = .str "var" then .hoisted else .here)
        .variable n i d := by
  rw [(flat_declare n).mem_leavesOf, declare]
  refine and_congr_right fun _ => ?_
  have hcheck : e ∉ if (n.get "kind").value = .str "var" then [Event.needScope] else [] := by
    split
    · intro h
      rw [List.mem_singleton.1 h] at he
      cases he
    · exact List.not_mem_nil
  rw [List.mem_append, or_iff_right (by simpa using hcheck), mem_forSequence_of_deed he]
  simp only [List.mem_flatMap, Prod.exists, List.mk_mem_zipIdx_iff_getElem?, visitEmbedded_nothing,
    List.append_nil]
  constructor
  · rintro ⟨ds, hs, d, i, hd, hm⟩
    split at hm
    · rw [List.mem_singleton.1 hm] at he
      cases he
    · rename_i ho
      exact ⟨ds, i, d, hs, hd, by simpa using ho, by simpa using hm⟩
  · rintro ⟨ds, i, d, hs, hd, ho, hm⟩
    refine ⟨ds, hs, d, i, hd, ?_⟩
    rw [if_neg (by simp [ho])]
    simpa using hm

theorem deed_function (he : e.isDeed = true) :
    (⟨c', e⟩ : Leaf) ∈ leavesOf c (function (fun _ => []) n isMethod) ↔
      (c' = c ∧ n.hasType "FunctionDeclaration" = true ∧
        e = .define .here (n.get "id") (.ofFunction n)) ∨
      ∃ kinds, scopeKinds? n isMethod = some kinds ∧ c' = inside c n kinds ∧
        ∃ params, (n.get "params").sequence? = some params ∧ e ∈ bindParameters n params := by
  rw [function, leavesOf_append, List.mem_append, mem_nested_of_deed he]
  refine or_congr ?_ (exists_congr fun kinds => and_congr_right fun _ => ?_)
  · rw [mem_definition]
    exact and_rotate
  · rw [(flat_parameters n).mem_leavesOf, mem_forSequence_of_deed he]
    simp only [visitEmbedded_nothing, flatMap_nothing, functionBody_nothing, List.append_nil]

theorem deed_classDefinition (he : e.isDeed = true) :
    (⟨c', e⟩ : Leaf) ∈ leavesOf c (classDefinition (fun _ => []) n) ↔
      e = .define .here (n.get "id") { kind := .className, name := n.get "id", node := n } ∧
        (c' = c ∧ n.hasType "ClassDeclaration" = true ∨
          ∃ kinds, scopeKinds? n false = some kinds ∧ c' = inside c n kinds ∧
            (n.get "id").truthy = true) := by
  rw [classDefinition]
  simp only [List.append_nil, leavesOf_append, List.mem_append, mem_nested_of_deed he,
    mem_definition]
  rw [and_or_left]
  refine or_congr_right ?_
  constructor
  · rintro ⟨kinds, hk, heq, hc, hid⟩
    exact ⟨heq, kinds, hk, hc, hid⟩
  · rintro ⟨heq, kinds, hk, hc, hid⟩
    exact ⟨kinds, hk, heq, hc, hid⟩

theorem deed_catchClause (he : e.isDeed = true) :
    (⟨c', e⟩ : Leaf) ∈ leavesOf c (catchClause (fun _ => []) n) ↔
      ∃ kinds, scopeKinds? n false = some kinds ∧ c' = inside c n kinds ∧
        ∃ p ∈ Pattern.bound (n.get "param"),
          e = .define .here p { kind := .catchClause, name := p, node := n } := by
  have hflat : Flat (forBound (n.get "param") fun p =>
      [.define .here p { kind := .catchClause, name := p, node := n }]) :=
    flat_forBound fun p => by simp [Flat]
  rw [catchClause, mem_nested_of_deed he]
  simp only [visitEmbedded_nothing, List.append_nil]
  refine exists_congr fun kinds => and_congr_right fun _ => ?_
  rw [hflat.mem_leavesOf, mem_forBound_of_deed he]
  simp only [List.mem_singleton]

theorem deed_lexicalIteration (he : e.isDeed = true) :
    (⟨c', e⟩ : Leaf) ∈ leavesOf c (lexicalIteration (fun _ => []) n) ↔
      (c' = (.deadZone, n) :: c ∧ e ∈ bindHead .deadZone (n.get "left")) ∨
      ∃ kinds, scopeKinds? n false = some kinds ∧ c' = inside c n kinds ∧
        (e ∈ bindHead .variable (n.get "left") ∨ e ∈ writeHead n (n.get "left")) := by
  have hphase : ∀ p, e ≠ .phase p := fun p h => by
    rw [h] at he
    cases he
  have hwithin : ∀ kind n inside, e ≠ .within kind n inside := fun kind n inside h => by
    rw [h] at he
    cases he
  rw [lexicalIteration, leavesOf_append, List.mem_append, mem_nested_of_deed he]
  simp only [visitHead_nothing]
  refine or_congr ?_ (exists_congr fun kinds => and_congr_right fun _ => ?_)
  · simp only [leavesOf_cons, leavesOf_nil, Event.leaves, List.append_nil, List.mem_append,
      List.mem_cons, Leaf.mk.injEq, hphase, hwithin, and_false, false_or, List.cons_append,
      (flat_deadZone n).mem_leavesOf, List.not_mem_nil, or_false, List.nil_append]
  · rw [(flat_turn n).mem_leavesOf]
    simp only [List.append_nil, List.mem_append, List.mem_cons, hphase, List.not_mem_nil, or_false]

theorem deed_iteration (he : e.isDeed = true)
    (h : ¬ (g.es6 && isLexical (n.get "left")) = true) :
    (⟨c', e⟩ : Leaf) ∈ leavesOf c (iteration g (fun _ => []) n) ↔ c' = c ∧
      if (n.get "left").hasType "VariableDeclaration" then e ∈ writeHead n (n.get "left")
      else Pattern.isPattern? (n.get "left") = some true ∧
        e ∈ assignTo (n.get "left") (n.get "right") n := by
  rw [iteration, if_neg h]
  simp only [List.append_nil, visitEmbedded_nothing]
  split
  · rw [List.nil_append, (flat_writeHead _ _).mem_leavesOf]
  · split
    · rename_i hp
      simp only [hp, reduceCtorEq, false_and, and_false, iff_false]
      exact not_mem_single_of_deed he rfl rfl
    · rename_i hp
      rw [(flat_assignTo _ _ _).mem_leavesOf]
      simp [hp]
    · rename_i hp
      simp [hp]

theorem deed_assign (he : e.isDeed = true) :
    (⟨c', e⟩ : Leaf) ∈ leavesOf c (assign (fun _ => []) n) ↔ c' = c ∧
      Pattern.isPattern? (n.get "left") = some true ∧
        if (n.get "operator").value = .str "=" then
          e ∈ assignTo (n.get "left") (n.get "right") n
        else e = .refer
          { identifier := n.get "left", access := .readWrite, writeExpr := n.get "right" } := by
  rw [assign]
  simp only [List.append_nil, visitEmbedded_nothing]
  split
  · rename_i hp
    simp only [hp, reduceCtorEq, false_and, and_false, iff_false]
    exact not_mem_single_of_deed he rfl rfl
  · rename_i hp
    simp [hp]
  · rename_i hp
    simp only [hp, true_and]
    split
    · rw [(flat_assignTo _ _ _).mem_leavesOf]
    · exact mem_use

theorem deed_bindHead {kind : DefinitionKind} {head : Node} (he : e.isDeed = true) :
    e ∈ bindHead kind head ↔
      ∃ d, declarator? head 0 = some d ∧ e ∈ bindDeclarator .here kind head 0 d := by
  unfold bindHead
  split
  · rename_i d hd
    simp [hd]
  · rename_i hd
    simp only [List.mem_singleton, hd, reduceCtorEq, false_and, exists_false, iff_false]
    rintro rfl
    cases he

theorem deed_writeHead {head : Node} (he : e.isDeed = true) :
    e ∈ writeHead n head ↔ ∃ d, declarator? head 0 = some d ∧
      ∃ p ∈ Pattern.bound (d.get "id"), e = initialWrite (d.get "id") p (n.get "right") := by
  unfold writeHead
  split
  · rename_i d hd
    rw [mem_forBound_of_deed he]
    simp [hd]
  · rename_i hd
    simp only [List.mem_singleton, hd, reduceCtorEq, false_and, exists_false, iff_false]
    rintro rfl
    cases he

theorem deed_bindImports (he : e.isDeed = true) :
    e ∈ bindImports n ↔ ∃ ds, (n.get "specifiers").sequence? = some ds ∧ ∃ d ∈ ds,
      d.isObj = true ∧ e = .define .here (d.get "local")
        { kind := .importBinding, name := d.get "local", node := d, parent := n } := by
  rw [bindImports, mem_forSequence_of_deed he]
  simp only [List.mem_flatMap]
  refine exists_congr fun ds => and_congr_right fun _ => exists_congr fun d => and_congr_right
    fun _ => ?_
  split
  · rename_i ho
    have ho : d.isObj = false := by simpa using ho
    simp only [ho, Bool.false_eq_true, false_and, iff_false, List.mem_singleton]
    rintro rfl
    cases he
  · rename_i ho
    have ho : d.isObj = true := by simpa using ho
    simp [ho]

/-- The families whose nodes bind and use no identifier themselves. -/
def Family.isSilent : Family → Bool
  | .program | .block | .loop | .switch | .withObject | .call | .exportNamed | .exportDefault
  | .exportAll | .access | .plain | .declarator | .this | .label | .inert | .exportSpecifier => true
  | _ => false

theorem notMem_rule_of_silent (h : family.isSilent = true) (he : e.isDeed = true) :
    (⟨c', e⟩ : Leaf) ∉ leavesOf c (rule g (fun _ => []) n family) := fun hr => by
  cases family with
  | program =>
      rw [rule, program, mem_nested_of_deed he] at hr
      obtain ⟨kinds, -, hr⟩ := hr
      rw [visitChildren_nothing] at hr
      split at hr
      · rw [leavesOf_cons, leavesOf_nil, Event.leaves, leavesOf_nil, List.append_nil,
          List.mem_singleton] at hr
        rw [(Leaf.mk.inj hr).2] at he
        cases he
      · cases hr
  | block =>
      rw [rule, visitChildren_nothing] at hr
      exact mem_nestedIf_of_deed he hr
  | loop =>
      rw [rule, loop, visitChildren_nothing] at hr
      exact mem_nestedIf_of_deed he hr
  | switch => exact mem_nestedIf_of_deed he hr
  | withObject =>
      obtain ⟨kinds, -, hr⟩ := (mem_nested_of_deed he).1 hr
      cases hr
  | call =>
      simp only [rule, call, visitChildren_nothing] at hr
      split_ifs at hr
      · cases hr
      · exact absurd hr (not_mem_single_of_deed he rfl rfl)
      · exact absurd hr (not_mem_single_of_deed he rfl rfl)
      · cases hr
  | exportNamed =>
      simp only [rule, onlyInModule, exportNamed, ite_self] at hr
      split at hr
      · cases hr
      · exact absurd hr (not_mem_single_of_deed he rfl rfl)
  | exportDefault | exportAll =>
      rw [rule, onlyInModule] at hr
      split at hr
      · cases hr
      · exact absurd hr (not_mem_single_of_deed he rfl rfl)
  | access =>
      simp only [rule, access, ite_self, List.append_nil] at hr
      cases hr
  | plain =>
      rw [rule, visitChildren_nothing] at hr
      cases hr
  | declarator => exact absurd hr (not_mem_single_of_deed he rfl rfl)
  | this => exact absurd hr (not_mem_single_of_deed he rfl rfl)
  | label | inert | exportSpecifier => cases hr
  | _ => cases h

/-! ### The table of bindings -/

end LexScope.Walk

namespace LexScope

/-- The definition of an identifier that a declarator binds. -/
def Definition.ofDeclarator (kind : DefinitionKind) (declaration : Node) (i : Nat) (d p : Node) :
    Definition :=
  { kind, name := p, node := d, parent := declaration, index := .int i,
    declarationKind := (declaration.get "kind").value }

/-- The definition of an identifier that a parameter binds. -/
def Definition.ofParameter (f : Node) (i : Nat) (p : Node) : Definition :=
  { kind := .parameter, name := p, node := f, index := .int i }

/-- The definition of the name of a class. -/
def Definition.ofClass (n : Node) : Definition :=
  { kind := .className, name := n.get "id", node := n }

/-- The definition of an identifier that a `catch` binds. -/
def Definition.ofCatch (n p : Node) : Definition := { kind := .catchClause, name := p, node := n }

/-- The definition of the name that a specifier imports. -/
def Definition.ofImport (n specifier : Node) : Definition :=
  { kind := .importBinding, name := specifier.get "local", node := specifier, parent := n }

end LexScope

namespace LexScope.Walk

open Grammar (inside enters openings)

variable {g : Gates} {n m f p : Node} {c c' : Around} {e : Event} {target : Target}
  {d : Definition} {isMethod : Bool} {family : Family} {kinds : List ScopeKind}

/-- The bindings that a rule makes itself: the scopes around, where among them it aims, the
identifier and its definition.  A `var` declaration is the only one that aims further up. -/
inductive Declares (g : Gates) (n : Node) (c : Around) :
    Around → Target → Node → Definition → Prop
  | variable {ds : List Node} {i : Nat} {d p : Node} (h : Family.declaration.Covers n)
      (hs : (n.get "declarations").sequence? = some ds) (hd : ds[i]? = some d)
      (ho : d.isObj = true) (hp : p ∈ Pattern.bound (d.get "id")) :
      Declares g n c c (if (n.get "kind").value = .str "var" then .hoisted else .here) p
        (.ofDeclarator .variable n i d p)
  | functionName (h : Family.function.Covers n) (ht : n.hasType "FunctionDeclaration" = true) :
      Declares g n c c .here (n.get "id") (.ofFunction n)
  | parameter {f : Node} {isMethod : Bool} {kinds : List ScopeKind} {params : List Node} {i : Nat}
      {param p : Node} (h : Runs n f isMethod) (hk : scopeKinds? f isMethod = some kinds)
      (hs : (f.get "params").sequence? = some params) (hi : params[i]? = some param)
      (hp : p ∈ Pattern.bound param) :
      Declares g n c (inside c f kinds) .here p (.ofParameter f i p)
  | className (h : Family.classDefinition.Covers n) (ht : n.hasType "ClassDeclaration" = true) :
      Declares g n c c .here (n.get "id") (.ofClass n)
  | innerName {kinds : List ScopeKind} (h : Family.classDefinition.Covers n)
      (hk : scopeKinds? n false = some kinds) (hid : (n.get "id").truthy = true) :
      Declares g n c (inside c n kinds) .here (n.get "id") (.ofClass n)
  | caught {kinds : List ScopeKind} {p : Node} (h : Family.catchClause.Covers n)
      (hk : scopeKinds? n false = some kinds) (hp : p ∈ Pattern.bound (n.get "param")) :
      Declares g n c (inside c n kinds) .here p (.ofCatch n p)
  | deadZone {d p : Node} (h : IteratesLexically g n) (hd : declarator? (n.get "left") 0 = some d)
      (hp : p ∈ Pattern.bound (d.get "id")) :
      Declares g n c ((.deadZone, n) :: c) .here p (.ofDeclarator .deadZone (n.get "left") 0 d p)
  | turn {kinds : List ScopeKind} {d p : Node} (h : IteratesLexically g n)
      (hk : scopeKinds? n false = some kinds) (hd : declarator? (n.get "left") 0 = some d)
      (hp : p ∈ Pattern.bound (d.get "id")) :
      Declares g n c (inside c n kinds) .here p (.ofDeclarator .variable (n.get "left") 0 d p)
  | imported {ds : List Node} {d : Node} (h : Family.importing.Covers n) (hm : g.isModule = true)
      (hs : (n.get "specifiers").sequence? = some ds) (hd : d ∈ ds) (ho : d.isObj = true) :
      Declares g n c c .here (d.get "local") (.ofImport n d)

theorem define_mem_bindDeclarator {kind : DefinitionKind} {i : Nat} {x : Node} {t : Target} :
    .define target p d ∈ bindDeclarator t kind n i x ↔
      p ∈ Pattern.bound (x.get "id") ∧ target = t ∧ d = .ofDeclarator kind n i x p := by
  rw [bindDeclarator, mem_forBound_of_deed rfl]
  constructor
  · rintro ⟨q, hq, hm⟩
    rcases List.mem_cons.1 hm with h | h
    · cases h
      exact ⟨hq, rfl, rfl⟩
    · split at h
      · cases h
      · cases List.mem_singleton.1 h
  · rintro ⟨hp, rfl, rfl⟩
    exact ⟨p, hp, List.mem_cons_self⟩

theorem define_mem_bindParameters {params : List Node} :
    .define target p d ∈ bindParameters n params ↔ ∃ i param, params[i]? = some param ∧
      p ∈ Pattern.bound param ∧ target = .here ∧ d = .ofParameter n i p := by
  simp only [bindParameters, List.mem_flatMap, Prod.exists, List.mk_mem_zipIdx_iff_getElem?,
    mem_forBound_of_deed (rfl : (Event.define target p d).isDeed = true), List.mem_singleton]
  constructor
  · rintro ⟨param, i, hi, q, hq, he⟩
    cases he
    exact ⟨i, param, hi, hq, rfl, rfl⟩
  · rintro ⟨i, param, hi, hp, rfl, rfl⟩
    exact ⟨param, i, hi, p, hp, rfl⟩

theorem define_notMem_writeHead {head : Node} : .define target p d ∉ writeHead n head := fun h => by
  obtain ⟨_, _, _, _, he⟩ := (deed_writeHead rfl).1 h
  cases he

theorem define_notMem_assignTo {pattern value : Node} :
    .define target p d ∉ assignTo pattern value n := fun h => by
  obtain ⟨_, _, he⟩ := (mem_forBound_of_deed rfl).1 h
  cases List.mem_singleton.1 he

theorem define_mem_function (h : (⟨c', .define target p d⟩ : Leaf) ∈
    leavesOf c (function (fun _ => []) f isMethod)) (hr : Runs n f isMethod) :
    Declares g n c c' target p d := by
  rcases (deed_function rfl).1 h with ⟨rfl, ht, he⟩ | ⟨kinds, hk, rfl, params, hs, hm⟩
  · cases he
    cases hr with
    | function hc => exact .functionName hc ht
    | method hc hm hf =>
        rw [Bool.or_eq_true, Node.isArrow, Node.hasType, Node.hasType, decide_eq_true_eq,
          decide_eq_true_eq] at hf
        rw [Node.hasType, decide_eq_true_eq] at ht
        rcases hf with hf | hf
        all_goals
          rw [hf] at ht
          exact absurd ht (by decide)
  · obtain ⟨i, param, hi, hp, rfl, rfl⟩ := define_mem_bindParameters.1 hm
    exact .parameter hr hk hs hi hp

theorem define_mem_lexicalIteration (h : IteratesLexically g n)
    (hm : (⟨c', .define target p d⟩ : Leaf) ∈ leavesOf c (lexicalIteration (fun _ => []) n)) :
    Declares g n c c' target p d := by
  rcases (deed_lexicalIteration rfl).1 hm with ⟨rfl, hb⟩ | ⟨kinds, hk, rfl, hb | hb⟩
  · obtain ⟨x, hx, hb⟩ := (deed_bindHead rfl).1 hb
    obtain ⟨hp, rfl, rfl⟩ := define_mem_bindDeclarator.1 hb
    exact .deadZone h hx hp
  · obtain ⟨x, hx, hb⟩ := (deed_bindHead rfl).1 hb
    obtain ⟨hp, rfl, rfl⟩ := define_mem_bindDeclarator.1 hb
    exact .turn h hk hx hp
  · exact absurd hb define_notMem_writeHead

/-- What an iteration with a lexical head does, its rule does. -/
theorem lexically {l : Leaf} (h : IteratesLexically g n)
    (hl : l ∈ leavesOf c (lexicalIteration (fun _ => []) n)) :
    ∃ family : Family, family.Covers n ∧ l ∈ leavesOf c (rule g (fun _ => []) n family) := by
  rcases h with h | ⟨h, hes, hlex⟩
  · exact ⟨_, h, hl⟩
  · refine ⟨_, h, ?_⟩
    rw [rule, iteration, if_pos (Bool.and_eq_true_iff.2 ⟨hes, hlex⟩)]
    exact hl

/-- Every binding that a rule makes is in the table. -/
theorem declares_of_mem (hm : (⟨c', .define target p d⟩ : Leaf) ∈ leavesOf c (own g n)) :
    Declares g n c c' target p d := by
  obtain ⟨family, hf, hr⟩ := mem_own.1 hm
  cases family with
  | declaration =>
      obtain ⟨rfl, ds, i, x, hs, hx, ho, hb⟩ := (deed_declare rfl).1 hr
      obtain ⟨hp, rfl, rfl⟩ := define_mem_bindDeclarator.1 hb
      exact .variable hf hs hx ho hp
  | function => exact define_mem_function hr (.function hf)
  | classDefinition =>
      obtain ⟨he, ⟨rfl, ht⟩ | ⟨kinds, hk, rfl, hid⟩⟩ := (deed_classDefinition rfl).1 hr
      · cases he
        exact .className hf ht
      · cases he
        exact .innerName hf hk hid
  | catchClause =>
      obtain ⟨kinds, hk, rfl, q, hq, he⟩ := (deed_catchClause rfl).1 hr
      cases he
      exact .caught hf hk hq
  | iteration =>
      by_cases hl : (g.es6 && isLexical (n.get "left")) = true
      · rw [rule, iteration, if_pos hl] at hr
        exact define_mem_lexicalIteration (.inr ⟨hf, Bool.and_eq_true_iff.1 hl⟩) hr
      · have hr := ((deed_iteration rfl hl).1 hr).2
        split at hr
        · exact absurd hr define_notMem_writeHead
        · exact absurd hr.2 define_notMem_assignTo
  | lexicalIteration => exact define_mem_lexicalIteration (.inl hf) hr
  | importing =>
      rw [rule, onlyInModule] at hr
      split at hr
      · rename_i hmod
        obtain ⟨rfl, hb⟩ := (flat_bindImports n).mem_leavesOf.1 hr
        obtain ⟨ds, hs, x, hx, ho, he⟩ := (deed_bindImports rfl).1 hb
        cases he
        exact .imported hf hmod hs hx ho
      · exact absurd hr (not_mem_single_of_deed rfl rfl rfl)
  | property =>
      simp only [rule, property, ite_self, List.nil_append] at hr
      split at hr
      · rename_i hb
        obtain ⟨hmethod, hfunction⟩ := Bool.and_eq_true_iff.1 hb
        exact define_mem_function hr (.method hf hmethod hfunction)
      · cases hr
  | assignment =>
      have hr := ((deed_assign rfl).1 hr).2.2
      split at hr
      · exact absurd hr define_notMem_assignTo
      · cases hr
  | update =>
      simp only [rule, update, visitChildren_nothing] at hr
      split at hr
      · cases (mem_use.1 hr).2
      · cases hr
  | identifier => cases (mem_use.1 hr).2
  | _ => exact absurd hr (notMem_rule_of_silent rfl rfl)

/-- **The bindings that a rule makes are those of the table.** -/
theorem define_mem_own : (⟨c', .define target p d⟩ : Leaf) ∈ leavesOf c (own g n) ↔
    Declares g n c c' target p d := by
  refine ⟨declares_of_mem, fun h => mem_own.2 ?_⟩
  cases h with
  | «variable» h hs hd ho hp =>
      exact ⟨_, h, (deed_declare rfl).2 ⟨rfl, _, _, _, hs, hd, ho,
        define_mem_bindDeclarator.2 ⟨hp, rfl, rfl⟩⟩⟩
  | functionName h ht => exact ⟨_, h, (deed_function rfl).2 (.inl ⟨rfl, ht, rfl⟩)⟩
  | parameter h hk hs hi hp =>
      have hm := (deed_function (c := c) rfl).2 (.inr ⟨_, hk, rfl, _, hs,
        define_mem_bindParameters.2 ⟨_, _, hi, hp, rfl, rfl⟩⟩)
      cases h with
      | function h => exact ⟨_, h, hm⟩
      | method h hmethod hfunction =>
          refine ⟨_, h, ?_⟩
          simp only [rule, property, ite_self, List.nil_append]
          rw [if_pos (Bool.and_eq_true_iff.2 ⟨hmethod, hfunction⟩)]
          exact hm
  | className h ht => exact ⟨_, h, (deed_classDefinition rfl).2 ⟨rfl, .inl ⟨rfl, ht⟩⟩⟩
  | innerName h hk hid =>
      exact ⟨_, h, (deed_classDefinition rfl).2 ⟨rfl, .inr ⟨_, hk, rfl, hid⟩⟩⟩
  | caught h hk hp => exact ⟨_, h, (deed_catchClause rfl).2 ⟨_, hk, rfl, p, hp, rfl⟩⟩
  | deadZone h hd hp =>
      have hm := (deed_lexicalIteration (c := c) rfl).2 (.inl ⟨rfl, (deed_bindHead rfl).2
        ⟨_, hd, define_mem_bindDeclarator.2 ⟨hp, rfl, rfl⟩⟩⟩)
      exact lexically h hm
  | turn h hk hd hp =>
      have hm := (deed_lexicalIteration (c := c) rfl).2 (.inr ⟨_, hk, rfl, .inl
        ((deed_bindHead rfl).2 ⟨_, hd, define_mem_bindDeclarator.2 ⟨hp, rfl, rfl⟩⟩)⟩)
      exact lexically h hm
  | imported h hm hs hd ho =>
      refine ⟨_, h, ?_⟩
      rw [rule, onlyInModule, if_pos hm, (flat_bindImports n).mem_leavesOf]
      exact ⟨rfl, (deed_bindImports rfl).2 ⟨_, hs, _, hd, ho, rfl⟩⟩

/-! ### The table of uses -/

/-- The uses that a rule makes itself: the scopes around, and the event. -/
inductive Refers (g : Gates) (n : Node) (c : Around) : Around → Event → Prop
  | name (h : Family.identifier.Covers n) : Refers g n c c (.refer { identifier := n })
  | step (h : Family.update.Covers n) (hid : (n.get "argument").isIdentifier = true) :
      Refers g n c c (.refer { identifier := n.get "argument", access := .readWrite })
  | amended (h : Family.assignment.Covers n)
      (hp : Pattern.isPattern? (n.get "left") = some true) (ho : (n.get "operator").value ≠ .str "=") :
      Refers g n c c (.refer
        { identifier := n.get "left", access := .readWrite, writeExpr := n.get "right" })
  | assigned {e : Event} (h : Family.assignment.Covers n)
      (hp : Pattern.isPattern? (n.get "left") = some true) (ho : (n.get "operator").value = .str "=")
      (he : e ∈ assignTo (n.get "left") (n.get "right") n) : Refers g n c c e
  | initialized {ds : List Node} {i : Nat} {d p : Node} (h : Family.declaration.Covers n)
      (hs : (n.get "declarations").sequence? = some ds) (hd : ds[i]? = some d)
      (ho : d.isObj = true) (hp : p ∈ Pattern.bound (d.get "id")) :
      Refers g n c c (initialWrite (d.get "id") p (d.get "init"))
  | target {e : Event} (h : Family.iteration.Covers n)
      (hl : ¬ (g.es6 && isLexical (n.get "left")) = true)
      (hv : ¬ (n.get "left").hasType "VariableDeclaration" = true)
      (hp : Pattern.isPattern? (n.get "left") = some true)
      (he : e ∈ assignTo (n.get "left") (n.get "right") n) : Refers g n c c e
  | head {d p : Node} (h : Family.iteration.Covers n)
      (hl : ¬ (g.es6 && isLexical (n.get "left")) = true)
      (hv : (n.get "left").hasType "VariableDeclaration" = true)
      (hd : declarator? (n.get "left") 0 = some d) (hp : p ∈ Pattern.bound (d.get "id")) :
      Refers g n c c (initialWrite (d.get "id") p (n.get "right"))
  | deadZone {d p : Node} (h : IteratesLexically g n) (hd : declarator? (n.get "left") 0 = some d)
      (hi : (d.get "init").isNull = false) (hp : p ∈ Pattern.bound (d.get "id")) :
      Refers g n c ((.deadZone, n) :: c) (initialWrite (d.get "id") p (d.get "init"))
  | turn {kinds : List ScopeKind} {d p value : Node} (h : IteratesLexically g n)
      (hk : scopeKinds? n false = some kinds) (hd : declarator? (n.get "left") 0 = some d)
      (hp : p ∈ Pattern.bound (d.get "id")) :
      Refers g n c (inside c n kinds) (initialWrite (d.get "id") p value)

theorem refer_mem_bindDeclarator {t : Target} {kind : DefinitionKind} {i : Nat} {x : Node}
    {u : Use} (h : .refer u ∈ bindDeclarator t kind n i x) : (x.get "init").isNull = false ∧
      ∃ p ∈ Pattern.bound (x.get "id"), .refer u = initialWrite (x.get "id") p (x.get "init") := by
  obtain ⟨p, hp, hm⟩ := (mem_forBound_of_deed rfl).1 h
  rcases List.mem_cons.1 hm with hm | hm
  · cases hm
  · split at hm
    · cases hm
    · rename_i hi
      exact ⟨by simpa using hi, p, hp, List.mem_singleton.1 hm⟩

theorem refer_notMem_bindParameters {params : List Node} {u : Use} :
    .refer u ∉ bindParameters n params := fun h => by
  obtain ⟨x, -, hx⟩ := List.mem_flatMap.1 h
  obtain ⟨p, -, hm⟩ := (mem_forBound_of_deed rfl).1 hx
  cases List.mem_singleton.1 hm

theorem refer_notMem_function {u : Use} :
    (⟨c', .refer u⟩ : Leaf) ∉ leavesOf c (function (fun _ => []) f isMethod) := fun h => by
  rcases (deed_function rfl).1 h with ⟨-, -, he⟩ | ⟨kinds, -, -, params, -, hm⟩
  · cases he
  · exact refer_notMem_bindParameters hm

theorem refer_mem_lexicalIteration {u : Use} (h : IteratesLexically g n)
    (hm : (⟨c', .refer u⟩ : Leaf) ∈ leavesOf c (lexicalIteration (fun _ => []) n)) :
    Refers g n c c' (.refer u) := by
  rcases (deed_lexicalIteration rfl).1 hm with ⟨rfl, hb⟩ | ⟨kinds, hk, rfl, hb | hb⟩
  · obtain ⟨x, hx, hb⟩ := (deed_bindHead rfl).1 hb
    obtain ⟨hi, p, hp, he⟩ := refer_mem_bindDeclarator hb
    exact he ▸ .deadZone h hx hi hp
  · obtain ⟨x, hx, hb⟩ := (deed_bindHead rfl).1 hb
    obtain ⟨-, p, hp, he⟩ := refer_mem_bindDeclarator hb
    exact he ▸ .turn h hk hx hp
  · obtain ⟨x, hx, p, hp, he⟩ := (deed_writeHead rfl).1 hb
    exact he ▸ .turn h hk hx hp

/-- **The uses that a rule makes are in the table.** -/
theorem refers_of_mem {u : Use} (hm : (⟨c', .refer u⟩ : Leaf) ∈ leavesOf c (own g n)) :
    Refers g n c c' (.refer u) := by
  obtain ⟨family, hf, hr⟩ := mem_own.1 hm
  cases family with
  | declaration =>
      obtain ⟨rfl, ds, i, x, hs, hx, ho, hb⟩ := (deed_declare rfl).1 hr
      obtain ⟨-, p, hp, he⟩ := refer_mem_bindDeclarator hb
      exact he ▸ .initialized hf hs hx ho hp
  | function => exact absurd hr refer_notMem_function
  | classDefinition => cases ((deed_classDefinition rfl).1 hr).1
  | catchClause =>
      obtain ⟨kinds, hk, rfl, q, hq, he⟩ := (deed_catchClause rfl).1 hr
      cases he
  | iteration =>
      by_cases hl : (g.es6 && isLexical (n.get "left")) = true
      · rw [rule, iteration, if_pos hl] at hr
        exact refer_mem_lexicalIteration (.inr ⟨hf, Bool.and_eq_true_iff.1 hl⟩) hr
      · obtain ⟨rfl, he⟩ := (deed_iteration rfl hl).1 hr
        split at he
        · rename_i hv
          obtain ⟨x, hx, p, hp, he⟩ := (deed_writeHead rfl).1 he
          exact he ▸ .head hf hl hv hx hp
        · rename_i hv
          exact .target hf hl hv he.1 he.2
  | lexicalIteration => exact refer_mem_lexicalIteration (.inl hf) hr
  | importing =>
      rw [rule, onlyInModule] at hr
      split at hr
      · obtain ⟨ds, hs, x, hx, ho, he⟩ :=
          (deed_bindImports rfl).1 ((flat_bindImports n).mem_leavesOf.1 hr).2
        cases he
      · exact absurd hr (not_mem_single_of_deed rfl rfl rfl)
  | property =>
      simp only [rule, property, ite_self, List.nil_append] at hr
      split at hr
      · exact absurd hr refer_notMem_function
      · cases hr
  | assignment =>
      obtain ⟨rfl, hp, he⟩ := (deed_assign rfl).1 hr
      split at he
      · rename_i ho
        exact .assigned hf hp ho he
      · rename_i ho
        exact he ▸ .amended hf hp ho
  | update =>
      simp only [rule, update, visitChildren_nothing] at hr
      split at hr
      · rename_i hid
        obtain ⟨rfl, he⟩ := mem_use.1 hr
        exact he ▸ .step hf hid
      · cases hr
  | identifier =>
      obtain ⟨rfl, he⟩ := mem_use.1 hr
      exact he ▸ .name hf
  | _ => exact absurd hr (notMem_rule_of_silent rfl rfl)

end LexScope.Walk
