import LexScope.Proofs.Sites

/-!
# Proofs — Walked — what every rule comes to

One lemma for each family of nodes: what the rule of the family comes to is merged from the sites of
the node's own and from what the phrases at its slots come to (`Stepped`).  Where a rule goes over
the children, these are what stands at the slots; where it visits members or reads patterns, each
slot is met by one of its parts.

* `Part.told_step`: **every part comes to its own sites and to those of the parts just below it.**
* `sitesOf_plan`: **the sites of a program are those of its parts.**
-/

namespace LexScope.Grammar

open Walk

variable {g : Gates} {c : Around} {n m : Node} {kinds : List ScopeKind} {p q : Part} {s : Slot}
  {slots : List Slot} {type : String} {types : List String} {family : Family} {φ : Phrase} {ρ : Role}

/-- A node of a family that is walked by the rule of its type. -/
structure Walked (types : List String) (n : Node) (type : String) (family : Family)
    (slots : List Slot) : Prop where
  holds : Holds (.walked types) n
  grammar : slots? (.walked types) n = some slots
  typeName : n.typeName? = some type
  proper : type ∉ familyNames
  ofType : Family.ofType type = family
  members : walkedSlots? n type family = some slots

/-! ### Targets -/

theorem isPattern?_of_typeName? (ht : n.typeName? = some type) :
    Pattern.isPattern? n = some (Pattern.types.contains type) := by
  rw [Pattern.isPattern?, isObj_of_typeName? ht, type_eq ht, ht]
  rfl

/-- What is a target and no member access is a pattern. -/
theorem isPattern?_eq (h : Holds (.pattern ρ) n) :
    Pattern.isPattern? n = some !n.hasType "MemberExpression" := by
  obtain ⟨type, ht, hmem, -⟩ := h.typeName?
  rw [isPattern?_of_typeName? ht, Option.some_inj]
  have hall : ∀ t ∈ (Phrase.pattern .use).types,
      Pattern.types.contains t = !decide (t = "MemberExpression") := by decide
  rw [hall type hmem, Node.hasType, type_eq ht]
  simp

/-- A member access is a target as a whole. -/
theorem items_of_access (ht : n.typeName? = some "MemberExpression") :
    Pattern.items n = [.embedded n] := by
  rw [Pattern.items_eq, Pattern.step, isObj_of_typeName? ht, ht]
  rfl

/-- What is written to a target. -/
theorem sitesOf_assignTo {value : Node} (h : Holds (.pattern .use) n) :
    sitesOf c (assignTo n value m) = boundSites c .use (Pattern.items n) := by
  rw [assignTo, forBound_eq h, sitesOf_map]
  rfl

/-! ### Declarators -/

variable {target : Target} {kind : DefinitionKind} {d : Node} {ts : List Tree}

theorem Holds.declarator (h : Holds .declarator d) :
    Holds (.pattern (declaratorRole d false)) (d.get "id") := by
  obtain ⟨slots, hs⟩ := h.exists_slots
  obtain ⟨type, -, -, -, hp⟩ := slots?_eq_some.1 hs
  obtain rfl := Option.some.inj hp
  exact h.get hs List.mem_cons_self

theorem Holds.headDeclarator (h : Holds .headDeclarator d) :
    Holds (.pattern (declaratorRole d true)) (d.get "id") := by
  obtain ⟨slots, hs⟩ := h.exists_slots
  obtain ⟨type, -, -, -, hp⟩ := slots?_eq_some.1 hs
  obtain rfl := Option.some.inj hp
  exact h.get hs List.mem_cons_self

/-- The head of an iteration has one declarator. -/
theorem Holds.head (h : Holds .head n) : n.typeName? = some "VariableDeclaration" ∧
    (∃ ts, (n.get "declarations").value = .arr ts) ∧
      ∃ d, (n.get "declarations").items = [d] ∧ Holds .headDeclarator d ∧
        ((n.get "kind").value = .str "var" ∨ (d.get "init").isNull = true) := by
  obtain ⟨slots, hs⟩ := h.exists_slots
  obtain ⟨type, ht, hmem, -, hp⟩ := slots?_eq_some.1 hs
  obtain rfl : type = "VariableDeclaration" := List.mem_singleton.1 hmem
  rw [typeSlots?] at hp
  split at hp
  · rename_i hhead
    obtain rfl := Option.some.inj hp
    obtain ⟨hlength, hinit⟩ := Bool.and_eq_true_iff.1 hhead
    obtain ⟨d, hd⟩ := List.length_eq_one_iff.1 (of_decide_eq_true hlength)
    refine ⟨ht, Part.value_of_fits (h.fits hs List.mem_cons_self) (.inl rfl), d, hd, ?_, ?_⟩
    · exact h.below hs List.mem_cons_self (show d ∈ (n.get "declarations").items from hd ▸ by simp)
    · simpa [hd] using hinit
  · cases hp

/-- The names of a declarator are bound, and written if there is an initializer. -/
theorem merges_bindDeclarator {i : Nat} (h : Holds (.pattern ρ) (d.get "id")) :
    Merges (sitesOf c (bindDeclarator target kind n i d))
      [if target = .here then binds c (d.get "id") (declaratorDefinition kind n (d, i)) else [],
        boundSites c (declaratorRole d false) (Pattern.items (d.get "id"))] := by
  have hsites : sitesOf c (bindDeclarator target kind n i d) =
      (Pattern.bound (d.get "id")).flatMap fun p =>
        (if target = .here then [⟨c, .binds p (declaratorDefinition kind n (d, i) p)⟩] else []) ++
          if (d.get "init").isNull then [] else [⟨c, .uses p⟩] := by
    rw [bindDeclarator, forBound_eq h, sitesOf_flatMap]
    refine List.flatMap_congr fun p _ => ?_
    cases target <;> cases (d.get "init").isNull <;> rfl
  rw [hsites]
  refine (Merges.zip _ _ _).congr (.of_eq ?_)
  cases target <;> cases hinit : (d.get "init").isNull <;>
    simp [binds, boundSites, Pattern.bound, List.map_eq_flatMap, declaratorRole, hinit, Role.uses]

/-- A declaration declares its names and does what its declarators do. -/
theorem merges_declare (hv : (n.get "declarations").value = .arr ts)
    (hd : ∀ d ∈ (n.get "declarations").items, d.isObj = true ∧ ∃ ρ, Holds (.pattern ρ) (d.get "id")) :
    Merges (sitesOf c (declare (plan g) n)) (declaresHere c n ::
      (n.get "declarations").items.map fun d =>
        declaratorSites g c false d) := by
  let target : Target := if (n.get "kind").value = .str "var" then .hoisted else .here
  have hdeclares : declaresHere c n = (n.get "declarations").items.zipIdx.flatMap fun d =>
      if target = .here then binds c (d.1.get "id") (declaratorDefinition .variable n d) else [] := by
    unfold declaresHere declares target
    split <;> simp
  have hmap : ((n.get "declarations").items.map fun d =>
      declaratorSites g c false d) =
      (n.get "declarations").items.zipIdx.map fun d =>
        declaratorSites g c false d.1 := by
    conv_lhs => rw [← List.zipIdx_map_fst 0 (n.get "declarations").items, List.map_map]
    rfl
  have hcheck : sitesOf c (if (n.get "kind").value = .str "var" then [.needScope] else []) = [] := by
    split <;> rfl
  rw [declare]
  dsimp only
  rw [sitesOf_append, forSequence_list hv, sitesOf_flatMap, hcheck, List.nil_append, hdeclares, hmap]
  refine Merges.interleave ?_
  rintro ⟨d, i⟩ hmem
  obtain ⟨hobj, ρ, hid⟩ := hd d (List.fst_mem_of_mem_zipIdx hmem)
  rw [hobj]
  simp only [Bool.not_true, Bool.false_eq_true, if_false, sitesOf_append, sitesOf_visitEmbedded,
    declaratorSites, itemSites]
  refine (((merges_bindDeclarator hid).append (.single _)).append (.single _)).join.congr (.of_eq ?_)
  simp [target]

section Head

variable {head : Node} (hd : (head.get "declarations").items = [d]) (h : Holds .headDeclarator d)

include hd h

theorem declarator?_head : declarator? head 0 = some d := by
  rw [declarator?, hd]
  simp [h.isObj]

/-- Without an initializer the names of a head are bound and not written. -/
theorem sitesOf_bindHead (hinit : (d.get "init").isNull = true) (kind : DefinitionKind) :
    sitesOf c (bindHead kind head) = declares kind c head := by
  rw [bindHead, declarator?_head hd h]
  dsimp only
  rw [bindDeclarator, hinit, declares, hd]
  exact (sitesOf_forBound h.headDeclarator _).trans (List.append_nil _).symm

/-- What is iterated over is written to the names of a head. -/
theorem sitesOf_writeHead : sitesOf c (writeHead n head) =
    boundSites c .use (Pattern.items (d.get "id")) := by
  rw [writeHead, declarator?_head hd h]
  dsimp only
  rw [forBound_eq h.headDeclarator, sitesOf_map]
  rfl

theorem sitesOf_visitHead : sitesOf c (visitHead (plan g) head) =
    embeddedSites g c (Pattern.items (d.get "id")) := by
  rw [visitHead, declarator?_head hd h]
  exact sitesOf_visitEmbedded

end Head

theorem phraseSites_head {head : Node} (hd : (head.get "declarations").items = [d]) :
    phraseSites g c .head head =
      (if g.es6 then [] else declaresHere c head) ++ declaratorSites g c true d := by
  rw [phraseSites, hd, List.flatMap_singleton]

/-- Without an initializer, what the declarator of a head does is write its names. -/
theorem declaratorSites_head (hinit : (d.get "init").isNull = true) : declaratorSites g c true d =
    boundSites c .use (Pattern.items (d.get "id")) ++ embeddedSites g c (Pattern.items (d.get "id")) := by
  rw [declaratorSites, plan_null hinit, sitesOf_nil, List.append_nil, declaratorRole, hinit]
  rfl

/-- In the head of an iteration the names of a declarator are written once more. -/
theorem declaratorSites_perm (d : Node) :
    (declaratorSites g c false d ++ boundSites c .use (Pattern.items (d.get "id"))).Perm
      (declaratorSites g c true d) := by
  have huses : (declaratorRole d true).uses = Role.use.uses + (declaratorRole d false).uses := by
    cases hinit : (d.get "init").isNull <;> simp [declaratorRole, hinit, Role.uses]
  have hbound : ((boundSites c .use (Pattern.items (d.get "id"))) ++
      boundSites c (declaratorRole d false) (Pattern.items (d.get "id"))).Perm
      (boundSites c (declaratorRole d true) (Pattern.items (d.get "id"))) := by
    simp only [boundSites, huses, List.replicate_add]
    exact List.flatMap_append_perm ..
  refine List.perm_append_comm.trans ?_
  simp only [declaratorSites, itemSites]
  rw [← List.append_assoc, ← List.append_assoc]
  exact (hbound.append_right _).append_right _

namespace Walked

/-- What stands at a member. -/
theorem get (h : Walked types n type family slots) {key : String} {ψ : Phrase}
    (hsl : ⟨key, .one, ψ⟩ ∈ slots) : Holds ψ (n.get key) := h.holds.get h.grammar hsl

/-- A member where several phrases stand is a list. -/
theorem list (h : Walked types n type family slots) {key : String} {ψ : Phrase}
    (hsl : ⟨key, .many, ψ⟩ ∈ slots) : ∃ ts, (n.get key).value = .arr ts :=
  Part.value_of_fits (h.holds.fits h.grammar hsl) (.inl rfl)

theorem stepped_iff (h : Walked types n type family slots) :
    Stepped g c (.walked types) n slots ↔
    Merges (sitesOf c (rule g (plan g) n family)) (walkedSites g c n family ::
      slots.flatMap fun s => (s.nodes n).map
        (phraseSites g (inside c n (walkedScopes g n s.key family)) s.phrase)) :=
  stepped_walked_iff h.typeName h.ofType

theorem scopeKinds?_eq (h : Walked types n type family slots) (hk : kindOf family ≠ .function) :
    scopeKinds? n false = some [kindOf family] :=
  scopeKinds?_family h.typeName h.proper h.ofType hk

/-- A node that only has its children walked. -/
theorem stepped_children (h : Walked types n type family slots) (kinds : List ScopeKind)
    (hw : ∀ s ∈ slots, s.phrase.isWalked = true)
    (hk : ∀ s ∈ slots, walkedScopes g n s.key family = kinds)
    (he : sitesOf c (rule g (plan g) n family) = walkedSites g c n family ++
      sitesOf (inside c n kinds) (visitChildren (plan g) n)) :
    Stepped g c (.walked types) n slots :=
  stepped_walked_children h.holds h.grammar h.typeName h.ofType kinds hw hk he

/-! ### Statements with scopes -/

theorem program (h : Walked types n type .program slots) : Stepped g c (.walked types) n slots := by
  obtain rfl := Option.some.inj h.members
  refine h.stepped_children (walkedScopes g n "body" .program) (by simp [Phrase.isWalked])
    (fun _ _ => rfl) ?_
  rw [rule, Walk.program, walkedSites, sitesOf_nested (h.scopeKinds?_eq (by decide)), walkedScopes]
  cases g.isModule <;> simp [enters, inside, Event.sites, kindOf]

theorem block (h : Walked types n type .block slots) : Stepped g c (.walked types) n slots := by
  obtain rfl := Option.some.inj h.members
  refine h.stepped_children (walkedScopes g n "body" .block)
    (by simp [Phrase.isWalked, Phrase.statement]) (fun _ _ => rfl) ?_
  rw [rule, sitesOf_nestedIf (h.scopeKinds?_eq (by decide))]
  rfl

theorem loop (h : Walked types n type .loop slots) : Stepped g c (.walked types) n slots := by
  obtain rfl := Option.some.inj h.members
  refine h.stepped_children (walkedScopes g n "body" .loop)
    (by simp [Phrase.isWalked, Phrase.statement, Phrase.expression]) (fun _ _ => rfl) ?_
  rw [rule, Walk.loop, sitesOf_nestedIf (h.scopeKinds?_eq (by decide))]
  rfl

theorem switch (h : Walked types n type .switch slots) : Stepped g c (.walked types) n slots := by
  obtain rfl := Option.some.inj h.members
  obtain ⟨ts, hv⟩ := h.list (List.mem_cons_of_mem _ List.mem_cons_self)
  rw [h.stepped_iff, rule, Walk.switch, sitesOf_append,
    sitesOf_nestedIf (h.scopeKinds?_eq (by decide)), List.flatMap_cons, List.flatMap_singleton]
  have hcases : walkedScopes g n "cases" .switch = if g.es6 then [.switch] else [] := by
    simp [walkedScopes]
  have htest : walkedScopes g n "discriminant" .switch = [] := by simp [walkedScopes]
  simp only [walkedSites, hcases, htest]
  exact (Merges.cons _ (.cons _ (merges_many hv ["SwitchCase"]))).congr (.swap ..)

theorem withObject (h : Walked types n type .withObject slots) :
    Stepped g c (.walked types) n slots := by
  obtain rfl := Option.some.inj h.members
  rw [h.stepped_iff, rule, Walk.withObject, sitesOf_append,
    sitesOf_nested (h.scopeKinds?_eq (by decide)), List.flatMap_cons, List.flatMap_singleton]
  exact (Merges.cons _ (.cons _ (.single _))).congr (.swap ..)

theorem catchClause (h : Walked types n type .catchClause slots) :
    Stepped g c (.walked types) n slots := by
  obtain rfl := Option.some.inj h.members
  have hparam : Holds (.pattern .caught) (n.get "param") := h.get List.mem_cons_self
  rw [h.stepped_iff, rule, Walk.catchClause, sitesOf_nested (h.scopeKinds?_eq (by decide)),
    List.flatMap_cons, List.flatMap_singleton, sitesOf_append, sitesOf_append,
    sitesOf_forBound hparam, sitesOf_visitEmbedded, ← List.append_assoc, ← List.append_assoc,
    List.append_assoc]
  refine .cons _ ?_
  rw [← itemSites_of_unused (ρ := .caught) rfl]
  exact .cons _ (.single _)

theorem function (h : Walked types n type .function slots) :
    Stepped g c (.walked types) n slots :=
  stepped_function h.holds h.typeName h.proper h.ofType h.grammar h.members
    (by rw [phraseSites, plan_rule h.typeName, h.ofType]; rfl)
    (by rw [ownSites, h.typeName, Option.map_some, h.ofType]; rfl)
    fun key => by rw [scopes_walked h.typeName h.ofType, walkedScopes]

theorem classDefinition (h : Walked types n type .classDefinition slots) :
    Stepped g c (.walked types) n slots := by
  obtain rfl := Option.some.inj h.members
  rw [h.stepped_iff, rule, Walk.classDefinition, sitesOf_append, sitesOf_append,
    sitesOf_nested (h.scopeKinds?_eq (by decide)), List.flatMap_cons, List.flatMap_cons,
    List.flatMap_singleton, sitesOf_append, sitesOf_ite_define, sitesOf_ite_define,
    ← List.append_assoc (enters _ _ _)]
  refine Merges.cons_append_nils ?_ fun q hq => ?_
  · exact (merges_optional "superClass" expressions).around (.single _) _ _
  · obtain ⟨m, -, rfl⟩ := List.mem_map.1 hq
    exact useSites_of_unused (ρ := .className) rfl

theorem property (h : Walked types n type .property slots) :
    Stepped g c (.walked types) n slots := by
  obtain rfl := Option.some.inj h.members
  rw [h.stepped_iff, rule, Walk.property, sitesOf_append, List.flatMap_cons, List.flatMap_singleton]
  refine Merges.cons_nil (.append ?_ ?_)
  · show Merges _ [phraseSites g c (keySlot n).phrase (n.get "key")]
    rw [keySlot, isComputed]
    split
    · exact .single _
    · exact Merges.nil.cons_nil
  · have hvalue : Holds _ (n.get "value") :=
      h.get (List.mem_cons_of_mem _ List.mem_cons_self)
    show Merges _ [phraseSites g c (if n.hasType "MethodDefinition" || (n.get "method").truthy
      then .method else .expression) (n.get "value")]
    cases hm : n.hasType "MethodDefinition" || (n.get "method").truthy with
    | true =>
        rw [hm, if_pos rfl] at hvalue
        rw [hasType_of_types hvalue rfl]
        exact .single _
    | false => exact .single _

/-! ### Expressions -/

theorem assignment (h : Walked types n type .assignment slots) :
    Stepped g c (.walked types) n slots := by
  obtain rfl := Option.some.inj h.members
  have hleft : Holds _ (n.get "left") := h.get List.mem_cons_self
  rw [h.stepped_iff, rule, List.flatMap_cons, List.flatMap_singleton, assign]
  refine Merges.cons_nil ?_
  show Merges _ [phraseSites g c (if (n.get "operator").value = .str "=" then .pattern .use
    else .walked ["Identifier", "MemberExpression"]) (n.get "left"), sitesOf c (plan g (n.get "right"))]
  by_cases hop : (n.get "operator").value = .str "="
  · rw [if_pos hop] at hleft ⊢
    rw [isPattern?_eq hleft, if_pos hop]
    cases hm : (n.get "left").hasType "MemberExpression" with
    | true =>
        rw [phraseSites, items_of_access (hasType_iff.1 hm), itemSites_embedded, Bool.not_true,
          sitesOf_append]
        exact .cons _ (.single _)
    | false =>
        rw [Bool.not_false, sitesOf_append, sitesOf_append, sitesOf_assignTo hleft,
          sitesOf_visitEmbedded]
        exact .cons _ (.single _)
  · rw [if_neg hop] at hleft ⊢
    obtain ⟨t, ht, hmem, -⟩ := hleft.typeName?
    rw [isPattern?_of_typeName? ht, if_neg hop]
    obtain rfl | rfl : t = "Identifier" ∨ t = "MemberExpression" := by
      simpa [Phrase.types] using hmem
    · rw [phraseSites, plan_rule ht]
      exact .cons _ (.single _)
    · show Merges (sitesOf c (plan g (n.get "left") ++ plan g (n.get "right"))) _
      rw [sitesOf_append]
      exact .cons _ (.single _)

theorem update (h : Walked types n type .update slots) : Stepped g c (.walked types) n slots := by
  obtain rfl := Option.some.inj h.members
  cases hid : (n.get "argument").isIdentifier with
  | true =>
      rw [h.stepped_iff, rule, Walk.update, hid, List.flatMap_singleton]
      show Merges _ [[], sitesOf c (plan g (n.get "argument"))]
      rw [plan_rule (hasType_iff.1 hid)]
      exact (Merges.single _).cons_nil
  | false =>
      refine h.stepped_children [] (by simp [Phrase.isWalked, Phrase.expression]) (fun _ _ => rfl) ?_
      rw [rule, Walk.update, hid]
      rfl

theorem identifier (h : Walked types n type .identifier slots) :
    Stepped g c (.walked types) n slots := by
  obtain rfl := Option.some.inj h.members
  rw [h.stepped_iff]
  exact .single _

theorem access (h : Walked types n type .access slots) : Stepped g c (.walked types) n slots := by
  obtain rfl := Option.some.inj h.members
  rw [h.stepped_iff, rule]
  exact (merges_access n).cons_nil

theorem call (h : Walked types n type .call slots) : Stepped g c (.walked types) n slots := by
  obtain rfl := Option.some.inj h.members
  have hcallee : (n.get "callee").isObj = true := (h.get List.mem_cons_self).isObj
  refine h.stepped_children [] (by simp [Phrase.isWalked, Phrase.callee, Phrase.element])
    (fun _ _ => rfl) ?_
  rw [rule, Walk.call, hcallee, Bool.not_true, Bool.and_false]
  split_ifs <;> first | rfl | contradiction

theorem this (h : Walked types n type .this slots) : Stepped g c (.walked types) n slots := by
  obtain rfl := Option.some.inj h.members
  rw [h.stepped_iff]
  exact .single _

/-- Nodes whose children are walked and nothing else. -/
theorem plain (h : Walked types n type .plain slots) : Stepped g c (.walked types) n slots := by
  have hwalked : ∀ e ∈ plainSlots, ∀ s ∈ e.2, s.phrase.isWalked = true := by decide
  obtain ⟨l₁, l₂, hl, -⟩ := List.lookup_eq_some_iff.1 h.members
  exact h.stepped_children [] (hwalked (type, slots) (hl ▸ by simp)) (fun _ _ => rfl) rfl

/-! ### Labels -/

theorem label (h : Walked types n type .label slots) : Stepped g c (.walked types) n slots := by
  obtain rfl := Option.some.inj h.members
  rw [h.stepped_iff]
  exact ((Merges.single _).cons_nil).cons_nil

theorem inert (h : Walked types n type .inert slots) : Stepped g c (.walked types) n slots := by
  have hwords : ∀ s ∈ slots, s.phrase = .name .metaPart ∨ s.phrase = .name .label := by
    obtain rfl := Option.some.inj h.members
    split <;> simp
  rw [h.stepped_iff, rule, ← List.append_nil (slots.flatMap _)]
  refine Merges.cons_append_nils (.single _) fun q hq => ?_
  obtain ⟨s, hs, hq⟩ := List.mem_flatMap.1 hq
  obtain ⟨m, -, rfl⟩ := List.mem_map.1 hq
  rcases hwords s hs with hφ | hφ <;> rw [hφ]
  · exact useSites_of_unused (ρ := .metaPart) rfl
  · exact useSites_of_unused (ρ := .label) rfl

/-! ### Declarations -/

theorem declaration (h : Walked types n type .declaration slots) :
    Stepped g c (.walked types) n slots := by
  obtain rfl := Option.some.inj h.members
  obtain ⟨ts, hv⟩ := h.list List.mem_cons_self
  rw [h.stepped_iff, rule, List.flatMap_singleton]
  exact merges_declare hv fun d hd =>
    have hdecl : Holds .declarator d := h.holds.below h.grammar List.mem_cons_self hd
    ⟨hdecl.isObj, _, hdecl.declarator⟩

/-! ### Iterations -/

/-- A lexical head declares its names twice, before what is iterated over and after. -/
theorem lexicalIteration (h : Walked types n type .iteration slots)
    (hlex : isLexicalIteration g n = true) : Stepped g c (.walked types) n slots := by
  have hes6 : g.es6 = true := (Bool.and_eq_true_iff.1 hlex).1
  have hdecl := (Bool.and_eq_true_iff.1 (Bool.and_eq_true_iff.1 hlex).2).1
  obtain rfl := Option.some.inj h.members
  have hleft : Holds _ (n.get "left") := h.get List.mem_cons_self
  rw [if_pos hdecl] at hleft
  obtain ⟨-, -, d, hd, hhead, hvar⟩ := hleft.head
  have hinit : (d.get "init").isNull = true := hvar.resolve_left
    (of_decide_eq_true (Bool.and_eq_true_iff.1 (Bool.and_eq_true_iff.1 hlex).2).2)
  have hscopes : ∀ key, walkedScopes g n key .iteration =
      if key = "right" then [.deadZone] else [.block] := fun key => by
    rw [walkedScopes, if_pos hlex]
  have hsites : sitesOf c (Walk.iteration g (plan g) n) =
      (⟨c, .opens .deadZone n⟩ :: declares .deadZone ((.deadZone, n) :: c) (n.get "left")) ++
        sitesOf ((.deadZone, n) :: c) (plan g (n.get "right")) ++
      ((⟨c, .opens .block n⟩ :: declares .variable ((.block, n) :: c) (n.get "left")) ++
        (phraseSites g ((.block, n) :: c) .head (n.get "left") ++
          sitesOf ((.block, n) :: c) (plan g (n.get "body")))) := by
    have hrule : Walk.iteration g (plan g) n = Walk.lexicalIteration (plan g) n := if_pos hlex
    rw [hrule, Walk.lexicalIteration, sitesOf_append, sitesOf_nested (h.scopeKinds?_eq (by decide))]
    simp [Event.sites, enters, inside, kindOf, sitesOf_bindHead hd hhead hinit,
      sitesOf_writeHead hd hhead, sitesOf_visitHead hd hhead, phraseSites_head hd,
      declaratorSites_head hinit, hes6]
  rw [h.stepped_iff, rule, hsites, List.flatMap_cons, List.flatMap_cons, List.flatMap_singleton,
    walkedSites, if_pos hlex]
  simp only [hscopes, if_pos hdecl]
  refine (Merges.around (.single _) (.cons _ (.single _)) _ _).congr (.cons _ ?_)
  exact .swap ..

/-- The head of an iteration that has no scope for it. -/
theorem merges_head (h : Walked types n type .iteration slots)
    (hlex : isLexicalIteration g n = false) :
    Merges (sitesOf c (if (n.get "left").hasType "VariableDeclaration" then
        plan g (n.get "left") ++ writeHead n (n.get "left")
      else
        match Pattern.isPattern? (n.get "left") with
        | none => [.fail .malformed]
        | some true => assignTo (n.get "left") (n.get "right") n ++
            visitEmbedded (plan g) (n.get "left")
        | some false => plan g (n.get "left")))
      [phraseSites g c (if (n.get "left").hasType "VariableDeclaration" then .head
        else .pattern .use) (n.get "left")] := by
  obtain rfl := Option.some.inj h.members
  have hleft : Holds _ (n.get "left") := h.get List.mem_cons_self
  cases hdecl : (n.get "left").hasType "VariableDeclaration" with
  | true =>
      rw [hdecl, if_pos rfl] at hleft
      obtain ⟨ht, ⟨ts, hv⟩, d, hd, hhead, -⟩ := hleft.head
      have hdeclare := merges_declare (g := g) (c := c) hv fun d' hd' => by
        rw [hd, List.mem_singleton] at hd'
        exact hd' ▸ ⟨hhead.isObj, _, hhead.headDeclarator⟩
      -- With a scope for every lexical head, what has none declares its names further up.
      have hnone : (if g.es6 then [] else declaresHere c (n.get "left")) =
          declaresHere c (n.get "left") := by
        cases hes6 : g.es6 with
        | false => rfl
        | true =>
            have hvar : ((n.get "left").get "kind").value = .str "var" := by
              simpa [isLexicalIteration, isLexical, hes6, hdecl] using hlex
            rw [declaresHere, if_pos hvar]
            rfl
      rw [hd, List.map_singleton] at hdeclare
      rw [if_pos rfl, if_pos rfl, sitesOf_append, plan_rule ht, sitesOf_writeHead hd hhead,
        phraseSites_head hd, hnone]
      refine ⟨((hdeclare.append (.single _)).perm).trans ?_⟩
      simpa using (declaratorSites_perm d).append_left (declaresHere c (n.get "left"))
  | false =>
      rw [hdecl, if_neg Bool.false_ne_true] at hleft
      rw [if_neg Bool.false_ne_true, if_neg Bool.false_ne_true, isPattern?_eq hleft]
      cases hm : (n.get "left").hasType "MemberExpression" with
      | true =>
          rw [phraseSites, items_of_access (hasType_iff.1 hm), itemSites_embedded]
          exact .single _
      | false =>
          rw [Bool.not_false, sitesOf_append, sitesOf_assignTo hleft, sitesOf_visitEmbedded]
          exact .single _

theorem iteration (h : Walked types n type .iteration slots) :
    Stepped g c (.walked types) n slots := by
  cases hlex : isLexicalIteration g n with
  | true => exact h.lexicalIteration hlex
  | false =>
      have hhead := merges_head (c := c) h hlex
      obtain rfl := Option.some.inj h.members
      have hscopes : ∀ key, walkedScopes g n key .iteration = [] := fun key => by
        simp [walkedScopes, hlex]
      have hown : walkedSites g c n .iteration = [] := by simp [walkedSites, hlex]
      have hrule : Walk.iteration g (plan g) n = _ ++ plan g (n.get "right") ++
        plan g (n.get "body") := if_neg (ne_true_of_eq_false hlex)
      rw [h.stepped_iff, rule, hrule, sitesOf_append, sitesOf_append, List.append_assoc,
        List.flatMap_cons, hown]
      simp only [hscopes]
      exact Merges.cons_nil (.append hhead (.cons _ (.single _)))

/-! ### Modules -/

theorem exportSpecifier (h : Walked types n type .exportSpecifier slots) :
    Stepped g c (.walked types) n slots := by
  obtain rfl := Option.some.inj h.members
  rw [h.stepped_iff]
  exact (Merges.single _).snoc_nil.cons_nil

theorem importing (h : Walked types n type .importing slots) (hm : g.isModule = true) :
    Stepped g c (.walked types) n slots := by
  have hmem : ⟨"specifiers", .many, .importSpecifier⟩ ∈ slots :=
    Option.some.inj h.members ▸ List.mem_cons_self
  obtain ⟨ts, hv⟩ := h.list hmem
  have hs := h.grammar
  obtain rfl := Option.some.inj h.members
  have hsites : sitesOf c (rule g (plan g) n .importing) = walkedSites g c n .importing := by
    rw [rule, onlyInModule, if_pos hm, bindImports, forSequence_list hv, sitesOf_flatMap,
      walkedSites, List.map_eq_flatMap]
    refine List.flatMap_congr fun specifier hmem => ?_
    have hobj := (h.holds.below (s := ⟨"specifiers", .many, .importSpecifier⟩) hs List.mem_cons_self
      hmem).isObj
    rw [hobj]
    rfl
  rw [h.stepped_iff, hsites, List.flatMap_cons, List.flatMap_singleton,
    ← List.append_nil (_ ++ List.map _ _)]
  refine Merges.cons_append_nils (.single _) fun q hq => ?_
  rcases List.mem_append.1 hq with hq | hq
  · obtain ⟨m, -, rfl⟩ := List.mem_map.1 hq
    rfl
  · obtain ⟨m, -, rfl⟩ := List.mem_map.1 hq
    exact useSites_of_unused (ρ := .foreign) rfl

theorem exportNamed (h : Walked types n type .exportNamed slots) (hm : g.isModule = true) :
    Stepped g c (.walked types) n slots := by
  have hs : exportSlots n = slots := Option.some.inj h.members
  rw [h.stepped_iff, rule, onlyInModule, if_pos hm, Walk.exportNamed]
  refine Merges.cons_nil ?_
  unfold exportSlots at hs
  split_ifs at hs ⊢ <;> subst hs
  · rw [← List.append_nil (List.flatMap _ _)]
    refine Merges.append_nils .nil fun q hq => ?_
    obtain ⟨s, hs, hq⟩ := List.mem_flatMap.1 hq
    obtain ⟨m, -, rfl⟩ := List.mem_map.1 hq
    obtain rfl | rfl : s = ⟨"specifiers", .many, .foreignSpecifier⟩ ∨
      s = ⟨"source", .one, .source⟩ := by simpa using hs
    · rfl
    · exact useSites_of_unused (ρ := .foreign) rfl
  · exact .single _
  · obtain ⟨ts, hv⟩ := h.list List.mem_cons_self
    rw [List.flatMap_singleton]
    exact merges_many hv ["ExportSpecifier"]

theorem exportDefault (h : Walked types n type .exportDefault slots) (hm : g.isModule = true) :
    Stepped g c (.walked types) n slots := by
  obtain rfl := Option.some.inj h.members
  rw [h.stepped_iff, rule, onlyInModule, if_pos hm]
  exact (Merges.single _).cons_nil

theorem exportAll (h : Walked types n type .exportAll slots) (hm : g.isModule = true) :
    Stepped g c (.walked types) n slots := by
  obtain rfl := Option.some.inj h.members
  rw [h.stepped_iff, rule, onlyInModule, if_pos hm]
  exact Merges.nil.cons_nil.cons_nil

end Walked

/-! ### What only a module may hold -/

/-- Whether only a module may hold a node. -/
def isModuleItem (n : Node) : Bool := n.typeName?.any moduleItems.contains

/-- Whether only a module may hold the nodes of a family. -/
def isModular : Family → Bool
  | .importing | .exportNamed | .exportDefault | .exportAll => true
  | _ => false

theorem isModular_ofType (type : String) :
    isModular (.ofType type) = moduleItems.contains type := by
  unfold Family.ofType
  split <;> first | rfl | skip
  simp_all [isModular, moduleItems]

theorem isModuleItem_eq (ht : n.typeName? = some type) :
    isModuleItem n = isModular (.ofType type) := by
  rw [isModuleItem, ht, isModular_ofType]
  rfl

theorem rule_of_isModular (h : isModular family = true) :
    ∃ events, rule g (plan g) n family = onlyInModule g n events := by
  cases family <;> first | exact ⟨_, rfl⟩ | cases h

/-! ### Any family -/

namespace Walked

/-- What only a module may hold is walked in a module, or else stops the walk. -/
theorem isModule (h : Walked types n type family slots)
    (hf : ∀ c', ⟨c', .fails⟩ ∉ phraseSites g c (.walked types) n) (hi : isModular family = true) :
    g.isModule = true := by
  obtain ⟨events, hr⟩ := rule_of_isModular (g := g) (n := n) hi
  rw [phraseSites, plan_rule h.typeName, h.ofType, hr, onlyInModule] at hf
  by_contra hm
  rw [if_neg hm] at hf
  exact hf c List.mem_cons_self

/-- **What a node that is walked comes to**, unless it would have to stand in a module. -/
theorem stepped (h : Walked types n type family slots)
    (hm : isModular family = true → g.isModule = true) : Stepped g c (.walked types) n slots := by
  cases family with
  | program => exact h.program
  | block => exact h.block
  | switch => exact h.switch
  | withObject => exact h.withObject
  | catchClause => exact h.catchClause
  | function => exact h.function
  | classDefinition => exact h.classDefinition
  | property => exact h.property
  | declaration => exact h.declaration
  | declarator => cases h.members
  | assignment => exact h.assignment
  | update => exact h.update
  | identifier => exact h.identifier
  | access => exact h.access
  | call => exact h.call
  | this => exact h.this
  | label => exact h.label
  | inert => exact h.inert
  | loop => exact h.loop
  | iteration => exact h.iteration
  | lexicalIteration => cases h.members
  | importing => exact h.importing (hm rfl)
  | exportNamed => exact h.exportNamed (hm rfl)
  | exportDefault => exact h.exportDefault (hm rfl)
  | exportAll => exact h.exportAll (hm rfl)
  | exportSpecifier => exact h.exportSpecifier
  | plain => exact h.plain

end Walked

/-! ### Any phrase -/

/-- What a phrase comes to, unless it would have to stand in a module. -/
theorem Holds.stepped (h : Holds φ n) (hs : slots? φ n = some slots)
    (hm : φ.isWalked = true → isModuleItem n = true → g.isModule = true) :
    Stepped g c φ n slots := by
  cases φ with
  | walked types =>
      obtain ⟨type, ht, -, hn, hsl⟩ := slots?_eq_some.1 hs
      exact Walked.stepped ⟨h, hs, ht, hn, rfl, hsl⟩ fun hi => hm rfl (isModuleItem_eq ht ▸ hi)
  | word ρ types => exact stepped_word hs
  | pattern ρ => exact stepped_pattern h hs
  | patternMember ρ => exact stepped_patternMember h hs
  | declarator => exact stepped_declarator hs
  | headDeclarator => exact stepped_headDeclarator hs
  | head => exact stepped_head hs
  | method => exact stepped_method h hs
  | body => exact stepped_body h hs
  | importSpecifier => exact stepped_importSpecifier hs
  | foreignSpecifier => exact stepped_foreignSpecifier hs

/-- What only a module may hold is walked in a module, if it does not stop the walk. -/
theorem Holds.isModule (h : Holds φ n) (hf : ∀ c', ⟨c', .fails⟩ ∉ phraseSites g c φ n)
    (hw : φ.isWalked = true) (hi : isModuleItem n = true) : g.isModule = true := by
  cases φ with
  | walked types =>
      obtain ⟨slots, hs⟩ := h.exists_slots
      obtain ⟨type, ht, -, hn, hsl⟩ := slots?_eq_some.1 hs
      exact Walked.isModule ⟨h, hs, ht, hn, rfl, hsl⟩ hf (isModuleItem_eq ht ▸ hi)
  | _ => cases hw

/-! ### A whole program -/

namespace Part

/-- **What a part comes to is what happens for it and what the parts just below it come to.** -/
theorem told_step (h : p.Conforms)
    (hm : p.phrase.isWalked = true → isModuleItem p.node = true → g.isModule = true) :
    Merges (p.told g) (p.own g :: p.below.map (told g)) := by
  have hholds : Holds p.phrase p.node := ⟨p.above, h⟩
  obtain ⟨slots, hs⟩ := hholds.exists_slots
  rw [told_below (slots_eq hs)]
  exact hholds.stepped hs hm

/-- What a part comes to is what happens for the parts of it. -/
theorem told_parts (h : p.Conforms) (hf : ∀ c, ⟨c, .fails⟩ ∉ p.told g) :
    Merges (p.told g) (p.parts.map (own g)) := by
  induction p using below_induction with
  | h p ih =>
      have hstep := told_step h (Holds.isModule ⟨p.above, h⟩ hf)
      rw [parts_eq, List.map_cons, List.map_flatMap]
      refine hstep.expand fun q hq => ih q hq (h.below hq) fun c hc => hf c ?_
      rw [hstep.perm.mem_iff, List.mem_flatten]
      exact ⟨_, List.mem_cons_of_mem _ (List.mem_map_of_mem hq), hc⟩

end Part

/-- **The sites of a program are what happens for its parts.** -/
theorem sitesOf_plan {tree : Tree} (h : Conforms tree)
    (hf : ∀ c, ⟨c, .fails⟩ ∉ sitesOf [] (plan g (.root tree))) :
    Merges (sitesOf [] (plan g (.root tree))) ((program tree).parts.map (Part.own g)) :=
  Part.told_parts h hf

end LexScope.Grammar
