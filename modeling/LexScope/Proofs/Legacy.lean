import LexScope.Proofs.ContractWalk
import LexScope.Proofs.Iterations
import LexScope.Proofs.Success

/-!
# Proofs — Legacy — programs of the fifth edition

A program is a *legacy* program if it has nothing that came with the sixth edition and could bind a
name in a block: it declares variables by `var`, has no classes, holds nothing that only a module may
hold, and declares functions only where a program or the body of a function holds them directly.

* `Part.binds_outer`: nothing in such a program is bound in the scope of a block.
* `Legacy.contracts`: **its plan leaves the scopes of blocks to be contracted.**
* `Legacy.trim`: without those scopes, its plan is the one before the sixth edition.
-/

namespace LexScope

/-- Whether an object is no declaration but by `var`, no class, and nothing that only a module may
hold. -/
def Tree.isLegacy (t : Tree) : Bool :=
  match t.get "type" with
  | .str "VariableDeclaration" => decide (t.get "kind" = .str "var")
  | .str type => !(["ClassDeclaration", "ClassExpression"] ++ Grammar.moduleItems).contains type
  | _ => true

namespace Walk

/-! ### Events without `eval` -/

mutual

theorem Event.callEval_not_mem (c : Around) : ∀ e : Event, e ≠ .callEval →
    (∀ kind n inside, e = .within kind n inside → trimAll .mute inside = inside) →
    ∀ l ∈ e.leaves c, l.event ≠ .callEval
  | .within kind n inside, _, h, l, hl => by
      rcases List.mem_cons.1 hl with rfl | hl
      · exact fun he => by cases he
      · exact callEval_not_mem ((kind, n) :: c) inside (h kind n inside rfl) l hl
  | .define .., he, _, l, hl | .refer _, he, _, l, hl | .callEval, he, _, l, hl
  | .useThis, he, _, l, hl | .needScope, he, _, l, hl | .phase _, he, _, l, hl
  | .fail _, he, _, l, hl | .closeOwned _, he, _, l, hl => by
      rw [List.mem_singleton.1 hl]
      exact he

/-- Events from which no call of `eval` can be left out have none. -/
theorem callEval_not_mem (c : Around) : ∀ events : List Event,
    trimAll .mute events = events → ∀ l ∈ leavesOf c events, l.event ≠ .callEval
  | [], _, l, hl => absurd hl List.not_mem_nil
  | e :: rest, h, l, hl => by
      obtain ⟨he, hrest, hinside⟩ := mute_cons h
      rcases List.mem_append.1 hl with hl | hl
      · exact Event.callEval_not_mem c e he hinside l hl
      · exact callEval_not_mem c rest hrest l hl

end

/-- Where `eval` is ignored, no call of it happens. -/
theorem callEval_not_mem_plan {g : Gates} (hg : g.ignoreEval = true) (n : Node) (c : Around) :
    ∀ l ∈ leavesOf c (plan g n), l.event ≠ .callEval := by
  refine callEval_not_mem c _ ?_
  have hgates : g.trim .mute = g := by
    rw [Gates.trim, show (!Trim.mute.blocks) = true from rfl, Bool.and_true]
  rw [trimAll_plan (P := fun _ => True) Tree.hereditary_true trivial (fun hb => by cases hb)
    (fun _ => hg), hgates]

end Walk

namespace Grammar

open Walk

variable {tree : Tree} {g : Gates} {c : Around} {n m : Node} {type : String} {p q : Part}
  {slots : List Slot} {s : Slot} {φ : Phrase} {d : Definition} {kinds : List ScopeKind}

/-! ### Where functions are declared -/

/-- Whether a way down goes on to what a program or the body of a function holds directly. -/
def Station.isTop (t : Station) : Bool :=
  decide (t.phrase = .walked ["Program"]) || decide (t.phrase = .body)

/-- A legacy program. -/
structure Legacy (tree : Tree) : Prop where
  objects : tree.allObjects Tree.isLegacy = true
  functions : ∀ p ∈ (program tree).parts, p.node.hasType "FunctionDeclaration" = true →
    p.above.head?.any Station.isTop = true

instance (tree : Tree) : Decidable (Legacy tree) :=
  decidable_of_iff (_ ∧ _) ⟨fun h => ⟨h.1, h.2⟩, fun h => ⟨h.1, h.2⟩⟩

/-- Whether the innermost of some scopes is none of a block. -/
def OuterHead (c : Around) : Prop := ∀ x ∈ c.head?, x.1.isBlock = false

theorem outerHead_cons {kind : ScopeKind} (h : kind.isBlock = false) : OuterHead ((kind, n) :: c) :=
  fun x hx => by
    obtain rfl := Option.some.inj hx
    exact h

/-- The innermost scope of a function is the function's own. -/
theorem outerHead_functionScopes (isMethod : Bool) :
    OuterHead (inside c n (functionScopes n isMethod)) := by
  unfold functionScopes
  split <;> exact outerHead_cons rfl

theorem phrase_ne_body_of_accessSlots (hs : s ∈ accessSlots n) : s.phrase ≠ .body := by
  revert s
  unfold accessSlots
  split <;> decide

theorem phrase_ne_body_of_plainSlots : ∀ e ∈ plainSlots, ∀ s ∈ e.2, s.phrase ≠ .body := by
  decide +kernel

/-- Only functions have bodies. -/
theorem ofBody_walkedSlots {family : Family} (h : walkedSlots? n type family = some slots)
    (hs : s ∈ slots) (hb : s.phrase = .body) : family = .function := by
  by_contra hne
  revert hb
  cases family with
  | function => exact absurd rfl hne
  | plain =>
      obtain ⟨l₁, l₂, hl, -⟩ := List.lookup_eq_some_iff.1 h
      exact phrase_ne_body_of_plainSlots (type, slots) (hl ▸ by simp) s hs
  | access => cases h; exact phrase_ne_body_of_accessSlots hs
  | exportNamed =>
      cases h
      revert s
      unfold exportSlots
      split
      · decide
      · split <;> decide
  | property =>
      cases h
      revert s
      unfold keySlot
      cases isComputed n <;> cases (n.hasType "MethodDefinition" || (n.get "method").truthy) <;>
        decide
  | inert | assignment | iteration => cases h; revert s; split <;> decide
  | declarator | lexicalIteration => cases h
  | _ => cases h; revert s; decide

/-- What has a body is a function, and its own scope is the innermost around that. -/
theorem outerHead_scopes_of_body (h : slots? φ n = some slots) (hs : s ∈ slots)
    (hb : s.phrase = .body) : OuterHead (inside c n (scopes g φ n s.key)) := by
  obtain ⟨type, ht, hmem, -, hslots⟩ := slots?_eq_some.1 h
  have hno : ∀ {slots : List Slot}, s ∈ slots → (∀ s ∈ slots, s.phrase ≠ .body) →
      OuterHead (inside c n (scopes g φ n s.key)) := fun hs hall => absurd hb (hall s hs)
  cases φ with
  | walked types =>
      rw [scopes, ht, Option.map_some, Option.getD_some, ofBody_walkedSlots hslots hs hb]
      exact outerHead_functionScopes false
  | method => exact outerHead_functionScopes true
  | body =>
      have hfamily := ofBody_walkedSlots hslots hs hb
      rw [List.mem_singleton.1 hmem] at hfamily
      cases hfamily
  | word ρ types => cases hslots; exact absurd hs List.not_mem_nil
  | pattern ρ =>
      rw [typeSlots?] at hslots
      unfold patternSlots? at hslots
      split at hslots <;> cases hslots <;> refine hno hs ?_
      · exact fun s hs => absurd hs List.not_mem_nil
      · exact fun s => phrase_ne_body_of_accessSlots
      all_goals simp [Phrase.expression]
  | patternMember ρ =>
      rw [typeSlots?] at hslots
      unfold patternMemberSlots? keySlot at hslots
      split_ifs at hslots <;> cases hslots <;> refine hno hs ?_ <;>
        simp [Phrase.name, Phrase.expression, Phrase.plainKey]
  | declarator => cases hslots; exact hno hs (by simp [declaratorSlots, Phrase.expression])
  | headDeclarator => cases hslots; exact hno hs (by simp [declaratorSlots, Phrase.expression])
  | head =>
      rw [typeSlots?] at hslots
      split at hslots <;> cases hslots
      exact hno hs (by decide)
  | importSpecifier =>
      rw [typeSlots?] at hslots
      split at hslots <;> cases hslots <;> exact hno hs (by decide)
  | foreignSpecifier => cases hslots; exact hno hs (by decide)

/-- What is a part of something is the thing itself or stands at a slot of a part of it. -/
theorem Part.standing_of_mem (hp : p ∈ q.parts) : p = q ∨ ∃ r ∈ q.parts, ∃ slots,
    slots? r.phrase r.node = some slots ∧ ∃ s ∈ slots, p ∈ r.standing s := by
  refine parts_induction (p := q) (motive := fun p => p = q ∨ ∃ r ∈ q.parts, ∃ slots,
    slots? r.phrase r.node = some slots ∧ ∃ s ∈ slots, p ∈ r.standing s) (.inl rfl)
    (fun r hr _ p hp => .inr ⟨r, hr, ?_⟩) p hp
  obtain ⟨s, hs, hst⟩ := mem_below.1 hp
  cases hslots : slots? r.phrase r.node with
  | none =>
      rw [Part.slots, hslots] at hs
      cases hs
  | some slots => exact ⟨slots, rfl, s, slots_eq hslots ▸ hs, hst⟩

/-- The innermost scope around what the body of a function holds is the function's own. -/
theorem outerHead_of_body (hp : p ∈ (program tree).parts) (hb : p.phrase = .body) :
    OuterHead (p.around g) := by
  rcases Part.standing_of_mem hp with rfl | ⟨r, hr, slots, hslots, s, hs, hst⟩
  · cases hb
  · rw [Part.around_standing hst]
    exact outerHead_scopes_of_body hslots hs ((Part.mem_standing.1 hst).2.2 ▸ hb)

/-- Where something stands directly in a program or the body of a function, no block scope is
innermost. -/
theorem outerHead_of_isTop (hp : p ∈ (program tree).parts)
    (ht : p.above.head?.any Station.isTop = true) : OuterHead (p.around g) := by
  rcases Part.standing_of_mem hp with rfl | ⟨r, hr, slots, hslots, s, hs, hst⟩
  · cases ht
  · rw [(Part.mem_standing.1 hst).2.1, List.head?_cons, Option.any_some, Station.isTop,
      Bool.or_eq_true, decide_eq_true_eq, decide_eq_true_eq] at ht
    rw [Part.around_standing hst]
    rcases ht with hφ | hφ
    · obtain ⟨type, htype, hmem, -, -⟩ := slots?_eq_some.1 hslots
      rw [show r.phrase = .walked ["Program"] from hφ] at hmem ⊢
      rw [scopes, htype, List.mem_singleton.1 hmem]
      show OuterHead (inside _ _ (walkedScopes g r.node s.key .program))
      rw [walkedScopes]
      split <;> exact outerHead_cons rfl
    · rw [show r.phrase = .body from hφ]
      exact outerHead_of_body hr hφ

/-! ### What is bound -/

/-- What is passed on to whatever is read has reached every part. -/
theorem Part.value_of_mem {P : Tree → Prop} (hP : Tree.Hereditary P) (h : P q.node.value)
    (hp : p ∈ q.parts) : P p.node.value := by
  refine parts_induction (p := q) (motive := fun p => P p.node.value) h
    (fun r _ hr p hp => ?_) p hp
  obtain ⟨s, -, hst⟩ := mem_below.1 hp
  rcases Slot.mem_nodes (mem_standing.1 hst).1 with hget | hitem
  · rw [hget]
    exact hP.get hr s.key
  · exact hP.items (hP.get hr s.key) hitem

/-- What the types of nodes are in a legacy program. -/
theorem legacy_typeName (h : n.value.allObjects Tree.isLegacy = true)
    (ht : n.typeName? = some type) :
    (type = "VariableDeclaration" → (n.get "kind").value = .str "var") ∧
      type ∉ ["ClassDeclaration", "ClassExpression"] ++ moduleItems := by
  have htest := Tree.test_of_allObjects h (isObj_of_typeName? ht)
  rw [Tree.isLegacy, show n.value.get "type" = .str type from type_eq ht] at htest
  split at htest
  · rename_i htype
    cases htype
    exact ⟨fun _ => of_decide_eq_true htest, by decide⟩
  · rename_i hne htype
    cases htype
    exact ⟨fun he => absurd he hne, by simpa using htest⟩
  · rename_i hne
    exact absurd rfl (hne type)

theorem not_isLexical (h : n.value.allObjects Tree.isLegacy = true) : isLexical n = false := by
  rw [isLexical]
  cases ht : n.hasType "VariableDeclaration" with
  | false => rfl
  | true =>
      rw [(legacy_typeName h (hasType_iff.1 ht)).1 rfl]
      rfl

/-- Whether nothing is bound directly in the scope of a block. -/
def BindsOutside (sites : List Site) : Prop :=
  ∀ x ∈ sites, ∀ m d, x.deed = .binds m d → OuterHead x.around

theorem bindsOutside_nil : BindsOutside [] := fun _ hx => absurd hx List.not_mem_nil

theorem bindsOutside_append {a b : List Site} (ha : BindsOutside a) (hb : BindsOutside b) :
    BindsOutside (a ++ b) := fun x hx => (List.mem_append.1 hx).elim (ha x) (hb x)

theorem bindsOutside_enters : BindsOutside (enters c n kinds) := fun x hx m d hd => by
  obtain ⟨kind, ho⟩ := deed_of_mem_enters hx
  cases ho.symm.trans hd

theorem bindsOutside_functionSites {isMethod : Bool}
    (h : n.hasType "FunctionDeclaration" = true → OuterHead c) :
    BindsOutside (functionSites c n isMethod) := by
  rw [functionSites]
  refine bindsOutside_append (bindsOutside_append ?_ bindsOutside_enters) fun x hx m d _ => ?_
  · split
    · rename_i ht
      intro x hx m d _
      rw [List.mem_singleton.1 hx]
      exact h ht
    · exact bindsOutside_nil
  · obtain ⟨param, -, hx⟩ := List.mem_flatMap.1 hx
    obtain ⟨p, -, rfl⟩ := List.mem_map.1 hx
    exact outerHead_functionScopes isMethod

theorem ofType_eq_classDefinition (h : Family.ofType type = .classDefinition)
    (hn : type ∉ familyNames) : type = "ClassDeclaration" ∨ type = "ClassExpression" := by
  unfold Family.ofType at h
  split at h <;> first | exact .inl rfl | exact .inr rfl | exact absurd (by decide) hn | cases h

theorem ofType_eq_declaration (h : Family.ofType type = .declaration) :
    type = "VariableDeclaration" := by
  unfold Family.ofType at h
  split at h <;> first | rfl | cases h

/-- What a phrase of a legacy program binds, it binds outside of blocks. -/
theorem bindsOutside_ownSites (h : n.value.allObjects Tree.isLegacy = true)
    (hs : slots? φ n = some slots) (hg : g.es6 = true)
    (hf : n.hasType "FunctionDeclaration" = true → OuterHead c) :
    BindsOutside (ownSites g c φ n) := by
  obtain ⟨type, ht, -, hname, -⟩ := slots?_eq_some.1 hs
  obtain ⟨hvar, hno⟩ := legacy_typeName h ht
  have huses : ∀ ρ, BindsOutside (useSites c ρ n) := fun ρ x hx m d hd => by
    rw [(List.mem_replicate.1 (List.mem_filter.1 hx).1).2] at hd
    cases hd
  cases φ with
  | walked types =>
      rw [ownSites, ht, Option.map_some, Option.getD_some]
      cases hfamily : Family.ofType type with
      | program | block | switch | withObject | loop => exact bindsOutside_enters
      | catchClause =>
          intro x hx m d hd
          rcases List.mem_cons.1 hx with rfl | hx
          · cases hd
          · obtain ⟨p, -, rfl⟩ := List.mem_map.1 hx
            exact outerHead_cons rfl
      | function => exact bindsOutside_functionSites hf
      | classDefinition =>
          refine absurd ?_ hno
          rcases ofType_eq_classDefinition hfamily hname with rfl | rfl <;> decide
      | declaration =>
          rw [walkedSites, declaresHere, if_pos (hvar (ofType_eq_declaration hfamily))]
          exact bindsOutside_nil
      | identifier =>
          intro x hx m d hd
          rw [List.mem_singleton.1 hx] at hd
          cases hd
      | iteration =>
          have hleft := not_isLexical ((Tree.hereditary_allObjects _).get h "left")
          rw [walkedSites, isLexicalIteration, hleft, Bool.and_false]
          exact bindsOutside_nil
      | importing =>
          have hmodular := isModular_ofType type
          rw [hfamily] at hmodular
          exact absurd (List.mem_append_right _ (List.contains_iff_mem.1 hmodular.symm)) hno
      | _ => exact bindsOutside_nil
  | word ρ types => exact huses ρ
  | pattern ρ => exact huses ρ
  | method => exact bindsOutside_functionSites hf
  | head =>
      rw [ownSites, hg]
      exact bindsOutside_nil
  | _ => exact bindsOutside_nil

/-! ### The plan of a legacy program -/

namespace Legacy

variable {o : Options}

/-- Nothing in a legacy program could be misplaced. -/
theorem misplaced? (h : Legacy tree) (o : Options) : Grammar.misplaced? o tree = none := by
  rw [Grammar.misplaced?]
  split
  · rfl
  · refine List.find?_eq_none.2 fun m hm hitem => ?_
    have hP := Tree.hereditary_allObjects Tree.isLegacy
    rw [isModuleItem, Option.any_eq_true] at hitem
    obtain ⟨type, ht, hmodular⟩ := hitem
    exact (legacy_typeName (hP.items (hP.get (n := .root tree) h.objects "body") hm) ht).2
      (List.mem_append_right _ (List.contains_iff_mem.1 hmodular))

/-- The analysis of a legacy program returns. -/
theorem analyze_total (h : Legacy tree) (hc : Conforms tree) (hn : tree.TextNames) (o : Options) :
    ∃ s, analyze o tree = .ok s := by
  have hobject : tree.isObj = true := hc.walked.holds.isObj
  have hrun := analyze_of_faults hobject hn (canHappen_plan hc (.ofOptions o))
  have hfaults := hc.head?_faults o
  rw [h.misplaced? o, Option.map_none, List.head?_eq_none_iff] at hfaults
  rwa [hfaults] at hrun

/-- Without the scopes of blocks, the plan of a legacy program is the one before the sixth
edition. -/
theorem trim (h : Legacy tree) (g : Gates) :
    trimAll .bare (plan g (.root tree)) = plan (g.trim .bare) (.root tree) :=
  trimAll_plan (Tree.hereditary_allObjects Tree.isLegacy) h.objects
    (fun _ _ hm => not_isLexical hm) fun he => by cases he

/-- What a legacy program binds where it stands, it binds outside of blocks. -/
theorem outerHead_of_define (h : Legacy tree) (hc : Conforms tree) (hg : g.es6 = true)
    (hf : ∀ c, ⟨c, .fails⟩ ∉ sitesOf [] (plan g (.root tree)))
    (hl : ⟨c, .define .here n d⟩ ∈ leavesOf [] (plan g (.root tree))) : OuterHead c := by
  have hsite : ⟨c, .binds n d⟩ ∈ sitesOf [] (plan g (.root tree)) := by
    rw [sitesOf_eq]
    exact List.mem_filterMap.2 ⟨_, hl, rfl⟩
  obtain ⟨p, hp, hx⟩ := (mem_sitesOf_iff hc hf).1 hsite
  obtain ⟨slots, hs, -⟩ := Part.isFormed_iff.1 (hc p hp)
  have hobjects := Part.value_of_mem (Tree.hereditary_allObjects Tree.isLegacy) h.objects hp
  exact bindsOutside_ownSites hobjects hs hg (fun ht => outerHead_of_isTop hp (h.functions p hp ht))
    _ hx n d rfl

/-- **The plan of a legacy program leaves the scopes of blocks to be contracted**, if calls of `eval`
are ignored or decide nothing. -/
theorem contracts (h : Legacy tree) (hc : Conforms tree) (hg : g.es6 = true)
    (ho : o.optimistic.truthy = true ∨ g.ignoreEval = true)
    (hf : ∀ c, ⟨c, .fails⟩ ∉ sitesOf [] (plan g (.root tree))) :
    ∀ l ∈ leavesOf [] (plan g (.root tree)), l.Contracts o := by
  rintro ⟨c, e⟩ hl
  cases e with
  | define target n d =>
      cases target with
      | here => exact h.outerHead_of_define hc hg hf hl
      | hoisted => trivial
  | within kind n inside =>
      rintro hk rfl
      -- Only the scope of the program lies in no other scope.
      rw [hc.leaves, List.mem_append, List.mem_append, List.mem_cons] at hl
      rcases hl with ((hl | hl) | hl) | hl
      · cases hl
        cases hk
      · split at hl
        · cases List.mem_singleton.1 hl
        · exact List.not_mem_nil hl
      · obtain ⟨m, -, hl⟩ := List.mem_flatMap.1 hl
        have hsuffix := suffix_of_mem_leaves _ _ _ hl
        exact outermost_ne_nil g tree (List.suffix_nil.1 hsuffix)
      · cases List.mem_singleton.1 hl
  | callEval => exact ho.resolve_right fun hi => callEval_not_mem_plan hi _ _ _ hl rfl
  | _ => trivial

end Legacy

end Grammar

end LexScope
