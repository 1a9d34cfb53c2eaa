import LexScope.Proofs.Faults
import LexScope.Proofs.Nesting

/-!
# Proofs — ModuleItems — what stops the walk of a program of the grammar

A program of the grammar has one kind of node that can stop its walk: what only a module may hold,
and that stands directly in the program.  All else comes to something.  Whatever a conforming tree
leaves out, a list of statements is there wherever a prologue is looked for, and its statements can
be read (`Holds.hasPrologue`).

* `Part.not_fails`: what holds nothing that only a module may hold does not stop the walk.
* `faults_plan`: **the faults of a program are what it holds directly and only a module may hold.**
* `canHappen_plan`: all else can happen where it stands.
-/

namespace LexScope

/-- What is put together from a list without repetition, where only one item adds anything. -/
theorem flatMap_of_unique {α β : Type} {l : List α} {F : α → List β} {a : α} (hl : l.Nodup)
    (ha : a ∈ l ∨ F a = []) (h : ∀ x ∈ l, x ≠ a → F x = []) : l.flatMap F = F a := by
  induction l with
  | nil => rw [ha.resolve_left List.not_mem_nil, List.flatMap_nil]
  | cons x l ih =>
      obtain ⟨hx, hl⟩ := List.nodup_cons.1 hl
      have hrest : ∀ y ∈ l, y ≠ a → F y = [] := fun y hy => h y (List.mem_cons_of_mem x hy)
      by_cases hxa : x = a
      · subst hxa
        have hnil : l.flatMap F = [] := List.flatMap_eq_nil_iff.2 fun y hy =>
          hrest y hy fun he => hx (he ▸ hy)
        rw [List.flatMap_cons, hnil, List.append_nil]
      · rw [List.flatMap_cons, h x List.mem_cons_self hxa, List.nil_append]
        exact ih hl (ha.imp_left fun hm => (List.mem_cons.1 hm).resolve_left (Ne.symm hxa)) hrest

namespace Grammar

open Walk

variable {g : Gates} {c : Around} {events : List Event} {n m : Node} {kind : ScopeKind}
  {kinds : List ScopeKind} {p q r : Part} {slots : List Slot} {type : String} {types : List String}
  {family : Family} {φ ψ : Phrase} {tree : Tree}

/-! ### Prologues -/

/-- Whether a statement is a directive can be told. -/
theorem Holds.ofStatement? (h : Holds (.walked types) m) (byField : Bool) :
    (Directive.ofStatement? byField m).isSome = true := by
  rw [Directive.ofStatement?, h.isObj]
  cases ht : m.hasType "ExpressionStatement" with
  | false => rfl
  | true =>
      cases byField with
      | true => rfl
      | false =>
          obtain ⟨slots, hs⟩ := h.exists_slots
          obtain ⟨type, htype, -, -, hsl⟩ := slots?_eq_some.1 hs
          obtain rfl := Option.some.inj (htype.symm.trans (hasType_iff.1 ht))
          obtain rfl : [⟨"expression", .one, .expression⟩] = slots := Option.some.inj hsl
          have hobj : (m.value.get "expression").isObj = true :=
            (h.get hs (List.mem_singleton.2 rfl)).isObj
          show ((m.value.objectAt? "expression").map Directive.ofLiteral).isSome = true
          rw [Option.isSome_map, Tree.objectAt?, hobj]
          split <;> rfl

/-- The prologue of a list of statements can be read. -/
theorem prologue?_isSome {ns : List Node} (h : ∀ m ∈ ns, Holds (.walked types) m)
    (byField : Bool) : (Directive.prologue? byField ns).isSome = true := by
  induction ns with
  | nil => rfl
  | cons m ns ih =>
      obtain ⟨d, hd⟩ := Option.isSome_iff_exists.1 ((h m List.mem_cons_self).ofStatement? byField)
      rw [Directive.prologue?, hd]
      cases d with
      | useStrict => rfl
      | other => exact ih fun m hm => h m (List.mem_cons_of_mem _ hm)
      | none => rfl

/-- Statements at a member can be read as a prologue. -/
theorem Holds.statements (h : Holds φ n) (hs : slots? φ n = some slots)
    (hsl : ⟨"body", .many, .walked types⟩ ∈ slots) (byField : Bool) :
    ((n.get "body").sequence?.bind (Directive.prologue? byField)).isSome = true := by
  obtain ⟨ts, hv⟩ := Part.value_of_fits (h.fits hs hsl) (.inl rfl)
  rw [sequence?_list hv, Option.bind_some]
  exact prologue?_isSome (fun m hm => h.below hs hsl hm) byField

/-- Only programs and functions have prologues. -/
theorem hasPrologue_of_ne (hg : kind ≠ .global) (hf : kind ≠ .function) : HasPrologue kind n := by
  cases kind <;> first | exact fun _ => rfl | exact absurd rfl hg | exact absurd rfl hf

/-- What is the body of a function is an expression or has a prologue. -/
theorem hasPrologue_function (hb : Holds ψ (n.get "body"))
    (hψ : (n.get "body").hasType "BlockStatement" = true → ψ = .body) :
    HasPrologue .function n := fun byField => by
  rw [prologueOf?]
  simp only [hb.isObj, Bool.not_true, Bool.and_false, Bool.false_eq_true, if_false]
  cases ht : (n.get "body").hasType "BlockStatement" with
  | false => rfl
  | true =>
      obtain rfl := hψ ht
      obtain ⟨slots, hs⟩ := hb.exists_slots
      obtain ⟨type, htype, -, -, hsl⟩ := slots?_eq_some.1 hs
      obtain rfl := Option.some.inj (htype.symm.trans (hasType_iff.1 ht))
      obtain rfl : [⟨"body", .many, .statement⟩] = slots := Option.some.inj hsl
      exact hb.statements hs (List.mem_singleton.2 rfl) byField

/-- The prologues of scopes that are opened one in the other can be read if each can. -/
theorem hasPrologue_enters (h : ∀ kind ∈ kinds, HasPrologue kind n) :
    ∀ x ∈ openings (enters c n kinds), ∀ y ∈ x.head?, HasPrologue y.1 n := fun x hx y hy => by
  obtain ⟨pre, kind, post, rfl, rfl⟩ := mem_openings_enters.1 hx
  obtain rfl := Option.some.inj hy
  exact h kind (List.mem_append_right _ List.mem_cons_self)

theorem hasPrologue_functionSites {isMethod : Bool} (h : HasPrologue .function n) :
    ∀ x ∈ openings (functionSites c n isMethod), ∀ y ∈ x.head?, HasPrologue y.1 n := by
  have hsites : openings (functionSites c n isMethod) =
      openings (enters c n (functionScopes n isMethod)) := by
    rw [functionSites]
    split <;> simp
  rw [hsites]
  refine hasPrologue_enters fun kind hk => ?_
  have hkind : kind = .functionName ∨ kind = .function := by
    unfold functionScopes at hk
    split at hk <;> simp_all
  rcases hkind with rfl | rfl
  · exact hasPrologue_of_ne (by decide) (by decide)
  · exact h

/-- The function of a part has a prologue. -/
theorem Holds.function (h : Holds φ n) (hs : slots? φ n = some slots) (type : String)
    (hw : walkedSlots? n type .function = some slots) : HasPrologue .function n := by
  obtain rfl := Option.some.inj hw
  refine hasPrologue_function (h.get hs (List.mem_cons_of_mem _
    (List.mem_cons_of_mem _ List.mem_cons_self))) fun ht => ?_
  rw [ht, Bool.not_true, Bool.and_false]
  rfl

/-- The scopes of a family other than functions and programs have no prologue. -/
theorem Walked.hasPrologue (h : Walked types n type family slots) :
    ∀ x ∈ openings (walkedSites g c n family), ∀ y ∈ x.head?, HasPrologue y.1 n := by
  have hother : ∀ kind, kind ≠ .global → kind ≠ .function → ∀ condition : Bool,
      ∀ k ∈ (if condition then [kind] else []), HasPrologue k n :=
    fun kind hg hf condition k hk => by
    cases condition with
    | false => cases hk
    | true =>
        obtain rfl := List.mem_singleton.1 hk
        exact hasPrologue_of_ne hg hf
  cases family with
  | program =>
      obtain rfl := Option.some.inj h.members
      refine hasPrologue_enters fun kind hk => ?_
      have hkind : kind = .global ∨ kind = .moduleTop := by
        unfold walkedScopes at hk
        cases hm : g.isModule <;> simp_all
      rcases hkind with rfl | rfl
      · exact h.holds.statements h.grammar (List.mem_singleton.2 rfl)
      · exact hasPrologue_of_ne (by decide) (by decide)
  | function => exact hasPrologue_functionSites (h.holds.function h.grammar type h.members)
  | block => exact hasPrologue_enters (hother .block (by decide) (by decide) g.es6)
  | switch =>
      refine hasPrologue_enters fun kind hk => hother .switch (by decide) (by decide) g.es6 kind ?_
      simpa [walkedScopes] using hk
  | withObject => exact hasPrologue_enters (hother .withObject (by decide) (by decide) true)
  | loop =>
      refine hasPrologue_enters fun kind hk => hother .block (by decide) (by decide)
        (g.es6 && isLexical (n.get "init")) kind ?_
      simpa [walkedScopes] using hk
  | catchClause =>
      intro x hx y hy
      obtain rfl : x = (.catchClause, n) :: c := by simpa [walkedSites] using hx
      obtain rfl := Option.some.inj hy
      exact hasPrologue_of_ne (by simp) (by simp)
  | classDefinition =>
      intro x hx y hy
      obtain rfl : x = (.classBody, n) :: c := by
        simp only [walkedSites, classSites] at hx
        split_ifs at hx <;> simpa using hx
      obtain rfl := Option.some.inj hy
      exact hasPrologue_of_ne (by simp) (by simp)
  | iteration =>
      intro x hx y hy
      rw [walkedSites] at hx
      split at hx
      · rw [openings_lexicalIterationSites] at hx
        rcases List.mem_pair.1 hx with rfl | rfl <;>
          (obtain rfl := Option.some.inj hy; exact hasPrologue_of_ne (by simp) (by simp))
      · cases hx
  | importing =>
      have hnone : openings (walkedSites g c n .importing) = [] :=
        List.filterMap_eq_nil_iff.2 fun x hx => by
          obtain ⟨_, -, rfl⟩ := List.mem_map.1 hx
          rfl
      rw [hnone]
      exact List.forall_mem_nil _
  | _ => simp [walkedSites]

/-- **Where a scope is opened for a part, the prologue can be read.** -/
theorem Holds.hasPrologue (h : Holds φ n) :
    ∀ x ∈ openings (ownSites g c φ n), ∀ y ∈ x.head?, HasPrologue y.1 n := by
  obtain ⟨slots, hs⟩ := h.exists_slots
  obtain ⟨type, ht, -, hn, hsl⟩ := slots?_eq_some.1 hs
  cases φ with
  | walked types =>
      rw [ownSites, ht, Option.map_some, Option.getD_some]
      exact Walked.hasPrologue ⟨h, hs, ht, hn, rfl, hsl⟩
  | method =>
      have hfamily : type = "FunctionExpression" := by
        obtain ⟨type', ht', hmem, -⟩ := h.typeName?
        rw [Option.some.inj (ht.symm.trans ht'), List.mem_singleton.1 hmem]
      subst hfamily
      exact hasPrologue_functionSites (h.function hs "FunctionExpression" hsl)
  | head =>
      rw [ownSites]
      split <;> simp
  | _ => simp [ownSites]

/-! ### Where something only a module may hold can stand -/

/-- Whether a part can be walked: nothing in it would have to stand in a module. -/
def Part.Admitted (g : Gates) (p : Part) : Prop :=
  ∀ q ∈ p.parts, isModuleItem q.node = true → g.isModule = true

theorem Part.Admitted.of_mem (h : p.Admitted g) (hq : q ∈ p.parts) : q.Admitted g :=
  fun _ hr => h _ (Part.parts_trans hq hr)

/-- What does not hold anything that only a module may hold does not stop the walk. -/
theorem Part.not_fails (h : p.Conforms) (hm : p.Admitted g) : ∀ c, ⟨c, .fails⟩ ∉ p.told g := by
  induction p using Part.below_induction with
  | h p ih =>
      intro c hc
      have hstep := Part.told_step (g := g) h fun _ => hm p (Part.self_mem_parts p)
      rw [hstep.perm.mem_iff, List.mem_flatten] at hc
      obtain ⟨sites, hsites, hc⟩ := hc
      rcases List.mem_cons.1 hsites with rfl | hsites
      · exact (owned_ownSites _ hc).holds rfl
      · obtain ⟨q, hq, rfl⟩ := List.mem_map.1 hsites
        exact ih q hq (h.below hq)
          (hm.of_mem (Part.mem_parts.2 (.inr ⟨q, hq, Part.self_mem_parts q⟩))) c hc

/-- Where a scope is opened, it is for an object the prologue of which can be read. -/
theorem Part.hasPrologue (h : p.Conforms) (hm : p.Admitted g)
    (hx : ⟨c, .opens kind n⟩ ∈ p.told g) : n.isObj = true ∧ HasPrologue kind n := by
  rw [(Part.told_parts h (Part.not_fails h hm)).perm.mem_iff, List.mem_flatten] at hx
  obtain ⟨sites, hsites, hx⟩ := hx
  obtain ⟨q, hq, rfl⟩ := List.mem_map.1 hsites
  have hholds : Holds q.phrase q.node := ⟨q.above, h.of_mem hq⟩
  obtain rfl := (owned_ownSites _ hx).opens _ _ rfl
  exact ⟨hholds.isObj, hholds.hasPrologue _ (List.mem_filterMap.2 ⟨_, hx, rfl⟩) _ rfl⟩

/-- What is no program and cannot be what only a module may hold. -/
theorem Holds.ordinary (h : Holds φ n) (hφ : φ.isPlain = true)
    (ha : φ.admitsModuleItems = false) :
    n.hasType "Program" = false ∧ isModuleItem n = false := by
  obtain ⟨type, ht, hmem, -⟩ := h.typeName?
  suffices hall : ∀ type ∈ φ.types, type ≠ "Program" ∧ type ∉ moduleItems by
    rw [isModuleItem, Bool.eq_false_iff, Ne, hasType_iff, ht]
    simpa using hall type hmem
  cases φ with
  | walked types =>
      intro type hmem
      constructor
      · rintro rfl
        simp [Phrase.isPlain, show "Program" ∈ types from hmem] at hφ
      · intro hitem
        rw [Phrase.admitsModuleItems, List.any_eq_false] at ha
        exact ha type hmem (by simpa using hitem)
  | word ρ types =>
      intro type hmem
      have hplain := List.all_eq_true.1 hφ type hmem
      simp only [List.contains_cons, List.contains_nil, Bool.or_false, Bool.or_eq_true,
        beq_iff_eq] at hplain
      rcases hplain with rfl | rfl <;> decide
  | _ => simp [Phrase.types, moduleItems]

/-- **What only a module may hold stands directly in a program**, and no program stands in
another. -/
theorem Part.admitted (h : p.Conforms) (hp : p.node.hasType "Program" = false)
    (hm : isModuleItem p.node = true → g.isModule = true) : p.Admitted g := by
  suffices hall : ∀ q ∈ p.parts, q.node.hasType "Program" = false ∧
      (isModuleItem q.node = true → g.isModule = true) from fun q hq => (hall q hq).2
  refine Part.parts_induction ⟨hp, hm⟩ fun q hq hcase r hr => ?_
  obtain ⟨s, hs, hst⟩ := Part.mem_below.1 hr
  obtain ⟨slots, hslots, -⟩ := Part.isFormed_iff.1 (h q hq)
  have hsound := (sound_slots hslots).2 s (Part.slots_eq hslots ▸ hs)
  have hphrase := (Part.mem_standing.1 hst).2.2
  have hholds : Holds r.phrase r.node := ⟨r.above, (h.of_mem hq).below hr⟩
  have hordinary := hholds.ordinary (hphrase ▸ hsound.2.1) (hphrase ▸ hsound.2.2 hcase.1)
  exact ⟨hordinary.1, fun hitem => absurd hitem (by rw [hordinary.2]; nofun)⟩

/-! ### What a program holds -/

/-- A tree that conforms is walked as a program. -/
theorem Conforms.walked (hc : Conforms tree) :
    Walked ["Program"] (.root tree) "Program" .program
      [⟨"body", .many, .walked (statements ++ moduleItems)⟩] := by
  have hholds : Holds (.walked ["Program"]) (.root tree) := ⟨[], hc⟩
  obtain ⟨slots, hs⟩ := hholds.exists_slots
  obtain ⟨type, ht, hmem, hn, hsl⟩ := slots?_eq_some.1 hs
  obtain rfl := List.mem_singleton.1 hmem
  obtain rfl : [⟨"body", .many, .walked (statements ++ moduleItems)⟩] = slots :=
    Option.some.inj hsl
  exact ⟨hholds, hs, ht, hn, rfl, rfl⟩

/-- The children of a program are what it holds directly, in order. -/
theorem Conforms.children (hc : Conforms tree) :
    (Node.root tree).children = ((Node.root tree).get "body").items := by
  have hw := hc.walked
  obtain ⟨ts, hv⟩ := hw.list (List.mem_singleton.2 rfl)
  have htyped : ∀ m ∈ ((Node.root tree).get "body").items, m.isTyped = true := fun m hm => by
    obtain ⟨type, ht, -⟩ := (hw.holds.below hw.grammar (List.mem_singleton.2 rfl) hm).typeName?
    rw [Node.isTyped, ht]
    rfl
  have hitems := Part.nodes_eq (s := ⟨"body", .many, .walked (statements ++ moduleItems)⟩)
    (hw.holds.fits hw.grammar (List.mem_singleton.2 rfl)) htyped
  obtain ⟨slots, hs, hkeys, -, hrest⟩ := Part.isFormed_iff.1 (Part.Conforms.isFormed hc)
  obtain rfl := Option.some.inj (hw.grammar.symm.trans hs)
  have hobj := hw.holds.isObj
  cases hmembers : (Node.root tree).value with
  | obj members =>
      rw [Part.keys, show (program tree).node = .root tree from rfl, hmembers] at hkeys hrest
      rw [Node.children_eq hmembers hkeys]
      refine (flatMap_of_unique (hkeys.filter _) ?_ fun key hk hne => ?_).trans hitems.symm
      · by_cases hmem : "body" ∈ members.map (·.1)
        · exact .inl (List.mem_filter.2 ⟨hmem, by decide⟩)
        · have hnone : members.lookup "body" = none := by
            rw [List.lookup_eq_none_iff]
            intro e he
            rw [bne_iff_ne]
            exact fun heq => hmem (List.mem_map.2 ⟨e, he, heq.symm⟩)
          rw [show ((Node.root tree).get "body").value = (Node.root tree).value.get "body" from rfl,
            hmembers, Tree.get, hnone] at hv
          cases hv
      · obtain ⟨hk, hmeta⟩ := List.mem_filter.1 hk
        exact ((hrest key hk).resolve_left (by simpa using hmeta)).resolve_left (by simpa using hne)
  | _ => rw [Node.isObj, hmembers] at hobj; cases hobj

/-- The scopes around what a program holds directly. -/
def outermost (g : Gates) (tree : Tree) : Around :=
  if g.isModule then [(.moduleTop, .root tree), (.global, .root tree)] else [(.global, .root tree)]

theorem outermost_ne_nil (g : Gates) (tree : Tree) : outermost g tree ≠ [] := by
  unfold outermost
  split <;> nofun

theorem around_of_mem_below (hc : Conforms tree) (hq : q ∈ (program tree).below) :
    q.around g = outermost g tree := by
  obtain ⟨s, hs, hst⟩ := Part.mem_below.1 hq
  rw [Part.around_standing hst]
  show inside [] (.root tree) (scopes g (.walked ["Program"]) (.root tree) s.key) = _
  rw [scopes, hc.walked.typeName, Option.map_some, Option.getD_some]
  show inside [] (.root tree) (if g.isModule then [.global, .moduleTop] else [.global]) = _
  unfold outermost
  split <;> rfl

/-- What a program comes to: it enters its scopes, and walks what it holds directly. -/
theorem Conforms.leaves (hc : Conforms tree) : leavesOf [] (plan g (.root tree)) =
    ⟨[], .within .global (.root tree) []⟩ ::
      (if g.isModule then [⟨[(.global, .root tree)], .within .moduleTop (.root tree) []⟩] else []) ++
      ((Node.root tree).get "body").items.flatMap (fun m => leavesOf (outermost g tree) (plan g m)) ++
      [⟨[], .closeOwned (.root tree)⟩] := by
  have hw := hc.walked
  rw [plan_rule hw.typeName, hw.ofType, rule, Walk.program, nested, hw.scopeKinds?_eq (by decide),
    visitChildren, hc.children]
  cases hm : g.isModule <;> simp [kindOf, Event.leaves, leavesOf_flatMap, outermost, hm]

/-- What stands directly in a program and only a module may hold stops the walk elsewhere. -/
theorem plan_of_isModuleItem (h : Holds (.walked types) m) (hi : isModuleItem m = true)
    (hm : g.isModule = false) :
    plan g m = [.fail ((Fault.outsideModule (m.typeName?.getD "")).on m)] := by
  obtain ⟨type, ht, -⟩ := h.typeName?
  obtain ⟨events, hr⟩ := rule_of_isModular (g := g) (n := m) ((isModuleItem_eq ht).symm.trans hi)
  rw [plan_rule ht, hr, onlyInModule, if_neg (by simp [hm])]

/-- All that happens for a part that does not stop the walk can happen. -/
theorem Part.canHappen (h : p.Conforms) (hm : p.Admitted g) (hw : p.phrase.isWalked = true)
    (hne : p.around g ≠ []) : ∀ l ∈ leavesOf (p.around g) (plan g p.node),
      l.fault? = none ∧ l.CanHappen := fun l hl => by
  have hsite : ∀ x, l.site? = some x → x ∈ p.told g := fun x hx => by
    have hmem : x ∈ sitesOf (p.around g) (plan g p.node) := by
      rw [sitesOf_eq]
      exact List.mem_filterMap.2 ⟨l, hl, hx⟩
    cases hφ : p.phrase with
    | walked types => rwa [Part.told, hφ, phraseSites]
    | _ => rw [hφ] at hw; cases hw
  have haround : l.around ≠ [] := fun hnil =>
    hne (List.suffix_nil.1 (hnil ▸ suffix_of_mem_leaves _ _ l hl))
  obtain ⟨c, event⟩ := l
  cases event with
  | within kind n inside => exact ⟨rfl, Part.hasPrologue h hm (hsite _ rfl)⟩
  | fail e => exact absurd (hsite _ rfl) (Part.not_fails h hm c)
  | phase p => exact ⟨rfl, trivial⟩
  | closeOwned n => exact ⟨rfl, trivial⟩
  | _ => exact ⟨rfl, haround⟩

/-- What stands directly in a program stops the walk or does nothing that could. -/
theorem leaves_of_mem_body (hc : Conforms tree) (hm : m ∈ ((Node.root tree).get "body").items) :
    Holds (.walked (statements ++ moduleItems)) m ∧
      ((isModuleItem m = true → g.isModule = true) → ∀ l ∈ leavesOf (outermost g tree) (plan g m),
        l.fault? = none ∧ l.CanHappen) := by
  have hw := hc.walked
  let s : Slot := ⟨"body", .many, .walked (statements ++ moduleItems)⟩
  let q : Part := ⟨[⟨.walked ["Program"], .root tree, "body"⟩], s.phrase, m⟩
  have hq : q ∈ (program tree).below := Part.mem_below.2 ⟨s,
    by rw [Part.slots_eq hw.grammar]; exact List.mem_singleton.2 rfl,
    Part.mem_standing.2 ⟨hm, rfl, rfl⟩⟩
  have hholds : Holds (.walked (statements ++ moduleItems)) m :=
    hw.holds.below hw.grammar (List.mem_singleton.2 rfl) hm
  refine ⟨hholds, fun hi => ?_⟩
  have hconf : q.Conforms := Part.Conforms.below hc hq
  have hprogram : q.node.hasType "Program" = false := by
    obtain ⟨type, ht, hmem, -⟩ := hholds.typeName?
    rw [Bool.eq_false_iff, Ne, hasType_iff]
    show ¬ m.typeName? = _
    rw [ht]
    rintro ⟨⟩
    exact absurd hmem (by decide)
  have hcan := Part.canHappen (g := g) hconf (Part.admitted hconf hprogram hi) rfl
    (by rw [around_of_mem_below hc hq]; exact outermost_ne_nil g tree)
  rwa [around_of_mem_below hc hq] at hcan

/-- **The faults of a program are what it holds directly and only a module may hold**, in order. -/
theorem faults_plan (hc : Conforms tree) (g : Gates) : faults (plan g (.root tree)) =
    (((Node.root tree).get "body").items.filter fun m => !g.isModule && isModuleItem m).map
      fun m => (Fault.outsideModule (m.typeName?.getD "")).on m := by
  have hitem : ∀ m ∈ ((Node.root tree).get "body").items,
      (leavesOf (outermost g tree) (plan g m)).filterMap Leaf.fault? =
        if !g.isModule && isModuleItem m then
          [(Fault.outsideModule (m.typeName?.getD "")).on m] else [] := by
    intro m hm
    obtain ⟨hholds, hfree⟩ := leaves_of_mem_body (g := g) hc hm
    split
    · rename_i hi
      simp only [Bool.and_eq_true, Bool.not_eq_true'] at hi
      rw [plan_of_isModuleItem hholds hi.2 hi.1]
      rfl
    · rename_i hi
      refine List.filterMap_eq_nil_iff.2 fun l hl => (hfree (fun hitem => ?_) l hl).1
      simpa [hitem] using hi
  rw [faults, hc.leaves, List.filterMap_append, List.filterMap_append, List.filterMap_flatMap,
    List.flatMap_congr hitem]
  have hscopes : (⟨[], .within .global (.root tree) []⟩ ::
      if g.isModule then [⟨[(.global, .root tree)], .within .moduleTop (.root tree) []⟩]
      else ([] : List Leaf)).filterMap Leaf.fault? = [] := by
    split <;> rfl
  rw [hscopes, List.nil_append, show [(⟨[], .closeOwned (.root tree)⟩ : Leaf)].filterMap
    Leaf.fault? = [] from rfl, List.append_nil]
  generalize ((Node.root tree).get "body").items = items
  induction items with
  | nil => rfl
  | cons m items ih =>
      rw [List.flatMap_cons, ih, List.filter_cons]
      split <;> rfl

/-- **Everything in a program can happen where it stands.** -/
theorem canHappen_plan (hc : Conforms tree) (g : Gates) :
    ∀ l ∈ leavesOf [] (plan g (.root tree)), l.CanHappen := by
  intro l hl
  have hw := hc.walked
  rw [hc.leaves, List.mem_append, List.mem_append, List.mem_cons] at hl
  rcases hl with ((rfl | hl) | hl) | hl
  · exact ⟨hw.holds.isObj, hw.holds.statements hw.grammar (List.mem_singleton.2 rfl)⟩
  · split at hl
    · rw [List.mem_singleton.1 hl]
      exact ⟨hw.holds.isObj, hasPrologue_of_ne (by decide) (by decide)⟩
    · cases hl
  · obtain ⟨m, hm, hl⟩ := List.mem_flatMap.1 hl
    obtain ⟨hholds, hfree⟩ := leaves_of_mem_body (g := g) hc hm
    by_cases hi : isModuleItem m = true → g.isModule = true
    · exact (hfree hi l hl).2
    · obtain ⟨hitem, hg⟩ := Classical.not_imp.1 hi
      rw [plan_of_isModuleItem hholds hitem (Bool.eq_false_iff.2 hg)] at hl
      rw [List.mem_singleton.1 hl]
      trivial
  · rw [List.mem_singleton.1 hl]
    trivial

end Grammar

end LexScope
