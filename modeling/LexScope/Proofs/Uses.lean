import LexScope.Proofs.Walked

/-!
# Proofs — Uses — every use of a name is recorded once

An identifier of a program is there in some role, and the grammar says in which
(`Grammar.Phrase.role`).  Those that are there to be used are the identifiers of the references, each
of exactly one; all others are the identifiers of none.

* `Part.used_own`: what happens for a part uses its node if the part is a use, and nothing else.
* `Listed.change`: a scope lists the references made in it, in order, whatever is done to the store.
* `analyze_uses`: **every use is recorded once**, and a reference is found again in the scope that it
  was made in and in no other.
-/

namespace LexScope

open Walk Store LexScope.Action

/-! ### What is used at a site -/

/-- The identifier that is used at a site. -/
def Walk.Site.used? (x : Site) : Option Node := x.use?.map (·.2)

namespace Grammar

variable {g : Gates} {c : Around} {n : Node} {p q : Part}

/-- The identifiers that are used at some sites. -/
def used (sites : List Site) : List Node := sites.filterMap Site.used?

@[simp] theorem used_nil : used [] = [] := rfl

@[simp] theorem used_append (a b : List Site) : used (a ++ b) = used a ++ used b :=
  List.filterMap_append

@[simp] theorem used_opens {kind : ScopeKind} {rest : List Site} :
    used (⟨c, .opens kind n⟩ :: rest) = used rest := rfl

@[simp] theorem used_bind {d : Definition} {rest : List Site} :
    used (⟨c, .binds n d⟩ :: rest) = used rest := rfl

theorem used_use : used [⟨c, .uses n⟩] = if n.isIdentifier then [n] else [] := by
  cases hn : n.isIdentifier <;> simp [used, Site.used?, Site.use?, hn]

@[simp] theorem used_flatMap {α : Type} (l : List α) (f : α → List Site) :
    used (l.flatMap f) = l.flatMap fun x => used (f x) := List.filterMap_flatMap

@[simp] theorem used_enters (kinds : List ScopeKind) : used (enters c n kinds) = [] := by
  induction kinds generalizing c with
  | nil => rfl
  | cons kind kinds ih => exact ih

@[simp] theorem used_binds (d : Node → Definition) : used (binds c n d) = [] := by
  simp [used, binds, Site.used?, Site.use?]

@[simp] theorem used_declares (kind : DefinitionKind) : used (declares kind c n) = [] := by
  simp [declares]

@[simp] theorem used_declaresHere : used (declaresHere c n) = [] := by
  unfold declaresHere
  split <;> simp

@[simp] theorem used_functionSites (isMethod : Bool) :
    used (functionSites c n isMethod) = [] := by
  unfold functionSites
  split <;> simp

/-- A node that is walked is used if it is an identifier, and uses nothing itself otherwise. -/
theorem used_walkedSites (family : Family) : used (walkedSites g c n family) =
    if family = .identifier ∧ n.isIdentifier then [n] else [] := by
  cases family with
  | identifier => simp [walkedSites, used_use]
  | classDefinition =>
      simp only [walkedSites, classSites]
      split_ifs <;> simp_all
  | iteration =>
      simp only [walkedSites, lexicalIterationSites]
      split_ifs <;> simp_all
  | importing => simp [walkedSites, used, Site.used?, Site.use?]
  | _ => simp [walkedSites]

theorem used_useSites (ρ : Role) :
    used (useSites c ρ n) = if n.isIdentifier then List.replicate ρ.uses n else [] := by
  unfold useSites
  generalize ρ.uses = k
  cases hn : n.isIdentifier with
  | false => simp
  | true =>
      induction k with
      | zero => rfl
      | succ k ih => simp [List.replicate_succ, used, Site.used?, Site.use?, hn] at ih ⊢

/-- What happens for a phrase uses its node as often as the role of the phrase says, if that is an
identifier, and nothing else. -/
theorem used_ownSites {φ : Phrase} {slots : List Slot} (h : slots? φ n = some slots) :
    used (ownSites g c φ n) = if n.isIdentifier then List.replicate φ.role.uses n else [] := by
  obtain ⟨type, ht, hmem, -, -⟩ := slots?_eq_some.1 h
  -- Where no identifier can stand, nothing is used.
  have hnone : "Identifier" ∉ φ.types → ¬ n.isIdentifier = true := fun hno hid =>
    hno (Option.some.inj ((hasType_iff.1 hid).symm.trans ht) ▸ hmem)
  cases φ with
  | walked types =>
      rw [ownSites, ht]
      show used (walkedSites g c n (.ofType type)) = _
      rw [used_walkedSites]
      refine if_congr (and_iff_right_of_imp fun hid => ?_) rfl rfl
      obtain rfl := Option.some.inj ((hasType_iff.1 hid).symm.trans ht)
      rfl
  | word ρ types => exact used_useSites ρ
  | pattern ρ => exact used_useSites ρ
  | method => rw [if_neg (hnone (by decide))]; exact used_functionSites true
  | head =>
      rw [if_neg (hnone (by decide)), ownSites]
      split <;> simp
  | _ => rw [if_neg (hnone (by simp [Phrase.types]))]; rfl

namespace Part

/-- How often a part is used. -/
def uses (p : Part) : Nat := if p.node.isIdentifier then p.phrase.role.uses else 0

/-- **What happens for a part uses its node as often as its role says**, and nothing else. -/
theorem used_own (h : p.isFormed = true) : used (p.own g) = List.replicate p.uses p.node := by
  obtain ⟨slots, hs, -⟩ := isFormed_iff.1 h
  rw [own, used_ownSites hs, uses]
  split <;> rfl

end Part

/-! ### Names that are written twice -/

/-- Whether slots are for names that are not written twice. -/
def Once (slots : List Slot) : Prop := ∀ s ∈ slots, s.phrase.role ≠ .rewritten

instance (slots : List Slot) : Decidable (Once slots) :=
  inferInstanceAs (Decidable (∀ s ∈ slots, _))

theorem once_plainSlots : ∀ e ∈ plainSlots, Once e.2 := by decide +kernel

theorem once_accessSlots : Once (accessSlots n) := by
  unfold accessSlots
  split <;> decide

theorem once_walkedSlots {type : String} {family : Family} {slots : List Slot}
    (h : walkedSlots? n type family = some slots) : Once slots := by
  cases family with
  | plain =>
      obtain ⟨l₁, l₂, hl, -⟩ := List.lookup_eq_some_iff.1 h
      exact once_plainSlots (type, slots) (hl ▸ by simp)
  | access => cases h; exact once_accessSlots
  | exportNamed =>
      cases h
      unfold exportSlots
      split_ifs <;> decide
  | function => cases h; split <;> decide
  | property =>
      cases h
      unfold keySlot
      cases isComputed n <;> cases (n.hasType "MethodDefinition" || (n.get "method").truthy) <;>
        decide
  | inert => cases h; split <;> decide
  | assignment => cases h; split <;> decide
  | iteration => cases h; split <;> decide
  | declarator => cases h
  | lexicalIteration => cases h
  | _ => cases h; decide

theorem once_patternSlots {ρ : Role} {type : String} {slots : List Slot} (hρ : ρ ≠ .rewritten)
    (h : patternSlots? ρ n type = some slots) : Once slots := by
  unfold patternSlots? at h
  split at h <;> cases h
  · exact nofun
  · exact once_accessSlots
  all_goals simp [Once, Phrase.role, Phrase.expression, hρ]

theorem once_patternMemberSlots {ρ : Role} {slots : List Slot} (hρ : ρ ≠ .rewritten)
    (h : patternMemberSlots? ρ n = some slots) : Once slots := by
  unfold patternMemberSlots? keySlot at h
  split_ifs at h <;> cases h <;>
    simp [Once, Phrase.role, Phrase.name, Phrase.plainKey, Phrase.expression, hρ]

/-- A name is written twice only if it stands in the head of an iteration that has an initializer. -/
theorem once_slots {φ : Phrase} {slots : List Slot} (h : slots? φ n = some slots)
    (hφ : φ.role ≠ .rewritten) (hn : φ = .headDeclarator → (n.get "init").isNull = true) :
    Once slots := by
  obtain ⟨type, -, -, -, hs⟩ := slots?_eq_some.1 h
  cases φ with
  | walked types => exact once_walkedSlots hs
  | method => exact once_walkedSlots hs
  | body => exact once_walkedSlots hs
  | word ρ types => cases hs; exact nofun
  | pattern ρ => exact once_patternSlots hφ hs
  | patternMember ρ => exact once_patternMemberSlots hφ hs
  | declarator =>
      cases hs
      cases hinit : (n.get "init").isNull <;>
        simp [Once, declaratorSlots, declaratorRole, hinit, Phrase.role, Phrase.expression]
  | headDeclarator =>
      cases hs
      simp [Once, declaratorSlots, declaratorRole, hn rfl, Phrase.role, Phrase.expression]
  | head =>
      rw [typeSlots?] at hs
      split at hs <;> cases hs
      decide
  | importSpecifier =>
      rw [typeSlots?] at hs
      split at hs <;> cases hs <;> decide
  | foreignSpecifier => cases hs; decide

/-- Whether no iteration has an initializer in its head. -/
def PlainHeads (tree : Tree) : Prop :=
  ∀ p ∈ (program tree).parts, p.phrase = .headDeclarator → (p.node.get "init").isNull = true

instance (tree : Tree) : Decidable (PlainHeads tree) :=
  inferInstanceAs (Decidable (∀ p ∈ (program tree).parts, _))

theorem PlainHeads.role {tree : Tree} (h : PlainHeads tree) (hp : p ∈ (program tree).parts) :
    p.phrase.role ≠ .rewritten := by
  refine Part.parts_induction (p := program tree) (motive := fun p => p.phrase.role ≠ .rewritten)
    nofun (fun q hq hrole r hr hrw => ?_) p hp
  obtain ⟨s, hs, hst⟩ := Part.mem_below.1 hr
  obtain ⟨-, -, hφ⟩ := Part.mem_standing.1 hst
  cases hslots : slots? q.phrase q.node with
  | none =>
      rw [Part.slots, hslots] at hs
      cases hs
  | some slots =>
      rw [Part.slots_eq hslots] at hs
      exact once_slots hslots hrole (h q hq) s hs (hφ ▸ hrw)

namespace Part

/-- Whether a part is the use of a name. -/
def isUse (p : Part) : Bool := decide (p.phrase.role = .use ∧ p.node.isIdentifier)

theorem uses_eq (h : p.phrase.role ≠ .rewritten) : p.uses = if p.isUse then 1 else 0 := by
  rw [uses, isUse]
  cases p.node.isIdentifier <;> cases hρ : p.phrase.role <;> simp_all [Role.uses]

end Part

/-- **What a program uses are its parts that are uses**, if no name is written twice. -/
theorem used_plan {tree : Tree} (h : Conforms tree) (hh : PlainHeads tree)
    (hf : ∀ c, ⟨c, .fails⟩ ∉ sitesOf [] (plan g (.root tree))) :
    (used (sitesOf [] (plan g (.root tree)))).Perm
      (((program tree).parts.filter Part.isUse).map Part.node) := by
  have hown : ∀ p ∈ (program tree).parts, used (p.own g) = if p.isUse then [p.node] else [] :=
    fun p hp => by
      rw [Part.used_own (h p hp), Part.uses_eq (hh.role hp)]
      split <;> rfl
  refine ((sitesOf_plan h hf).perm.filterMap _).trans (.of_eq ?_)
  show used _ = _
  rw [← List.flatMap_def, used_flatMap, List.flatMap_congr hown]
  generalize (program tree).parts = l
  induction l with
  | nil => rfl
  | cons p l ih => cases hp : p.isUse <;> simp [hp, ih]

end Grammar

/-! ### Where references are listed -/

namespace Store

variable {A : ScopeId → Prop} {s t : Store} {i j : ScopeId} {r : ReferenceId} {ref : Reference}

/-- The scope that a reference was made in. -/
def homeOf (s : Store) (r : ReferenceId) : Option ScopeId := (s.referenceAt? r).map (·.scope)

/-- Every scope lists the references made in it, and none is made anywhere else. -/
structure Listed (s : Store) : Prop where
  home : ∀ r i, s.homeOf r = some i → i < s.scopes.size
  listed : ∀ i a, s.scopeAt? i = some a → ∀ r, r ∈ a.references ↔ s.homeOf r = some i

/-- Where no reference is made, scopes keep what they list and new ones list nothing. -/
theorem Listed.still (h : s.Listed) (href : ∀ r, t.homeOf r = s.homeOf r)
    (hsize : s.scopes.size ≤ t.scopes.size)
    (hscope : ∀ i b, t.scopeAt? i = some b →
      (∃ a, s.scopeAt? i = some a ∧ b.references = a.references) ∨
        s.scopes.size ≤ i ∧ b.references = []) : t.Listed := by
  refine ⟨fun r i hr => (h.home r i (href r ▸ hr)).trans_le hsize, fun i b hb r => ?_⟩
  rw [href]
  rcases hscope i b hb with ⟨a, ha, he⟩ | ⟨hi, he⟩
  · rw [he, h.listed i a ha]
  · rw [he]
    exact iff_of_false nofun fun hr => absurd (h.home r i hr) (Nat.not_lt.2 hi)

theorem Listed.updateScope (h : s.Listed) (i : ScopeId) {f : Scope → Scope}
    (hf : ∀ a, (f a).references = a.references) : (s.updateScope i f).Listed := by
  refine h.still (fun _ => rfl) (by simp [Store.updateScope]) fun j b hb => .inl ?_
  obtain ⟨-, a, ha, rfl⟩ | ⟨-, hb⟩ := scopeAt?_updateScope_cases hb
  · exact ⟨a, ha, hf a⟩
  · exact ⟨b, hb, rfl⟩

theorem Listed.quiet (h : s.Listed) (hq : Quiet A s t) : t.Listed := by
  cases hq with
  | record entry => exact h.still (fun _ => rfl) le_rfl fun i b hb => .inl ⟨b, hb, rfl⟩
  | @addScope kind n upper strict hu =>
      refine h.still (fun r => by simp [homeOf]) (by simp [size_addScope]) fun j b hb => ?_
      obtain ⟨hj, rfl⟩ | ⟨a, l, ha, rfl⟩ := scopeAt?_addScope_cases (fun u h => (hu u h).2) hb
      · exact .inr ⟨hj.ge, rfl⟩
      · exact .inl ⟨a, ha, rfl⟩
  | @bindNew i a key var hA ha hf hi hk hr =>
      have hpush : ({ s with vars := s.vars.push var } : Store).Listed := ⟨h.home, h.listed⟩
      exact hpush.updateScope i fun _ => rfl
  | addDefinition d _ _ _ => exact h.still (fun _ => rfl) le_rfl fun i b hb => .inl ⟨b, hb, rfl⟩
  | reflag _ hf => exact h.updateScope _ fun a => (hf a).references
  | bindImplicit _ _ _ => exact h.updateScope _ fun _ => rfl

theorem homeOf_addReference (u : Use) : (s.addReference i u).homeOf r =
    if r = s.references.size then some i else s.homeOf r := by
  rw [homeOf, referenceAt?_addReference]
  split <;> rfl

theorem homeOf_link (q : ReferenceId) (v : VariableId) :
    (s.link q i v).homeOf r = s.homeOf r := by
  rw [homeOf, referenceAt?_link, homeOf]
  cases s.referenceAt? r <;> by_cases hq : q = r <;> simp [hq]

theorem Listed.addReference (h : s.Listed) (hi : i < s.scopes.size) (u : Use) :
    (s.addReference i u).Listed := by
  have hsize : (s.addReference i u).scopes.size = s.scopes.size := by
    simp [Store.addReference, Store.updateScope]
  have hnew : s.homeOf s.references.size = none := by
    rw [homeOf, show s.referenceAt? s.references.size = none from Array.getElem?_eq_none le_rfl]
    rfl
  refine ⟨fun r j hr => ?_, fun j b hb r => ?_⟩
  · rw [hsize]
    rw [homeOf_addReference] at hr
    split at hr
    · exact Option.some.inj hr ▸ hi
    · exact h.home r j hr
  · rw [homeOf_addReference]
    obtain ⟨rfl, a, ha, rfl⟩ | ⟨hj, hb⟩ := scopeAt?_addReference_cases hb
    · show r ∈ a.references ++ [s.references.size] ↔ _
      rw [List.mem_append, List.mem_singleton, h.listed i a ha]
      by_cases hr : r = s.references.size <;> simp [hr]
    · rw [h.listed j b hb]
      by_cases hr : r = s.references.size
      · simp [hr, hnew, hj]
      · simp [hr]

/-- **A scope lists the references made in it**, whatever is done to the scopes that are there. -/
theorem Listed.change (h : s.Listed) (hc : Change A s t) (hA : ∀ i, A i → i < s.scopes.size) :
    t.Listed := by
  cases hc with
  | quiet hq => exact h.quiet hq
  | addReference u hi => exact h.addReference (hA _ hi) u
  | link r origin _ _ _ =>
      exact h.still (fun _ => homeOf_link ..) le_rfl fun i b hb => .inl ⟨b, hb, rfl⟩
  | receive r _ => exact h.updateScope _ fun _ => rfl
  | pass r _ => exact h.updateScope _ fun _ => rfl
  | shut _ => exact h.updateScope _ fun _ => rfl

theorem Listed.changes (h : s.Listed) (hs : s.Sound) (hc : Changes A s t)
    (hA : ∀ i, A i → i < s.scopes.size) : t.Listed := by
  induction hc with
  | refl => exact h
  | tail hst hc ih =>
      refine ih.change hc fun i hi => ?_
      obtain ⟨a, ha⟩ := scopeAt?_of_lt (hA i hi)
      obtain ⟨b, hb, -⟩ := (Changes.evolves hst hs).scope i a ha
      exact scopeAt?_lt hb

theorem Listed.quiets (h : s.Listed) (hq : Quiets A s t) : t.Listed := by
  induction hq with
  | refl => exact h
  | tail _ hq ih => exact ih.quiet hq

/-- An orderly operation leaves every scope the references made in it. -/
theorem Listed.operation (h : s.Listed) {current : Option ScopeId} {op : Operation} {out : Outcome}
    (hd : s.Disciplined current) (ho : op.Orderly s current)
    (hop : op.applyTo s = (.ok out, t)) : t.Listed := by
  rcases hd.quiets ho hop with hq | ⟨i, u, rfl⟩ | ⟨i, rfl⟩
  · exact h.quiets hq
  · obtain rfl : current = some i := ho
    obtain ⟨w, -, hr⟩ := bind_pure_ok_iff.1 (show (Operation.refer i u).apply.outcome s = _ from hop)
    obtain ⟨-, -, rfl⟩ | ⟨-, -, rfl, -⟩ := refer_ok_iff.1 hr
    · exact h
    · exact h.addReference (hd.open_of_mem (self_mem_chain s i)).lt u
  · obtain rfl : current = some i := ho
    obtain ⟨up, -, hc⟩ := Operation.applyTo_close_ok.1 hop
    exact h.changes hd.sound (close_changes hd.sound hc) fun j hj => (hd.open_of_mem hj).lt

end Store

/-! ### A whole walk -/

namespace Walk

variable {m m' : Moment} {op : Option Operation} {ops : List Operation}

theorem Moment.Good.listed_step (h : m.Good) (hl : m.store.Listed) (hs : Step m op m') :
    m'.store.Listed := by
  obtain ⟨o, out, -, ho, hop, -⟩ | ⟨-, -, heq | ⟨entry, heq⟩⟩ := h.step_cases hs
  · exact hl.operation h.disciplined ho hop
  · exact heq ▸ hl
  · exact heq ▸ hl.quiet (A := fun _ => True) (.record entry)

theorem Moment.Good.listed (h : m.Good) (hl : m.store.Listed) (hs : Steps m ops m') :
    m'.store.Listed := by
  induction hs with
  | refl => exact hl
  | more hs _ ih => exact ih (h.step hs) (h.listed_step hl hs)

end Walk

/-- A finished analysis lists every reference with the scope that it was made in. -/
theorem analyze_listed {o : Options} {tree : Tree} {s : Store} (h : analyze o tree = .ok s) :
    s.Listed := by
  obtain ⟨ops, m, hsteps, -, -, rfl⟩ := analyze_ok h
  have hstart : (Moment.start o tree).store.Listed := ⟨nofun, nofun⟩
  exact ((Moment.start_good o tree).listed hstart hsteps).quiet (A := fun _ => True) (.record _)

/-! ### Every use is recorded once -/

namespace Grammar

variable {o : Options} {tree : Tree} {s : Store} {p q : Part} {m n : Node}

theorem find?_eq_ite (l : List ReferenceId) (r : ReferenceId) :
    (l.find? (· = r)) = if r ∈ l then some r else none := by
  induction l with
  | nil => rfl
  | cons x l ih =>
      by_cases hx : x = r
      · simp [hx]
      · simp [hx, ih, Ne.symm hx]

/-- Two nodes are one if they stand at one place. -/
theorem same_iff (hm : m.isObj = true) (hn : n.isObj = true) :
    m.same n = true ↔ m.path = n.path := by
  have hnull : ∀ {n : Node}, n.isObj = true → n.isNull = false := fun {n} h => by
    rw [Node.isNull, decide_eq_false_iff_not]
    intro hv
    rw [Node.isObj, hv] at h
    cases h
  simp [Node.same, Node.place, hnull hm, hnull hn]

/-- Two parts of a program are one if their nodes are. -/
theorem Conforms.same_iff (h : Conforms tree) (hp : p ∈ (program tree).parts)
    (hq : q ∈ (program tree).parts) : q.node.same p.node = true ↔ q = p := by
  have hobj : ∀ r ∈ (program tree).parts, r.node.isObj = true := fun r hr =>
    Node.isObj_of_isTyped (Part.isTyped_of_isFormed (h r hr))
  rw [Grammar.same_iff (hobj q hq) (hobj p hp)]
  exact ⟨Part.parts_unique hq hp, fun he => he ▸ rfl⟩

/-- **The identifiers of the references are the parts that are uses.** -/
theorem identifiers_perm (hc : Conforms tree) (hh : PlainHeads tree) (h : analyze o tree = .ok s) :
    (s.references.toList.map (·.identifier)).Perm
      (((program tree).parts.filter Part.isUse).map Part.node) := by
  have hr := analyze_records h
  have hused : s.references.toList.map (·.identifier) =
      used (sitesOf [] (plan (.ofOptions o) (.root tree))) := by
    have huses := congrArg (List.map Prod.snd) hr.uses
    rw [List.map_map, Store.uses, List.map_map, List.map_filterMap] at huses
    exact huses
  rw [hused]
  exact used_plan hc hh hr.fails

/-- How many references a part is the identifier of. -/
theorem countP_identifier (hc : Conforms tree) (hh : PlainHeads tree) (h : analyze o tree = .ok s)
    (hp : p ∈ (program tree).parts) :
    s.references.toList.countP (·.identifier.same p.node) = if p.isUse then 1 else 0 := by
  have hcount : ((program tree).parts.filter Part.isUse).countP (·.node.same p.node) =
      ((program tree).parts.filter Part.isUse).count p := by
    refine List.countP_congr fun q hq => ?_
    rw [hc.same_iff hp (List.mem_filter.1 hq).1, beq_iff_eq]
  have hnodup : (program tree).parts.Nodup :=
    (Part.pairwise_parts (program tree)).imp fun {_ _} hne he => hne (congrArg (·.node.path) he)
  calc
    _ = (s.references.toList.map (·.identifier)).countP (·.same p.node) := by
      rw [List.countP_map]
      rfl
    _ = (((program tree).parts.filter Part.isUse).map Part.node).countP (·.same p.node) :=
      (identifiers_perm hc hh h).countP_eq _
    _ = ((program tree).parts.filter Part.isUse).count p := List.countP_map.trans hcount
    _ = if p.isUse then 1 else 0 := by
      rw [List.Nodup.count (hnodup.filter _)]
      simp [hp]

/-- Every reference is that of a part that is a use. -/
theorem exists_part (hc : Conforms tree) (hh : PlainHeads tree) (h : analyze o tree = .ok s)
    {r : ReferenceId} {ref : Reference} (hr : s.referenceAt? r = some ref) :
    ∃ p ∈ (program tree).parts, p.node = ref.identifier ∧ p.isUse = true := by
  have hmem : ref.identifier ∈ s.references.toList.map (·.identifier) :=
    List.mem_map_of_mem (Array.mem_toList_iff.2 (Array.mem_of_getElem? hr))
  obtain ⟨p, hp, he⟩ := List.mem_map.1 ((identifiers_perm hc hh h).mem_iff.1 hmem)
  exact ⟨p, (List.mem_filter.1 hp).1, he, (List.mem_filter.1 hp).2⟩

/-- No two references have one identifier. -/
theorem reference_unique (hc : Conforms tree) (hh : PlainHeads tree) (h : analyze o tree = .ok s)
    {r r' : ReferenceId} {ref ref' : Reference} (hr : s.referenceAt? r = some ref)
    (hr' : s.referenceAt? r' = some ref')
    (hsame : ref'.identifier.same ref.identifier = true) : r' = r := by
  have hnodup : ((s.references.toList.map (·.identifier)).map (·.path)).Nodup := by
    rw [((identifiers_perm hc hh h).map _).nodup_iff, List.map_map]
    exact List.pairwise_map.2 ((Part.pairwise_parts (program tree)).filter _)
  obtain ⟨p, hp, he, -⟩ := exists_part hc hh h hr
  obtain ⟨q, hq, he', -⟩ := exists_part hc hh h hr'
  rw [← he, ← he', hc.same_iff hp hq] at hsame
  have hget : ∀ {r ref}, s.referenceAt? r = some ref →
      ((s.references.toList.map (·.identifier)).map (·.path))[r]? = some ref.identifier.path :=
    fun hr => by simp [show s.references[_]? = some _ from hr]
  refine (List.getElem?_inj ?_ hnodup).1 ?_
  · simpa using (Array.getElem?_eq_some_iff.1 hr').1
  · rw [hget hr', hget hr, ← he, ← he', hsame]

end Grammar

open Grammar in
/-- **Every use of a name is recorded once.**  An identifier of a program that conforms to the
grammar is one part of it; it is the identifier of exactly one reference if it is there to be used,
and of none if it is there in any other role.  So every reference belongs to a use, and it is what
its identifier resolves to in the scope that it was made in, and in no other. -/
theorem analyze_uses {o : Options} {tree : Tree} {s : Store} (hc : Conforms tree)
    (hh : PlainHeads tree) (h : analyze o tree = .ok s) :
    (∀ n : Node, Relation.ReflTransGen (fun a b : Node => b ∈ a.children) (.root tree) n →
      n.isIdentifier = true →
      ∃ p ∈ (program tree).parts, p.node = n ∧
        (∀ q ∈ (program tree).parts, q.node.same n = true → q = p) ∧
        s.references.toList.countP (·.identifier.same n) = if p.phrase.role = .use then 1 else 0) ∧
    ∀ r ref, s.referenceAt? r = some ref →
      (∃ p ∈ (program tree).parts, p.node = ref.identifier ∧ p.phrase.role = .use) ∧
      ∀ i a, s.scopeAt? i = some a →
        s.resolve? a ref.identifier = .ok (if i = ref.scope then some r else none) := by
  refine ⟨fun n hn hid => ?_, fun r ref hr => ⟨?_, fun i a ha => ?_⟩⟩
  · obtain ⟨p, hp, rfl⟩ := Part.Conforms.covers hc hn
    refine ⟨p, hp, rfl, fun q hq => (hc.same_iff hp hq).1, ?_⟩
    rw [countP_identifier hc hh h hp, Part.isUse, hid]
    simp
  · obtain ⟨p, hp, he, huse⟩ := exists_part hc hh h hr
    exact ⟨p, hp, he, (of_decide_eq_true huse).1⟩
  · have hclosed : a.isClosed = true := by
      have hopen := (analyze_finished Tree.hereditary_true trivial h).closed i
      cases hcl : a.isClosed with
      | true => rfl
      | false => exact absurd ⟨a, ha, hcl⟩ hopen
    have hself : ref.identifier.same ref.identifier = true := decide_eq_true rfl
    have hone : ∀ r',
        (s.referenceAt? r').any (·.identifier.same ref.identifier) = true ↔ r' = r := by
      refine fun r' => ⟨fun hany => ?_, fun he => by rw [he, hr]; exact hself⟩
      obtain ⟨ref', hr', hsame⟩ := (Option.any_eq_true ..).1 hany
      exact reference_unique hc hh h hr hr' hsame
    have hhome : r ∈ a.references ↔ i = ref.scope := by
      rw [(analyze_listed h).listed i a ha, homeOf, hr]
      exact ⟨fun he => (Option.some.inj he).symm, fun he => congrArg some he.symm⟩
    have hfind : (a.references.find? fun r' =>
        (s.referenceAt? r').any (·.identifier.same ref.identifier)) =
        a.references.find? (· = r) := by
      congr 1
      funext r'
      rw [Bool.eq_iff_iff, hone, decide_eq_true_iff]
    rw [resolve?, hclosed, hfind, find?_eq_ite]
    simp only [hhome, Bool.not_true, Bool.false_eq_true, if_false]

/-- `function f(p) { ({ p, a: b } = p.c) }`. -/
def patternProgram : Tree :=
  let name (text : String) : Tree := .obj [("type", .str "Identifier"), ("name", .str text)]
  let property (key value : String) (shorthand : Bool) : Tree :=
    .obj [("type", .str "Property"), ("key", name key), ("computed", .bool false),
      ("value", name value), ("kind", .str "init"), ("method", .bool false),
      ("shorthand", .bool shorthand)]
  let assignment : Tree :=
    .obj [("type", .str "AssignmentExpression"), ("operator", .str "="),
      ("left", .obj [("type", .str "ObjectPattern"),
        ("properties", .arr [property "p" "p" true, property "a" "b" false])]),
      ("right", .obj [("type", .str "MemberExpression"), ("computed", .bool false),
        ("object", name "p"), ("property", name "c")])]
  .obj [("type", .str "Program"), ("body", .arr [
    .obj [("type", .str "FunctionDeclaration"), ("id", name "f"), ("params", .arr [name "p"]),
      ("body", .obj [("type", .str "BlockStatement"), ("body", .arr [
        .obj [("type", .str "ExpressionStatement"), ("expression", assignment)]])])]])]

open Grammar in
/-- Of the eight identifiers of the sample three are uses; there are three references, and each is
found again where it was made. -/
theorem patternProgram_uses : Conforms patternProgram ∧
    (((program patternProgram).parts.filter (·.node.isIdentifier)).map (·.phrase.role) =
      [.functionName, .parameter, .use, .copy, .key, .use, .use, .memberName]) ∧
    ∃ s, analyze {} patternProgram = .ok s ∧ s.references.size = 3 ∧
      ∀ r ref a, s.referenceAt? r = some ref → s.scopeAt? ref.scope = some a →
        s.resolve? a ref.identifier = .ok (some r) := by
  have hconforms : Conforms patternProgram := by decide +kernel
  have hview : (analyze {} patternProgram).toOption.map (·.references.size) = some 3 := by
    decide +kernel
  refine ⟨hconforms, by decide +kernel, ?_⟩
  cases hs : analyze {} patternProgram with
  | error e => rw [hs] at hview; cases hview
  | ok s =>
      rw [hs] at hview
      refine ⟨s, rfl, Option.some.inj hview, fun r ref a hr ha => ?_⟩
      obtain ⟨-, hresolve⟩ := analyze_uses hconforms (by decide +kernel) hs
      rw [(hresolve r ref hr).2 ref.scope a ha, if_pos rfl]

end LexScope
