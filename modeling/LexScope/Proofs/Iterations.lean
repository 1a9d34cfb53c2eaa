import LexScope.Proofs.Placed
import LexScope.Proofs.Paired

/-!
# Proofs — Iterations — what stands in the dead zone of an iteration

An iteration with a lexical head has two scopes of its own: what it iterates over stands in a dead
zone, its head and its body in a block.  What is iterated over is an expression, and what stands in
an expression, but for what has a scope in between, stands in expressions only (`Phrase.isInner`).
Such phrases bind nothing around them; so in the dead zone nothing is bound but the names of the
head.

* `Iterates.around_member`: which of the two scopes a member of the iteration has around it.
* `Conforms.of_deadZone`: **what is in a dead zone is part of what an iteration iterates over.**
* `Conforms.binds_deadZone`: **nothing is bound in a dead zone but for its own iteration.**
-/

namespace LexScope

open Walk Store

namespace Grammar

variable {g : Gates} {tree : Tree} {p q r m : Part} {n : Node} {type key : String}
  {family : Family} {φ : Phrase}

/-! ### Iterations -/

theorem ofType_eq_iteration (h : Family.ofType type = .iteration) (hn : type ∉ familyNames) :
    type = "ForInStatement" ∨ type = "ForOfStatement" := by
  unfold Family.ofType at h
  split at h <;> first | exact .inl rfl | exact .inr rfl | exact absurd hn (by decide) | cases h

theorem isIteration_iff (hn : type ∉ familyNames) (ht : n.typeName? = some type) :
    isIteration n = true ↔ Family.ofType type = .iteration := by
  rw [isIteration, Bool.or_eq_true_iff, hasType_iff, hasType_iff, ht, Option.some.injEq,
    Option.some.injEq]
  refine ⟨?_, fun h => ofType_eq_iteration h hn⟩
  rintro (rfl | rfl) <;> rfl

theorem deadZone_not_mem_functionScopes (isMethod : Bool) :
    .deadZone ∉ functionScopes n isMethod := by
  unfold functionScopes
  split <;> simp

theorem deadZone_mem_walkedScopes (h : .deadZone ∈ walkedScopes g n key family) :
    family = .iteration ∧ isLexicalIteration g n = true ∧ key = "right" := by
  cases family <;> simp only [walkedScopes] at h
  case iteration =>
    split at h
    · split at h
      · exact ⟨rfl, ‹_›, ‹_›⟩
      · simp at h
    · cases h
  case function => exact absurd h (deadZone_not_mem_functionScopes false)
  all_goals first | cases h; done | (split at h <;> simp at h) | simp at h

/-- Only what an iteration with a lexical head iterates over is in a dead zone. -/
theorem deadZone_mem_scopes (h : .deadZone ∈ scopes g φ n key) :
    ∃ types type, φ = .walked types ∧ n.typeName? = some type ∧ Family.ofType type = .iteration ∧
      isLexicalIteration g n = true ∧ key = "right" := by
  cases φ with
  | walked types =>
      rw [scopes] at h
      cases ht : n.typeName? with
      | none => rw [ht] at h; cases h
      | some type =>
          rw [ht] at h
          obtain ⟨hf, hlex, hkey⟩ := deadZone_mem_walkedScopes h
          exact ⟨types, type, rfl, rfl, hf, hlex, hkey⟩
  | method => exact absurd h (deadZone_not_mem_functionScopes true)
  | _ => cases h

/-- A word is a name or a literal, wherever it stands in a program. -/
theorem isPlain_of_mem_parts (hp : p ∈ (program tree).parts) :
    p = program tree ∨ p.phrase.isPlain = true := by
  refine Part.parts_induction (p := program tree)
    (motive := fun p => p = program tree ∨ p.phrase.isPlain = true)
    (.inl rfl) (fun q _ _ r hr => .inr ?_) p hp
  obtain ⟨s, hs, hst⟩ := Part.mem_below.1 hr
  rw [(Part.mem_standing.1 hst).2.2]
  cases hslots : slots? q.phrase q.node with
  | none =>
      rw [Part.slots, hslots] at hs
      cases hs
  | some slots => exact ((sound_slots hslots).2 s (Part.slots_eq hslots ▸ hs)).2.1

/-- An iteration, as a part of a program. -/
structure Iterates (p : Part) (type : String) : Prop where
  isIteration : isIteration p.node = true
  phrase : ∃ types, p.phrase = .walked types
  typeName : p.node.typeName? = some type
  family : Family.ofType type = .iteration
  slots : p.slots = [⟨"left", .one,
      if (p.node.get "left").hasType "VariableDeclaration" then .head else .pattern .use⟩,
    ⟨"right", .one, .expression⟩, ⟨"body", .one, .statement⟩]

/-- Where an iteration stands in a program, it is walked by the rule of its type. -/
theorem Conforms.iterates (hc : Conforms tree) (hp : p ∈ (program tree).parts)
    (hn : isIteration p.node = true) : ∃ type, Iterates p type := by
  obtain ⟨slots, hs, -⟩ := Part.isFormed_iff.1 (hc p hp)
  obtain ⟨type, ht, hmem, hname, htype⟩ := slots?_eq_some.1 hs
  have hfamily := (isIteration_iff hname ht).1 hn
  have hplain := isPlain_of_mem_parts hp
  have htypes : type = "ForInStatement" ∨ type = "ForOfStatement" :=
    ofType_eq_iteration hfamily hname
  cases hφ : p.phrase with
  | walked types =>
      rw [hφ, typeSlots?, hfamily] at htype
      exact ⟨type, hn, ⟨types, hφ⟩, ht, hfamily,
        (Part.slots_eq hs).trans (Option.some.inj htype).symm⟩
  | word ρ types =>
      rw [hφ] at hplain hmem
      rcases hplain with rfl | hword
      · cases hφ
      have := List.all_eq_true.1 hword type hmem
      rcases htypes with rfl | rfl <;> simp at this
  | _ =>
      rw [hφ] at hmem
      rcases htypes with rfl | rfl <;> simp [Phrase.types] at hmem

namespace Part

/-- What stands alone at a member of a part, as a phrase. -/
def member (p : Part) (key : String) (φ : Phrase) : Part :=
  ⟨⟨p.phrase, p.node, key⟩ :: p.above, φ, p.node.get key⟩

theorem member_mem_standing (p : Part) (key : String) (φ : Phrase) :
    p.member key φ ∈ p.standing ⟨key, .one, φ⟩ := by
  simp [standing, Slot.nodes, member]

theorem member_mem_parts (h : (⟨key, .one, φ⟩ : Slot) ∈ p.slots) : p.member key φ ∈ p.parts :=
  mem_parts_of_below (self_mem_parts p) (mem_below.2 ⟨_, h, p.member_mem_standing key φ⟩)

end Part

namespace Iterates

theorem right_mem_slots (h : Iterates p type) :
    (⟨"right", .one, .expression⟩ : Slot) ∈ p.slots := by
  simp [h.slots]

variable (h : Iterates p type) (hlex : isLexicalIteration g p.node = true)
include h hlex

/-- What happens for an iteration with a lexical head. -/
theorem own : p.own g = lexicalIterationSites (p.around g) p.node := by
  obtain ⟨types, hφ⟩ := h.phrase
  rw [Part.own, hφ, ownSites, h.typeName, Option.map_some, Option.getD_some, h.family]
  exact if_pos hlex

theorem around_member (key : String) (φ : Phrase) : (p.member key φ).around g =
    ((if key = "right" then .deadZone else .block), p.node) :: p.around g := by
  obtain ⟨types, hφ⟩ := h.phrase
  have hscopes : scopes g p.phrase p.node key = [if key = "right" then .deadZone else .block] := by
    rw [hφ, scopes, h.typeName, Option.map_some, Option.getD_some, h.family]
    exact (if_pos hlex).trans (apply_ite (fun kind => [kind]) _ _ _).symm
  rw [Part.around_standing (p.member_mem_standing key φ), hscopes]
  rfl

/-- The head and the body are parts in the scope of a turn. -/
theorem turn (hkey : key = "left" ∨ key = "body") : ∃ m ∈ p.parts,
    m.node = p.node.get key ∧ m.around g = (.block, p.node) :: p.around g := by
  obtain ⟨φ, hs⟩ : ∃ φ, (⟨key, .one, φ⟩ : Slot) ∈ p.slots := by
    rw [h.slots]
    rcases hkey with rfl | rfl
    · exact ⟨_, List.mem_cons_self⟩
    · exact ⟨.statement, by simp⟩
  have hne : key ≠ "right" := by rcases hkey with rfl | rfl <;> decide
  refine ⟨p.member key φ, Part.member_mem_parts hs, rfl, ?_⟩
  rw [h.around_member hlex, if_neg hne]

end Iterates

/-- **What is in a dead zone is part of what an iteration iterates over.** -/
theorem Conforms.of_deadZone (hc : Conforms tree) (hq : q ∈ (program tree).parts)
    (h : (.deadZone, n) ∈ q.around g) : ∃ p ∈ (program tree).parts, ∃ type, p.node = n ∧
      Iterates p type ∧ isLexicalIteration g p.node = true ∧ q ∈ (p.member "right" .expression).parts := by
  obtain ⟨t, ht, rfl, hzone⟩ := Part.mem_around h
  obtain ⟨p, hp, hφ, hn, s, hs, hkey, m, hm, hqm⟩ :=
    Part.station_part (p := program tree) rfl hq ht
  obtain ⟨types, type, hwalked, htype, hfamily, hlex, hright⟩ := deadZone_mem_scopes hzone
  obtain ⟨type', htype', -, hname⟩ := Holds.typeName? (φ := p.phrase) (n := p.node)
    ⟨p.above, Part.Conforms.of_mem hc hp⟩
  obtain rfl : type' = type := Option.some.inj (htype'.symm.trans (hn ▸ htype))
  have hit : isIteration t.node = true := (isIteration_iff hname htype).2 hfamily
  obtain ⟨type, hp'⟩ := hc.iterates hp (hn ▸ hit)
  -- Of the slots of an iteration, only one is what it iterates over.
  obtain rfl : s = ⟨"right", .one, .expression⟩ := by
    rw [hp'.slots] at hs
    rw [hright] at hkey
    simp only [List.mem_cons, List.not_mem_nil, or_false] at hs
    rcases hs with rfl | rfl | rfl
    · exact absurd (show "left" = "right" from hkey) (by decide)
    · rfl
    · exact absurd (show "body" = "right" from hkey) (by decide)
  obtain rfl : m = p.member "right" .expression := by
    simpa [Part.standing, Slot.nodes, Part.member] using hm
  exact ⟨p, hp, type, hn, hp', hn ▸ hlex, hqm⟩

/-! ### What is directly in a dead zone -/

/-- The types of expressions and of what is only part of expressions. -/
def innerTypes : List String :=
  "SpreadElement" :: "Super" :: "Property" :: "TemplateElement" :: expressions

/-- Whether a phrase stands in expressions only. -/
def Phrase.isInner : Phrase → Bool
  | .walked types => types.all innerTypes.contains
  | .word .. | .pattern _ | .patternMember _ | .method => true
  | _ => false

/-- What stands in an expression, with no scope of its own, stands in expressions only. -/
def AllInner (g : Gates) (φ : Phrase) (n : Node) (slots : List Slot) : Prop :=
  ∀ s ∈ slots, scopes g φ n s.key = [] → s.phrase.isInner = true

theorem isInner_accessSlots : ∀ s ∈ accessSlots n, s.phrase.isInner = true := by
  unfold accessSlots
  split <;> decide

theorem isInner_keySlot : (keySlot n).phrase.isInner = true := by
  unfold keySlot
  split <;> decide

theorem isInner_plainSlots : ∀ e ∈ plainSlots, e.1 ∈ innerTypes →
    ∀ s ∈ e.2, s.phrase.isInner = true := by decide +kernel

/-- The families of the nodes that stand in expressions only. -/
def innerFamilies : List Family :=
  [.function, .classDefinition, .property, .assignment, .update, .identifier, .access, .call, .this,
    .inert, .plain]

theorem not_mem_declarations : ∀ type ∈ innerTypes, type ∉ declarations := by decide +kernel

theorem ofType_mem_innerFamilies : ∀ type ∈ innerTypes, Family.ofType type ∈ innerFamilies := by
  decide +kernel

theorem allInner_walkedSlots {slots : List Slot} {types : List String}
    (htype : type ∈ innerTypes) (ht : n.typeName? = some type)
    (h : walkedSlots? n type (.ofType type) = some slots) :
    AllInner g (.walked types) n slots := by
  have hfamily := ofType_mem_innerFamilies type htype
  intro s hs hscopes
  rw [scopes, ht, Option.map_some, Option.getD_some] at hscopes
  generalize Family.ofType type = family at h hfamily hscopes
  cases family with
  | function =>
      rw [walkedScopes, functionScopes] at hscopes
      split at hscopes <;> cases hscopes
  | classDefinition =>
      cases h
      rw [walkedScopes] at hscopes
      simp only [List.mem_cons, List.not_mem_nil, or_false] at hs
      rcases hs with rfl | rfl | rfl
      · rfl
      · decide
      · cases hscopes
  | property =>
      cases h
      simp only [List.mem_cons, List.not_mem_nil, or_false] at hs
      rcases hs with rfl | rfl
      · exact isInner_keySlot
      · split <;> decide
  | assignment =>
      cases h
      simp only [List.mem_cons, List.not_mem_nil, or_false] at hs
      rcases hs with rfl | rfl
      · split <;> decide
      · decide
  | access => cases h; exact isInner_accessSlots s hs
  | inert => cases h; clear hscopes; revert s; split <;> decide
  | plain =>
      obtain ⟨l₁, l₂, hl, -⟩ := List.lookup_eq_some_iff.1 h
      exact isInner_plainSlots (type, slots) (hl ▸ by simp) htype s hs
  | update | identifier | call | this => cases h; clear hscopes; revert s; decide
  | _ => simp [innerFamilies] at hfamily

theorem allInner_slots {slots : List Slot} (h : slots? φ n = some slots) (hφ : φ.isInner = true) :
    AllInner g φ n slots := by
  obtain ⟨type, ht, hmem, -, hs⟩ := slots?_eq_some.1 h
  cases φ with
  | walked types =>
      have htype : type ∈ innerTypes := by simpa using List.all_eq_true.1 hφ type hmem
      exact allInner_walkedSlots htype ht hs
  | word ρ types => cases hs; exact List.forall_mem_nil _
  | pattern ρ =>
      rw [typeSlots?] at hs
      unfold patternSlots? at hs
      split at hs <;> cases hs
      · exact List.forall_mem_nil _
      · exact fun s hs _ => isInner_accessSlots s hs
      all_goals simp [AllInner, Phrase.isInner, Phrase.expression, expressions, innerTypes]
  | patternMember ρ =>
      rw [typeSlots?] at hs
      unfold patternMemberSlots? at hs
      split_ifs at hs <;> cases hs
      · exact List.forall_mem_cons.2 ⟨fun _ => rfl,
          List.forall_mem_cons.2 ⟨fun _ => rfl, List.forall_mem_nil _⟩⟩
      · exact List.forall_mem_cons.2 ⟨fun _ => rfl,
          List.forall_mem_cons.2 ⟨fun _ => rfl, List.forall_mem_nil _⟩⟩
      · exact List.forall_mem_cons.2
          ⟨fun _ => isInner_keySlot, List.forall_mem_cons.2 ⟨fun _ => rfl, List.forall_mem_nil _⟩⟩
  | method =>
      intro s _ hscopes
      rw [scopes, functionScopes] at hscopes
      split at hscopes <;> cases hscopes
  | _ => cases hφ

/-- Whether nothing is bound directly in some scopes. -/
def Unbound (c : Around) (sites : List Site) : Prop :=
  ∀ x ∈ sites, ∀ k d, x.deed = .binds k d → x.around ≠ c

section Unbound

variable {c : Around} {kinds : List ScopeKind}

theorem unbound_nil : Unbound c [] := nofun

theorem unbound_append {a b : List Site} (ha : Unbound c a) (hb : Unbound c b) :
    Unbound c (a ++ b) := fun x hx => (List.mem_append.1 hx).elim (ha x) (hb x)

theorem inside_ne (h : kinds ≠ []) : inside c n kinds ≠ c := fun he => h <| by
  have hlength := congrArg List.length he
  simpa [inside] using hlength

/-- Nothing but opening scopes happens where scopes are opened one in the other. -/
theorem deed_of_mem_enters {x : Site} (h : x ∈ enters c n kinds) :
    ∃ kind, x.deed = .opens kind n := by
  induction kinds generalizing c with
  | nil => exact absurd h List.not_mem_nil
  | cons kind kinds ih =>
      rcases List.mem_cons.1 h with rfl | h
      · exact ⟨kind, rfl⟩
      · exact ih h

theorem unbound_enters : Unbound c (enters c n kinds) := fun x hx k d hd => by
  obtain ⟨kind, ho⟩ := deed_of_mem_enters hx
  cases ho.symm.trans hd

theorem unbound_functionSites {isMethod : Bool} (hn : n.hasType "FunctionDeclaration" = false) :
    Unbound c (functionSites c n isMethod) := by
  rw [functionSites, hn]
  refine unbound_append (unbound_append unbound_nil unbound_enters) fun x hx k d _ => ?_
  obtain ⟨param, -, hx⟩ := List.mem_flatMap.1 hx
  obtain ⟨p, -, rfl⟩ := List.mem_map.1 hx
  refine inside_ne ?_
  rw [functionScopes]
  split <;> exact List.cons_ne_nil _ _

theorem unbound_classSites (hn : n.hasType "ClassDeclaration" = false) :
    Unbound c (classSites c n) := by
  have hne : ((ScopeKind.classBody, n) :: c) ≠ c :=
    inside_ne (show [ScopeKind.classBody] ≠ [] from nofun)
  rw [classSites, hn]
  refine unbound_append unbound_nil fun x hx k d hd => ?_
  rcases List.mem_cons.1 hx with rfl | hx
  · cases hd
  · split at hx
    · rw [List.mem_singleton.1 hx]
      exact hne
    · cases hx

end Unbound

theorem hasType_eq_false {t : String} (ht : n.typeName? = some type) (hne : type ≠ t) :
    n.hasType t = false :=
  Bool.eq_false_iff.2 fun h => hne (Option.some.inj (ht.symm.trans (hasType_iff.1 h)))

/-- What stands in expressions only binds nothing in the scopes around it. -/
theorem unbound_ownSites {c : Around} {slots : List Slot} (h : slots? φ n = some slots)
    (hφ : φ.isInner = true) : Unbound c (ownSites g c φ n) := by
  obtain ⟨type, ht, hmem, -, -⟩ := slots?_eq_some.1 h
  have huses : ∀ ρ, Unbound c (useSites c ρ n) := fun ρ x hx k d hd => by
    rw [(List.mem_replicate.1 (List.mem_filter.1 hx).1).2] at hd
    cases hd
  cases φ with
  | walked types =>
      have htype : type ∈ innerTypes := by simpa using List.all_eq_true.1 hφ type hmem
      have hfamily := ofType_mem_innerFamilies type htype
      have hdeclaration : type ∉ declarations := not_mem_declarations type htype
      rw [ownSites, ht, Option.map_some, Option.getD_some]
      generalize Family.ofType type = family at hfamily
      cases family with
      | function =>
          exact unbound_functionSites (hasType_eq_false ht fun he => hdeclaration (he ▸ by decide))
      | classDefinition =>
          exact unbound_classSites (hasType_eq_false ht fun he => hdeclaration (he ▸ by decide))
      | identifier =>
          intro x hx k d hd
          rw [List.mem_singleton.1 hx] at hd
          cases hd
      | property | assignment | update | access | call | this | inert | plain => exact unbound_nil
      | _ => simp [innerFamilies] at hfamily
  | word ρ types => exact huses ρ
  | pattern ρ => exact huses ρ
  | patternMember ρ => exact unbound_nil
  | method =>
      exact unbound_functionSites (hasType_eq_false ht fun he => by simp [he, Phrase.types] at hmem)
  | _ => cases hφ

/-- What has the scopes of an expression around it stands in expressions only. -/
theorem isInner_of_around (hm : m.phrase.isInner = true) (hq : q ∈ m.parts)
    (he : q.around g = m.around g) : q.phrase.isInner = true := by
  refine Part.parts_induction (p := m)
    (motive := fun q => q.around g = m.around g → q.phrase.isInner = true)
    (fun _ => hm) (fun q hq ih r hr he => ?_) q hq he
  obtain ⟨s, hs, hst⟩ := Part.mem_below.1 hr
  rw [Part.around_standing hst] at he
  -- A part between them has no fewer scopes around it than the one and no more than the other.
  have hsuffix := Part.around_suffix (g := g) hq
  have hscopes : scopes g q.phrase q.node s.key = [] := by
    have hlength := congrArg List.length he
    have hle := hsuffix.length_le
    simp only [inside, List.length_append, List.length_map, List.length_reverse] at hlength
    exact List.eq_nil_of_length_eq_zero (by omega)
  rw [hscopes] at he
  rw [(Part.mem_standing.1 hst).2.2]
  cases hslots : slots? q.phrase q.node with
  | none =>
      rw [Part.slots, hslots] at hs
      cases hs
  | some slots =>
      rw [Part.slots_eq hslots] at hs
      exact allInner_slots hslots (ih he) s hs hscopes

/-- **In the dead zone of an iteration, nothing is bound but for the iteration itself.** -/
theorem Conforms.binds_deadZone (hc : Conforms tree) (hp : p ∈ (program tree).parts)
    (hq : q ∈ (program tree).parts) {k : Node} {d : Definition}
    (hx : ⟨(.deadZone, p.node) :: p.around g, .binds k d⟩ ∈ q.own g) : q = p := by
  obtain ⟨kinds, haround⟩ := (owned_ownSites _ hx).around
  cases hk : kinds.reverse with
  | cons kind rest =>
      -- A scope of its own is a scope of its node.
      rw [inside, hk] at haround
      have hnode : p.node = q.node := (Prod.mk.inj (List.cons.inj haround).1).2
      exact Part.parts_unique hq hp (congrArg Node.path hnode).symm
  | nil =>
      rw [inside, hk] at haround
      have haround : (.deadZone, p.node) :: p.around g = q.around g := haround
      obtain ⟨p', hp', type, hnode, hit, hlex, hqm⟩ :=
        hc.of_deadZone hq (haround ▸ List.mem_cons_self)
      obtain rfl : p' = p := Part.parts_unique hp' hp (congrArg Node.path hnode)
      have hinner : q.phrase.isInner = true :=
        isInner_of_around (m := p'.member "right" .expression)
          (show Phrase.expression.isInner = true by decide) hqm
          (by rw [hit.around_member hlex, if_pos rfl, haround])
      obtain ⟨slots, hs, -⟩ := Part.isFormed_iff.1 (hc q hq)
      exact absurd haround (unbound_ownSites hs hinner _ hx k d rfl)

end Grammar

end LexScope
