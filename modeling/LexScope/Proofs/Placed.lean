import LexScope.Proofs.Uses

/-!
# Proofs — Placed — scopes around parts and scopes in the store

The scopes around a part are the same, kind by kind and node by node, as those on the way up from
where its name is used in the store.  So what lies below a part is made in the scopes that the part
has around it, or further in.

* `Part.mem_parts_of_prefix`: what stands at a place within that of a part is a part of it.
* `Part.around_suffix`: a part has around it what is around anything that it is a part of.
* `Store.mem_chain_of_around`: scopes that are around something in a store are on the way up from it.
* `reference_part`: **a reference is made in the scopes around the part that it is the use of.**
-/

namespace LexScope

open Walk

namespace Grammar

namespace Part

variable {g : Gates} {p q r : Part} {s : Slot} {t : Station}

/-! ### Parts within parts -/

/-- What stands at a place within that of a part is a part of it. -/
theorem mem_parts_of_prefix (hq : q ∈ p.parts) (hr : r ∈ p.parts)
    (h : r.node.path <+: q.node.path) : q ∈ r.parts := by
  induction p using below_induction with
  | h p ih =>
      rcases mem_parts.1 hr with rfl | ⟨m, hm, hrm⟩
      · exact hq
      rcases mem_parts.1 hq with rfl | ⟨k, hk, hqk⟩
      · -- What stands below the whole does not hold the place of the whole.
        have hmq : m.node.path <+: q.node.path := (prefix_of_mem_parts hrm).trans h
        exact absurd ((prefix_of_mem_below hm).eq_of_length_le hmq.length_le) (ne_of_mem_below hm)
      · by_cases hmk : m = k
        · subst hmk
          exact ih m hm hqk hrm
        · have : Std.Symm fun a b : Part => Node.Diverge a.node.path b.node.path :=
            ⟨fun _ _ hd => ⟨hd.2, hd.1⟩⟩
          have hdiverge := (pairwise_below p).forall hm hk hmk
          exact absurd h (hdiverge.of_prefix (prefix_of_mem_parts hrm) (prefix_of_mem_parts hqk)).1

/-- What is directly below a part has the scopes of the part around it that its member has. -/
theorem around_standing (h : q ∈ p.standing s) :
    q.around g = inside (p.around g) p.node (scopes g p.phrase p.node s.key) := by
  obtain ⟨-, ha, -⟩ := mem_standing.1 h
  rw [around, ha]
  rfl

theorem suffix_inside (c : Around) (n : Node) (kinds : List ScopeKind) :
    c <:+ inside c n kinds := List.suffix_append _ _

/-- A part has around it what is around anything that it is a part of. -/
theorem around_suffix (h : q ∈ p.parts) : p.around g <:+ q.around g :=
  parts_induction (motive := fun q => p.around g <:+ q.around g) List.suffix_rfl
    (fun q _ hq r hr => by
      obtain ⟨s, -, hs⟩ := mem_below.1 hr
      rw [around_standing hs]
      exact hq.trans (suffix_inside ..)) q h

/-- A station that a scope around a part belongs to. -/
theorem mem_around {kind : ScopeKind} {n : Node} (h : (kind, n) ∈ p.around g) :
    ∃ t ∈ p.above, t.node = n ∧ kind ∈ scopes g t.phrase t.node t.key := by
  unfold around at h
  generalize p.above = above at h ⊢
  induction above with
  | nil => cases h
  | cons t above ih =>
      rw [List.foldr_cons, Station.around, inside, List.mem_append] at h
      rcases h with h | h
      · obtain ⟨k, hk, he⟩ := List.mem_map.1 h
        cases he
        exact ⟨t, List.mem_cons_self, rfl, List.mem_reverse.1 hk⟩
      · obtain ⟨t', ht', he⟩ := ih h
        exact ⟨t', List.mem_cons_of_mem _ ht', he⟩

/-- What a way down to a part goes through. -/
theorem station_part (hp : p.above = []) (hq : q ∈ p.parts) (ht : t ∈ q.above) :
    ∃ r ∈ p.parts, r.phrase = t.phrase ∧ r.node = t.node ∧
      ∃ s ∈ r.slots, s.key = t.key ∧ ∃ m ∈ r.standing s, q ∈ m.parts := by
  revert t
  refine parts_induction (p := p) (motive := fun q => ∀ {t : Station}, t ∈ q.above →
    ∃ r ∈ p.parts, r.phrase = t.phrase ∧ r.node = t.node ∧
      ∃ s ∈ r.slots, s.key = t.key ∧ ∃ m ∈ r.standing s, q ∈ m.parts) ?_ ?_ q hq
  · intro t ht
    rw [hp] at ht
    cases ht
  · intro q hq ih m hm t ht
    obtain ⟨s, hs, hst⟩ := mem_below.1 hm
    rw [(mem_standing.1 hst).2.1] at ht
    rcases List.mem_cons.1 ht with rfl | ht
    · exact ⟨q, hq, rfl, rfl, s, hs, rfl, m, hst, self_mem_parts m⟩
    · obtain ⟨r, hr, hφ, hn, s', hs', hk, m', hm', hmem⟩ := ih ht
      exact ⟨r, hr, hφ, hn, s', hs', hk, m', hm', mem_parts_of_below hmem hm⟩

end Part

/-! ### The sites of a part -/

variable {g : Gates} {c : Around} {n m : Node} {kinds : List ScopeKind} {x : Site} {φ : Phrase}
  {a b : List Site} {slots : List Slot}

/-- What happens for a node happens in the scopes around it or in some of its own.  Only its own
scopes are opened, and it alone can be used. -/
structure Own (c : Around) (n : Node) (x : Site) : Prop where
  around : ∃ kinds, x.around = inside c n kinds
  opens : ∀ kind m, x.deed = .opens kind m → m = n
  uses : ∀ m, x.deed = .uses m → m = n ∧ x.around = c
  holds : x.deed ≠ .fails

/-- All of this happens for a node. -/
def Owned (c : Around) (n : Node) (sites : List Site) : Prop := ∀ x ∈ sites, Own c n x

@[simp] theorem owned_nil : Owned c n [] := nofun

@[simp] theorem owned_append : Owned c n (a ++ b) ↔ Owned c n a ∧ Owned c n b :=
  List.forall_mem_append

@[simp] theorem owned_cons : Owned c n (x :: a) ↔ Own c n x ∧ Owned c n a :=
  List.forall_mem_cons

theorem own_binds (kinds : List ScopeKind) (d : Definition) :
    Own c n ⟨inside c n kinds, .binds m d⟩ := ⟨⟨kinds, rfl⟩, nofun, nofun, nofun⟩

theorem own_opens (kinds : List ScopeKind) (kind : ScopeKind) :
    Own c n ⟨inside c n kinds, .opens kind n⟩ :=
  ⟨⟨kinds, rfl⟩, fun _ _ h => (Deed.opens.inj h).2.symm, nofun, nofun⟩

theorem own_uses : Own c n ⟨c, .uses n⟩ :=
  ⟨⟨[], rfl⟩, nofun, fun _ h => ⟨(Deed.uses.inj h).symm, rfl⟩, nofun⟩

@[simp] theorem owned_enters : Owned c n (enters c n kinds) := by
  suffices h : ∀ outer, Owned c n (enters (inside c n outer) n kinds) from h []
  induction kinds with
  | nil => exact fun _ => owned_nil
  | cons kind kinds ih =>
      intro outer
      refine owned_cons.2 ⟨own_opens outer kind, ?_⟩
      have hin : (kind, n) :: inside c n outer = inside c n (outer ++ [kind]) := by simp [inside]
      rw [hin]
      exact ih _

theorem owned_binds (kinds : List ScopeKind) (pattern : Node) (d : Node → Definition) :
    Owned c n (binds (inside c n kinds) pattern d) := fun x hx => by
  obtain ⟨p, -, rfl⟩ := List.mem_map.1 hx
  exact own_binds kinds (d p)

theorem owned_declares (kinds : List ScopeKind) (kind : DefinitionKind) (m : Node) :
    Owned c n (declares kind (inside c n kinds) m) := fun x hx => by
  obtain ⟨d, -, hx⟩ := List.mem_flatMap.1 hx
  exact owned_binds kinds _ _ x hx

theorem owned_declaresHere : Owned c n (declaresHere c n) := by
  unfold declaresHere
  split
  · exact owned_nil
  · exact owned_declares [] .variable n

theorem owned_functionSites (isMethod : Bool) : Owned c n (functionSites c n isMethod) := by
  have hname : Owned c n (if n.hasType "FunctionDeclaration" then
      [⟨c, .binds (n.get "id") (.ofFunction n)⟩] else []) := by
    split
    · exact owned_cons.2 ⟨own_binds [] _, owned_nil⟩
    · exact owned_nil
  refine owned_append.2 ⟨owned_append.2 ⟨hname, owned_enters⟩, fun x hx => ?_⟩
  obtain ⟨param, -, hx⟩ := List.mem_flatMap.1 hx
  exact owned_binds _ _ _ x hx

theorem owned_classSites : Owned c n (classSites c n) := by
  have hopens : Own c n ⟨c, .opens .classBody n⟩ := own_opens [] .classBody
  have hname : ∀ d, Own c n ⟨c, .binds (n.get "id") d⟩ := own_binds []
  have hname' : ∀ d, Own c n ⟨(.classBody, n) :: c, .binds (n.get "id") d⟩ := own_binds [.classBody]
  unfold classSites
  split_ifs <;> simp [hopens, hname, hname']

theorem owned_lexicalIterationSites : Owned c n (lexicalIterationSites c n) :=
  owned_append.2 ⟨owned_cons.2 ⟨own_opens [] .deadZone, owned_declares [.deadZone] _ _⟩,
    owned_cons.2 ⟨own_opens [] .block, owned_declares [.block] _ _⟩⟩

theorem owned_walkedSites (family : Family) : Owned c n (walkedSites g c n family) := by
  cases family with
  | catchClause => exact owned_cons.2 ⟨own_opens [] .catchClause, owned_binds [.catchClause] _ _⟩
  | function => exact owned_functionSites false
  | classDefinition => exact owned_classSites
  | declaration => exact owned_declaresHere
  | identifier => exact owned_cons.2 ⟨own_uses, owned_nil⟩
  | iteration =>
      rw [walkedSites]
      split
      · exact owned_lexicalIterationSites
      · exact owned_nil
  | importing =>
      intro x hx
      obtain ⟨specifier, -, rfl⟩ := List.mem_map.1 hx
      exact own_binds [] _
  | _ => simp [walkedSites]

theorem owned_useSites (ρ : Role) : Owned c n (useSites c ρ n) := fun x hx => by
  obtain ⟨-, rfl⟩ := List.mem_replicate.1 (List.mem_filter.1 hx).1
  exact own_uses

/-- **What happens for a phrase happens for its node.** -/
theorem owned_ownSites : Owned c n (ownSites g c φ n) := by
  unfold ownSites
  split
  · cases n.typeName? with
    | none => exact owned_nil
    | some type => exact owned_walkedSites (.ofType type)
  · exact owned_useSites _
  · exact owned_useSites _
  · exact owned_functionSites true
  · split
    · exact owned_nil
    · exact owned_declaresHere
  · exact owned_nil

end Grammar

namespace Store

variable {s : Store} {i j k : ScopeId} {a : Scope} {c : Around} {x : ScopeKind × Node}

/-- The scopes around a scope begin with itself. -/
theorem around_head (h : s.Rooted) (ha : s.scopeAt? i = some a) :
    ∃ c, s.around i = (a.kind, a.block) :: c := by
  cases hu : a.upper with
  | none => exact ⟨[], around_top h ha hu⟩
  | some u => exact ⟨s.around u, around_step h ha hu⟩

/-- The scopes around a scope tell what it is, and what is around the scope above it. -/
theorem scope_of_around {kind : ScopeKind} {n : Node} (h : s.Rooted) (hlt : i < s.scopes.size)
    (hi : s.around i = (kind, n) :: c) : ∃ a, s.scopeAt? i = some a ∧ a.kind = kind ∧
      a.block = n ∧ s.aroundOf a.upper = c := by
  obtain ⟨a, ha⟩ := scopeAt?_of_lt hlt
  refine ⟨a, ha, ?_⟩
  cases hu : a.upper with
  | none =>
      rw [around_top h ha hu] at hi
      cases hi
      exact ⟨rfl, rfl, rfl⟩
  | some u =>
      rw [around_step h ha hu] at hi
      cases hi
      exact ⟨rfl, rfl, rfl⟩

/-- What is around a scope is around all scopes from which it is on the way up. -/
theorem around_suffix (h : s.Rooted) (hi : i ∈ s.chain k) : s.around i <:+ s.around k := by
  obtain ⟨l, hl⟩ := chain_split h hi
  rw [around, around, hl, List.filterMap_append]
  exact List.suffix_append ..

/-- Scopes that are around something in a store are on the way up from it. -/
theorem mem_chain_of_around (h : s.Rooted) (hlt : k < s.scopes.size)
    (hc : (x :: c) <:+ s.around k) : ∃ i ∈ s.chain k, s.around i = x :: c := by
  induction k using h.induction with
  | step k ih =>
      obtain ⟨a, ha⟩ := scopeAt?_of_lt hlt
      cases hu : a.upper with
      | none =>
          rw [around_top h ha hu] at hc
          refine ⟨k, self_mem_chain s k, ?_⟩
          rw [around_top h ha hu]
          exact (hc.eq_of_length_le (by simp)).symm
      | some u =>
          rw [around_step h ha hu, List.suffix_cons_iff] at hc
          rcases hc with hc | hc
          · exact ⟨k, self_mem_chain s k, by rw [around_step h ha hu, hc]⟩
          · have huk : s.upperOf k = some u := (upperOf_eq ha).trans hu
            obtain ⟨i, hi, he⟩ := ih u huk ((h k u huk).trans hlt) hc
            exact ⟨i, by rw [chain_step h huk]; exact List.mem_cons_of_mem _ hi, he⟩

theorem length_around (h : s.Rooted) (hlt : k < s.scopes.size) :
    (s.around k).length = (s.chain k).length := by
  induction k using h.induction with
  | step k ih =>
      obtain ⟨a, ha⟩ := scopeAt?_of_lt hlt
      cases hu : a.upper with
      | none => rw [around_top h ha hu, chain_top h ((upperOf_eq ha).trans hu)]; rfl
      | some u =>
          have huk : s.upperOf k = some u := (upperOf_eq ha).trans hu
          rw [around_step h ha hu, chain_step h huk, List.length_cons, List.length_cons,
            ih u huk ((h k u huk).trans hlt)]

/-- Two scopes on one way up that are equally far from its end are one. -/
theorem eq_of_length (h : s.Rooted) (hi : i ∈ s.chain k) (hj : j ∈ s.chain k)
    (he : (s.chain i).length = (s.chain j).length) : i = j := by
  obtain ⟨l, hl⟩ := chain_split h hi
  obtain ⟨l', hl'⟩ := chain_split h hj
  have happ := List.append_inj' (hl.symm.trans hl') he
  rw [chain_cons h, chain_cons h] at happ
  exact (List.cons.inj happ.2).1

end Store

/-! ### The scopes that are opened for a part -/

namespace Grammar

variable {g : Gates} {c x : Around} {n m : Node} {φ : Phrase} {kind : ScopeKind} {rest : List Site}

/-- The scopes that are opened at some sites, each with those around it. -/
def openings (sites : List Site) : List Around := sites.filterMap Site.opened?

@[simp] theorem openings_nil : openings [] = [] := rfl

@[simp] theorem openings_append (a b : List Site) :
    openings (a ++ b) = openings a ++ openings b := List.filterMap_append

@[simp] theorem openings_opens :
    openings (⟨c, .opens kind n⟩ :: rest) = ((kind, n) :: c) :: openings rest := rfl

@[simp] theorem openings_bind {d : Definition} :
    openings (⟨c, .binds n d⟩ :: rest) = openings rest := rfl

@[simp] theorem openings_use : openings (⟨c, .uses n⟩ :: rest) = openings rest := rfl

@[simp] theorem openings_flatMap {α : Type} (l : List α) (f : α → List Site) :
    openings (l.flatMap f) = l.flatMap fun x => openings (f x) := List.filterMap_flatMap

@[simp] theorem openings_binds (d : Node → Definition) : openings (binds c n d) = [] := by
  simp [openings, binds, Site.opened?]

@[simp] theorem openings_declares (kind : DefinitionKind) : openings (declares kind c n) = [] := by
  simp [declares]

@[simp] theorem openings_declaresHere : openings (declaresHere c n) = [] := by
  unfold declaresHere
  split <;> simp

@[simp] theorem openings_useSites (ρ : Role) : openings (useSites c ρ n) = [] :=
  List.filterMap_eq_nil_iff.2 fun x hx => by
    rw [(List.mem_replicate.1 (List.mem_filter.1 hx).1).2]
    rfl

/-- Scopes that are opened one in the other have more and more around them. -/
theorem nodup_openings_enters (kinds : List ScopeKind) : (openings (enters c n kinds)).Nodup := by
  suffices h : (∀ x ∈ openings (enters c n kinds), c.length < x.length) ∧
      (openings (enters c n kinds)).Pairwise (·.length < ·.length) from
    h.2.imp fun hlt he => hlt.ne (congrArg List.length he)
  induction kinds generalizing c with
  | nil => exact ⟨nofun, .nil⟩
  | cons kind kinds ih =>
      obtain ⟨hlt, hpair⟩ := @ih ((kind, n) :: c)
      rw [enters, openings_opens]
      refine ⟨fun x hx => ?_, List.pairwise_cons.2 ⟨hlt, hpair⟩⟩
      rcases List.mem_cons.1 hx with rfl | hx
      · exact Nat.lt_succ_self _
      · exact (Nat.lt_succ_self _).trans (hlt x hx)

theorem nodup_openings_functionSites (isMethod : Bool) :
    (openings (functionSites c n isMethod)).Nodup := by
  have hparams : openings ((n.get "params").items.zipIdx.flatMap fun param =>
      binds (inside c n (functionScopes n isMethod)) param.1 fun p =>
        { kind := .parameter, name := p, node := n, index := .int param.2 }) = [] := by simp
  rw [functionSites, openings_append, openings_append, hparams, List.append_nil]
  split <;> exact nodup_openings_enters _

theorem openings_lexicalIterationSites :
    openings (lexicalIterationSites c n) = [(.deadZone, n) :: c, (.block, n) :: c] := by
  simp [lexicalIterationSites]

theorem nodup_openings_walkedSites (family : Family) :
    (openings (walkedSites g c n family)).Nodup := by
  cases family with
  | program => exact nodup_openings_enters _
  | block => exact nodup_openings_enters _
  | switch => exact nodup_openings_enters _
  | withObject => exact nodup_openings_enters _
  | loop => exact nodup_openings_enters _
  | function => exact nodup_openings_functionSites false
  | classDefinition =>
      simp only [walkedSites, classSites]
      split_ifs <;> simp
  | iteration =>
      rw [walkedSites]
      split
      · rw [openings_lexicalIterationSites]
        simp
      · exact List.nodup_nil
  | importing =>
      have himports : openings (walkedSites g c n .importing) = [] :=
        List.filterMap_eq_nil_iff.2 fun x hx => by
          obtain ⟨_, -, rfl⟩ := List.mem_map.1 hx
          rfl
      rw [himports]
      exact List.nodup_nil
  | _ => simp [walkedSites]

/-- A scope is opened once for a phrase. -/
theorem nodup_openings_ownSites : (openings (ownSites g c φ n)).Nodup := by
  unfold ownSites
  split
  · cases n.typeName? with
    | none => exact List.nodup_nil
    | some type => exact nodup_openings_walkedSites _
  · simp
  · simp
  · exact nodup_openings_functionSites true
  · split <;> simp
  · exact List.nodup_nil

/-- The scopes that are opened for a part are scopes of its node. -/
theorem head_openings {p : Part} (h : x ∈ openings (p.own g)) :
    ∃ kind c, x = (kind, p.node) :: c := by
  obtain ⟨⟨c, deed⟩, hx, ho⟩ := List.mem_filterMap.1 h
  cases deed with
  | opens kind m =>
      cases ho
      exact ⟨kind, c, by rw [(owned_ownSites _ hx).opens kind m rfl]⟩
  | _ => cases ho

end Grammar

/-! ### What a store records of parts -/

namespace Grammar

open Store

variable {o : Options} {tree : Tree} {s : Store} {x : Site} {i : ScopeId} {a : Scope}
  {r : ReferenceId} {ref : Reference}

/-- What a program does, it does for one of its parts. -/
theorem mem_sitesOf_iff {g : Gates} (hc : Conforms tree)
    (hf : ∀ c, ⟨c, .fails⟩ ∉ sitesOf [] (plan g (.root tree))) :
    x ∈ sitesOf [] (plan g (.root tree)) ↔ ∃ p ∈ (program tree).parts, x ∈ p.own g := by
  rw [(sitesOf_plan hc hf).perm.mem_iff, ← List.flatMap_def, List.mem_flatMap]

/-- **A reference is made in the scopes around the part that it is the use of.** -/
theorem reference_part (hc : Conforms tree) (h : analyze o tree = .ok s)
    (hr : s.referenceAt? r = some ref) : ∃ p ∈ (program tree).parts,
      p.node = ref.identifier ∧ s.around ref.scope = p.around (.ofOptions o) := by
  have hrec := analyze_records h
  obtain ⟨p, hp, hx⟩ := (mem_sitesOf_iff hc hrec.fails).1 (hrec.reference hr).1
  obtain ⟨hn, hc⟩ := (owned_ownSites _ hx).uses _ rfl
  exact ⟨p, hp, hn.symm, hc⟩

/-- The scopes of a store are those that are opened for the parts of the program. -/
theorem openings_perm (hc : Conforms tree) (h : analyze o tree = .ok s) :
    ((List.range s.scopes.size).map s.around).Perm
      ((program tree).parts.flatMap fun p => openings (p.own (.ofOptions o))) := by
  have hrec := analyze_records h
  rw [hrec.opens, ← openings_flatMap, List.flatMap_def]
  exact (sitesOf_plan hc hrec.fails).perm.filterMap _

/-- **No two scopes are of one kind and node** with the same scopes around them. -/
theorem nodup_arounds (hc : Conforms tree) (h : analyze o tree = .ok s) :
    ((List.range s.scopes.size).map s.around).Nodup := by
  rw [(openings_perm hc h).nodup_iff, List.nodup_flatMap]
  refine ⟨fun p _ => nodup_openings_ownSites,
    (Part.pairwise_parts _).imp fun {p q} hne x hp hq => ?_⟩
  obtain ⟨kind, c, rfl⟩ := head_openings hp
  obtain ⟨kind', c', he⟩ := head_openings hq
  exact hne (congrArg Node.path (Prod.mk.inj (List.cons.inj he).1).2)

theorem around_injective (hc : Conforms tree) (h : analyze o tree = .ok s) {j : ScopeId}
    (hi : i < s.scopes.size) (hj : j < s.scopes.size) (he : s.around i = s.around j) : i = j :=
  List.inj_on_of_nodup_map (nodup_arounds hc h) (List.mem_range.2 hi) (List.mem_range.2 hj) he

/-- Where nothing or the same scopes are around, there is no scope or the same one. -/
theorem aroundOf_injective (hc : Conforms tree) (h : analyze o tree = .ok s)
    {up up' : Option ScopeId} (hu : ∀ i, up = some i → i < s.scopes.size)
    (hu' : ∀ i, up' = some i → i < s.scopes.size) (he : s.aroundOf up = s.aroundOf up') :
    up = up' := by
  have hs := (analyze_finished Tree.hereditary_true trivial h).sound
  have hne : ∀ i < s.scopes.size, s.around i ≠ [] := fun i hi hnil => by
    obtain ⟨a, ha⟩ := scopeAt?_of_lt hi
    obtain ⟨c, hc⟩ := around_head hs.rooted ha
    cases hc.symm.trans hnil
  cases up with
  | none =>
      cases up' with
      | none => rfl
      | some j => exact absurd he.symm (hne j (hu' j rfl))
  | some i =>
      cases up' with
      | none => exact absurd he (hne i (hu i rfl))
      | some j => rw [around_injective hc h (hu i rfl) (hu' j rfl) he]

theorem mem_owned_iff : i ∈ s.owned n ↔ ∃ a, s.scopeAt? i = some a ∧ a.block.same n = true := by
  simp [owned, numbered, List.mem_zipIdx_iff_getElem?, scopeAt?]

/-- The scopes of a node, with those around them, are the scopes that have it first. -/
theorem map_around_owned (hs : s.Rooted) (n : Node) : (s.owned n).map s.around =
    ((List.range s.scopes.size).map s.around).filter fun c => c.head?.any (·.2.same n) := by
  have hrange : List.range s.scopes.size = s.numbered.map (·.2) := by
    rw [numbered, List.zipIdx_map_snd, Array.length_toList, List.range_eq_range']
  rw [hrange, List.map_map, List.filter_map, owned, List.map_map]
  refine congrArg _ (List.filter_congr fun e he => ?_)
  obtain ⟨c, hc⟩ := around_head hs (i := e.2) (a := e.1)
    (by simpa [scopeAt?] using List.mem_zipIdx_iff_getElem?.1 he)
  simp [hc]

/-- **The scopes that a node owns are those that are opened for it.** -/
theorem owned_perm (hc : Conforms tree) (h : analyze o tree = .ok s) {p : Part}
    (hp : p ∈ (program tree).parts) :
    ((s.owned p.node).map s.around).Perm (openings (p.own (.ofOptions o))) := by
  have hs := (analyze_finished Tree.hereditary_true trivial h).sound
  rw [map_around_owned hs.rooted]
  refine ((openings_perm hc h).filter _).trans ?_
  rw [List.filter_flatMap]
  -- Of the parts of the program, only this one is at its place.
  have hpart : ∀ q ∈ (program tree).parts, (openings (q.own (.ofOptions o))).filter
      (fun c => c.head?.any (·.2.same p.node)) =
        if q = p then openings (q.own (.ofOptions o)) else [] :=
    fun q hq => by
      have hhead : ∀ x ∈ openings (q.own (.ofOptions o)),
          (x.head?.any (·.2.same p.node) = true ↔ q = p) := fun x hx => by
        obtain ⟨kind, c, rfl⟩ := head_openings hx
        exact hc.same_iff hp hq
      split
      · exact List.filter_eq_self.2 fun x hx => (hhead x hx).2 ‹_›
      · exact List.filter_eq_nil_iff.2 fun x hx hs => ‹¬q = p› ((hhead x hx).1 hs)
  have hnodup : (program tree).parts.Nodup :=
    (Part.pairwise_parts (program tree)).imp fun {_ _} hne he => hne (congrArg (·.node.path) he)
  rw [List.flatMap_congr hpart]
  refine ((List.perm_cons_erase hp).flatMap_right _).trans ?_
  rw [List.flatMap_cons, if_pos rfl, List.flatMap_eq_nil_iff.2 fun q hq => ?_, List.append_nil]
  exact if_neg (hnodup.mem_erase_iff.1 hq).1

end Grammar

end LexScope
