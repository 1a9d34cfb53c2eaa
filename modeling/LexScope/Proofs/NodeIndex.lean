import LexScope.Proofs.Bindings
import LexScope.Proofs.Edits

/-!
# Proofs — NodeIndex — the scopes of a node

Which scopes belong to a node can be kept in an index: every scope is noted for the place of its
node when it is opened (`NodeIndex.note`), and nothing else touches the index (`Store.Indexed`).
Such an index gives for a node what the scopes say themselves.

An analysis comes to every node once.  So a node has two scopes only if one rule opens both of them,
and there are three ways to do that (`Store.Couple`).  One of the two is synthetic except for the
global scope and that of the module, which are told apart by asking for the inner one.

* `Indexed.find?_eq`: **an index that is kept along with a store gives the scopes of a node.**
* `acquire_iff`, `release_iff`: which scopes are given.
* `visit_unique`: **of all nodes that are visited, one opens the scopes of a place.**
* `couple_of_owned`: what the two scopes of a node are to one another.
-/

namespace LexScope

open Node

/-! ### The index -/

/-- The scopes of nodes, by the places of the nodes. -/
abbrev NodeIndex := List (Option Path × List ScopeId)

namespace NodeIndex

/-- What is noted for a place, if anything is. -/
def find? (x : NodeIndex) (p : Option Path) : Option (List ScopeId) := x.lookup p

/-- Note a scope for a place, after those that are noted for it. -/
def note : NodeIndex → Option Path → ScopeId → NodeIndex
  | [], p, i => [(p, [i])]
  | (q, l) :: x, p, i => if p = q then (q, l ++ [i]) :: x else (q, l) :: note x p i

theorem find?_cons (e : Option Path × List ScopeId) (x : NodeIndex) (p : Option Path) :
    find? (e :: x) p = if p = e.1 then some e.2 else find? x p := by
  rw [find?, List.lookup_cons]
  by_cases h : p = e.1
  · simp [h]
  · rw [if_neg h, beq_eq_false_iff_ne.2 h, find?]

theorem find?_note (x : NodeIndex) (p q : Option Path) (i : ScopeId) :
    (x.note p i).find? q = if q = p then some ((x.find? p).getD [] ++ [i]) else x.find? q := by
  induction x with
  | nil => by_cases h : q = p <;> simp [note, find?, h]
  | cons e x ih =>
      obtain ⟨r, l⟩ := e
      rw [note]
      by_cases hr : p = r
      · subst hr
        by_cases h : q = p <;> simp [find?_cons, h]
      · rw [if_neg hr, find?_cons, find?_cons, find?_cons, if_neg hr, ih]
        by_cases h : q = r
        · rw [if_pos h, if_pos h, if_neg (h ▸ Ne.symm hr)]
        · rw [if_neg h, if_neg h]

end NodeIndex

/-- The numbers of what stands at a place. -/
def positions (places : List (Option Path)) (p : Option Path) : List ScopeId :=
  (places.zipIdx.filter (·.1 = p)).map (·.2)

theorem positions_concat (places : List (Option Path)) (p q : Option Path) :
    positions (places ++ [q]) p = positions places p ++ if q = p then [places.length] else [] := by
  by_cases h : q = p <;> simp [positions, List.zipIdx_append, h]

namespace Store

variable {o : Options} {s t : Store} {i j u : ScopeId} {a b : Scope} {n m : Node} {inner : Bool}
  {x : NodeIndex}

/-- The places of the nodes of all scopes, in the order of creation. -/
def places (s : Store) : List (Option Path) := s.scopes.toList.map (·.block.place)

theorem length_places (s : Store) : s.places.length = s.scopes.size := by
  rw [places, List.length_map, Array.length_toList]

theorem getElem?_places (s : Store) (i : ScopeId) :
    s.places[i]? = (s.frameAt? i).map (·.2.1.place) := by
  rw [places, List.getElem?_map, Array.getElem?_toList, frameAt?, Option.map_map]
  rfl

theorem places_addScope (kind : ScopeKind) (n : Node) {upper : Option ScopeId} {above : Bool}
    (strict : Bool) (ha : s.strictAt? upper = some above) :
    (s.addScope kind n upper strict).places = s.places ++ [n.place] := by
  refine List.ext_getElem? fun i => ?_
  rw [getElem?_places, frameAt?_addScope kind n strict ha, List.getElem?_append, length_places]
  rcases lt_trichotomy i s.scopes.size with hi | rfl | hi
  · rw [if_neg hi.ne, if_pos hi, getElem?_places]
  · simp [freshScope, Scope.frame]
  · have hnone : s.scopeAt? i = none := scopeAt?_eq_none.2 hi.le
    rw [if_neg hi.ne', if_neg hi.not_gt, frameAt?, hnone, List.getElem?_eq_none (by simp; omega)]
    rfl

theorem owned_eq (s : Store) (n : Node) : s.owned n = positions s.places n.place := by
  rw [owned, numbered, positions, places, List.zipIdx_map, List.filter_map, List.map_map]
  rfl

theorem owned_congr (h : ∀ i, t.frameAt? i = s.frameAt? i) (n : Node) : t.owned n = s.owned n := by
  have hplaces : t.places = s.places :=
    List.ext_getElem? fun i => by rw [getElem?_places, h, getElem?_places]
  rw [owned_eq, owned_eq, hplaces]

theorem owned_addScope (kind : ScopeKind) (n : Node) {upper : Option ScopeId} {above : Bool}
    (strict : Bool) (ha : s.strictAt? upper = some above) (m : Node) :
    (s.addScope kind n upper strict).owned m =
      s.owned m ++ if n.place = m.place then [s.scopes.size] else [] := by
  rw [owned_eq, owned_eq, places_addScope kind n strict ha, positions_concat, length_places]

/-- An index that is kept along with a store: a scope is noted for the place of its node when it is
opened, and nothing else touches the index. -/
inductive Indexed (o : Options) : Store → NodeIndex → Prop
  | new : Indexed o (.new o) []
  | opens {s : Store} {x : NodeIndex} (h : Indexed o s x) (kind : ScopeKind) (n : Node)
      {upper : Option ScopeId} {above strict : Bool} (ha : s.strictAt? upper = some above)
      (hs : isStrict? s.options kind n above = some strict) :
      Indexed o (s.addScope kind n upper strict) (x.note n.place s.scopes.size)
  | stays {s t : Store} {x : NodeIndex} (h : Indexed o s x) (he : Edit AnyUse s t)
      (hsize : t.scopes.size = s.scopes.size) : Indexed o t x

theorem Indexed.edits (h : s.Indexed o x) : Edits AnyUse (.new o) s := by
  induction h with
  | new => exact .refl
  | opens h kind n ha hs ih => exact ih.tail (.opens kind n ha hs)
  | stays h he hsize ih => exact ih.tail he

theorem Indexed.rooted (h : s.Indexed o x) : s.Rooted := h.edits.rooted (Sound.new o).rooted

/-- An index can be kept along with all that happens to a store. -/
theorem Arises.indexed (h : s.Arises o) : ∃ x, s.Indexed o x := by
  refine Relation.ReflTransGen.rec (motive := fun s _ => ∃ x, s.Indexed o x) ⟨[], .new⟩ ?_ h.edits
  rintro s t - he ⟨x, hx⟩
  rcases he.frames hx.rooted with hf | ⟨kind, n, upper, above, strict, ha, hs, rfl⟩
  · exact ⟨x, hx.stays he (size_scopes_of_frame hf)⟩
  · exact ⟨_, hx.opens kind n ha hs⟩

/-- **An index that is kept along gives the scopes of a node.** -/
theorem Indexed.find?_eq (h : s.Indexed o x) (n : Node) :
    x.find? n.place = if s.owned n = [] then none else some (s.owned n) := by
  induction h with
  | new => rfl
  | @opens s x h kind m upper above strict ha hs ih =>
      rw [NodeIndex.find?_note, owned_addScope kind m strict ha]
      by_cases hn : n.place = m.place
      · rw [if_pos hn, if_pos hn.symm, ← hn, ih]
        by_cases hnone : s.owned n = [] <;> simp [hnone]
      · rw [if_neg hn, if_neg (Ne.symm hn), List.append_nil, ih]
  | @stays s t x h he hsize ih =>
      rcases he.frames h.rooted with hf | ⟨kind, m, upper, above, strict, ha, -, rfl⟩
      · rw [owned_congr hf, ih]
      · -- What opens a scope does not leave the number of scopes as it is.
        have hplaces := congrArg List.length (places_addScope kind m strict ha)
        rw [length_places, List.length_append, length_places, hsize] at hplaces
        exact absurd hplaces (Nat.lt_succ_self _).ne

/-- The scopes of a node are given in the order of creation. -/
theorem pairwise_owned (s : Store) (n : Node) : (s.owned n).Pairwise (· < ·) := by
  have hall : (s.numbered.map (·.2)).Pairwise (· < ·) := by
    rw [numbered, List.zipIdx_map_snd]
    exact List.pairwise_lt_range'
  exact hall.sublist (List.filter_sublist.map _)

/-! ### The scope that is given -/

theorem isProper_iff : s.isProper i = true ↔
    ∃ a, s.scopeAt? i = some a ∧ a.kind ≠ .deadZone ∧ a.kind ≠ .functionName := by
  rw [isProper, Option.any_eq_true]
  refine exists_congr fun a => and_congr_right fun _ => ?_
  cases a.kind <;> simp [ScopeKind.isSynthetic]

/-- What is first in a list in order. -/
theorem head?_iff_of_pairwise {r : ScopeId → ScopeId → Prop} (hr : ∀ i j, r i j → ¬ r j i)
    {l : List ScopeId} (h : l.Pairwise r) :
    l.head? = some i ↔ i ∈ l ∧ ∀ j ∈ l, j ≠ i → r i j := by
  cases l with
  | nil => simp
  | cons k l =>
      obtain ⟨hk, -⟩ := List.pairwise_cons.1 h
      rw [List.head?_cons, Option.some.injEq]
      constructor
      · rintro rfl
        exact ⟨List.mem_cons_self, fun j hj hne => hk j ((List.mem_cons.1 hj).resolve_left hne)⟩
      · rintro ⟨hi, hall⟩
        rcases List.mem_cons.1 hi with rfl | hi
        · rfl
        · by_contra hne
          exact hr _ _ (hk i hi) (hall k List.mem_cons_self hne)

/-- One scope comes before another one for one who asks for the inner one or the outer one. -/
def Before (inner : Bool) (i j : ScopeId) : Prop := if inner then j < i else i < j

/-- **The scope given for a node is the last or the first that is not synthetic.** -/
theorem acquire_iff : s.acquire n inner = some i ↔
    i ∈ s.owned n ∧ s.isProper i = true ∧
      ∀ j ∈ s.owned n, s.isProper j = true → j ≠ i → Before inner i j := by
  have hsorted : ((s.owned n).filter s.isProper).Pairwise (· < ·) := (s.pairwise_owned n).filter _
  have hfirst : s.acquire n inner = some i ↔ i ∈ (s.owned n).filter s.isProper ∧
      ∀ j ∈ (s.owned n).filter s.isProper, j ≠ i → Before inner i j := by
    cases inner with
    | false => exact head?_iff_of_pairwise (fun _ _ h => lt_asymm h) hsorted
    | true =>
        rw [acquire, if_pos rfl, List.getLast?_eq_head?_reverse,
          head?_iff_of_pairwise (r := fun i j => j < i) (fun _ _ h => lt_asymm h)
            (List.pairwise_reverse.2 hsorted)]
        simp [Before]
  rw [hfirst]
  simp only [List.mem_filter, and_assoc, and_imp]

/-- A scope is the nearest one above another that is not synthetic. -/
structure NearestProper (s : Store) (i u : ScopeId) : Prop where
  above : u ∈ s.chain i
  ne : u ≠ i
  proper : s.isProper u = true
  nearest : ∀ k ∈ s.chain i, k ≠ i → s.isProper k = true → k ∈ s.chain u

theorem find?_above_iff (hs : s.Rooted) :
    (s.chain i).tail.find? s.isProper = some u ↔ s.NearestProper i u := by
  have hchain := chain_cons hs i
  have htail : (s.chain i).tail = s.above i := by rw [hchain, List.tail_cons]
  rw [htail, List.find?_eq_some_iff_append]
  constructor
  · rintro ⟨hu, near, far, habove, hnear⟩
    have hmem : u ∈ s.above i := habove ▸ List.mem_append_right _ List.mem_cons_self
    have hrest : s.chain u = u :: far :=
      chain_of_split (l := i :: near) hs (by rw [hchain, habove]; rfl)
    refine ⟨hchain ▸ List.mem_cons_of_mem _ hmem, fun he => not_mem_above hs i (he ▸ hmem), hu,
      fun k hk hne hproper => ?_⟩
    rw [hchain, habove, List.mem_cons, List.mem_append] at hk
    rcases hk.resolve_left hne with hk | hk
    · exact absurd hproper (by simpa using hnear k hk)
    · rwa [hrest]
  · rintro ⟨hu, hne, hproper, hnearest⟩
    obtain ⟨l, hl⟩ := chain_split hs hu
    cases l with
    | nil =>
        rw [List.nil_append, hchain, chain_cons hs u] at hl
        exact absurd (List.cons.inj hl).1.symm hne
    | cons k near =>
        have habove : s.above i = near ++ u :: s.above u := by
          rw [hchain, chain_cons hs u] at hl
          exact (List.cons.inj hl).2
        refine ⟨hproper, near, s.above u, habove, fun j hj => ?_⟩
        have hj' : j ∈ s.above i := habove ▸ List.mem_append_left _ hj
        by_contra hjp
        have hju := hnearest j (hchain ▸ List.mem_cons_of_mem _ hj')
          (fun he => not_mem_above hs i (he ▸ hj')) (by simpa using hjp)
        have hnodup := (List.nodup_cons.1 (hchain ▸ nodup_chain hs i)).2
        rw [habove, ← chain_cons hs u] at hnodup
        exact List.disjoint_of_nodup_append hnodup hj hju

/-- **The scope around the one given for a node** is the nearest above it that is not synthetic. -/
theorem release_iff (hs : s.Rooted) : s.release n inner = some u ↔
    ∃ i, s.acquire n inner = some i ∧ s.NearestProper i u := by
  rw [release, Option.bind_eq_some_iff]
  exact exists_congr fun i => and_congr_right fun _ => find?_above_iff hs

end Store

/-! ### The scopes that rules open -/

namespace Walk

open Grammar (enters openings)

variable {g : Gates} {n : Node} {k j : Call} {st st' : Node × List ScopeKind} {c x y : Around}

/-- A rule opens the scopes that a node introduces, those of a module, or those of an iteration. -/
theorem stages_cases (g : Gates) (n : Node) :
    stages g n = [] ∨ (∃ f isMethod, stages g n = stagesOf f isMethod) ∨
      g.isModule = true ∧ stages g n = [(n, [.global, .moduleTop])] ∨
      IteratesLexically g n ∧ stages g n = (n, [.deadZone]) :: stagesOf n false := by
  have hif : ∀ {condition : Bool} {f isMethod},
      (if condition then stagesOf f isMethod else []) = [] ∨
        ∃ f' isMethod', (if condition then stagesOf f isMethod else []) = stagesOf f' isMethod' :=
    fun {condition f isMethod} => by
      cases condition
      · exact .inl rfl
      · exact .inr ⟨f, isMethod, rfl⟩
  cases ht : n.typeName? with
  | none => exact .inl (by rw [stages, ht])
  | some type =>
      have hf : (Family.ofType type).Covers n := by rw [Family.Covers, ht]; rfl
      generalize Family.ofType type = family at hf
      have hstages := stages_of_family (g := g) hf
      cases family with
      | program =>
          rw [hstages, ruleStages, stagesOf]
          cases hk : scopeKinds? n false with
          | none => exact .inl rfl
          | some kinds =>
              obtain rfl := scopeKinds_program hf hk
              cases hm : g.isModule
              · exact .inr (.inl ⟨n, false, by rw [stagesOf, hk]; rfl⟩)
              · exact .inr (.inr (.inl ⟨rfl, rfl⟩))
      | block | switch | loop | property =>
          rw [hstages]
          exact hif.imp_right .inl
      | withObject | catchClause | function | classDefinition =>
          exact .inr (.inl ⟨n, false, hstages⟩)
      | iteration =>
          rw [hstages, ruleStages]
          split
          · rename_i hl
            exact .inr (.inr (.inr ⟨.inr ⟨hf, Bool.and_eq_true_iff.1 hl⟩, rfl⟩))
          · exact .inl rfl
      | lexicalIteration => exact .inr (.inr (.inr ⟨.inl hf, hstages⟩))
      | _ => exact .inl hstages

/-- **Of all nodes that are visited, one opens the scopes of a place.** -/
theorem visit_unique (hkeys : n.value.DistinctKeys) (hk : k ∈ visits g n) (hj : j ∈ visits g n)
    (hst : st ∈ stages g k.node) (hst' : st' ∈ stages g j.node)
    (hp : st.1.path = st'.1.path) : k = j := by
  induction n using calls_induction (g := g) generalizing k j with
  | h n ih =>
    -- What is called is not at the place of a scope that the rule opens itself.
    have hown : ∀ {st st' : Node × List ScopeKind} {k₀ k₁ : Call}, st ∈ stages g n →
        k₀ ∈ calls g n → k₁ ∈ visits g k₀.node → st' ∈ stages g k₁.node →
        st.1.path ≠ st'.1.path := fun hst hk₀ hk₁ hst' he => by
      have hbelow := (atOrBelow_of_mem_visits hk₁).trans (atOrBelow_of_mem_stages hst')
      rcases below_or_diverge hk₀ hst with hb | hd
      · exact (hb.trans_atOrBelow hbelow).not_isPrefix (he ▸ List.prefix_refl _)
      · exact (hd.atOrBelow (atOrBelow_self _) hbelow).1 (he ▸ List.prefix_refl _)
    rcases mem_visits.1 hk with rfl | ⟨k₀, hk₀, k₁, hk₁, rfl⟩
    · rcases mem_visits.1 hj with rfl | ⟨j₀, hj₀, j₁, hj₁, rfl⟩
      · rfl
      · exact absurd hp (hown hst hj₀ hj₁ hst')
    · rcases mem_visits.1 hj with rfl | ⟨j₀, hj₀, j₁, hj₁, rfl⟩
      · exact absurd hp.symm (hown hst' hk₀ hk₁ hst)
      · by_cases he : k₀ = j₀
        · subst he
          rw [ih k₀ hk₀ (distinctKeys_of_mem_calls hkeys hk₀) hk₁ hj₁ hst hst']
        · have : Std.Symm fun a b : Call => Diverge a.node.path b.node.path :=
            ⟨fun _ _ h => h.symm⟩
          have hd := (List.pairwise_map.1 (separated_calls g hkeys)).forall hk₀ hj₀ he
          have happart := hd.atOrBelow
            ((atOrBelow_of_mem_visits hk₁).trans (atOrBelow_of_mem_stages hst))
            ((atOrBelow_of_mem_visits hj₁).trans (atOrBelow_of_mem_stages hst'))
          exact absurd (hp ▸ List.prefix_refl _) happart.1

/-- The ways in which one rule opens two scopes for one node, told by what is around them. -/
inductive Coupled (g : Gates) : Around → Around → Prop
  | named (f : Node) (c : Around) :
      Coupled g ((.functionName, f) :: c) ((.function, f) :: (.functionName, f) :: c)
  | zoned (n : Node) (c : Around) {kind : ScopeKind} (h : kind = .block ∨ kind = .function) :
      Coupled g ((.deadZone, n) :: c) ((kind, n) :: c)
  | module (n : Node) (c : Around) (h : g.isModule = true) :
      Coupled g ((.global, n) :: c) ((.moduleTop, n) :: (.global, n) :: c)

/-- The types of iterations. -/
theorem type_of_iterates {type : String}
    (h : Family.ofType type = .iteration ∨ Family.ofType type = .lexicalIteration) :
    type ∈ ["ForInStatement", "ForOfStatement", "for_in", "lexical_for_in"] := by
  unfold Family.ofType at h
  split at h
  all_goals first | (rcases h with h | h <;> contradiction) | decide

/-- The turns of an iteration have one scope. -/
theorem scopeKinds_of_iteratesLexically (h : IteratesLexically g n) :
    ∃ kind, scopeKinds? n false = some [kind] ∧ (kind = .block ∨ kind = .function) := by
  obtain ⟨type, ht, hfamily⟩ : ∃ type, n.hasType type = true ∧
      (Family.ofType type = .iteration ∨ Family.ofType type = .lexicalIteration) := by
    rcases h with h | ⟨h, -⟩
    all_goals
      obtain ⟨type, ht, hfamily⟩ := Option.map_eq_some_iff.1 h
      exact ⟨type, Grammar.hasType_iff.2 ht, by simp [hfamily]⟩
  have htypes := type_of_iterates hfamily
  have hname : n.namesItself = false :=
    namesItself_of_hasType ht (by rintro rfl; exact absurd htypes (by decide))
  have hkind : ScopeKind.ofType (.str type) = .block ∨
      ScopeKind.ofType (.str type) = .function := by
    simp only [List.mem_cons, List.not_mem_nil, or_false] at htypes
    rcases htypes with rfl | rfl | rfl | rfl
    · exact .inl rfl
    · exact .inl rfl
    · exact .inr rfl
    · exact .inr rfl
  refine ⟨_, ?_, hkind⟩
  rw [scopeKinds_of_hasType ht, hname, Bool.and_false, Bool.false_and, if_neg (by decide)]

/-- Two of two things that are related. -/
theorem related_of_mem_pair {α : Type} {r : α → α → Prop} {p q x y : α} (h : r p q)
    (hx : x ∈ [p, q]) (hy : y ∈ [p, q]) : x = y ∨ r x y ∨ r y x := by
  rcases List.mem_pair.1 hx with rfl | rfl
  · rcases List.mem_pair.1 hy with rfl | rfl
    · exact .inl rfl
    · exact .inr (.inl h)
  · rcases List.mem_pair.1 hy with rfl | rfl
    · exact .inr (.inr h)
    · exact .inl rfl

/-- **The scopes that one rule opens are coupled.** -/
theorem coupled_of_openings (hx : x ∈ openings (sitesOf c (own g n)))
    (hy : y ∈ openings (sitesOf c (own g n))) : x = y ∨ Coupled g x y ∨ Coupled g y x := by
  have hone : ∀ kind b, openings (enters c b [kind]) = [(kind, b) :: c] := fun _ _ => rfl
  have htwo : ∀ kind kind' b, openings (enters c b [kind, kind']) =
      [(kind, b) :: c, (kind', b) :: (kind, b) :: c] := fun _ _ _ => rfl
  rw [openings_own] at hx hy
  rcases stages_cases g n with h | ⟨f, isMethod, h⟩ | ⟨hm, h⟩ | ⟨hl, h⟩
  all_goals rw [h] at hx hy
  · cases hx
  · rw [stagesOf] at hx hy
    cases hk : scopeKinds? f isMethod with
    | none =>
        rw [hk] at hx
        cases hx
    | some kinds =>
        rw [hk, Option.toList_some, List.map_singleton, List.flatMap_singleton] at hx hy
        rcases scopeKinds_shape hk with rfl | ⟨kind, rfl, -⟩
        · exact related_of_mem_pair (.named f c) (htwo .. ▸ hx) (htwo .. ▸ hy)
        · rw [hone, List.mem_singleton] at hx hy
          exact .inl (hx.trans hy.symm)
  · rw [List.flatMap_singleton, htwo] at hx hy
    exact related_of_mem_pair (.module n c hm) hx hy
  · obtain ⟨kind, hk, hkind⟩ := scopeKinds_of_iteratesLexically hl
    have hstages : ((n, [.deadZone]) :: stagesOf n false).flatMap
        (fun st => openings (enters c st.1 st.2)) = [(.deadZone, n) :: c, (kind, n) :: c] := by
      rw [stagesOf, hk]
      rfl
    rw [hstages] at hx hy
    exact related_of_mem_pair (.zoned n c hkind) hx hy

end Walk

/-! ### The scopes of a node after an analysis -/

section Analysis

open Store Walk

open Grammar (mem_owned_iff)

variable {o : Options} {tree : Tree} {s : Store} {i j : ScopeId} {a b : Scope} {n : Node}

/-- What two scopes of one node are to one another, the number of the first being `i`. -/
inductive Store.Couple (g : Gates) (i : ScopeId) (a b : Scope) : Prop
  /-- The function lies directly in the scope of its name. -/
  | named (ha : a.kind = .functionName) (hb : b.kind = .function) (hu : b.upper = some i)
  /-- The dead zone of an iteration and the scope of its turns lie in the same scope. -/
  | zoned (ha : a.kind = .deadZone) (hb : b.kind = .block ∨ b.kind = .function)
      (hu : a.upper = b.upper)
  /-- The scope of a module lies directly in the global scope. -/
  | module (ha : a.kind = .global) (hb : b.kind = .moduleTop) (hu : b.upper = some i)
      (hm : g.isModule = true) (hn : b.block.hasType "Program" = true)

theorem block_of_owned (h : analyze o tree = .ok s) (ha : s.scopeAt? i = some a)
    (hi : i ∈ s.owned n) : n.place = some a.block.path := by
  obtain ⟨a', ha', hsame⟩ := mem_owned_iff.1 hi
  obtain rfl := Option.some.inj (ha.symm.trans ha')
  have hobj := ((analyze_finished Tree.hereditary_true trivial h).sourced.scope i a ha).2.1
  rw [← place_of_isObj hobj]
  exact (of_decide_eq_true hsame).symm

/-- A scope is opened by the rule of a node that is visited. -/
theorem opening_visit (h : analyze o tree = .ok s) (hi : i < s.scopes.size) :
    ∃ k ∈ visits (.ofOptions o) (.root tree),
      s.around i ∈ Grammar.openings (sitesOf k.around (own (.ofOptions o) k.node)) := by
  have hmem := (openings_plan _ _ _).mem_iff.1 (mem_openings_of_scope h hi)
  simpa only [List.append_nil] using List.mem_flatMap.1 hmem

/-- Two scopes of one node are opened by one rule. -/
theorem coupled_of_owned (hkeys : tree.DistinctKeys) (h : analyze o tree = .ok s)
    (hi : i ∈ s.owned n) (hj : j ∈ s.owned n) (hne : i ≠ j) :
    Coupled (.ofOptions o) (s.around i) (s.around j) ∨
      Coupled (.ofOptions o) (s.around j) (s.around i) := by
  have hrooted := (analyze_finished Tree.hereditary_true trivial h).sound.rooted
  obtain ⟨a, ha, -⟩ := mem_owned_iff.1 hi
  obtain ⟨b, hb, -⟩ := mem_owned_iff.1 hj
  obtain ⟨k, hk, hx⟩ := opening_visit h (scopeAt?_lt ha)
  obtain ⟨k', hk', hy⟩ := opening_visit h (scopeAt?_lt hb)
  -- Both scopes have the place of the node, and only one visit opens scopes there.
  obtain ⟨st, hst, pre, kind, post, -, he⟩ := mem_openings_own.1 hx
  obtain ⟨st', hst', pre', kind', post', -, he'⟩ := mem_openings_own.1 hy
  have hblock : st.1 = a.block := by
    obtain ⟨c, hc⟩ := around_head hrooted ha
    exact (Prod.mk.inj (List.cons.inj (he.symm.trans hc)).1).2
  have hblock' : st'.1 = b.block := by
    obtain ⟨c, hc⟩ := around_head hrooted hb
    exact (Prod.mk.inj (List.cons.inj (he'.symm.trans hc)).1).2
  have hpath : st.1.path = st'.1.path := by
    rw [hblock, hblock']
    exact Option.some.inj ((block_of_owned h ha hi).symm.trans (block_of_owned h hb hj))
  obtain rfl := visit_unique (n := .root tree) hkeys hk hk' hst hst' hpath
  exact (coupled_of_openings hx hy).resolve_left fun heq =>
    hne (eq_of_around hkeys h (scopeAt?_lt ha) (scopeAt?_lt hb) heq)

/-- Where the same scopes are around two scopes, the scope above is the same. -/
theorem upper_eq_of_around {x y : ScopeKind × Node} {c : Around} (hkeys : tree.DistinctKeys)
    (h : analyze o tree = .ok s) (ha : s.scopeAt? i = some a) (hb : s.scopeAt? j = some b)
    (hi : s.around i = x :: c) (hj : s.around j = y :: c) : a.upper = b.upper := by
  have hrooted := (analyze_finished Tree.hereditary_true trivial h).sound.rooted
  have habove : ∀ {i j : ScopeId} {a b : Scope} {x y : ScopeKind × Node} {u},
      s.scopeAt? i = some a → s.scopeAt? j = some b → s.around i = x :: c → s.around j = y :: c →
      a.upper = some u → b.upper = some u := fun {i j a b x y u} ha hb hi hj hu => by
    have hlt : u < s.scopes.size :=
      (hrooted _ _ ((upperOf_eq ha).trans hu)).trans (scopeAt?_lt ha)
    rw [around_step hrooted ha hu] at hi
    exact eq_upper_of_around hkeys h hb hj hlt (List.cons.inj hi).2
  cases hu : a.upper with
  | some u => exact (habove ha hb hi hj hu).symm
  | none =>
      cases hw : b.upper with
      | none => rfl
      | some w => exact hu.symm.trans (habove hb ha hj hi hw)

theorem couple_of_coupled (hkeys : tree.DistinctKeys) (h : analyze o tree = .ok s)
    (ha : s.scopeAt? i = some a) (hb : s.scopeAt? j = some b)
    (hc : Coupled (.ofOptions o) (s.around i) (s.around j)) : Couple (.ofOptions o) i a b := by
  have hfin := analyze_finished Tree.hereditary_true trivial h
  have hhead : ∀ {i : ScopeId} {a : Scope} {kind : ScopeKind} {m : Node} {c : Around},
      s.scopeAt? i = some a → s.around i = (kind, m) :: c → a.kind = kind ∧ a.block = m :=
    fun ha hi => by
      obtain ⟨c, hc⟩ := around_head hfin.sound.rooted ha
      exact Prod.mk.inj (List.cons.inj (hc.symm.trans hi)).1
  have hinner : ∀ {kind : ScopeKind} {m : Node}, s.around j = (kind, m) :: s.around i →
      b.upper = some i := fun hj => eq_upper_of_around hkeys h hb hj (scopeAt?_lt ha) rfl
  generalize hx : s.around i = x, hy : s.around j = y at hc
  cases hc with
  | named f c => exact .named (hhead ha hx).1 (hhead hb hy).1 (hinner (hx ▸ hy))
  | zoned m c hkind =>
      exact .zoned (hhead ha hx).1 ((hhead hb hy).1 ▸ hkind)
        (upper_eq_of_around hkeys h ha hb hx hy)
  | module m c hm =>
      have hprogram := (hfin.sourced.scope i a ha).2.2 (hhead ha hx).1
      rw [(hhead ha hx).2, ← (hhead hb hy).2] at hprogram
      exact .module (hhead ha hx).1 (hhead hb hy).1 (hinner (hx ▸ hy)) hm hprogram

/-- **What the two scopes of a node are to one another.** -/
theorem couple_of_owned (hkeys : tree.DistinctKeys) (h : analyze o tree = .ok s)
    (hi : i ∈ s.owned n) (hj : j ∈ s.owned n) (hne : i ≠ j) (ha : s.scopeAt? i = some a)
    (hb : s.scopeAt? j = some b) :
    Couple (.ofOptions o) i a b ∨ Couple (.ofOptions o) j b a :=
  (coupled_of_owned hkeys h hi hj hne).imp (couple_of_coupled hkeys h ha hb)
    (couple_of_coupled hkeys h hb ha)

/-- The kinds of which a node has a scope before it has a second one. -/
def ScopeKind.isOuter : ScopeKind → Bool
  | .functionName | .deadZone | .global => true
  | _ => false

theorem Store.Couple.isOuter {g : Gates} (h : Couple g i a b) :
    a.kind.isOuter = true ∧ b.kind.isOuter = false := by
  cases h with
  | named ha hb hu => exact ⟨ha ▸ rfl, hb ▸ rfl⟩
  | zoned ha hb hu => exact ⟨ha ▸ rfl, by rcases hb with hb | hb <;> rw [hb] <;> rfl⟩
  | module ha hb hu hm hn => exact ⟨ha ▸ rfl, hb ▸ rfl⟩

/-- **A node has at most two scopes.** -/
theorem length_owned_le_two (hkeys : tree.DistinctKeys) (h : analyze o tree = .ok s) (n : Node) :
    (s.owned n).length ≤ 2 := by
  let outer (i : ScopeId) : Bool := (s.scopeAt? i).any (·.kind.isOuter)
  have hnodup : ((s.owned n).map outer).Nodup := by
    refine List.Nodup.map_on (fun i hi j hj he => ?_) ((s.pairwise_owned n).imp ne_of_lt)
    by_contra hne
    obtain ⟨a, ha, -⟩ := mem_owned_iff.1 hi
    obtain ⟨b, hb, -⟩ := mem_owned_iff.1 hj
    simp only [outer, ha, hb, Option.any_some] at he
    rcases couple_of_owned hkeys h hi hj hne ha hb with hc | hc
    · rw [hc.isOuter.1, hc.isOuter.2] at he
      cases he
    · rw [hc.isOuter.1, hc.isOuter.2] at he
      cases he
  have hcard := hnodup.length_le_card
  rwa [List.length_map, Fintype.card_bool] at hcard

/-- Where no two scopes of a node are proper, the inner one is the outer one. -/
theorem acquire_inner_eq
    (h : ∀ i ∈ s.owned n, ∀ j ∈ s.owned n, s.isProper i = true → s.isProper j = true → i = j) :
    s.acquire n true = s.acquire n false := by
  refine Option.ext fun i => ?_
  rw [acquire_iff, acquire_iff]
  refine and_congr_right fun hi => and_congr_right fun hp => ?_
  exact ⟨fun _ j hj hjp hne => absurd (h j hj i hi hjp hp) hne,
    fun _ j hj hjp hne => absurd (h j hj i hi hjp hp) hne⟩

/-- A node has two proper scopes only if it is the program of a module. -/
theorem module_of_proper (hkeys : tree.DistinctKeys) (h : analyze o tree = .ok s)
    (hi : i ∈ s.owned n) (hj : j ∈ s.owned n) (hpi : s.isProper i = true)
    (hpj : s.isProper j = true) (hne : i ≠ j) : (Gates.ofOptions o).isModule = true ∧
      ∃ k ∈ s.owned n, ∃ c, s.scopeAt? k = some c ∧ c.block.hasType "Program" = true := by
  obtain ⟨a, ha, hzone, hname⟩ := isProper_iff.1 hpi
  obtain ⟨b, hb, hzone', hname'⟩ := isProper_iff.1 hpj
  rcases couple_of_owned hkeys h hi hj hne ha hb with hc | hc
  · cases hc with
    | named hk => exact absurd hk hname
    | zoned hk => exact absurd hk hzone
    | module _ _ _ hm hn => exact ⟨hm, j, hj, b, hb, hn⟩
  · cases hc with
    | named hk => exact absurd hk hname'
    | zoned hk => exact absurd hk hzone'
    | module _ _ _ hm hn => exact ⟨hm, i, hi, a, ha, hn⟩

/-! ### The scopes that are given for a node -/

/-- What a store gives when it is asked for the scopes of a node. -/
structure Store.Located (s : Store) (o : Options) (n : Node) : Prop where
  indexed : ∃ x, s.Indexed o x
  index : ∀ x, s.Indexed o x →
    x.find? n.place = if s.owned n = [] then none else some (s.owned n)
  owned : ∀ i, i ∈ s.owned n ↔ ∃ a, s.scopeAt? i = some a ∧ a.block.same n = true
  order : (s.owned n).Pairwise (· < ·)
  proper : ∀ i, s.isProper i = true ↔
    ∃ a, s.scopeAt? i = some a ∧ a.kind ≠ .deadZone ∧ a.kind ≠ .functionName
  acquire : ∀ inner i, s.acquire n inner = some i ↔ i ∈ s.owned n ∧ s.isProper i = true ∧
    ∀ j ∈ s.owned n, s.isProper j = true → j ≠ i → Before inner i j
  release : ∀ inner u, s.release n inner = some u ↔
    ∃ i, s.acquire n inner = some i ∧ s.NearestProper i u

theorem Store.Arises.located (h : s.Arises o) (n : Node) : s.Located o n where
  indexed := h.indexed
  index _ hx := hx.find?_eq n
  owned _ := mem_owned_iff
  order := pairwise_owned s n
  proper _ := isProper_iff
  acquire _ _ := acquire_iff
  release _ _ := release_iff h.rooted

/-- What the scopes of a node are in the end. -/
structure Store.Coupling (s : Store) (g : Gates) (n : Node) : Prop where
  atMost : (s.owned n).length ≤ 2
  couple : ∀ i ∈ s.owned n, ∀ j ∈ s.owned n, i ≠ j → ∀ a b, s.scopeAt? i = some a →
    s.scopeAt? j = some b → Couple g i a b ∨ Couple g j b a
  /-- Only for the program of a module it matters which scope is asked for. -/
  inner : ¬ (g.isModule = true ∧ ∃ i ∈ s.owned n, ∃ a, s.scopeAt? i = some a ∧
    a.block.hasType "Program" = true) → s.acquire n true = s.acquire n false

theorem analyze_coupling (hkeys : tree.DistinctKeys) (h : analyze o tree = .ok s) (n : Node) :
    s.Coupling (.ofOptions o) n := by
  refine ⟨length_owned_le_two hkeys h n, fun i hi j hj hne a b ha hb =>
    couple_of_owned hkeys h hi hj hne ha hb, fun hno => ?_⟩
  refine acquire_inner_eq fun i hi j hj hpi hpj => ?_
  by_contra hne
  exact hno (module_of_proper hkeys h hi hj hpi hpj hne)

/-- **The index of nodes agrees with the scopes**, and after an analysis a node has two scopes in
three ways only. -/
theorem Store.Arises.nodeIndex (h : s.Arises o) (n : Node) : s.Located o n ∧
    ∀ tree, tree.DistinctKeys → analyze o tree = .ok s → s.Coupling (.ofOptions o) n :=
  ⟨h.located n, fun _ hkeys ht => analyze_coupling hkeys ht n⟩

/-- `for (let x of y) ;` -/
def lexicalHead : Tree :=
  let name (text : String) : Tree := .obj [("type", .str "Identifier"), ("name", .str text)]
  .obj [("type", .str "Program"), ("body", .arr [
    .obj [("type", .str "ForOfStatement"),
      ("left", .obj [("type", .str "VariableDeclaration"), ("kind", .str "let"),
        ("declarations", .arr [.obj [("type", .str "VariableDeclarator"), ("id", name "x")]])]),
      ("right", name "y"), ("body", .obj [("type", .str "EmptyStatement")])]])]

/-- The iteration of `lexicalHead`. -/
def lexicalLoop : Node := ((Node.root lexicalHead).get "body").items.headD .absent

/-- An iteration has a dead zone and a block, and the block is given for it. -/
theorem nodeIndex_sample : lexicalHead.DistinctKeys ∧ ∃ s, analyze {} lexicalHead = .ok s ∧
    s.Arises {} ∧ s.owned lexicalLoop = [1, 2] ∧ s.acquire lexicalLoop false = some 2 ∧
    s.Located {} lexicalLoop ∧ s.Coupling (.ofOptions {}) lexicalLoop := by
  have hkeys : lexicalHead.DistinctKeys := by decide +kernel
  have hrun : (analyze {} lexicalHead).toOption.map (fun s =>
      (s.owned lexicalLoop, s.acquire lexicalLoop false)) = some ([1, 2], some 2) := by
    decide +kernel
  cases hs : analyze {} lexicalHead with
  | error e =>
      rw [hs] at hrun
      cases hrun
  | ok s =>
      rw [hs] at hrun
      obtain ⟨howned, hacquire⟩ := Prod.mk.inj (Option.some.inj hrun)
      have harises : s.Arises {} := .analysis hs
      obtain ⟨hlocated, hcoupling⟩ := harises.nodeIndex lexicalLoop
      exact ⟨hkeys, s, rfl, harises, howned, hacquire, hlocated, hcoupling _ hkeys hs⟩

end Analysis

end LexScope
