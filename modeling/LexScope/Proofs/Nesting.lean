import LexScope.Proofs.Deeds

/-!
# Proofs — Nesting — the scopes of a program lie in one another as their nodes do

What is visited in the scopes of a node stands below it, so scopes one in the other belong to nodes
one below the other.  Only two pairs of scopes have one node: that of a function expression's name
with that of the function, and the global scope with that of the module.

* `visited_over`: what is visited stands below the nodes of all scopes around it.
* `nodup_openings_plan`, `Store.eq_of_around`: **no two scopes have the same scopes around them** in
  the end, as long as no object has two members of one name.
* `analyze_nested`: scopes, references and definitions are nested as their nodes are.
-/

namespace LexScope

open Node

namespace Walk

open Grammar (inside enters openings)

variable {g : Gates} {n m b p : Node} {c c' x : Around} {k j : Call}
  {kinds pre post : List ScopeKind} {kind : ScopeKind} {st : Node × List ScopeKind}
  {isMethod : Bool} {family : Family}

/-! ### Stages -/

theorem mem_stagesOf : st ∈ stagesOf n isMethod ↔
    ∃ kinds, scopeKinds? n isMethod = some kinds ∧ st = (n, kinds) := by
  rw [stagesOf, List.mem_map]
  constructor
  · rintro ⟨kinds, hk, rfl⟩
    exact ⟨kinds, Option.mem_toList.1 hk, rfl⟩
  · rintro ⟨kinds, hk, rfl⟩
    exact ⟨kinds, Option.mem_toList.2 hk, rfl⟩

/-- A node has one scope, or two if it is a function that names itself. -/
theorem scopeKinds_shape (h : scopeKinds? n isMethod = some kinds) :
    kinds = [.functionName, .function] ∨
      ∃ kind, kinds = [kind] ∧ kind ≠ .functionName ∧ kind ≠ .moduleTop ∧ kind ≠ .deadZone := by
  rw [scopeKinds?, Option.map_eq_some_iff] at h
  obtain ⟨kind, hk, rfl⟩ := h
  have hkind : kind ≠ .functionName ∧ kind ≠ .moduleTop ∧ kind ≠ .deadZone := by
    rw [ScopeKind.ofNode?, Option.ite_none_right_eq_some] at hk
    obtain ⟨-, hk⟩ := hk
    cases hk
    unfold ScopeKind.ofType
    split <;> decide
  split
  · rename_i hf
    simp only [Bool.and_eq_true, decide_eq_true_eq] at hf
    exact .inl (by rw [hf.1.1])
  · exact .inr ⟨kind, rfl, hkind⟩

/-- The scopes of a program. -/
theorem scopeKinds_program (hf : Family.program.Covers n)
    (h : scopeKinds? n isMethod = some kinds) : kinds = [.global] := by
  obtain ⟨type, ht, hfamily⟩ := Option.map_eq_some_iff.1 hf
  obtain rfl := Grammar.ofType_eq_program hfamily
  rw [scopeKinds?, ScopeKind.ofNode?, isObj_of_typeName? ht, Grammar.type_eq ht] at h
  exact (Option.some.inj h).symm

/-- A stage is what a node introduces, a program with its module scope, or a dead zone. -/
theorem stage_cases (h : st ∈ stages g n) :
    (∃ f isMethod kinds, n.AtOrBelow f ∧ scopeKinds? f isMethod = some kinds ∧ st = (f, kinds)) ∨
      st = (n, [.global, .moduleTop]) ∨ IteratesLexically g n ∧ st = (n, [.deadZone]) := by
  have hof : ∀ {f isMethod}, n.AtOrBelow f → st ∈ stagesOf f isMethod →
      ∃ f isMethod kinds, n.AtOrBelow f ∧ scopeKinds? f isMethod = some kinds ∧
        st = (f, kinds) := fun {f isMethod} hf h => by
    obtain ⟨kinds, hk, rfl⟩ := mem_stagesOf.1 h
    exact ⟨f, isMethod, kinds, hf, hk, rfl⟩
  have hif : ∀ {condition : Bool} {f isMethod}, n.AtOrBelow f →
      st ∈ (if condition then stagesOf f isMethod else []) → ∃ f isMethod kinds, n.AtOrBelow f ∧
        scopeKinds? f isMethod = some kinds ∧ st = (f, kinds) := fun {condition} _ _ hf h => by
    cases condition with
    | true => exact hof hf h
    | false => cases h
  have hself := atOrBelow_self n
  obtain ⟨family, hf, hst⟩ := mem_stages.1 h
  cases family with
  | program =>
      obtain ⟨kinds, hk, rfl⟩ := List.mem_map.1 hst
      have hk := Option.mem_toList.1 hk
      obtain rfl := scopeKinds_program hf hk
      cases g.isModule
      · exact .inl ⟨n, false, _, hself, hk, rfl⟩
      · exact .inr (.inl rfl)
  | block | switch | loop => exact .inl (hif hself hst)
  | property => exact .inl (hif (below_get n _).atOrBelow hst)
  | withObject | catchClause | function | classDefinition => exact .inl (hof hself hst)
  | iteration =>
      rw [ruleStages] at hst
      split at hst
      · rename_i hl
        rcases List.mem_cons.1 hst with rfl | hst
        · exact .inr (.inr ⟨.inr ⟨hf, Bool.and_eq_true_iff.1 hl⟩, rfl⟩)
        · exact .inl (hof hself hst)
      · cases hst
  | lexicalIteration =>
      rcases List.mem_cons.1 hst with rfl | hst
      · exact .inr (.inr ⟨.inl hf, rfl⟩)
      · exact .inl (hof hself hst)
  | _ => cases hst

/-- The scopes of a stage are one in the other in three ways only. -/
theorem stage_shape (h : st ∈ stages g n) : st.2 = [.functionName, .function] ∨
    st.2 = [.global, .moduleTop] ∨ ∃ kind, st.2 = [kind] ∧ kind ≠ .functionName ∧
      kind ≠ .moduleTop := by
  rcases stage_cases h with ⟨f, isMethod, kinds, -, hk, rfl⟩ | rfl | ⟨-, rfl⟩
  · rcases scopeKinds_shape hk with hs | ⟨kind, hs, hname, htop, -⟩
    · exact .inl hs
    · exact .inr (.inr ⟨kind, hs, hname, htop⟩)
  · exact .inr (.inl rfl)
  · exact .inr (.inr ⟨_, rfl, nofun, nofun⟩)

/-- The scopes of a stage are scopes of the node or of its method. -/
theorem atOrBelow_of_mem_stages (h : st ∈ stages g n) : n.AtOrBelow st.1 := by
  rcases stage_cases h with ⟨f, isMethod, kinds, hf, -, rfl⟩ | rfl | ⟨-, rfl⟩
  · exact hf
  · exact atOrBelow_self n
  · exact atOrBelow_self n

/-! ### Calls and stages -/

/-- Why a node that a rule visits is not in the scopes of a stage of the rule. -/
inductive Avoids (g : Gates) : Node × List ScopeKind → Node → Prop
  | heritage {n : Node} {kinds : List ScopeKind} (h : Family.classDefinition.Covers n) :
      Avoids g (n, kinds) (n.get "superClass")
  | discriminant {n : Node} {kinds : List ScopeKind} (h : Family.switch.Covers n) :
      Avoids g (n, kinds) (n.get "discriminant")
  | object {n : Node} {kinds : List ScopeKind} (h : Family.withObject.Covers n) :
      Avoids g (n, kinds) (n.get "object")
  | deadZone {n m : Node} (h : IteratesLexically g n) (hb : n.Below m)
      (hm : Diverge (n.get "right").path m.path) : Avoids g (n, [.deadZone]) m
  | turn {n : Node} {kinds : List ScopeKind} (h : IteratesLexically g n)
      (hk : kinds ≠ [.deadZone]) : Avoids g (n, kinds) (n.get "right")
  | apart {f m : Node} {kinds : List ScopeKind} (h : Diverge f.path m.path) :
      Avoids g (f, kinds) m

/-- A call is made in all the scopes of one stage or in none, and it avoids all other stages. -/
def Placed (g : Gates) (stages : List (Node × List ScopeKind)) (k : Call) : Prop :=
  (∃ st ∈ stages, k.around = inside [] st.1 st.2 ∧ st.1.Below k.node ∧
      ∀ st' ∈ stages, st' = st ∨ Avoids g st' k.node) ∨
    k.around = [] ∧ ∀ st ∈ stages, Avoids g st k.node

theorem placed_of_mem_walks {l : List Node} (h : k ∈ walks l) : Placed g [] k :=
  .inr ⟨(mem_walks.1 h).1, nofun⟩

/-- What is called in the scopes of a node stands in them. -/
theorem placed_of_mem_nestedCalls {l : List Node} (h : k ∈ nestedCalls n isMethod (walks l))
    (hb : n.Below k.node) : Placed g (stagesOf n isMethod) k := by
  obtain ⟨kinds, hk, j, hj, rfl⟩ := mem_nestedCalls.1 h
  refine .inl ⟨(n, kinds), mem_stagesOf.2 ⟨kinds, hk, rfl⟩, ?_, hb, fun st' hst' => .inl ?_⟩
  · rw [Call.under, (mem_walks.1 hj).1, List.nil_append]
  · obtain ⟨kinds', hk', rfl⟩ := mem_stagesOf.1 hst'
    rw [Option.some.inj (hk.symm.trans hk')]

theorem placed_of_mem_nestedIfCalls {condition : Bool} {l : List Node}
    (h : k ∈ nestedIfCalls condition n (walks l)) (hb : n.Below k.node) :
    Placed g (if condition then stagesOf n false else []) k := by
  cases condition with
  | true => exact placed_of_mem_nestedCalls h hb
  | false => exact placed_of_mem_walks h

theorem placed_of_mem_functionCalls (h : k ∈ functionCalls n isMethod) :
    Placed g (stagesOf n isMethod) k :=
  placed_of_mem_nestedCalls h (below_of_mem_functionCalls h)

/-- What a rule calls outside of its scopes. -/
theorem placed_of_mem_outside {y : String} {stages : List (Node × List ScopeKind)} {K : List Call}
    (h : k ∈ walks [n.get y] ++ K) (hout : ∀ st ∈ stages, Avoids g st (n.get y))
    (hin : k ∈ K → Placed g stages k) : Placed g stages k := by
  rcases List.mem_append.1 h with h | h
  · obtain ⟨hc, hn⟩ := mem_walks.1 h
    rw [List.mem_singleton] at hn
    exact .inr ⟨hc, fun st hst => hn ▸ hout st hst⟩
  · exact hin h

theorem placed_of_mem_lexicalIterationCalls (hl : IteratesLexically g n)
    (h : k ∈ lexicalIterationCalls n) :
    Placed g ((n, [.deadZone]) :: stagesOf n false) k := by
  have hb : n.Below k.node := (passes_below n).lexicalIteration (fun key => below_get n key) k h
  have hshape : ∀ kinds, scopeKinds? n false = some kinds → kinds ≠ [.deadZone] :=
    fun kinds hk heq => by
      rcases scopeKinds_shape hk with hs | ⟨kind, hs, -, -, hne⟩
      · rw [heq] at hs
        cases hs
      · rw [heq] at hs
        exact hne (List.cons.inj hs).1.symm
  rcases List.mem_append.1 h with h | h
  · obtain ⟨j, hj, rfl⟩ := List.mem_map.1 h
    obtain ⟨hc, hn⟩ := mem_walks.1 hj
    rw [List.mem_singleton] at hn
    refine .inl ⟨_, List.mem_cons_self, ?_, hb, fun st' hst' => ?_⟩
    · rw [Call.under, hc]
      rfl
    · rcases List.mem_cons.1 hst' with rfl | hst'
      · exact .inl rfl
      · obtain ⟨kinds, hk, rfl⟩ := mem_stagesOf.1 hst'
        exact .inr (show Avoids g _ j.node from hn ▸ .turn hl (hshape kinds hk))
  · obtain ⟨kinds, hk, j, hj, rfl⟩ := mem_nestedCalls.1 h
    obtain ⟨hc, hn⟩ := mem_walks.1 hj
    have hright : Diverge (n.get "right").path j.node.path := by
      rcases List.mem_append.1 hn with hn | hn
      · have hhead : (n.get "left").AtOrBelow j.node := atOrBelow_of_mem_headNodes hn
        exact (diverge_get (by decide)).atOrBelow (atOrBelow_self _) hhead
      · rw [List.mem_singleton.1 hn]
        exact diverge_get (by decide)
    refine .inl ⟨(n, kinds), List.mem_cons_of_mem _ (mem_stagesOf.2 ⟨kinds, hk, rfl⟩), ?_, hb,
      fun st' hst' => ?_⟩
    · rw [Call.under, hc, List.nil_append]
    · rcases List.mem_cons.1 hst' with rfl | hst'
      · exact .inr (.deadZone hl hb hright)
      · obtain ⟨kinds', hk', rfl⟩ := mem_stagesOf.1 hst'
        rw [Option.some.inj (hk.symm.trans hk')]
        exact .inl rfl

theorem placed_of_mem_ruleCalls (hf : family.Covers n) (h : k ∈ ruleCalls g n family)
    (hb : n.Below k.node) : Placed g (ruleStages g n family) k := by
  cases family with
  | program =>
      obtain ⟨kinds, hk, j, hj, rfl⟩ := mem_nestedCalls.1 h
      obtain ⟨i, hi, rfl⟩ := List.mem_map.1 hj
      refine .inl ⟨(n, kinds ++ if g.isModule then [.moduleTop] else []),
        List.mem_map.2 ⟨kinds, Option.mem_toList.2 hk, rfl⟩, ?_, hb, fun st' hst' => .inl ?_⟩
      · rw [Call.under, Call.under, (mem_walks.1 hi).1]
        cases g.isModule <;> simp [inside]
      · obtain ⟨kinds', hk', rfl⟩ := List.mem_map.1 hst'
        rw [Option.some.inj (hk.symm.trans (Option.mem_toList.1 hk'))]
  | block => exact placed_of_mem_nestedIfCalls h hb
  | loop => exact placed_of_mem_nestedIfCalls h hb
  | switch =>
      refine placed_of_mem_outside h (fun st hst => ?_) fun h => placed_of_mem_nestedIfCalls h hb
      rw [ruleStages] at hst
      split at hst
      · obtain ⟨kinds, -, rfl⟩ := mem_stagesOf.1 hst
        exact .discriminant hf
      · cases hst
  | withObject =>
      refine placed_of_mem_outside h (fun st hst => ?_) fun h => placed_of_mem_nestedCalls h hb
      obtain ⟨kinds, -, rfl⟩ := mem_stagesOf.1 hst
      exact .object hf
  | classDefinition =>
      refine placed_of_mem_outside h (fun st hst => ?_) fun h => placed_of_mem_nestedCalls h hb
      obtain ⟨kinds, -, rfl⟩ := mem_stagesOf.1 hst
      exact .heritage hf
  | catchClause => exact placed_of_mem_nestedCalls h hb
  | function => exact placed_of_mem_functionCalls h
  | property =>
      rw [ruleStages]
      rcases List.mem_append.1 (show k ∈ _ ++ _ from h) with h | h
      · obtain ⟨hc, hn⟩ := mem_walks.1 h
        split at hn
        · refine .inr ⟨hc, fun st hst => ?_⟩
          rw [List.mem_singleton.1 hn]
          split at hst
          · obtain ⟨kinds, -, rfl⟩ := mem_stagesOf.1 hst
            exact .apart (diverge_get (by decide))
          · cases hst
        · cases hn
      · split at h
        · rename_i hm
          rw [if_pos hm]
          exact placed_of_mem_functionCalls h
        · rename_i hm
          rw [if_neg hm]
          exact placed_of_mem_walks h
  | iteration =>
      rw [ruleCalls, iterationCalls] at h
      rw [ruleStages]
      split at h
      · rename_i hl
        rw [if_pos hl]
        exact placed_of_mem_lexicalIterationCalls (.inr ⟨hf, Bool.and_eq_true_iff.1 hl⟩) h
      · rename_i hl
        rw [if_neg hl]
        exact placed_of_mem_walks h
  | lexicalIteration => exact placed_of_mem_lexicalIterationCalls (.inl hf) h
  | declarator | identifier | this | inert | importing | exportAll => cases h
  | _ => exact placed_of_mem_walks h

/-- **What a node calls, it calls in all the scopes of one stage or in none**, and what it calls
elsewhere avoids the stage. -/
theorem placed_of_mem_calls (h : k ∈ calls g n) : Placed g (stages g n) k := by
  have hb := below_of_mem_calls h
  rw [calls] at h
  rw [stages]
  split at h
  · rename_i ts hv
    have ht : n.typeName? = none := by rw [Node.typeName?, Node.type, hv]; rfl
    rw [ht]
    exact placed_of_mem_walks h
  · cases ht : n.typeName? with
    | none =>
        rw [ht] at h
        cases h
    | some type =>
        rw [ht] at h
        exact placed_of_mem_ruleCalls (by rw [Family.Covers, ht]; rfl) h hb

/-- What a rule calls stands below the node of each of its stages, or apart from it. -/
theorem below_or_diverge (h : k ∈ calls g n) (hst : st ∈ stages g n) :
    st.1.Below k.node ∨ Diverge st.1.path k.node.path := by
  have havoid : Avoids g st k.node → st.1.Below k.node ∨ Diverge st.1.path k.node.path :=
    fun h => by
      obtain ⟨c, m⟩ := k
      cases h with
      | heritage | discriminant | object | turn => exact .inl (below_get _ _)
      | deadZone h hb hm => exact .inl hb
      | apart h => exact .inr h
  rcases placed_of_mem_calls h with ⟨st', -, -, hb, hall⟩ | ⟨-, hall⟩
  · rcases hall st hst with rfl | ha
    · exact .inl hb
    · exact havoid ha
  · exact havoid (hall st hst)

/-! ### The scopes that are opened -/

/-- Scopes of one node that are opened one in the other. -/
theorem mem_openings_enters : x ∈ openings (enters c b kinds) ↔
    ∃ pre kind post, kinds = pre ++ kind :: post ∧ x = (kind, b) :: inside c b pre := by
  induction kinds generalizing c with
  | nil => simp [enters]
  | cons kind kinds ih =>
      rw [enters, Grammar.openings_opens, List.mem_cons, ih]
      constructor
      · rintro (rfl | ⟨pre, kind', post, rfl, rfl⟩)
        · exact ⟨[], kind, kinds, rfl, rfl⟩
        · exact ⟨kind :: pre, kind', post, rfl, by rw [Grammar.inside_cons]⟩
      · rintro ⟨_ | ⟨k, pre⟩, kind', post, he, rfl⟩
        · cases he
          exact .inl rfl
        · obtain ⟨rfl, rfl⟩ := List.cons.inj he
          exact .inr ⟨pre, kind', post, rfl, by rw [Grammar.inside_cons]⟩

/-- The scopes that a rule opens itself. -/
theorem mem_openings_own : x ∈ openings (sitesOf c (own g n)) ↔ ∃ st ∈ stages g n,
    ∃ pre kind post, st.2 = pre ++ kind :: post ∧ x = (kind, st.1) :: inside c st.1 pre := by
  rw [openings_own, List.mem_flatMap]
  exact exists_congr fun st => and_congr_right fun _ => mem_openings_enters

/-- The scopes that are opened for a node are those that its visits open themselves. -/
theorem openings_plan (g : Gates) (n : Node) (c : Around) : (openings (sitesOf c (plan g n))).Perm
    ((visits g n).flatMap fun k => openings (sitesOf (k.around ++ c) (own g k.node))) := by
  rw [sitesOf_eq]
  refine (((leaves_plan g n c).filterMap _).filterMap _).trans (.of_eq ?_)
  rw [List.filterMap_flatMap, List.filterMap_flatMap]
  exact List.flatMap_congr fun k _ => by rw [← sitesOf_eq]; rfl

theorem mem_openings_plan : x ∈ openings (sitesOf [] (plan g n)) ↔ ∃ k ∈ visits g n,
    ∃ st ∈ stages g k.node, ∃ pre kind post, st.2 = pre ++ kind :: post ∧
      x = (kind, st.1) :: inside k.around st.1 pre := by
  rw [(openings_plan g n []).mem_iff, List.mem_flatMap]
  refine exists_congr fun k => and_congr_right fun _ => ?_
  rw [List.append_nil, mem_openings_own]

theorem atOrBelow_of_mem_visits (h : k ∈ visits g n) : n.AtOrBelow k.node :=
  visits_induction (motive := fun k => n.AtOrBelow k.node) (atOrBelow_self n)
    (fun _ _ hk _ hj => hk.trans (below_of_mem_calls hj).atOrBelow) k h

/-- A rule opens none of its scopes twice. -/
theorem nodup_openings_own : (openings (sitesOf c (own g n))).Nodup := by
  have hof : ∀ {n isMethod},
      ((stagesOf n isMethod).flatMap fun st => openings (enters c st.1 st.2)).Nodup := by
    intro n isMethod
    unfold stagesOf
    cases scopeKinds? n isMethod with
    | none => exact List.nodup_nil
    | some kinds => simpa using Grammar.nodup_openings_enters kinds
  have hif : ∀ {condition : Bool} {n isMethod}, ((if condition then stagesOf n isMethod
      else []).flatMap fun st => openings (enters c st.1 st.2)).Nodup := fun {condition} n m => by
    cases condition with
    | true => exact hof
    | false => exact List.nodup_nil
  have hlexical : (((n, [.deadZone]) :: stagesOf n false).flatMap fun st =>
      openings (enters c st.1 st.2)).Nodup := by
    rw [List.flatMap_cons]
    refine List.nodup_append.2 ⟨Grammar.nodup_openings_enters _, hof, fun x hx y hy hxy => ?_⟩
    obtain ⟨pre, kind, post, hk, rfl⟩ := mem_openings_enters.1 hx
    obtain ⟨st, hst, hy⟩ := List.mem_flatMap.1 hy
    obtain ⟨kinds, hkinds, rfl⟩ := mem_stagesOf.1 hst
    obtain ⟨pre', kind', post', hk', rfl⟩ := mem_openings_enters.1 hy
    obtain rfl : kind = kind' := (Prod.mk.inj (List.cons.inj hxy).1).1
    have hmem : ∀ {l pre post : List ScopeKind}, l = pre ++ kind :: post → kind ∈ l := fun h =>
      h ▸ List.mem_append_right _ List.mem_cons_self
    have hzone : kind = .deadZone := List.mem_singleton.1 (hmem hk)
    have hin : kind ∈ kinds := hmem hk'
    rcases scopeKinds_shape hkinds with hs | ⟨kind', hs, -, -, hne⟩
    · rw [hs, hzone] at hin
      exact absurd hin (by decide)
    · rw [hs, List.mem_singleton] at hin
      exact hne (hin ▸ hzone)
  rw [openings_own, stages]
  cases n.typeName? with
  | none => exact List.nodup_nil
  | some type =>
      dsimp only
      generalize Family.ofType type = family
      cases family with
      | program =>
          rw [ruleStages]
          cases scopeKinds? n false with
          | none => exact List.nodup_nil
          | some kinds => simpa using Grammar.nodup_openings_enters _
      | block | switch | loop | property => exact hif
      | withObject | catchClause | function | classDefinition => exact hof
      | iteration =>
          rw [ruleStages]
          split
          · exact hlexical
          · exact List.nodup_nil
      | lexicalIteration => exact hlexical
      | _ => exact List.nodup_nil

theorem distinctKeys_of_mem_calls (h : n.value.DistinctKeys) (hk : k ∈ calls g n) :
    k.node.value.DistinctKeys :=
  have hP := Tree.hereditary_allObjects Tree.hasDistinctKeys
  (passes_of_hereditary hP).calls (fun key => hP.get h key) (fun _ hc => hP.items h hc)
    (fun _ hc => hP.children h hc) k hk

/-- **No scope is opened twice** with the same scopes around it. -/
theorem nodup_openings_visits (h : n.value.DistinctKeys) (c : Around) :
    ((visits g n).flatMap fun k => openings (sitesOf (k.around ++ c) (own g k.node))).Nodup := by
  induction n using calls_induction (g := g) generalizing c with
  | h n ih =>
    have hhead : ∀ {k : Call} {c x}, x ∈ ((visits g k.node).flatMap fun j =>
        openings (sitesOf (j.around ++ c) (own g j.node))) →
          ∃ kind b c', x = (kind, b) :: c' ∧ k.node.AtOrBelow b := fun hx => by
      obtain ⟨j, hj, hx⟩ := List.mem_flatMap.1 hx
      obtain ⟨st, hst, pre, kind, post, -, rfl⟩ := mem_openings_own.1 hx
      exact ⟨kind, st.1, _, rfl, (atOrBelow_of_mem_visits hj).trans (atOrBelow_of_mem_stages hst)⟩
    have hcalls : ((calls g n).flatMap fun k => (visits g k.node).flatMap fun j =>
        openings (sitesOf (j.around ++ (k.around ++ c)) (own g j.node))).Nodup := by
      refine List.nodup_flatMap.2 ⟨fun k hk => ih k hk (distinctKeys_of_mem_calls h hk) _, ?_⟩
      · refine (List.pairwise_map.1 (separated_calls g h)).imp fun {k j} hd x hx hy => ?_
        obtain ⟨kind, b, c₁, rfl, hb⟩ := hhead hx
        obtain ⟨kind', b', c₂, he, hb'⟩ := hhead hy
        obtain rfl : b = b' := (Prod.mk.inj (List.cons.inj he).1).2
        exact (hd.atOrBelow hb hb').1 (List.prefix_refl _)
    rw [visits_eq, List.flatMap_cons, List.flatMap_assoc]
    simp only [List.flatMap_map, Call.under, List.append_assoc]
    refine List.nodup_append.2 ⟨nodup_openings_own, hcalls, fun x hx y hy hxy => ?_⟩
    obtain ⟨st, hst, pre, kind, post, -, rfl⟩ := mem_openings_own.1 hx
    obtain ⟨k, hk, hy⟩ := List.mem_flatMap.1 hy
    obtain ⟨kind', b, c', rfl, hb⟩ := hhead hy
    obtain rfl : st.1 = b := (Prod.mk.inj (List.cons.inj hxy).1).2
    rcases below_or_diverge hk hst with hbelow | hd
    · exact hbelow.not_isPrefix hb.isPrefix
    · exact hd.2 hb.isPrefix

/-! ### One in the other -/

/-- Two kinds of scopes that one node has, the inner one directly in the outer one. -/
def Twins (outer inner : ScopeKind) : Prop :=
  outer = .functionName ∧ inner = .function ∨ outer = .global ∧ inner = .moduleTop

/-- A scope may lie directly in another one: they are of one node, or of nodes one below the other.
In the scope of a function's name lies that function only. -/
def Enclosed (inner outer : ScopeKind × Node) : Prop :=
  (Twins outer.1 inner.1 ∧ inner.2 = outer.2) ∨
    (¬ Twins outer.1 inner.1 ∧ outer.1 ≠ .functionName ∧ outer.2.Below inner.2)

/-- A node stands below the nodes of all scopes around it, which lie in one another. -/
def Over (c : Around) (n : Node) : Prop :=
  c.IsChain Enclosed ∧ ∀ x ∈ c.head?, x.1 ≠ .functionName ∧ x.2.Below n

theorem over_nil (n : Node) : Over [] n := ⟨.nil, nofun⟩

theorem Over.mono {m : Node} (h : Over c n) (hm : n.AtOrBelow m) : Over c m :=
  ⟨h.1, fun x hx => ⟨(h.2 x hx).1, (h.2 x hx).2.trans_atOrBelow hm⟩⟩

/-- The outermost scope of a stage lies in the scope around the node. -/
theorem Over.cons (h : Over c n) (hb : n.AtOrBelow b) (htop : kind ≠ .moduleTop) :
    ((kind, b) :: c).IsChain Enclosed :=
  h.1.cons fun x hx => by
    obtain ⟨hname, hbelow⟩ := h.2 x hx
    refine .inr ⟨?_, hname, hbelow.trans_atOrBelow hb⟩
    rintro (⟨hfn, -⟩ | ⟨-, hk⟩)
    · exact hname hfn
    · exact htop hk

/-- The scopes of a stage lie in one another. -/
theorem Over.stage (h : Over c n) (hst : st ∈ stages g n) :
    (inside c st.1 st.2).IsChain Enclosed := by
  have hb := atOrBelow_of_mem_stages hst
  rcases stage_shape hst with hs | hs | ⟨kind, hs, -, htop⟩
  · rw [hs]
    have hname : ((.functionName, st.1) :: c).IsChain Enclosed := h.cons hb nofun
    refine hname.cons fun x hx => ?_
    cases hx
    exact .inl ⟨.inl ⟨rfl, rfl⟩, rfl⟩
  · rw [hs]
    have hglobal : ((.global, st.1) :: c).IsChain Enclosed := h.cons hb nofun
    refine hglobal.cons fun x hx => ?_
    cases hx
    exact .inl ⟨.inr ⟨rfl, rfl⟩, rfl⟩
  · rw [hs]
    exact h.cons hb htop

theorem Over.inside {m : Node} (h : Over c n) (hst : st ∈ stages g n) (hm : st.1.Below m) :
    Over (inside c st.1 st.2) m := by
  refine ⟨h.stage hst, fun x hx => ?_⟩
  rcases stage_shape hst with hs | hs | ⟨kind, hs, hname, -⟩
  all_goals
    rw [hs] at hx
    cases hx
  · exact ⟨nofun, hm⟩
  · exact ⟨nofun, hm⟩
  · exact ⟨hname, hm⟩

/-- The scopes of one node, seen from further out. -/
theorem inside_under (a c : Around) (b : Node) (kinds : List ScopeKind) :
    inside (a ++ c) b kinds = inside a b kinds ++ c := (List.append_assoc ..).symm

/-- What a rule calls stands below the scopes around it if the rule's node does. -/
theorem Over.call (h : Over c n) (hk : k ∈ calls g n) : Over (k.around ++ c) k.node := by
  have hb := below_of_mem_calls hk
  rcases placed_of_mem_calls hk with ⟨st, hst, ha, hbelow, -⟩ | ⟨ha, -⟩
  · rw [ha, ← inside_under, List.nil_append]
    exact h.inside hst hbelow
  · rw [ha]
    exact h.mono hb.atOrBelow

/-- **What is visited stands below the nodes of all scopes around it.** -/
theorem visited_over (h : k ∈ visits g n) : Over k.around k.node :=
  visits_induction (motive := fun k => Over k.around k.node) (over_nil n)
    (fun _ _ hk _ hj => hk.call hj) k h

/-- Scopes that are opened lie in one another. -/
theorem isChain_of_mem_openings (h : x ∈ openings (sitesOf [] (plan g n))) :
    x.IsChain Enclosed := by
  obtain ⟨k, hk, st, hst, pre, kind, post, hs, rfl⟩ := mem_openings_plan.1 h
  refine ((visited_over hk).stage hst).suffix ⟨(post.reverse.map (·, st.1)), ?_⟩
  rw [hs]
  simp [Grammar.inside]

/-! ### Where bindings and uses stand -/

variable {u : Use} {e : Event} {target : Target} {d : Definition} {f : Node}

theorem head_inside (hk : scopeKinds? b isMethod = some kinds) {y : ScopeKind × Node}
    (hy : y ∈ (inside c b kinds).head?) : y.2 = b := by
  rcases scopeKinds_shape hk with rfl | ⟨kind, rfl, -⟩
  all_goals
    cases hy
    rfl

theorem atOrBelow_of_mem_assignTo {left right : Node} (h : .refer u ∈ assignTo left right n) :
    left.AtOrBelow u.identifier := by
  obtain ⟨p, hp, he⟩ := (mem_forBound_of_deed rfl).1 h
  cases List.mem_singleton.1 he
  exact Pattern.atOrBelow_of_mem_bound hp

theorem below_of_declared {ds : List Node} {i : Nat} {d : Node}
    (hs : (n.get "declarations").sequence? = some ds) (hd : ds[i]? = some d)
    (hp : p ∈ Pattern.bound (d.get "id")) : n.Below p :=
  (((below_get n _).trans (below_of_mem_sequence hs (List.mem_of_getElem? hd))).get "id").trans_atOrBelow
    (Pattern.atOrBelow_of_mem_bound hp)

theorem below_of_head {d : Node} (hd : declarator? (n.get "left") 0 = some d)
    (hp : p ∈ Pattern.bound (d.get "id")) : (n.get "left").Below p :=
  ((below_of_declarator hd).get "id").trans_atOrBelow (Pattern.atOrBelow_of_mem_bound hp)

/-- What a rule uses stands at its node or below. -/
theorem Refers.atOrBelow (h : Refers g n c c' (.refer u)) : n.AtOrBelow u.identifier := by
  generalize he : Event.refer u = e at h
  cases h with
  | name h =>
      cases he
      exact atOrBelow_self n
  | step | amended =>
      cases he
      exact (below_get n _).atOrBelow
  | assigned h hp ho hm | target h hl hv hp hm =>
      subst he
      exact (below_get n _).atOrBelow.trans (atOrBelow_of_mem_assignTo hm)
  | initialized h hs hd ho hp =>
      cases he
      exact (below_of_declared hs hd hp).atOrBelow
  | head h hl hv hd hp | deadZone h hd hi hp | turn h hk hd hp =>
      cases he
      exact ((below_get n _).trans (below_of_head hd hp)).atOrBelow

/-- **What is used stands below the nodes of all scopes around it.** -/
theorem Refers.below (h : Refers g n c c' (.refer u)) (hc : Over c n) :
    ∀ y ∈ c'.head?, y.2.Below u.identifier := by
  have hout : ∀ y ∈ c.head?, y.2.Below u.identifier := fun y hy =>
    (hc.2 y hy).2.trans_atOrBelow h.atOrBelow
  generalize he : Event.refer u = e at h
  cases h with
  | deadZone h hd hi hp =>
      cases he
      rintro y hy
      cases hy
      exact (below_get n _).trans (below_of_head hd hp)
  | turn h hk hd hp =>
      cases he
      intro y hy
      rw [head_inside hk hy]
      exact (below_get n _).trans (below_of_head hd hp)
  | _ => exact hout

/-- **What is bound stands below the nodes of all scopes around it.** -/
theorem Declares.below (h : Declares g n c c' target p d) (hc : Over c n) :
    ∀ y ∈ c'.head?, y.2.Below p := by
  have hout : n.AtOrBelow p → ∀ y ∈ c.head?, y.2.Below p := fun h y hy =>
    (hc.2 y hy).2.trans_atOrBelow h
  cases h with
  | «variable» h hs hd ho hp => exact hout (below_of_declared hs hd hp).atOrBelow
  | functionName | className => exact hout (below_get n _).atOrBelow
  | imported h hm hs hd ho =>
      exact hout (((below_get n _).trans (below_of_mem_sequence hs hd)).get _).atOrBelow
  | parameter h hk hs hi hp =>
      intro y hy
      rw [head_inside hk hy]
      exact ((below_get _ _).trans (below_of_mem_sequence hs
        (List.mem_of_getElem? hi))).trans_atOrBelow (Pattern.atOrBelow_of_mem_bound hp)
  | innerName h hk hid =>
      intro y hy
      rw [head_inside hk hy]
      exact below_get n _
  | caught h hk hp =>
      intro y hy
      rw [head_inside hk hy]
      exact (below_get n _).trans_atOrBelow (Pattern.atOrBelow_of_mem_bound hp)
  | deadZone h hd hp =>
      rintro y hy
      cases hy
      exact (below_get n _).trans (below_of_head hd hp)
  | turn h hk hd hp =>
      intro y hy
      rw [head_inside hk hy]
      exact (below_get n _).trans (below_of_head hd hp)

/-! ### Uses out of a scope -/

/-- Why a use within the node of a scope is made out of that scope: the class, the `switch` or the
`with` evaluates something outside, or the node is an iteration and has two scopes, one of them for
what it iterates over. -/
inductive Bypasses (g : Gates) (kind : ScopeKind) (b p : Node) : Prop
  | heritage (h : Family.classDefinition.Covers b) (hp : (b.get "superClass").AtOrBelow p)
  | discriminant (h : Family.switch.Covers b) (hp : (b.get "discriminant").AtOrBelow p)
  | object (h : Family.withObject.Covers b) (hp : (b.get "object").AtOrBelow p)
  | deadZone (h : IteratesLexically g b) (hk : kind = .deadZone)
      (hp : ¬ (b.get "right").AtOrBelow p)
  | turn (h : IteratesLexically g b) (hk : kind ≠ .deadZone) (hp : (b.get "right").AtOrBelow p)

/-- An iteration with an initializer in its head writes it to a name of the head from the dead
zone. -/
structure Initializes (g : Gates) (kind : ScopeKind) (b p : Node) (c : Around) : Prop where
  iterates : IteratesLexically g b
  notZone : kind ≠ .deadZone
  fromZone : c.head? = some (.deadZone, b)
  written : ∃ d, declarator? (b.get "left") 0 = some d ∧ (d.get "init").isNull = false ∧
    p ∈ Pattern.bound (d.get "id")

/-- No scope opens around a place on the way from a node. -/
def Clear (g : Gates) (p m : Node) : Prop :=
  ∀ k ∈ visits g m, ∀ st ∈ stages g k.node, ¬ st.1.AtOrBelow p

theorem clear_of_diverge {m : Node} (h : Diverge p.path m.path) : Clear g p m :=
  fun _ hk _ hst hp => h.2 (((atOrBelow_of_mem_visits hk).trans
    (atOrBelow_of_mem_stages hst)).trans hp).isPrefix

theorem stages_of_family (hf : family.Covers n) : stages g n = ruleStages g n family := by
  obtain ⟨type, ht, rfl⟩ := Option.map_eq_some_iff.1 hf
  rw [stages, ht]

/-- Where nothing opens and everything that is visited from there is clear. -/
theorem clear_of_calls {m : Node} (hm : stages g m = []) (h : ∀ k ∈ calls g m, Clear g p k.node) :
    Clear g p m := fun k hk st hst => by
  rcases mem_visits.1 hk with rfl | ⟨j, hj, k', hk', rfl⟩
  · rw [show (⟨[], m⟩ : Call).node = m from rfl, hm] at hst
    cases hst
  · exact h j hj k' hk' st hst

theorem calls_of_family (hf : family.Covers n) : calls g n = ruleCalls g n family := by
  obtain ⟨type, ht, rfl⟩ := Option.map_eq_some_iff.1 hf
  rw [calls]
  split
  · rename_i ts hv
    rw [Node.typeName?, Node.type, hv] at ht
    cases ht
  · rw [ht]

theorem calls_of_iteratesLexically (h : IteratesLexically g n) :
    calls g n = lexicalIterationCalls n := by
  rcases h with h | ⟨h, hes, hlex⟩
  · exact calls_of_family h
  · rw [calls_of_family h, ruleCalls, iterationCalls,
      if_pos (Bool.and_eq_true_iff.2 ⟨hes, hlex⟩)]

theorem stages_of_iteratesLexically (h : IteratesLexically g n) :
    stages g n = (n, [.deadZone]) :: stagesOf n false := by
  rcases h with h | ⟨h, hes, hlex⟩
  · exact stages_of_family h
  · rw [stages_of_family h, ruleStages, if_pos (Bool.and_eq_true_iff.2 ⟨hes, hlex⟩)]

theorem covers_of_hasType {type : String} (h : n.hasType type = true) :
    (Family.ofType type).Covers n := by
  rw [Node.hasType, decide_eq_true_eq] at h
  rw [Family.Covers, Node.typeName?, h]
  rfl

/-- In an identifier nothing opens. -/
theorem clear_identifier (h : p.isIdentifier = true) : Clear g p p := by
  have hf : Family.identifier.Covers p := covers_of_hasType h
  refine clear_of_calls (stages_of_family hf) fun k hk => ?_
  rw [calls_of_family hf] at hk
  cases hk

/-- An identifier of a pattern is in nothing that the pattern embeds. -/
theorem clear_embedded {pattern m : Node} (hid : p.isIdentifier = true)
    (hp : p ∈ Pattern.bound pattern) (hm : m ∈ Pattern.embedded pattern) : Clear g p m := by
  rcases Pattern.diverge_bound_embedded hp hm with h | rfl
  · exact clear_of_diverge h
  · exact clear_identifier hid

/-- An identifier that a declarator binds is in nothing that the declaration has visited. -/
theorem clear_declaration {ds : List Node} {i : Nat} {d m : Node} (hid : p.isIdentifier = true)
    (hs : (n.get "declarations").sequence? = some ds) (hd : ds[i]? = some d)
    (hp : p ∈ Pattern.bound (d.get "id")) (hm : m ∈ declarationNodes n) : Clear g p m := by
  rw [declarationNodes, hs, Option.getD_some] at hm
  obtain ⟨d', hd', hm⟩ := List.mem_flatMap.1 hm
  have hdp : d.AtOrBelow p :=
    (below_get d _).atOrBelow.trans (Pattern.atOrBelow_of_mem_bound hp)
  have : Std.Symm fun a b : Node => Diverge a.path b.path := ⟨fun _ _ h => h.symm⟩
  by_cases he : d = d'
  · subst he
    rw [declaratorNodes] at hm
    split at hm
    · rcases List.mem_append.1 hm with hm | hm
      · exact clear_embedded hid hp hm
      · rw [List.mem_singleton.1 hm]
        exact clear_of_diverge ((diverge_get (by decide)).atOrBelow
          (Pattern.atOrBelow_of_mem_bound hp) (atOrBelow_self _))
    · cases hm
  · exact clear_of_diverge (((separated_sequence hs).forall (List.mem_of_getElem? hd) hd'
      he).atOrBelow hdp (atOrBelow_of_mem_declaratorNodes hm))

theorem sequence_of_declarator {i : Nat} {d : Node} (h : declarator? n i = some d) :
    ∃ ds, (n.get "declarations").sequence? = some ds ∧ ds[i]? = some d := by
  obtain ⟨hd, -⟩ := Option.filter_eq_some_iff.1 h
  refine ⟨(n.get "declarations").items, ?_, hd⟩
  rw [Node.items] at hd
  split at hd
  · rename_i ts hv
    cases ts with
    | nil => cases hd
    | cons t ts => rw [Node.sequence?, Node.items, hv]; rfl
  · cases hd

/-- An identifier of a head is in nothing that the head embeds, and in no other member. -/
theorem clear_head {d m : Node} (hid : p.isIdentifier = true)
    (hd : declarator? (n.get "left") 0 = some d) (hp : p ∈ Pattern.bound (d.get "id"))
    (hm : m ∈ headNodes (n.get "left") ∨ ∃ key, key ≠ "left" ∧ m = n.get key) : Clear g p m := by
  rcases hm with hm | ⟨key, hkey, rfl⟩
  · rw [headNodes, hd] at hm
    exact clear_embedded hid hp hm
  · exact clear_of_diverge ((diverge_get hkey.symm).atOrBelow (below_of_head hd hp).atOrBelow
      (atOrBelow_self _))

/-- **What a rule uses is in no scope that is opened in the nodes it visits.** -/
theorem Refers.clear (h : Refers g n c c' (.refer u)) (hid : u.identifier.isIdentifier = true)
    (hk : k ∈ calls g n) : Clear g u.identifier k.node := by
  have hassigned : .refer u ∈ assignTo (n.get "left") (n.get "right") n → ∀ {m},
      m ∈ Pattern.embedded (n.get "left") → Clear g u.identifier m := fun he m hm => by
    obtain ⟨p, hp, he⟩ := (mem_forBound_of_deed rfl).1 he
    cases List.mem_singleton.1 he
    exact clear_embedded hid hp hm
  have hmember : ∀ {key : String}, key ≠ "left" → (n.get "left").AtOrBelow u.identifier →
      Clear g u.identifier (n.get key) := fun hne hp =>
    clear_of_diverge ((diverge_get hne.symm).atOrBelow hp (atOrBelow_self _))
  generalize he : Event.refer u = e at h
  cases h with
  | name h =>
      rw [calls_of_family h] at hk
      cases hk
  | step h hi =>
      rw [calls_of_family h, ruleCalls, if_pos hi] at hk
      cases hk
  | amended h hp ho =>
      cases he
      rw [calls_of_family h, ruleCalls, assignmentNodes, hp] at hk
      dsimp only at hk
      rw [if_neg ho] at hk
      rw [List.mem_singleton.1 (mem_walks.1 hk).2]
      exact hmember (by decide) (atOrBelow_self _)
  | assigned h hp ho hm =>
      subst he
      rw [calls_of_family h, ruleCalls, assignmentNodes, hp] at hk
      dsimp only at hk
      rw [if_pos ho] at hk
      rcases List.mem_append.1 (mem_walks.1 hk).2 with hk | hk
      · exact hassigned hm hk
      · rw [List.mem_singleton.1 hk]
        exact hmember (by decide) (atOrBelow_of_mem_assignTo hm)
  | initialized h hs hd ho hp =>
      cases he
      rw [calls_of_family h] at hk
      exact clear_declaration hid hs hd hp (mem_walks.1 hk).2
  | target h hl hv hp hm =>
      subst he
      rw [calls_of_family h, ruleCalls, iterationCalls, if_neg hl, targetNodes, if_neg hv, hp] at hk
      rcases List.mem_append.1 (mem_walks.1 hk).2 with hk | hk
      · exact hassigned hm hk
      · rcases List.mem_pair.1 hk with hk | hk
        all_goals
          rw [hk]
          exact hmember (by decide) (atOrBelow_of_mem_assignTo hm)
  | head h hl hv hd hp =>
      cases he
      rw [calls_of_family h, ruleCalls, iterationCalls, if_neg hl, targetNodes, if_pos hv] at hk
      rcases List.mem_append.1 (mem_walks.1 hk).2 with hk | hk
      · rw [List.mem_singleton.1 hk]
        have hf : Family.declaration.Covers (n.get "left") := covers_of_hasType hv
        obtain ⟨ds, hs, hd⟩ := sequence_of_declarator hd
        refine clear_of_calls (stages_of_family hf) fun j hj => ?_
        rw [calls_of_family hf] at hj
        exact clear_declaration hid hs hd hp (mem_walks.1 hj).2
      · rcases List.mem_pair.1 hk with hk | hk
        · exact clear_head hid hd hp (.inr ⟨_, by decide, hk⟩)
        · exact clear_head hid hd hp (.inr ⟨_, by decide, hk⟩)
  | deadZone h hd hi hp | turn h hk' hd hp =>
      cases he
      rw [calls_of_iteratesLexically h] at hk
      rcases List.mem_append.1 hk with hk | hk
      · obtain ⟨j, hj, rfl⟩ := List.mem_map.1 hk
        exact clear_head hid hd hp (.inr ⟨_, by decide, List.mem_singleton.1 (mem_walks.1 hj).2⟩)
      · obtain ⟨j, hj, hjk⟩ := node_of_mem_nestedCalls hk
        rw [← hjk]
        rcases List.mem_append.1 (mem_walks.1 hj).2 with hm | hm
        · exact clear_head hid hd hp (.inl hm)
        · exact clear_head hid hd hp (.inr ⟨_, by decide, List.mem_singleton.1 hm⟩)

/-- A use that a rule makes itself is in the scopes of the stage that it is in; an iteration makes
some for the scope beside. -/
theorem Refers.stage (h : Refers g n c c' (.refer u)) (hst : st ∈ stages g n)
    (hs : st.2 = pre ++ kind :: post) : (kind, st.1) :: inside c st.1 pre <:+ c' ∨
      Bypasses g kind st.1 u.identifier ∨ Initializes g kind st.1 u.identifier c' := by
  have hnone : ∀ {family : Family}, family.Covers n → ruleStages g n family ≠ [] := fun hf hnil => by
    rw [stages_of_family hf, hnil] at hst
    cases hst
  have hzone : ∀ {pre post}, [ScopeKind.deadZone] = pre ++ kind :: post →
      pre = [] ∧ kind = .deadZone := fun {pre post} h => by
    cases pre with
    | nil => exact ⟨rfl, (List.cons.inj h).1.symm⟩
    | cons k pre => exact absurd (List.cons.inj h).2 (by simp)
  have hkind : ∀ {kinds}, scopeKinds? n false = some kinds → kinds = pre ++ kind :: post →
      kind ≠ .deadZone := fun hk hkinds => by
    have hin : kind ∈ _ := hkinds ▸ List.mem_append_right pre (List.mem_cons_self (l := post))
    rcases scopeKinds_shape hk with rfl | ⟨k, rfl, -, -, hne⟩
    · rintro rfl
      exact absurd hin (by decide)
    · rw [List.mem_singleton.1 hin]
      exact hne
  generalize he : Event.refer u = e at h
  cases h with
  | name h | step h | amended h | assigned h | initialized h => exact absurd rfl (hnone h)
  | target h hl | head h hl => exact absurd (by rw [ruleStages, if_neg hl]) (hnone h)
  | deadZone h hd hi hp =>
      cases he
      rw [stages_of_iteratesLexically h] at hst
      rcases List.mem_cons.1 hst with rfl | hst
      · obtain ⟨rfl, rfl⟩ := hzone hs
        exact .inl (List.suffix_refl _)
      · obtain ⟨kinds, hk, rfl⟩ := mem_stagesOf.1 hst
        exact .inr (.inr ⟨h, hkind hk hs, rfl, _, hd, hi, hp⟩)
  | turn h hk hd hp =>
      cases he
      rw [stages_of_iteratesLexically h] at hst
      rcases List.mem_cons.1 hst with rfl | hst
      · obtain ⟨rfl, rfl⟩ := hzone hs
        refine .inr (.inl (.deadZone h rfl fun hright => ?_))
        exact ((diverge_get (by decide)).atOrBelow (below_of_head hd hp).atOrBelow hright).1
          (List.prefix_refl _)
      · obtain ⟨kinds', hk', rfl⟩ := mem_stagesOf.1 hst
        obtain rfl := Option.some.inj (hk.symm.trans hk')
        subst hs
        exact .inl ⟨post.reverse.map (·, n), by simp [Grammar.inside]⟩

/-- What a rule uses in scopes further out, it uses in the same scopes. -/
theorem Refers.split {a : Around} (h : Refers g n (a ++ c) c' e) :
    ∃ c'', c' = c'' ++ c ∧ Refers g n a c'' e := by
  cases h with
  | name h => exact ⟨a, rfl, .name h⟩
  | step h hi => exact ⟨a, rfl, .step h hi⟩
  | amended h hp ho => exact ⟨a, rfl, .amended h hp ho⟩
  | assigned h hp ho he => exact ⟨a, rfl, .assigned h hp ho he⟩
  | initialized h hs hd ho hp => exact ⟨a, rfl, .initialized h hs hd ho hp⟩
  | target h hl hv hp he => exact ⟨a, rfl, .target h hl hv hp he⟩
  | head h hl hv hd hp => exact ⟨a, rfl, .head h hl hv hd hp⟩
  | deadZone h hd hi hp => exact ⟨(.deadZone, n) :: a, rfl, .deadZone h hd hi hp⟩
  | turn h hk hd hp => exact ⟨inside a n _, inside_under .., .turn h hk hd hp⟩

theorem Avoids.bypasses {m : Node} (h : Avoids g st m) (hkind : kind ∈ st.2)
    (hshape : st.2 = [.deadZone] ∨ .deadZone ∉ st.2) (hb : st.1.AtOrBelow p) (hm : m.AtOrBelow p) :
    Bypasses g kind st.1 p := by
  cases h with
  | heritage h => exact .heritage h hm
  | discriminant h => exact .discriminant h hm
  | object h => exact .object h hm
  | deadZone h hbelow hd =>
      exact .deadZone h (List.mem_singleton.1 hkind) fun hright =>
        (hd.atOrBelow hright hm).1 (List.prefix_refl _)
  | turn h hk =>
      refine .turn h ?_ hm
      rintro rfl
      exact hshape.elim hk fun hno => hno hkind
  | apart h => exact absurd (List.prefix_refl _) (h.atOrBelow hb hm).1

theorem deadZone_of_mem_stages (h : st ∈ stages g n) :
    st.2 = [.deadZone] ∨ .deadZone ∉ st.2 := by
  rcases stage_cases h with ⟨f, isMethod, kinds, -, hk, rfl⟩ | rfl | ⟨-, rfl⟩
  · rcases scopeKinds_shape hk with rfl | ⟨kind, rfl, -, -, hne⟩
    · exact .inr (by simp)
    · exact .inr fun h => hne (List.mem_singleton.1 h).symm
  · exact .inr (by simp)
  · exact .inl rfl

/-- **A use within the node of a scope is made in that scope**, or something is evaluated outside. -/
theorem use_in_scope (hkeys : n.value.DistinctKeys) (hk : k ∈ visits g n) (hj : j ∈ visits g n)
    (hst : st ∈ stages g k.node) (hs : st.2 = pre ++ kind :: post)
    (hr : Refers g j.node j.around c' (.refer u)) (hid : u.identifier.isIdentifier = true)
    (hb : st.1.AtOrBelow u.identifier) : (kind, st.1) :: inside k.around st.1 pre <:+ c' ∨
      Bypasses g kind st.1 u.identifier ∨ Initializes g kind st.1 u.identifier c' := by
  have hkind : kind ∈ st.2 := hs ▸ List.mem_append_right pre List.mem_cons_self
  induction n using calls_induction (g := g) generalizing k j c' with
  | h n ih =>
    rcases mem_visits.1 hk with rfl | ⟨k₀, hk₀, k₁, hk₁, rfl⟩
    · rcases mem_visits.1 hj with rfl | ⟨j₀, hj₀, j₁, hj₁, rfl⟩
      · exact hr.stage hst hs
      · -- The scope is the rule's own; what is called is in it, or avoids it.
        obtain ⟨c'', rfl, hr₁⟩ := hr.split
        have hj₀p := (atOrBelow_of_mem_visits hj₁).trans hr₁.atOrBelow
        have havoid : Avoids g st j₀.node → Bypasses g kind st.1 u.identifier := fun ha =>
          ha.bypasses hkind (deadZone_of_mem_stages hst) hb hj₀p
        rcases placed_of_mem_calls hj₀ with ⟨st', -, hc, -, hall⟩ | ⟨-, hall⟩
        · rcases hall st hst with rfl | ha
          · refine .inl (List.IsSuffix.trans ?_ (List.suffix_append c'' _))
            rw [hc, hs]
            exact ⟨post.reverse.map (·, st.1), by simp [Grammar.inside]⟩
          · exact .inr (.inl (havoid ha))
        · exact .inr (.inl (havoid (hall st hst)))
    · rcases mem_visits.1 hj with rfl | ⟨j₀, hj₀, j₁, hj₁, rfl⟩
      · exact absurd hb (hr.clear hid hk₀ k₁ hk₁ st hst)
      · obtain ⟨c'', rfl, hr₁⟩ := hr.split
        have hk₀p := ((atOrBelow_of_mem_visits hk₁).trans (atOrBelow_of_mem_stages hst)).trans hb
        have hj₀p := (atOrBelow_of_mem_visits hj₁).trans hr₁.atOrBelow
        have : Std.Symm fun a b : Call => Diverge a.node.path b.node.path := ⟨fun _ _ h => h.symm⟩
        by_cases he : k₀ = j₀
        · subst he
          rcases ih k₀ hk₀ (distinctKeys_of_mem_calls hkeys hk₀) hk₁ hj₁ hst hr₁ with h | h | h
          · refine .inl ?_
            rw [Call.under, inside_under]
            exact (List.suffix_append_inj_of_length_eq rfl).2 ⟨h, rfl⟩
          · exact .inr (.inl h)
          · refine .inr (.inr ⟨h.iterates, h.notZone, ?_, h.written⟩)
            rw [List.head?_append, h.fromZone]
            rfl
        · have hd := (List.pairwise_map.1 (separated_calls g hkeys)).forall hk₀ hj₀ he
          exact absurd (List.prefix_refl _) (hd.atOrBelow hk₀p hj₀p).1

end Walk

end LexScope
