import LexScope.Proofs.Lockstep

/-!
# Proofs — Trace — what a finished store tells of the walk

Of the events of a walk the store keeps three kinds: scopes are opened, names are bound and names
are used.  Each happens at a *site*, which says what is done and which scopes are around it, by kind
and node (`Site`); so the sites can be read off the events without running them (`sitesOf`).  What
a `var` declaration binds is left out: it is bound further up than where it stands.

* `Traced.step`: at every moment the sites are those that the store records and those of the events
  that are left.
* `analyze_records`: **what an analysis returns records the sites of the plan.**
-/

namespace LexScope

open Store LexScope.Action

namespace Walk

/-! ### Sites -/

/-- The scopes around something, innermost first, each by its kind and its node. -/
abbrev Around := List (ScopeKind × Node)

/-- What a walk does that a store remembers, or what stops it. -/
inductive Deed where
  | opens (kind : ScopeKind) (n : Node)
  | binds (n : Node) (d : Definition)
  | uses (n : Node)
  | fails
  deriving Repr, DecidableEq

/-- A deed and where it is done. -/
structure Site where
  around : Around
  deed : Deed
  deriving Repr, DecidableEq

namespace Site

/-- The identifier that is used, and the scopes around it. -/
def use? : Site → Option (Around × Node)
  | ⟨c, .uses n⟩ => if n.isIdentifier then some (c, n) else none
  | _ => none

/-- The scope that is opened, and the scopes around it. -/
def opened? : Site → Option Around
  | ⟨c, .opens kind n⟩ => some ((kind, n) :: c)
  | _ => none

end Site

mutual

/-- The sites of an event. -/
def Event.sites (c : Around) : Event → List Site
  | .define .here n d => [⟨c, .binds n d⟩]
  | .refer u => [⟨c, .uses u.identifier⟩]
  | .fail _ => [⟨c, .fails⟩]
  | .within kind n inside => ⟨c, .opens kind n⟩ :: sitesOf ((kind, n) :: c) inside
  | _ => []

/-- The sites of events, one after the other. -/
def sitesOf (c : Around) : List Event → List Site
  | [] => []
  | e :: rest => e.sites c ++ sitesOf c rest

end

variable {c : Around}

@[simp] theorem sitesOf_nil : sitesOf c [] = [] := rfl

@[simp] theorem sitesOf_cons (e : Event) (rest : List Event) :
    sitesOf c (e :: rest) = e.sites c ++ sitesOf c rest := rfl

@[simp] theorem sitesOf_append (a b : List Event) :
    sitesOf c (a ++ b) = sitesOf c a ++ sitesOf c b := by
  induction a with
  | nil => rfl
  | cons e a ih => rw [List.cons_append, sitesOf_cons, ih, sitesOf_cons, List.append_assoc]

theorem sitesOf_flatMap {α : Type} (l : List α) (f : α → List Event) :
    sitesOf c (l.flatMap f) = l.flatMap fun x => sitesOf c (f x) := by
  induction l with
  | nil => rfl
  | cons x l ih => rw [List.flatMap_cons, sitesOf_append, ih, List.flatMap_cons]

end Walk

/-! ### What a store records -/

namespace Store

open Walk

variable {A : ScopeId → Prop} {s t : Store} {i j : ScopeId} {a b : Scope} {n : Node}
  {d : Definition} {key : Name} {sites : List Site}

/-- A scope and the scopes above it, by kind and node. -/
def around (s : Store) (i : ScopeId) : Around :=
  (s.chain i).filterMap fun j => (s.scopeAt? j).map fun a => (a.kind, a.block)

/-- The scopes around what happens in a scope, or in none. -/
def aroundOf (s : Store) (current : Option ScopeId) : Around := current.elim [] s.around

theorem around_top (h : s.Rooted) (ha : s.scopeAt? i = some a) (hu : a.upper = none) :
    s.around i = [(a.kind, a.block)] := by
  rw [around, chain_top h ((upperOf_eq ha).trans hu), List.filterMap_cons_some (by rw [ha]; rfl)]
  rfl

theorem around_step {u : ScopeId} (h : s.Rooted) (ha : s.scopeAt? i = some a)
    (hu : a.upper = some u) : s.around i = (a.kind, a.block) :: s.around u := by
  rw [around, chain_step h ((upperOf_eq ha).trans hu),
    List.filterMap_cons_some (by rw [ha]; rfl)]
  rfl

/-- The scopes around a scope stay what they are. -/
theorem Evolves.around (h : Evolves A s t) (hs : s.Sound) (ht : t.Sound)
    (hi : i < s.scopes.size) : t.around i = s.around i := by
  rw [Store.around, Store.around, h.chain hs ht hi]
  refine List.filterMap_congr fun j hj => ?_
  obtain ⟨a, ha⟩ := scopeAt?_of_lt (Nat.lt_of_le_of_lt (le_of_mem_chain hs.rooted hj) hi)
  obtain ⟨b, hb, hev, -⟩ := h.scope j a ha
  rw [ha, hb, Option.map_some, Option.map_some, Scope.kind_of_frame hev.frame,
    Scope.block_of_frame hev.frame]

/-- The references that a store has, in order: where they were made, and their identifiers. -/
def uses (s : Store) : List (ScopeId × Node) :=
  s.references.toList.map fun ref => (ref.scope, ref.identifier)

theorem uses_congr (h : ∀ r, t.useAt? r = s.useAt? r) : t.uses = s.uses := by
  refine List.ext_getElem? fun r => ?_
  have hr := congrArg (Option.map fun u : Use × ScopeId => (u.2, u.1.identifier)) (h r)
  rw [useAt?, useAt?, Option.map_map, Option.map_map] at hr
  rw [uses, uses, List.getElem?_map, List.getElem?_map, Array.getElem?_toList,
    Array.getElem?_toList]
  exact hr

theorem uses_noteEval (i : ScopeId) : (s.noteEval i).uses = s.uses :=
  uses_congr fun r => by
    rw [useAt?, useAt?, Store.noteEval, referenceAt?_updateScopes]
    rfl

/-- A scope in which names are bound only by the declarations that stand directly in it. -/
def Scope.IsPlain (i : ScopeId) (a : Scope) : Prop := a.variableScope ≠ i ∧ a.kind ≠ .functionName

/-- Which scope holds the `var` declarations of a scope. -/
structure Hoisting (s : Store) : Prop where
  /-- It holds its own. -/
  held : ∀ i a, s.scopeAt? i = some a → ∃ b, s.scopeAt? a.variableScope = some b ∧
    b.variableScope = a.variableScope
  /-- It is another one, unless the scope is of a kind for that or has none above it. -/
  lent : ∀ i a, s.scopeAt? i = some a → a.kind.holdsVars = false → a.upper.isSome = true →
    a.variableScope ≠ i

/-- What has happened at some sites has left its traces, and there are no others. -/
structure Records (s : Store) (sites : List Site) : Prop where
  /-- The references, in order. -/
  uses : s.uses.map (fun u => (s.around u.1, u.2)) = sites.filterMap Site.use?
  /-- The scopes, in order. -/
  opens : (List.range s.scopes.size).map s.around = sites.filterMap Site.opened?
  /-- Every definition at its scope. -/
  binds : ∀ c n d, ⟨c, .binds n d⟩ ∈ sites → n.isIdentifier = true →
    ∃ i key var, i < s.scopes.size ∧ s.around i = c ∧
      Name.ofTree? (n.value.get "name") = some key ∧ (key, some var) ∈ s.declared i ∧ d ∈ var.defs
  /-- And nothing else is declared. -/
  declared : ∀ i a, s.scopeAt? i = some a → Scope.IsPlain i a → ∀ e ∈ s.declared i,
    ∃ var, e.2 = some var ∧ var.defs ≠ [] ∧ ∀ d ∈ var.defs, ∃ n,
      ⟨s.around i, .binds n d⟩ ∈ sites ∧ n.isIdentifier = true ∧
      Name.ofTree? (n.value.get "name") = some e.1
  hoisting : s.Hoisting
  fails : ∀ c, ⟨c, .fails⟩ ∉ sites

/-! ### What an operation does to what was declared -/

theorem declared_updateScope {f : Scope → Scope}
    (hf : ∀ a, (f a).declarations = a.declarations) (i j : ScopeId) :
    (s.updateScope i f).declared j = s.declared j := by
  rw [Store.declared, Store.declared, scopeAt?_updateScope]
  by_cases hj : i = j <;> cases s.scopeAt? j <;> simp [hj, hf]

theorem declared_updateScopes {f : Scope → Scope}
    (hf : ∀ a, (f a).declarations = a.declarations) (l : List ScopeId) (j : ScopeId) :
    (s.updateScopes l f).declared j = s.declared j := by
  induction l generalizing s with
  | nil => rfl
  | cons i l ih => exact ih.trans (declared_updateScope hf i j)

theorem declared_noteEval (i j : ScopeId) : (s.noteEval i).declared j = s.declared j :=
  (declared_updateScopes (f := fun a => { a with dynamic := true }) (fun _ => rfl) _ j).trans
    (declared_updateScope (f := fun a => { a with callsEval := true }) (fun _ => rfl) i j)

theorem declared_noteThis (i j : ScopeId) : (s.noteThis i).declared j = s.declared j :=
  declared_updateScope (f := fun a => { a with usesThis := true }) (fun _ => rfl) i j

/-- A reference declares nothing. -/
theorem refer_declared {u : Use} {r : Option ReferenceId}
    (h : (refer i u).outcome s = (.ok r, t)) (j : ScopeId) : t.declared j = s.declared j := by
  obtain ⟨-, -, rfl⟩ | ⟨-, -, rfl, -⟩ := refer_ok_iff.1 h
  · rfl
  · exact declared_updateScope (s := { s with references := s.references.push _ })
      (f := (·.take s.references.size)) (fun _ => rfl) i j

/-- A definition either amends what was declared under its name or is declared last. -/
theorem define_declared {w : Option VariableId} (hs : s.Sound) (hd : s.Distinct)
    (hi : s.implicitAt i = []) (h : (define i n d).outcome s = (.ok w, t)) :
    n.isIdentifier = false ∧ t = s ∨ n.isIdentifier = true ∧ ∃ key,
      Name.ofTree? (n.value.get "name") = some key ∧ (∀ j, i ≠ j → t.declared j = s.declared j) ∧
      ((∃ var, var.defs = [d] ∧ t.declared i = s.declared i ++ [(key, some var)]) ∨
        ∃ var, (key, some var) ∈ s.declared i ∧
          t.declared i = (s.declared i).map (amend key d)) := by
  obtain ⟨hn, -, rfl⟩ | ⟨hn, key, a, hk, ha, hd'⟩ := define_ok_iff.1 h
  · exact .inl ⟨by simpa using hn, rfl⟩
  have himp : a.implicit = [] := (implicitAt_eq ha).symm.trans hi
  refine .inr ⟨by simpa using hn, key, hk, ?_⟩
  rcases hd' with ⟨v, hf, -, rfl⟩ | ⟨hf, -, rfl⟩
  · have hdecl := declared_addDefinition hs hd ha hf d
    refine ⟨fun j hj => by rw [hdecl, if_neg hj], .inr ?_⟩
    obtain ⟨var, hvar, -⟩ := hs.of_find? ha hf
    refine ⟨var.unused, ?_, by rw [hdecl, if_pos rfl]⟩
    rw [declared_eq ha, declarations_eq himp]
    exact List.mem_map.2 ⟨(key, v), Table.mem_of_find? hf, by rw [hvar]; rfl⟩
  · have hdecl := declared_bindNew hs ha himp hf
      { name := n.value.get "name", scope := i, defs := [d] }
    exact ⟨fun j hj => by rw [hdecl, if_neg hj], .inl ⟨_, rfl, by rw [hdecl, if_pos rfl]⟩⟩

/-- What was defined stays defined. -/
theorem mem_amend (key : Name) (d : Definition) {e : Name × Option Variable} {var : Variable}
    (he : e.2 = some var) :
    ∃ var', (amend key d e) = (e.1, some var') ∧ var.defs ⊆ var'.defs ∧
      (∀ d' ∈ var'.defs, d' ∈ var.defs ∨ e.1 = key ∧ d' = d) ∧ (e.1 = key → d ∈ var'.defs) := by
  obtain ⟨k, w⟩ := e
  obtain rfl : w = some var := he
  rw [amend]
  by_cases hk : k = key
  · rw [if_pos hk]
    refine ⟨_, rfl, List.subset_append_left _ _, fun d' hd' => ?_, fun _ =>
      List.mem_append_right _ (List.mem_singleton_self d)⟩
    exact (List.mem_append.1 hd').imp_right fun h => ⟨hk, List.mem_singleton.1 h⟩
  · rw [if_neg hk]
    exact ⟨var, rfl, List.Subset.refl _, fun d' hd' => .inl hd', fun h => absurd h hk⟩

/-- In `t` is declared what is declared in `s`, and in one scope a definition of a name. -/
structure Adds (s t : Store) (i : ScopeId) (key : Name) (d : Definition) : Prop where
  kept : ∀ j k var, (k, some var) ∈ s.declared j →
    ∃ var', (k, some var') ∈ t.declared j ∧ var.defs ⊆ var'.defs
  added : ∃ var, (key, some var) ∈ t.declared i ∧ d ∈ var.defs
  /-- An entry is an old one, or it is that of the name, with old definitions and the new one. -/
  only : ∀ j, ∀ e ∈ t.declared j, e ∈ s.declared j ∨ i = j ∧ key = e.1 ∧
    ∃ var, e.2 = some var ∧ d ∈ var.defs ∧
      ∀ d' ∈ var.defs, d' = d ∨ ∃ old, (e.1, some old) ∈ s.declared j ∧ d' ∈ old.defs

theorem Adds.of_append {var : Variable} (hother : ∀ j, i ≠ j → t.declared j = s.declared j)
    (hdefs : var.defs = [d]) (hdecl : t.declared i = s.declared i ++ [(key, some var)]) :
    s.Adds t i key d := by
  refine ⟨fun j k old hold => ⟨old, ?_, List.Subset.refl _⟩,
    ⟨var, hdecl ▸ List.mem_append_right _ List.mem_cons_self, by simp [hdefs]⟩, fun j e he => ?_⟩
  all_goals by_cases hj : i = j
  · subst hj
    exact hdecl ▸ List.mem_append_left _ hold
  · exact hother j hj ▸ hold
  · subst hj
    refine (List.mem_append.1 (hdecl ▸ he)).imp_right fun he => ?_
    rw [List.mem_singleton.1 he]
    exact ⟨rfl, rfl, var, rfl, by simp [hdefs], by simp [hdefs]⟩
  · exact .inl (hother j hj ▸ he)

theorem Adds.of_amend {var : Variable} (hother : ∀ j, i ≠ j → t.declared j = s.declared j)
    (hmem : (key, some var) ∈ s.declared i)
    (hdecl : t.declared i = (s.declared i).map (amend key d)) : s.Adds t i key d := by
  have hamended : ∀ {e}, e ∈ s.declared i → amend key d e ∈ t.declared i := fun he =>
    hdecl ▸ List.mem_map_of_mem he
  refine ⟨fun j k old hold => ?_, ?_, fun j e he => ?_⟩
  · by_cases hj : i = j
    · subst hj
      obtain ⟨var', hamend, hsub, -⟩ := mem_amend key d (e := (k, some old)) rfl
      exact ⟨var', hamend ▸ hamended hold, hsub⟩
    · exact ⟨old, hother j hj ▸ hold, List.Subset.refl _⟩
  · obtain ⟨var', hamend, -, -, hnew⟩ := mem_amend key d (e := (key, some var)) rfl
    exact ⟨var', hamend ▸ hamended hmem, hnew rfl⟩
  · by_cases hj : i = j
    · subst hj
      obtain ⟨⟨k, w⟩, hold, rfl⟩ := List.mem_map.1 (hdecl ▸ he)
      by_cases hk : k = key
      · cases w with
        | none => exact .inl (by rwa [amend, if_pos hk])
        | some old =>
            obtain ⟨var', hamend, -, hcases, hnew⟩ := mem_amend key d (e := (k, some old)) rfl
            rw [hamend]
            exact .inr ⟨rfl, hk.symm, var', rfl, hnew hk, fun d' hd' =>
              (hcases d' hd').symm.imp (·.2) fun h => ⟨old, hold, h⟩⟩
      · exact .inl (by rwa [amend, if_neg hk])
    · exact .inl (hother j hj ▸ he)

/-- **A definition adds itself under its name**, unless what it defines is no identifier. -/
theorem define_adds {w : Option VariableId} (hs : s.Sound) (hd : s.Distinct)
    (hi : s.implicitAt i = []) (h : (define i n d).outcome s = (.ok w, t)) :
    n.isIdentifier = false ∧ t = s ∨ n.isIdentifier = true ∧ ∃ key,
      Name.ofTree? (n.value.get "name") = some key ∧ s.Adds t i key d := by
  refine (define_declared hs hd hi h).imp_right ?_
  rintro ⟨hn, key, hk, hother, hwhat⟩
  refine ⟨hn, key, hk, ?_⟩
  obtain ⟨var, hdefs, hdecl⟩ | ⟨var, hmem, hdecl⟩ := hwhat
  · exact .of_append hother hdefs hdecl
  · exact .of_amend hother hmem hdecl

/-- A scope that is added has declared nothing, and what the others have stays. -/
theorem declared_addScope (kind : ScopeKind) (n : Node) {upper : Option ScopeId}
    (strict : Bool) (hu : ∀ u, upper = some u → u < s.scopes.size) (j : ScopeId) :
    (s.addScope kind n upper strict).declared j =
      if j = s.scopes.size then [] else s.declared j := by
  rw [Store.declared, Store.declared, scopeAt?_addScope s kind n upper strict hu]
  by_cases hj : j = s.scopes.size
  · rw [if_pos hj, if_pos hj]
    rfl
  · rw [if_neg hj, if_neg hj]
    cases s.scopeAt? j with
    | none => rfl
    | some a =>
        by_cases hup : upper = some j <;>
          simp [hup, Scope.adopt, Scope.declarations, variableAt?_addScope]

/-- A new scope holds its `var` declarations itself, or else leaves them to what holds those of the
scope above. -/
theorem variableScope_of_fresh {kind : ScopeKind} {upper : Option ScopeId} {strict : Bool}
    (hu : ∀ u, upper = some u → u < s.scopes.size)
    (hf : b.frame = (s.freshScope kind n upper strict).frame) :
    (b.variableScope = s.scopes.size ∧ (kind.holdsVars = false → upper = none)) ∨
      ∃ u a, kind.holdsVars = false ∧ upper = some u ∧ s.scopeAt? u = some a ∧
        b.variableScope = a.variableScope := by
  rw [Scope.variableScope_of_frame hf]
  cases hk : kind.holdsVars with
  | true => exact .inl ⟨by simp [freshScope, hk], nofun⟩
  | false =>
      cases upper with
      | none => exact .inl ⟨by simp [freshScope], fun _ => rfl⟩
      | some u =>
          obtain ⟨a, ha⟩ := scopeAt?_of_lt (hu u rfl)
          exact .inr ⟨u, a, rfl, rfl, ha, by simp [freshScope, hk, ha]⟩

/-- Around the scope that is entered are the scope itself and those around where it is entered. -/
theorem enter_around {kind : ScopeKind} {upper : Option ScopeId} (hE : Evolves A s t)
    (hs : s.Sound) (ht : t.Sound) (h : (enter kind n upper).outcome s = (.ok i, t)) :
    t.around i = (kind, n) :: s.aroundOf upper := by
  obtain ⟨rfl, hu, b, strict, hb, hf⟩ := enter_frame hs h
  have hkind : b.kind = kind := Scope.kind_of_frame hf
  have hblock : b.block = n := Scope.block_of_frame hf
  have hup : b.upper = upper := Scope.upper_of_frame hf
  cases upper with
  | none =>
      rw [around_top ht.rooted hb hup, hkind, hblock]
      rfl
  | some u =>
      rw [around_step ht.rooted hb hup, hkind, hblock, hE.around hs ht (hu u rfl)]
      rfl

/-- Entering a scope uses nothing. -/
theorem enter_uses {kind : ScopeKind} {upper : Option ScopeId}
    (h : (enter kind n upper).outcome s = (.ok i, t)) : t.uses = s.uses :=
  have hq := enter_quiets (A := fun _ => True) h (fun _ _ => trivial) trivial
  uses_congr fun r => by rw [useAt?, useAt?, hq.sameNotes.reference]

/-- Entering a scope declares at most what the scope is provided with. -/
theorem enter_declared {kind : ScopeKind} {upper : Option ScopeId} (hs : s.Sound)
    (hd : s.Distinct) (h : (enter kind n upper).outcome s = (.ok i, t)) :
    (∀ j, j ≠ i → t.declared j = s.declared j) ∧
      (kind.holdsVars = false → kind ≠ .functionName → t.declared i = []) := by
  obtain ⟨u, ho, hp⟩ := enter_ok_iff.1 h
  have hq := openScope_quiets (A := fun _ => True) ho fun _ _ => trivial
  obtain ⟨above, strict, ha, -, -, rfl, hu⟩ := openScope_ok_iff.1 ho
  obtain ⟨-, strict', hfresh⟩ := openScope_scopeAt? ho
  have hopened : ∀ j, u.declared j = if j = s.scopes.size then [] else s.declared j := by
    intro j
    rw [hu]
    exact declared_addScope kind n strict (upper_lt_of_strictAt? ha) j
  have hsound := hq.changes.sound hs
  unfold provide at hp
  split at hp
  · refine ⟨fun j hj => ?_, fun hk => by cases hk⟩
    split at hp
    · obtain ⟨v, hp⟩ := discard_ok_iff.1 hp
      obtain ⟨-, rfl⟩ := bindNew_ok_iff.1 hp
      rw [declared_bindNew hsound hfresh rfl rfl, if_neg (Ne.symm hj), hopened, if_neg hj]
    · rw [(pure_ok_iff.1 hp).2, hopened, if_neg hj]
  · refine ⟨fun j hj => ?_, fun _ hk => absurd rfl hk⟩
    obtain ⟨v, hp⟩ := discard_ok_iff.1 hp
    have himp : u.implicitAt s.scopes.size = [] := implicitAt_eq hfresh
    rcases define_declared hsound (hd.changes hq.changes) himp hp with
      ⟨-, rfl⟩ | ⟨-, key, -, hother, -⟩
    · rw [hopened, if_neg hj]
    · rw [hother j (Ne.symm hj), hopened, if_neg hj]
  · rw [(pure_ok_iff.1 hp).2]
    exact ⟨fun j hj => by rw [hopened, if_neg hj], fun _ _ => by rw [hopened, if_pos rfl]⟩

/-! ### Every step is recorded -/

theorem isPlain_of_frame (h : b.frame = a.frame) : Scope.IsPlain i b ↔ Scope.IsPlain i a := by
  rw [Scope.IsPlain, Scope.IsPlain, Scope.kind_of_frame h, Scope.variableScope_of_frame h]

/-- Every scope was there before, and is what it was. -/
theorem Evolves.scope_of_size (h : Evolves A s t) (hsize : t.scopes.size = s.scopes.size)
    (hb : t.scopeAt? i = some b) : ∃ a, s.scopeAt? i = some a ∧ b.frame = a.frame := by
  obtain ⟨a, ha, hev⟩ := h.scope_of_lt (hsize ▸ scopeAt?_lt hb) hb
  exact ⟨a, ha, hev.frame⟩

/-- What holds the `var` declarations of a scope still holds its own. -/
theorem Hoisting.held_evolves (h : s.Hoisting) (hE : Evolves A s t)
    (ha : s.scopeAt? i = some a) : ∃ b, t.scopeAt? a.variableScope = some b ∧
      b.variableScope = a.variableScope := by
  obtain ⟨c, hc, hheld⟩ := h.held i a ha
  obtain ⟨b, hb, hev, -⟩ := hE.scope _ c hc
  exact ⟨b, hb, (Scope.variableScope_of_frame hev.frame).trans hheld⟩

/-- A scope that was there has its `var` declarations held as before. -/
theorem Hoisting.old (h : s.Hoisting) (hE : Evolves A s t) (hi : i < s.scopes.size)
    (hb : t.scopeAt? i = some b) :
    (∃ c, t.scopeAt? b.variableScope = some c ∧ c.variableScope = b.variableScope) ∧
      (b.kind.holdsVars = false → b.upper.isSome = true → b.variableScope ≠ i) := by
  obtain ⟨a, ha, hev⟩ := hE.scope_of_lt hi hb
  rw [Scope.kind_of_frame hev.frame, Scope.upper_of_frame hev.frame,
    Scope.variableScope_of_frame hev.frame]
  exact ⟨h.held_evolves hE ha, h.lent i a ha⟩

theorem Hoisting.still (h : s.Hoisting) (hE : Evolves A s t)
    (hsize : t.scopes.size = s.scopes.size) : t.Hoisting :=
  ⟨fun _ _ hb => (h.old hE (hsize ▸ scopeAt?_lt hb) hb).1,
    fun _ _ hb => (h.old hE (hsize ▸ scopeAt?_lt hb) hb).2⟩

theorem Hoisting.enter {kind : ScopeKind} {upper : Option ScopeId} (h : s.Hoisting)
    (hE : Evolves A s t) (hs : s.Sound)
    (hop : (Action.enter kind n upper).outcome s = (.ok i, t)) : t.Hoisting := by
  obtain ⟨-, -, hsize, -⟩ := enter_opened hs hop
  obtain ⟨rfl, hu, b, strict, hb, hf⟩ := enter_frame hs hop
  refine ⟨fun j c hc => ?_, fun j c hc hk hup => ?_⟩
  · rcases Nat.lt_succ_iff_lt_or_eq.1 (hsize ▸ scopeAt?_lt hc) with hj | rfl
    · exact (h.old hE hj hc).1
    · obtain rfl := Option.some.inj (hb.symm.trans hc)
      rcases variableScope_of_fresh hu hf with ⟨hself, -⟩ | ⟨u, a, -, -, ha, hvars⟩
      · rw [hself]
        exact ⟨b, hb, hself⟩
      · -- The variables of the new scope are held by what holds those of the one above.
        rw [hvars]
        exact h.held_evolves hE ha
  · rcases Nat.lt_succ_iff_lt_or_eq.1 (hsize ▸ scopeAt?_lt hc) with hj | rfl
    · exact (h.old hE hj hc).2 hk hup
    · obtain rfl := Option.some.inj (hb.symm.trans hc)
      have hkind : b.kind = kind := Scope.kind_of_frame hf
      have hupper : b.upper = upper := Scope.upper_of_frame hf
      rcases variableScope_of_fresh hu hf with ⟨-, htop⟩ | ⟨u, a, -, hu', ha, hvars⟩
      · rw [hupper, htop (hkind ▸ hk)] at hup
        cases hup
      · rw [hvars]
        exact ((le_of_mem_chain hs.rooted (hs.varScope u a ha)).trans_lt (hu u hu')).ne

/-- A reference is the use of an identifier, and that is recorded where it was made. -/
theorem Records.reference {r : ReferenceId} {ref : Reference} (h : s.Records sites)
    (hr : s.referenceAt? r = some ref) :
    ⟨s.around ref.scope, .uses ref.identifier⟩ ∈ sites ∧ ref.identifier.isIdentifier = true := by
  have hmem : (s.around ref.scope, ref.identifier) ∈ sites.filterMap Site.use? := by
    rw [← h.uses]
    refine List.mem_map.2 ⟨(ref.scope, ref.identifier), ?_, rfl⟩
    exact List.mem_map.2 ⟨ref, Array.mem_toList_iff.2 (Array.mem_of_getElem? hr), rfl⟩
  obtain ⟨⟨c, deed⟩, hx, huse⟩ := List.mem_filterMap.1 hmem
  cases deed with
  | uses n =>
      simp only [Site.use?, Option.ite_none_right_eq_some, Option.some.injEq, Prod.mk.injEq] at huse
      obtain ⟨hid, rfl, rfl⟩ := huse
      exact ⟨hx, hid⟩
  | _ => cases huse

variable {extra : List Site}

/-- Where no scope opens, what is recorded is what is added: the references, and what is
declared. -/
theorem Records.advance (h : s.Records sites) (hE : Evolves A s t) (hs : s.Sound) (ht : t.Sound)
    (hsize : t.scopes.size = s.scopes.size) (hhome : ∀ u ∈ s.uses, u.1 < s.scopes.size)
    (hopened : extra.filterMap Site.opened? = []) (hfails : ∀ c, ⟨c, .fails⟩ ∉ extra)
    (huses : ∃ new, t.uses = s.uses ++ new ∧
      new.map (fun u => (t.around u.1, u.2)) = extra.filterMap Site.use?)
    (hbinds : ∀ c n d, ⟨c, .binds n d⟩ ∈ extra → n.isIdentifier = true →
      ∃ i key var, i < s.scopes.size ∧ s.around i = c ∧
        Name.ofTree? (n.value.get "name") = some key ∧ (key, some var) ∈ t.declared i ∧
        d ∈ var.defs)
    (hkept : ∀ i key var, (key, some var) ∈ s.declared i →
      ∃ var', (key, some var') ∈ t.declared i ∧ var.defs ⊆ var'.defs)
    (hdeclared : ∀ i a, s.scopeAt? i = some a → Scope.IsPlain i a → ∀ e ∈ t.declared i,
      ∃ var, e.2 = some var ∧ var.defs ≠ [] ∧ ∀ d ∈ var.defs, ∃ n,
        ⟨s.around i, .binds n d⟩ ∈ sites ++ extra ∧ n.isIdentifier = true ∧
        Name.ofTree? (n.value.get "name") = some e.1) : t.Records (sites ++ extra) := by
  have haround : ∀ {i}, i < s.scopes.size → t.around i = s.around i := hE.around hs ht
  refine ⟨?_, ?_, ?_, ?_, h.hoisting.still hE hsize, ?_⟩
  · obtain ⟨new, hnew, hmap⟩ := huses
    rw [hnew, List.map_append, hmap, List.filterMap_append, ← h.uses]
    congr 1
    exact List.map_congr_left fun u hu => by rw [haround (hhome u hu)]
  · rw [List.filterMap_append, hopened, List.append_nil, ← h.opens, hsize]
    exact List.map_congr_left fun i hi => haround (List.mem_range.1 hi)
  · intro c n d hsite hn
    rcases List.mem_append.1 hsite with hsite | hsite
    · obtain ⟨i, key, var, hi, hc, hkey, hmem, hd⟩ := h.binds c n d hsite hn
      obtain ⟨var', hmem', hsub⟩ := hkept i key var hmem
      exact ⟨i, key, var', hsize ▸ hi, (haround hi).trans hc, hkey, hmem', hsub hd⟩
    · obtain ⟨i, key, var, hi, hc, hrest⟩ := hbinds c n d hsite hn
      exact ⟨i, key, var, hsize ▸ hi, (haround hi).trans hc, hrest⟩
  · intro i b hb hplain e he
    obtain ⟨a, ha, hf⟩ := hE.scope_of_size hsize hb
    rw [haround (scopeAt?_lt ha)]
    exact hdeclared i a ha ((isPlain_of_frame hf).1 hplain) e he
  · intro c hc
    exact (List.mem_append.1 hc).elim (h.fails c) (hfails c)

/-- What neither opens, binds nor uses anything leaves the record as it is. -/
theorem Records.still (h : s.Records sites) (hE : Evolves A s t) (hs : s.Sound) (ht : t.Sound)
    (hsize : t.scopes.size = s.scopes.size) (hhome : ∀ u ∈ s.uses, u.1 < s.scopes.size)
    (huses : t.uses = s.uses) (hdeclared : ∀ i, t.declared i = s.declared i) :
    t.Records sites := by
  have hnone : t.Records (sites ++ []) :=
    h.advance hE hs ht hsize hhome rfl nofun
      ⟨[], by rw [huses, List.append_nil], rfl⟩ nofun
      (fun i key var hmem => ⟨var, hdeclared i ▸ hmem, List.Subset.refl _⟩)
      (fun i a ha hp e he => by
        rw [List.append_nil]
        exact h.declared i a ha hp e (hdeclared i ▸ he))
  rwa [List.append_nil] at hnone

/-- What is defined in a scope. -/
theorem Records.define {w : Option VariableId} (h : s.Records sites) (hE : Evolves A s t)
    (hs : s.Sound) (ht : t.Sound) (hsize : t.scopes.size = s.scopes.size) (hd : s.Distinct)
    (hhome : ∀ u ∈ s.uses, u.1 < s.scopes.size) (hi : s.implicitAt i = [])
    (hlt : i < s.scopes.size) (hop : (Action.define i n d).outcome s = (.ok w, t))
    (hextra : extra = [⟨s.around i, .binds n d⟩] ∨
      extra = [] ∧ ∀ a, s.scopeAt? i = some a → ¬ Scope.IsPlain i a) :
    t.Records (sites ++ extra) := by
  have hnone : extra.filterMap Site.opened? = [] ∧ extra.filterMap Site.use? = [] ∧
      ∀ c, ⟨c, .fails⟩ ∉ extra := by
    rcases hextra with rfl | ⟨rfl, -⟩
    · exact ⟨rfl, rfl, by simp⟩
    · exact ⟨rfl, rfl, nofun⟩
  have huses : t.uses = s.uses := by
    obtain ⟨-, -, rfl⟩ | ⟨-, key, a, -, -, ⟨v, -, -, rfl⟩ | ⟨-, -, rfl⟩⟩ := define_ok_iff.1 hop
      <;> rfl
  have hold : ∀ {j a e}, s.scopeAt? j = some a → Scope.IsPlain j a → e ∈ s.declared j →
      ∃ var, e.2 = some var ∧ var.defs ≠ [] ∧ ∀ d ∈ var.defs, ∃ n,
        ⟨s.around j, .binds n d⟩ ∈ sites ++ extra ∧ n.isIdentifier = true ∧
        Name.ofTree? (n.value.get "name") = some e.1 := by
    intro j a e ha hp he
    obtain ⟨var, hvar, hne, hdefs⟩ := h.declared j a ha hp e he
    refine ⟨var, hvar, hne, fun d hd => ?_⟩
    obtain ⟨n, hn, hrest⟩ := hdefs d hd
    exact ⟨n, List.mem_append_left _ hn, hrest⟩
  have hadvance := h.advance hE hs ht hsize hhome hnone.1 hnone.2.2
    ⟨[], by rw [huses, List.append_nil], hnone.2.1.symm⟩
  rcases define_adds hs hd hi hop with ⟨hn, rfl⟩ | ⟨hn, key, hk, hadds⟩
  · refine hadvance (fun c m d' hm hid => ?_) (fun j key var hv => ⟨var, hv, List.Subset.refl _⟩)
      fun j a ha hp e he => hold ha hp he
    rcases hextra with rfl | ⟨rfl, -⟩
    · obtain ⟨-, rfl, -⟩ := by simpa using hm
      rw [hn] at hid
      cases hid
    · cases hm
  · refine hadvance (fun c m d' hm _ => ?_) hadds.kept fun j a ha hp e he => ?_
    · rcases hextra with rfl | ⟨rfl, -⟩
      · obtain ⟨rfl, rfl, rfl⟩ := by simpa using hm
        obtain ⟨var, hvar, hdv⟩ := hadds.added
        exact ⟨i, key, var, hlt, rfl, hk, hvar, hdv⟩
      · cases hm
    · obtain he | ⟨rfl, rfl, var, hvar, hnew, hdefs⟩ := hadds.only j e he
      · exact hold ha hp he
      · -- A plain scope is defined in only by what stands directly in it.
        obtain rfl : extra = [⟨s.around i, .binds n d⟩] :=
          hextra.resolve_right fun hx => hx.2 a ha hp
        refine ⟨var, hvar, List.ne_nil_of_mem hnew, fun d' hd' => ?_⟩
        rcases hdefs d' hd' with rfl | ⟨old, hmem, hd'⟩
        · exact ⟨n, List.mem_append_right _ List.mem_cons_self, hn, hk⟩
        · obtain ⟨_, hvar', -, hdefs'⟩ := hold ha hp hmem
          obtain rfl := Option.some.inj hvar'
          exact hdefs' d' hd'

/-- What is used in a scope. -/
theorem Records.refer {u : Use} {r : Option ReferenceId} (h : s.Records sites)
    (hE : Evolves A s t) (hs : s.Sound) (ht : t.Sound)
    (hsize : t.scopes.size = s.scopes.size) (hhome : ∀ u ∈ s.uses, u.1 < s.scopes.size)
    (hlt : i < s.scopes.size) (hop : (Action.refer i u).outcome s = (.ok r, t)) :
    t.Records (sites ++ [⟨s.around i, .uses u.identifier⟩]) := by
  have hnew : ∃ new, t.uses = s.uses ++ new ∧ new.map (fun u => (t.around u.1, u.2)) =
      [(⟨s.around i, .uses u.identifier⟩ : Site)].filterMap Site.use? := by
    obtain ⟨hn, -, rfl⟩ | ⟨hn, -, rfl, -⟩ := refer_ok_iff.1 hop
    · exact ⟨[], (List.append_nil _).symm, by simp [Site.use?, hn]⟩
    · refine ⟨[(i, u.identifier)], ?_, ?_⟩
      · show ((s.references.push { u with scope := i }).toList.map _) = _
        rw [Array.toList_push, List.map_append]
        rfl
      · simp [Site.use?, hn, hE.around hs ht hlt]
  have hdecl := refer_declared hop
  refine h.advance hE hs ht hsize hhome rfl (by simp) hnew (by simp)
    (fun j key var hv => ⟨var, hdecl j ▸ hv, List.Subset.refl _⟩) fun j a ha hp e he => ?_
  obtain ⟨var, hvar, hne, hdefs⟩ := h.declared j a ha hp e (hdecl j ▸ he)
  refine ⟨var, hvar, hne, fun d hd => ?_⟩
  obtain ⟨n, hn, hrest⟩ := hdefs d hd
  exact ⟨n, List.mem_append_left _ hn, hrest⟩

/-- The scope that is entered. -/
theorem Records.enter {kind : ScopeKind} {upper : Option ScopeId} (h : s.Records sites)
    (hE : Evolves A s t) (hs : s.Sound) (ht : t.Sound) (hd : s.Distinct)
    (hhome : ∀ u ∈ s.uses, u.1 < s.scopes.size)
    (hop : (Action.enter kind n upper).outcome s = (.ok i, t)) :
    t.Records (sites ++ [⟨s.aroundOf upper, .opens kind n⟩]) := by
  have haround : ∀ {j}, j < s.scopes.size → t.around j = s.around j := hE.around hs ht
  have hnew := enter_around hE hs ht hop
  obtain ⟨-, -, hsize, -⟩ := enter_opened hs hop
  obtain ⟨hother, hfresh⟩ := enter_declared hs hd hop
  obtain ⟨rfl, hu, b, strict, hb, hf⟩ := enter_frame hs hop
  refine ⟨?_, ?_, fun c m d hm hid => ?_, fun j c hc hp e he => ?_, h.hoisting.enter hE hs hop,
    fun c hc => ?_⟩
  · rw [enter_uses hop, List.filterMap_append, ← h.uses]
    simp only [List.filterMap_cons, Site.use?, List.filterMap_nil, List.append_nil]
    exact List.map_congr_left fun u hu => by rw [haround (hhome u hu)]
  · rw [hsize, List.range_succ, List.map_append, List.filterMap_append, ← h.opens]
    congr 1
    · exact List.map_congr_left fun j hj => haround (List.mem_range.1 hj)
    · simp [Site.opened?, hnew]
  · rcases List.mem_append.1 hm with hm | hm
    · obtain ⟨j, key, var, hj, hc, hkey, hmem, hdv⟩ := h.binds c m d hm hid
      exact ⟨j, key, var, by omega, (haround hj).trans hc, hkey,
        (hother j hj.ne).symm ▸ hmem, hdv⟩
    · simp at hm
  · rcases Nat.lt_succ_iff_lt_or_eq.1 (hsize ▸ scopeAt?_lt hc) with hj | rfl
    · obtain ⟨a, ha, hev⟩ := hE.scope_of_lt hj hc
      rw [hother j hj.ne] at he
      obtain ⟨var, hvar, hne, hdefs⟩ :=
        h.declared j a ha ((isPlain_of_frame hev.frame).1 hp) e he
      refine ⟨var, hvar, hne, fun d hd => ?_⟩
      obtain ⟨m, hm, hrest⟩ := hdefs d hd
      exact ⟨m, List.mem_append_left _ (haround hj ▸ hm), hrest⟩
    · -- A new scope that is plain has been provided with nothing.
      obtain rfl := Option.some.inj (hb.symm.trans hc)
      have hkind : b.kind = kind := Scope.kind_of_frame hf
      rcases variableScope_of_fresh hu hf with ⟨hself, -⟩ | ⟨_, _, hk, -⟩
      · exact absurd hself hp.1
      · rw [hfresh hk (hkind ▸ hp.2)] at he
        cases he
  · rcases List.mem_append.1 hc with hc | hc
    · exact h.fails c hc
    · simp at hc

end Store

/-! ### A whole walk -/

namespace Walk

variable {m m' : Moment} {op : Option Operation} {ops : List Operation} {P : Tree → Prop}

/-- The sites of what is still to happen at a moment. -/
def Moment.ahead (m : Moment) : List Site :=
  m.frames.flatMap fun f => sitesOf (m.store.aroundOf f.scope) f.todo

/-- What has happened at a moment is recorded, and the rest is ahead. -/
def Moment.Traced (sites : List Site) (m : Moment) : Prop :=
  ∃ done, sites = done ++ m.ahead ∧ m.store.Records done

theorem aroundOf_evolves {A : ScopeId → Prop} {s t : Store} (hE : Evolves A s t) (hs : s.Sound)
    (ht : t.Sound) {current : Option ScopeId} (hc : ∀ i, current = some i → i < s.scopes.size) :
    t.aroundOf current = s.aroundOf current := by
  cases current with
  | none => rfl
  | some i => exact hE.around hs ht (hc i rfl)

/-- What is ahead in scopes that were there stays what it is. -/
theorem ahead_evolves {A : ScopeId → Prop} {s t : Store} {frames : List Frame}
    (hE : Evolves A s t) (hs : s.Sound) (ht : t.Sound) (hl : Linked s frames) :
    (Moment.mk frames t).ahead = (Moment.mk frames s).ahead :=
  List.flatMap_congr fun f hf => by
    rw [aroundOf_evolves hE hs ht fun i hi => hl.of_mem hf hi]

theorem Moment.Known.home (h : m.Known P) : ∀ u ∈ m.store.uses, u.1 < m.store.scopes.size := by
  intro u hu
  obtain ⟨ref, href, rfl⟩ := List.mem_map.1 hu
  obtain ⟨r, hr, hget⟩ := List.mem_iff_getElem.1 href
  have hat : m.store.referenceAt? r = some ref := by
    rw [referenceAt?, ← Array.getElem?_toList, List.getElem?_eq_some_iff]
    exact ⟨hr, hget⟩
  exact h.good.disciplined.books.home r ref hat

/-- The operation that the next event stands for is orderly. -/
theorem Moment.Good.orderly_event {o : Operation} {c : ScopeId} {e : Event} {todo : List Event}
    {rest : List Frame} (h : m.Good) (hf : m.frames = ⟨some c, e :: todo⟩ :: rest)
    (he : e.operation? m.store c = some o) : o.Orderly m.store m.current := by
  obtain ⟨frames, s⟩ := m
  obtain rfl : frames = _ := hf
  exact h.orderly (.act he)

/-- It opens no scope. -/
theorem Moment.size_event {o : Operation} {c : ScopeId} {e : Event} {out : Outcome}
    {t : Store} (ho : o.Orderly m.store m.current) (he : e.operation? m.store c = some o)
    (hop : o.applyTo m.store = (.ok out, t)) : t.scopes.size = m.store.scopes.size := by
  rcases Disciplined.steady ho hop with ⟨hst, -⟩ | ⟨kind, n, u, rfl⟩ | ⟨i, rfl⟩
  · exact hst.size
  all_goals cases e <;> simp [Event.operation?] at he

/-- What an operation of a walk leaves recorded. -/
theorem Moment.Known.record_operation {sites : List Site} {o : Operation} (h : m.Known P)
    (hr : m.store.Records sites) {c : ScopeId} {e : Event} {todo : List Event}
    {rest : List Frame} (hf : m.frames = ⟨some c, e :: todo⟩ :: rest)
    (he : e.operation? m.store c = some o) {out : Outcome} {t : Store}
    (hop : o.applyTo m.store = (.ok out, t)) :
    t.Records (sites ++ e.sites (m.store.around c)) := by
  have hs := h.good.disciplined.sound
  have hcur : m.current = some c := by rw [Moment.current, hf]; rfl
  have ho := h.good.orderly_event hf he
  have hE := (h.good.disciplined.changes ho hop).evolves hs
  have ht := (h.good.disciplined.step ho hop).sound
  have hlt : c < m.store.scopes.size :=
    h.good.linked.of_mem (hf ▸ List.mem_cons_self) rfl
  have hsize := Moment.size_event ho he hop
  cases Event.does he hop with
  | @define target n d j w t hj hd =>
      refine hr.define hE hs ht hsize h.distinct h.home (h.implicitAt ho) ?_ hd ?_
      · have hmem : j ∈ m.store.line (some c) := hcur ▸ ho
        exact Nat.lt_of_le_of_lt (le_of_mem_chain hs.rooted hmem) hlt
      · cases target with
        | here =>
            obtain rfl := Option.some.inj hj
            exact .inl rfl
        | hoisted =>
            obtain ⟨a, ha, rfl⟩ := Option.map_eq_some_iff.1 hj
            obtain ⟨b, hb, hself⟩ := hr.hoisting.held c a ha
            exact .inr ⟨rfl, fun b' hb' hp => hp.1 (Option.some.inj (hb'.symm.trans hb) ▸ hself)⟩
  | @refer u a r t ha hd =>
      have hrefer := hr.refer hE hs ht hsize h.home hlt hd
      rwa [show (if a.strict then { u with candidate := none } else u).identifier = u.identifier
        by cases a.strict <;> rfl] at hrefer
  | @callEval j =>
      rw [show Event.callEval.sites (m.store.around c) = [] from rfl, List.append_nil]
      exact hr.still hE hs ht hsize h.home (uses_noteEval j) (declared_noteEval j)
  | @useThis j =>
      rw [show Event.useThis.sites (m.store.around c) = [] from rfl, List.append_nil]
      exact hr.still hE hs ht hsize h.home rfl (declared_noteThis j)

theorem Moment.Known.traced_step {sites : List Site} (h : m.Known P) (ht : m.Traced sites)
    (hs : Step m op m') : m'.Traced sites := by
  obtain ⟨done, hsites, hr⟩ := ht
  have hsound := h.good.disciplined.sound
  have hE := (h.good.changes hs).evolves hsound
  have hsound' := (h.good.step hs).disciplined.sound
  have hl := h.good.linked
  cases hs with
  | @act c e todo rest s t o out he hop =>
      refine ⟨_, ?_, h.record_operation hr rfl he hop⟩
      have hrest : Linked s (⟨some c, todo⟩ :: rest) := by cases rest <;> exact hl
      rw [ahead_evolves hE hsound hsound' hrest, hsites]
      simp [Moment.ahead, Store.aroundOf]
  | @enter c kind n inside todo rest s t i hop =>
      have hent := Operation.applyTo_enter_ok.1 hop
      refine ⟨_, ?_, hr.enter hE hsound hsound' h.distinct h.home hent⟩
      have hrest : Linked s (⟨c, todo⟩ :: rest) := by cases rest <;> exact hl
      have hahead : (Moment.mk (⟨some i, inside⟩ :: ⟨c, todo⟩ :: rest) t).ahead =
          sitesOf (t.around i) inside ++ (Moment.mk (⟨c, todo⟩ :: rest) t).ahead := rfl
      rw [hahead, ahead_evolves hE hsound hsound' hrest, enter_around hE hsound hsound' hent,
        hsites]
      simp [Moment.ahead, Event.sites]
  | @leave i f rest s t out hop =>
      obtain ⟨up, -, hc⟩ := Operation.applyTo_close_ok.1 hop
      have htwin := close_twin hsound h.sourced.store.own (h.implicitAt (self_mem_chain s i)) hc
      refine ⟨done, ?_, hr.still hE hsound hsound' ?_ h.home ?_ fun j => ?_⟩
      · rw [ahead_evolves hE hsound hsound' hl.2, hsites]
        rfl
      · exact htwin.size_scopes.trans (by simp [updateScope])
      · exact uses_congr htwin.use
      · exact (htwin.declared j).trans (declared_updateScope (f := (·.shut)) (fun _ => rfl) i j)
  | needScope => exact ⟨done, hsites, hr⟩
  | @phase c p todo rest s =>
      refine ⟨done, ?_, hr.still hE hsound hsound' rfl h.home rfl fun _ => rfl⟩
      have hrest : Linked s (⟨c, todo⟩ :: rest) := by cases rest <;> exact hl
      rw [ahead_evolves hE hsound hsound' hrest, hsites]
      rfl
  | keep hk => exact ⟨done, hsites, hr⟩

theorem Moment.Known.traced {sites : List Site} (h : m.Known P) (ht : m.Traced sites)
    (hs : Steps m ops m') : m'.Traced sites := by
  induction hs with
  | refl => exact ht
  | more hs _ ih => exact ih (h.steps (.more hs (.refl _))) (h.traced_step ht hs)

theorem Moment.start_traced (o : Options) (tree : Tree) :
    (Moment.start o tree).Traced (sitesOf [] (plan (.ofOptions o) (.root tree))) := by
  refine ⟨[], by simp [Moment.ahead, Moment.start, Store.aroundOf], ?_⟩
  have hnone : ∀ i, (Moment.start o tree).store.scopeAt? i = none := fun _ => rfl
  exact ⟨rfl, rfl, fun _ _ _ hl => absurd hl List.not_mem_nil, fun i a ha => by simp [hnone] at ha,
    ⟨fun i a ha => by simp [hnone] at ha, fun i a ha => by simp [hnone] at ha⟩,
    fun _ => List.not_mem_nil⟩

end Walk

open Walk in
/-- **What an analysis returns records the sites of the plan**, and no more. -/
theorem analyze_records {o : Options} {tree : Tree} {s : Store} (h : analyze o tree = .ok s) :
    s.Records (sitesOf [] (plan (.ofOptions o) (.root tree))) := by
  obtain ⟨ops, m, hsteps, hover, -, rfl⟩ := analyze_ok h
  have hknown : (Moment.start o tree).Known fun _ => True :=
    Moment.start_known Tree.hereditary_true o trivial
  obtain ⟨done, hsites, hr⟩ := hknown.traced (Moment.start_traced o tree) hsteps
  have hm := hknown.steps hsteps
  have hs := hm.good.disciplined.sound
  have hq : Quiets (fun _ => True) m.store (m.store.record (.analyzed m.store.scopes.size)) :=
    .single (.record _)
  have hahead : m.ahead = [] := by rw [Moment.ahead, hover]; rfl
  rw [hsites, hahead, List.append_nil]
  exact hr.still (hq.changes.evolves hs) hs (hq.changes.sound hs) rfl hm.home rfl fun _ => rfl

end LexScope
