import LexScope.Proofs.Changing
import LexScope.Proofs.Editions

/-!
# Proofs — Forest — scopes are a forest at all times

A change leaves what scopes are and which scopes are below which alone, or it opens a scope
(`Change.frames`).  So whatever operations and walks do to a store, and however they fail
(`LeadsTo`), its scopes are a forest (`Forest`).

* `Forest.upper`, `Forest.chain`, `Forest.closeOwned`: the way up goes to smaller numbers and so
  ends, and no bound on the number of steps cuts it short.
* `Forest.children`: below a scope are those that name it, once each and in order.
* `Forest.variableScope`: the scope for `var` declarations is the nearest that can hold them.
* `LeadsTo.forest`: **scopes are a forest at all times**, and what a scope is never changes.
-/

namespace LexScope

open Store

namespace Store

variable {A : ScopeId → Prop} {s t u : Store} {i j : ScopeId} {a b : Scope}

/-! ### What can happen to a store -/

/-- One thing that can happen to a store: an operation, which may fail; a walk up to some moment;
or an entry in the log. -/
inductive Happens (s : Store) : Store → Prop where
  | operation (op : Operation) : Happens s (op.applyTo s).2
  | walk {frames : List Walk.Frame} {ops : List Operation} {m : Walk.Moment}
      (h : Walk.Steps ⟨frames, s⟩ ops m) : Happens s m.store
  | record (entry : LogRecord) : Happens s (s.record entry)

/-- One store leads to another, by whatever happens. -/
abbrev LeadsTo : Store → Store → Prop := Relation.ReflTransGen Happens

theorem Happens.changes (h : Happens s t) (hs : s.Sound) : Changes (fun _ => True) s t := by
  cases h with
  | operation op => exact op.changes hs
  | walk h => exact h.changes hs
  | record entry => exact .single (.quiet (.record entry))

theorem LeadsTo.changes (h : s.LeadsTo t) (hs : s.Sound) : Changes (fun _ => True) s t := by
  induction h with
  | refl => exact .refl
  | tail _ h ih => exact ih.trans (h.changes (ih.sound hs))

/-- A store leads to what operations come to, one after the other. -/
theorem leadsTo_after (s : Store) (ops : List Operation) : s.LeadsTo (s.after ops) := by
  induction ops generalizing s with
  | nil => exact .refl
  | cons op ops ih => exact .head (.operation op) (ih _)

/-- An empty store leads to whatever an analysis comes to, even one that fails. -/
theorem leadsTo_analysis (o : Options) (tree : Tree) :
    (Store.new o).LeadsTo ((analysis tree).outcome (.new o)).2 := by
  cases hobject : tree.isObj with
  | false =>
      rw [analysis, hobject]
      exact .refl
  | true =>
      rw [Walk.outcome_analysis hobject]
      -- The walk is that of the operation which visits the root.
      have hstart : (Store.new o).LeadsTo (Walk.Moment.start o tree).store := .single (.record _)
      have hvisit := Happens.operation (s := (Walk.Moment.start o tree).store)
        (.visit (.root tree) none)
      have hsame : ((Operation.visit (.root tree) none).applyTo
          (Walk.Moment.start o tree).store).2 =
            ((Walk.resume (Walk.Moment.start o tree).frames).outcome
              (Walk.Moment.start o tree).store).2 := by
        rw [Operation.applyTo_eq, Operation.apply, Action.outcome_bind_pure]
        rfl
      rw [hsame] at hvisit
      rw [Action.outcome_bind]
      rcases hrun : (Walk.resume (Walk.Moment.start o tree).frames).outcome
        (Walk.Moment.start o tree).store with ⟨e | w, t⟩ <;> rw [hrun] at hvisit
      · exact hstart.tail hvisit
      · exact (hstart.tail hvisit).tail (.record _)

/-! ### What a change does to scopes -/

theorem frameAt?_updateScope {f : Scope → Scope} (hf : ∀ a, (f a).frame = a.frame) (i j : ScopeId) :
    (s.updateScope i f).frameAt? j = s.frameAt? j :=
  frame_updateScope hf s i j

/-- **A change leaves every scope what it is and those below it alone, or it opens a scope.** -/
theorem Change.frames (h : Change A s t) :
    ((∀ j, t.frameAt? j = s.frameAt? j) ∧ ∀ j, t.childrenAt j = s.childrenAt j) ∨
      ∃ kind n upper strict, (∀ u, upper = some u → u < s.scopes.size) ∧
        t = s.addScope kind n upper strict := by
  have hupdate : ∀ {i : ScopeId} {f : Scope → Scope}, (∀ a, (f a).frame = a.frame) →
      (∀ a, (f a).children = a.children) →
        (∀ j, (s.updateScope i f).frameAt? j = s.frameAt? j) ∧
          ∀ j, (s.updateScope i f).childrenAt j = s.childrenAt j :=
    fun hf hc => ⟨frameAt?_updateScope hf _, childrenAt_updateScope hc _⟩
  cases h with
  | quiet h =>
      cases h with
      | record entry => exact .inl ⟨fun _ => rfl, fun _ => rfl⟩
      | addScope kind n strict hu => exact .inr ⟨kind, n, _, strict, fun u h => (hu u h).2, rfl⟩
      | @bindNew i a key var =>
          exact .inl ⟨(agrees_bindNew i key var s).frameAt?, childrenAt_bindNew i key var⟩
      | addDefinition => exact .inl ⟨fun _ => rfl, fun _ => rfl⟩
      | reflag hA hf => exact .inl (hupdate (fun a => (hf a).frame) fun a => (hf a).children)
      | bindImplicit => exact .inl (hupdate (fun _ => rfl) fun _ => rfl)
  | @addReference i v =>
      refine .inl ⟨frameAt?_addReference s i v, fun j => ?_⟩
      show (updateScope _ i _).childrenAt j = _
      rw [childrenAt_updateScope]
      · rfl
      · exact fun _ => rfl
  | link => exact .inl ⟨fun _ => rfl, fun _ => rfl⟩
  | receive => exact .inl (hupdate (fun _ => rfl) fun _ => rfl)
  | pass => exact .inl (hupdate (fun _ => rfl) fun _ => rfl)
  | shut => exact .inl (hupdate (fun _ => rfl) fun _ => rfl)

/-- Below every scope are those that name it, after a change as before. -/
theorem Adopted.change (h : s.Adopted) (hc : Change A s t) : t.Adopted := by
  intro i
  rcases hc.frames with ⟨hframe, hchildren⟩ | ⟨kind, n, upper, strict, hu, rfl⟩
  · rw [hchildren, h i, size_scopes_of_frame hframe]
    refine List.filter_congr fun j _ => ?_
    rw [upperOf_of_frame hframe]
  · have hold : ((List.range s.scopes.size).filter fun j =>
        decide ((s.addScope kind n upper strict).upperOf j = some i)) = s.childrenAt i := by
      rw [h i]
      refine List.filter_congr fun j hj => ?_
      rw [upperOf_addScope kind n strict hu, if_neg (List.mem_range.1 hj).ne]
    rw [size_addScope, List.range_succ, List.filter_append, hold,
      childrenAt_addScope kind n strict hu, List.filter_cons, List.filter_nil,
      upperOf_addScope kind n strict hu, if_pos rfl]
    by_cases hi : upper = some i <;> simp [hi]

/-! ### The scope for `var` declarations -/

theorem Hoists.change (h : s.Hoists) (hs : s.Sound) (hc : Change A s t) : t.Hoists := by
  intro i b hb
  have hE := hc.evolves hs
  by_cases hi : i < s.scopes.size
  · exact h.old hE hs hi hb
  · rcases hc.frames with ⟨hframe, -⟩ | ⟨kind, n, upper, strict, hu, rfl⟩
    · exact absurd (size_scopes_of_frame hframe ▸ scopeAt?_lt hb) hi
    · obtain ⟨rfl, rfl⟩ | ⟨a, -, ha, -⟩ := scopeAt?_addScope_cases hu hb
      · exact hoists_of_fresh hE hu rfl
      · exact absurd (scopeAt?_lt ha) hi

/-- A scope of a kind that holds `var` declarations. -/
def HoldsVars (s : Store) (i : ScopeId) : Prop :=
  ∃ a, s.scopeAt? i = some a ∧ a.kind.holdsVars = true

/-- On the way up from `i`, the first scope that can hold `var` declarations is `j`; or none can,
and `j` is the last. -/
def Nearest (s : Store) (i j : ScopeId) : Prop :=
  ∃ inner outer, s.chain i = inner ++ j :: outer ∧ (∀ k ∈ inner, ¬ s.HoldsVars k) ∧
    (s.HoldsVars j ∨ outer = [])

/-- The scope for `var` declarations is the nearest that can hold them. -/
theorem Hoists.nearest (h : s.Hoists) (hs : s.Rooted) (ha : s.scopeAt? i = some a) :
    s.Nearest i a.variableScope := by
  induction i using hs.induction generalizing a with
  | step i ih =>
      have hv := h i a ha
      cases hk : a.kind.holdsVars with
      | true =>
          rw [hk, if_pos rfl] at hv
          rw [hv]
          exact ⟨[], s.above i, chain_cons hs i, nofun, .inl ⟨a, ha, hk⟩⟩
      | false =>
          have hno : ¬ s.HoldsVars i := by
            rintro ⟨b, hb, hbk⟩
            obtain rfl := Option.some.inj (ha.symm.trans hb)
            rw [hk] at hbk
            cases hbk
          rw [hk, if_neg Bool.false_ne_true] at hv
          cases hu : a.upper with
          | none =>
              rw [hu] at hv
              rw [hv]
              exact ⟨[], [], chain_top hs ((upperOf_eq ha).trans hu), nofun, .inr rfl⟩
          | some u =>
              have hup := (upperOf_eq ha).trans hu
              obtain ⟨b, hb⟩ := scopeAt?_of_lt ((hs i u hup).trans (scopeAt?_lt ha))
              rw [hu, Option.bind_some, variableScope?, hb, Option.map_some, Option.getD_some] at hv
              obtain ⟨inner, outer, hchain, hinner, hj⟩ := ih u hup hb
              refine ⟨i :: inner, outer, ?_, ?_, hv ▸ hj⟩
              · rw [chain_step hs hup, hchain, hv]
                rfl
              · intro k hk
                rcases List.mem_cons.1 hk with rfl | hk
                · exact hno
                · exact hinner k hk

end Store

/-! ### Closing on the way up -/

namespace Action

variable {s t : Store} {i u : Nat} {n : Node}

/-- The scope above the one closed has a smaller number. -/
theorem close_upper_lt (hs : s.Sound) (h : (close i).outcome s = (.ok (some u), t)) : u < i := by
  have hE := (close_changes hs h).evolves hs
  obtain ⟨a, pending, v, w, last, ha, -, -, -, hlast, -, hup, rfl⟩ := close_ok_iff.1 h
  have hclosed : ((w.updateScope i (·.shut)).record (closedEntry last)).scopeAt? i =
      some last.shut := by
    rw [scopeAt?_record, scopeAt?_updateScope, if_pos rfl, hlast, Option.map_some]
  have habove := hE.upperOf (scopeAt?_lt ha)
  rw [upperOf_eq hclosed] at habove
  exact hs.rooted i u (habove.symm.trans hup.symm)

/-- Closing what belongs to a node takes no more steps than the number of the first scope. -/
theorem closeOwnedFrom_fuel (hs : s.Sound) {fuel more : Nat} (hi : i < fuel) (hm : i < more) :
    (closeOwnedFrom n fuel (some i)).outcome s = (closeOwnedFrom n more (some i)).outcome s := by
  induction i using Nat.strongRecOn generalizing s fuel more with
  | ind i ih =>
      obtain ⟨fuel, rfl⟩ := Nat.exists_eq_succ_of_ne_zero (Nat.ne_zero_of_lt hi)
      obtain ⟨more, rfl⟩ := Nat.exists_eq_succ_of_ne_zero (Nat.ne_zero_of_lt hm)
      rw [closeOwnedFrom, closeOwnedFrom, outcome_bind, outcome_bind]
      rcases hscope : (scopeAt i).outcome s with ⟨e | a, s'⟩
      · rfl
      obtain rfl := (scopeAt_ok_iff.1 hscope).2
      dsimp only
      split
      · rw [outcome_bind, outcome_bind]
        rcases hclose : (close i).outcome s' with ⟨e | up, t⟩
        · rfl
        cases up with
        | none => cases fuel <;> cases more <;> rfl
        | some u =>
            have hu := close_upper_lt hs hclose
            exact ih u hu ((close_changes hs hclose).sound hs) (by omega) (by omega)
      · rfl

/-- **Closing what belongs to a node goes on until a scope does not belong to it.** -/
theorem closeOwned_step (hs : s.Sound) (hi : i < s.scopes.size) :
    (closeOwned n (some i)).outcome s =
      (do if (← scopeAt i).block.same n then closeOwned n (← close i) else pure ()).outcome s := by
  obtain ⟨fuel, hfuel⟩ := Nat.exists_eq_succ_of_ne_zero (Nat.ne_zero_of_lt hi)
  have hrun : ∀ (s : Store) (j : Option ScopeId), (closeOwned n j).outcome s =
      (closeOwnedFrom n s.scopes.size j).outcome s := fun s j => by
    rw [closeOwned, outcome_bind_of_ok (outcome_get s)]
  rw [hrun, hfuel, closeOwnedFrom, outcome_bind, outcome_bind]
  rcases hscope : (scopeAt i).outcome s with ⟨e | a, s'⟩
  · rfl
  obtain ⟨-, rfl⟩ := scopeAt_ok_iff.1 hscope
  dsimp only
  split
  · rw [outcome_bind, outcome_bind]
    rcases hclose : (close i).outcome s' with ⟨e | up, t⟩
    · rfl
    have hsize := (close_isOpen_iff hs hclose i).1
    dsimp only
    rw [hrun]
    cases up with
    | none => cases fuel <;> cases t.scopes.size <;> rfl
    | some u =>
        have hu := close_upper_lt hs hclose
        exact closeOwnedFrom_fuel ((close_changes hs hclose).sound hs) (by omega) (by omega)
  · rfl

end Action

namespace Store

variable {o : Options} {s t : Store}

/-! ### Forests -/

/-- The scopes of a store are a forest. -/
structure Forest (s : Store) : Prop where
  /-- The scope above a scope has a smaller number. -/
  upper : ∀ i a u, s.scopeAt? i = some a → a.upper = some u → u < i
  /-- So the way up from a scope is the scope and the way up from the one above, to the top. -/
  chain : ∀ i a, s.scopeAt? i = some a → s.chain i = i :: a.upper.elim [] s.chain
  /-- So does the way up on which the scopes of a node are closed go on as long as it has to. -/
  closeOwned : ∀ n i, i < s.scopes.size → (Action.closeOwned n (some i)).outcome s =
    (do if (← Action.scopeAt i).block.same n then Action.closeOwned n (← Action.close i)
        else pure ()).outcome s
  /-- Directly below a scope are those that name it, once each and in the order of their numbers. -/
  children : ∀ i a, s.scopeAt? i = some a → a.children.Pairwise (· < ·) ∧
    ∀ j, j ∈ a.children ↔ ∃ b, s.scopeAt? j = some b ∧ b.upper = some i
  /-- The scope for `var` declarations is the nearest that can hold them, or the top. -/
  variableScope : ∀ i a, s.scopeAt? i = some a → s.Nearest i a.variableScope

theorem forest_of_sound (hs : s.Sound) (hc : s.Adopted) (hv : s.Hoists) : s.Forest where
  upper i a u ha hu := hs.rooted i u ((upperOf_eq ha).trans hu)
  chain i a ha := by
    rw [chain_cons hs.rooted, above, upperOf_eq ha]
  closeOwned n i hi := Action.closeOwned_step hs hi
  children i a ha := by
    rw [← childrenAt_eq ha]
    refine ⟨hc.pairwise i, fun j => ⟨fun hj => ?_, ?_⟩⟩
    · obtain ⟨b, hb⟩ := scopeAt?_of_lt (hc.lt hj)
      exact ⟨b, hb, (upperOf_eq hb).symm.trans ((hc.mem_iff (hc.lt hj)).1 hj)⟩
    · rintro ⟨b, hb, hu⟩
      exact (hc.mem_iff (scopeAt?_lt hb)).2 ((upperOf_eq hb).trans hu)
  variableScope i a ha := hv.nearest hs.rooted ha

/-- **Scopes are a forest at all times.**  The scopes of what an empty store leads to
are a forest; and whatever happens then, every scope stays what it is: its kind, its node,
the scope above it, its strictness and its scope for `var` declarations. -/
theorem LeadsTo.forest (h : (Store.new o).LeadsTo s) : s.Forest ∧
    ∀ t, s.LeadsTo t → ∀ i a, s.scopeAt? i = some a → ∃ b, t.scopeAt? i = some b ∧
      b.kind = a.kind ∧ b.block = a.block ∧ b.upper = a.upper ∧
      b.variableScope = a.variableScope ∧ b.strict = a.strict := by
  have hchanges := h.changes (Sound.new o)
  have hsound : ∀ {s}, Changes (fun _ => True) (.new o) s → s.Sound := fun h =>
    h.sound (Sound.new o)
  have hkept : s.Adopted ∧ s.Hoists := by
    clear h
    induction hchanges with
    | refl => exact ⟨fun _ => rfl, nofun⟩
    | tail hst hc ih => exact ⟨ih.1.change hc, ih.2.change (hsound hst) hc⟩
  refine ⟨forest_of_sound (hsound hchanges) hkept.1 hkept.2, fun t ht i a ha => ?_⟩
  have hlater := (ht.changes (hsound hchanges)).evolves (hsound hchanges)
  obtain ⟨b, hb, hab, -⟩ := hlater.scope i a ha
  exact ⟨b, hb, Scope.kind_of_frame hab.frame, Scope.block_of_frame hab.frame,
    Scope.upper_of_frame hab.frame, Scope.variableScope_of_frame hab.frame,
    Scope.strict_of_frame hab.frame⟩

/-- A function expression with a name is entered below a program.  Below it, a scope is opened for
what is no node, which is noticed too late; then the function is closed, and still blocks are
entered below it. -/
def belowClosed : List Operation :=
  let program : Node := ⟨[], .obj [("type", .str "Program")]⟩
  let name : Tree := .obj [("type", .str "Identifier"), ("name", .str "f")]
  let function : Node := ⟨[.item 0], .obj [("type", .str "FunctionExpression"), ("id", name),
    ("body", .obj [("type", .str "BlockStatement"), ("body", .arr [])])]⟩
  let block : Node := ⟨[.item 1], .obj [("type", .str "BlockStatement")]⟩
  [.enter .global program none, .nest function (some 0) false, .enter .block .absent (some 2),
    .close 2, .nest block (some 2) false, .enter .deadZone block (some 4)]

/-- The scope that failed is there, and what is below the closed function belongs to it for good. -/
theorem belowClosed_forest : ∃ s a, (Store.new {}).LeadsTo s ∧ s.scopeAt? 5 = some a ∧
    s.chain 5 = [5, 4, 2, 1, 0] ∧ a.variableScope = 2 ∧ s.Nearest 5 2 ∧
    (s.scopeAt? 2).map (·.children) = some [3, 4] ∧ s.Forest ∧
    ∃ b, (s.after [.close 5]).scopeAt? 5 = some b ∧ b.variableScope = 2 := by
  have hleads : (Store.new {}).LeadsTo ((Store.new {}).after belowClosed) := leadsTo_after _ _
  have hvars : ((Store.new {}).after belowClosed).variableScope? 5 = some 2 := by decide +kernel
  obtain ⟨a, ha, hv⟩ := Option.map_eq_some_iff.1 hvars
  obtain ⟨hforest, hstays⟩ := LeadsTo.forest hleads
  obtain ⟨b, hb, -, -, -, hvb, -⟩ := hstays _ (leadsTo_after _ [.close 5]) 5 a ha
  exact ⟨_, a, hleads, ha, by decide +kernel, hv, hv ▸ hforest.variableScope 5 a ha,
    by decide +kernel, hforest, b, hb, hvb.trans hv⟩

end Store

end LexScope
