import LexScope.Proofs.Building
import LexScope.Proofs.Origins

/-!
# Proofs — Tables — variable tables are well formed at every moment

Where all identifiers have texts for names, a table says no more and no less than the definitions
and the references do.  Every operation of a walk keeps this (`Store.Tabled`).

* `Grounds.define`, `Grounds.enter`, `Grounds.close`: a variable has a text for a name, its
  definitions are for identifiers of that name, and only the arguments of a function have none.
* `Provides.keep`, `Provides.enter`: a function that has arguments binds them.
* `Stacked.keeps`: a variable is on the stack as long as all references to it stay in its variable
  scope.
* `Steps.tables`: **variable tables are well formed at every moment of every walk.**
-/

namespace LexScope

open Store LexScope.Action

/-! ### Variables and where they come from -/

/-- A variable has a text for a name, and its definitions are for identifiers of that name. -/
structure Variable.Spelled (x : Variable) : Prop where
  name : ∃ text, x.name = .str text
  defs : ∀ d ∈ x.defs, d.name.isIdentifier = true ∧ d.name.value.get "name" = x.name

/-- A scope is that of a function with arguments of its own. -/
def Scope.HasArguments (a : Scope) : Prop := a.kind = .function ∧ a.block.isArrow = false

namespace Store

variable {A : ScopeId → Prop} {s t u : Store} {i j : ScopeId} {a b : Scope} {x y : Variable}
  {v : VariableId} {key : Name} {n : Node} {d : Definition}

/-- A variable is spelled, and without definitions it is the arguments of a function. -/
structure Grounded (s : Store) (x : Variable) : Prop where
  spelled : x.Spelled
  bare : x.defs = [] → x.name = .str argumentsName ∧
    ∃ a, s.scopeAt? x.scope = some a ∧ a.HasArguments

/-- All variables are grounded. -/
def Grounds (s : Store) : Prop := ∀ v x, s.variableAt? v = some x → s.Grounded x

/-- A function that has arguments binds them. -/
def Provides (s : Store) : Prop := ∀ i a, s.scopeAt? i = some a → a.HasArguments →
  ∃ v, a.table.find? (.text argumentsName) = some v

theorem hasArguments_evolves (h : a.Evolves b) : b.HasArguments ↔ a.HasArguments := by
  rw [Scope.HasArguments, Scope.HasArguments, Scope.kind_of_frame h.frame,
    Scope.block_of_frame h.frame]

/-- What a variable comes from is there for good. -/
theorem Grounded.evolves (h : s.Grounded x) (hE : Evolves A s t) : t.Grounded x := by
  refine ⟨h.spelled, fun hd => ?_⟩
  obtain ⟨hname, a, ha, harguments⟩ := h.bare hd
  obtain ⟨b, hb, hab, -⟩ := hE.scope _ a ha
  exact ⟨hname, b, hb, (hasArguments_evolves hab).2 harguments⟩

/-- A variable of a scope is grounded if it has a definition. -/
theorem grounded_of_defs (hx : x.Spelled) (hd : x.defs ≠ []) : s.Grounded x :=
  ⟨hx, fun h => absurd h hd⟩

/-- Another definition under the same name. -/
theorem Grounded.addDefinition (h : s.Grounded x) (hid : d.name.isIdentifier = true)
    (hname : d.name.value.get "name" = x.name) :
    s.Grounded { x with defs := x.defs ++ [d] } := by
  have hdefs : x.defs ++ [d] ≠ [] := List.append_ne_nil_of_right_ne_nil _ (List.cons_ne_nil _ _)
  refine grounded_of_defs ⟨h.spelled.name, fun e he => ?_⟩ hdefs
  rcases List.mem_append.1 he with he | he
  · exact h.spelled.defs e he
  · rw [List.mem_singleton.1 he]
    exact ⟨hid, hname⟩

/-- Names and definitions that stay are as well founded as they were. -/
theorem Grounds.keep (h : s.Grounds) (hE : Evolves A s t)
    (hv : ∀ v, (t.variableAt? v).map (fun x => (x.name, x.defs)) =
      (s.variableAt? v).map fun x => (x.name, x.defs)) : t.Grounds := by
  intro v y hy
  have hvy := hv v
  rw [hy, Option.map_some] at hvy
  obtain ⟨x, hx, heq⟩ := Option.map_eq_some_iff.1 hvy.symm
  obtain ⟨hname, hdefs⟩ := Prod.mk.inj heq
  obtain ⟨y', hy', hxy, -⟩ := hE.var v x hx
  obtain rfl := Option.some.inj (hy.symm.trans hy')
  have hground := (h v x hx).evolves hE
  refine ⟨⟨hname ▸ hground.spelled.name, ?_⟩, ?_⟩
  · rw [← hname, ← hdefs]
    exact hground.spelled.defs
  · rw [← hname, ← hdefs, hxy.scope]
    exact hground.bare

/-! ### Names are never given up -/

/-- A name that is bound in a scope stays bound there. -/
theorem Change.find? (h : Change A s t) (ha : s.scopeAt? i = some a)
    (hf : a.table.find? key = some v) :
    ∃ b w, t.scopeAt? i = some b ∧ b.table.find? key = some w := by
  have hupdate : ∀ {j : ScopeId} {f : Scope → Scope}, (∀ a, (f a).table = a.table) →
      ∃ b w, (s.updateScope j f).scopeAt? i = some b ∧ b.table.find? key = some w := by
    intro j f htable
    rw [scopeAt?_updateScope, ha]
    by_cases hj : j = i
    · exact ⟨f a, v, by rw [if_pos hj, Option.map_some], by rw [htable, hf]⟩
    · exact ⟨a, v, if_neg hj, hf⟩
  cases h with
  | quiet h =>
      cases h with
      | record => exact ⟨a, v, ha, hf⟩
      | @addScope kind n upper strict hu =>
          obtain ⟨l, hb⟩ := scopeAt?_addScope_keep (fun u h => (hu u h).2) ha
          exact ⟨_, v, hb, hf⟩
      | @bindNew j c k var =>
          rw [scopeAt?_bindNew, ha]
          by_cases hj : j = i
          · rw [if_pos hj, Option.map_some]
            refine ⟨_, if k = key then s.vars.size else v, rfl, ?_⟩
            show (a.table.put k s.vars.size).find? key = _
            rw [Table.find?_put]
            by_cases hk : k = key <;> simp [hk, hf]
          · exact ⟨a, v, if_neg hj, hf⟩
      | addDefinition => exact ⟨a, v, ha, hf⟩
      | reflag hA hflags => exact hupdate fun a => (hflags a).table
      | bindImplicit => exact hupdate fun _ => rfl
  | @addReference j w =>
      rw [scopeAt?_addReference, ha]
      by_cases hj : j = i
      · exact ⟨a.take s.references.size, v, by rw [if_pos hj, Option.map_some], hf⟩
      · exact ⟨a, v, if_neg hj, hf⟩
  | link => exact ⟨a, v, ha, hf⟩
  | receive => exact hupdate fun _ => rfl
  | pass => exact hupdate fun _ => rfl
  | shut => exact hupdate fun _ => rfl

theorem Changes.find? (h : Changes A s t) (ha : s.scopeAt? i = some a)
    (hf : a.table.find? key = some v) :
    ∃ b w, t.scopeAt? i = some b ∧ b.table.find? key = some w := by
  induction h with
  | refl => exact ⟨a, v, ha, hf⟩
  | tail _ h ih =>
      obtain ⟨b, w, hb, hw⟩ := ih
      exact h.find? hb hw

/-- Functions that were there keep their arguments. -/
theorem Provides.old (h : s.Provides) (hs : s.Sound) (hc : Changes A s t) (hi : i < s.scopes.size)
    (hb : t.scopeAt? i = some b) (harguments : b.HasArguments) :
    ∃ v, b.table.find? (.text argumentsName) = some v := by
  obtain ⟨a, ha⟩ := scopeAt?_of_lt hi
  obtain ⟨b', hb', hab, -⟩ := (hc.evolves hs).scope i a ha
  obtain rfl := Option.some.inj (hb.symm.trans hb')
  obtain ⟨v, hv⟩ := h i a ha ((hasArguments_evolves hab).1 harguments)
  obtain ⟨b', w, hb', hw⟩ := hc.find? ha hv
  obtain rfl := Option.some.inj (hb.symm.trans hb')
  exact ⟨w, hw⟩

/-- Where no scope opens, functions keep their arguments. -/
theorem Provides.keep (h : s.Provides) (hs : s.Sound) (hc : Changes A s t)
    (hsize : t.scopes.size = s.scopes.size) : t.Provides :=
  fun _ _ hb => h.old hs hc (hsize ▸ scopeAt?_lt hb) hb

/-! ### Variables on the stack -/

/-- Whatever is done to a store but resolving, variables stay on the stack. -/
theorem Stacked.keeps {P : ScopeId → List ReferenceId} {D : ScopeId → Prop} (h : s.Stacked)
    (hb : s.Books P D) (hE : Evolves A s t) (hr : Retied s t) : t.Stacked := by
  intro v y hy
  obtain ⟨hrefs, hstack⟩ | ⟨x, hx, heq⟩ := hr v y hy
  · rw [hrefs, hstack]
    rfl
  simp only [Variable.ties, Prod.mk.injEq] at heq
  rw [heq.1, heq.2.1, heq.2.2, h v x hx]
  refine Bool.eq_iff_iff.2 ?_
  rw [List.all_eq_true, List.all_eq_true]
  refine forall_congr' fun r => forall_congr' fun hrx => ?_
  -- A reference that was resolved was there, and stays where it was made.
  have hlink : r ∈ s.linksOf v := by rwa [linksOf, hx]
  obtain ⟨ref, href, hresolved⟩ := hb.of_mem_linksOf hlink
  obtain ⟨ref', href', -, hscope⟩ := hE.reference r ref href
  obtain ⟨x', hx', hdone, -⟩ := (hb.account_of_resolved href hresolved).bound v rfl
  obtain rfl := Option.some.inj (hx.symm.trans hx')
  rw [stays, stays, href, href', Option.any_some, Option.any_some, hscope,
    variableScope?_evolves hE (hb.home r ref href), variableScope?_evolves hE (hb.known _ hdone)]

/-! ### Binding names -/

/-- A definition for the identifier that it binds, if its name is a text, is for a variable of that
name. -/
theorem Grounds.define {w : Option VariableId} (h : s.Grounds) (hs : s.Sound)
    (hn : n.isIdentifier = true → ∃ text, n.value.get "name" = .str text) (hd : d.name = n)
    (hop : (Action.define i n d).outcome s = (.ok w, t)) : t.Grounds := by
  have hE : Evolves (fun _ => True) s t := (define_quiets hop trivial).changes.evolves hs
  have hold : ∀ {v x}, s.variableAt? v = some x → t.Grounded x := fun hx =>
    (h _ _ hx).evolves hE
  obtain ⟨-, -, rfl⟩ | ⟨hid, key, a, hk, ha, ⟨v, hf, -, rfl⟩ | ⟨-, -, rfl⟩⟩ := define_ok_iff.1 hop
  · exact h
  · intro w y hy
    obtain ⟨hw, x, hx, rfl⟩ | ⟨-, hy⟩ := variableAt?_addDefinition_cases hy
    · -- The name of the entry is that of the variable, and both are texts.
      obtain ⟨-, hkx⟩ := hs.home ha hf (hw ▸ hx)
      obtain ⟨text, htext⟩ := hn hid
      obtain ⟨text', htext'⟩ := (h _ x hx).spelled.name
      rw [htext', ← hk, htext] at hkx
      refine (hold hx).addDefinition (hd ▸ hid) ?_
      rw [hd, htext, htext', Name.text.inj (Option.some.inj hkx)]
    · exact hold hy
  · intro w y hy
    obtain ⟨-, rfl⟩ | hy := variableAt?_bindNew_cases hy
    · refine grounded_of_defs ⟨hn hid, fun e he => ?_⟩ (List.cons_ne_nil _ _)
      rw [List.mem_singleton.1 he, hd]
      exact ⟨hid, rfl⟩
    · exact hold hy

end Store

/-! ### Entering scopes -/

namespace Action

variable {s t u : Store} {i : ScopeId} {kind : ScopeKind} {n : Node} {upper : Option ScopeId}

/-- A function that has arguments is provided with them, and nothing else is. -/
theorem provide_ok_cases (h : (provide kind n i).outcome s = (.ok (), t)) :
    (kind = .function ∧ n.isArrow = false ∧
      t = s.bindNew i (.text argumentsName) { name := .str argumentsName, scope := i }) ∨
    ¬ (kind = .function ∧ n.isArrow = false) ∧
      (t = s ∨ ∃ w, (define i (n.get "id") (.ofFunction n)).outcome s = (.ok w, t)) := by
  unfold provide at h
  split at h
  · rw [Node.hasArguments] at h
    cases harrow : n.isArrow with
    | false =>
        rw [harrow, Bool.not_false, if_pos rfl] at h
        obtain ⟨v, hv⟩ := discard_ok_iff.1 h
        exact .inl ⟨rfl, rfl, (bindNew_ok_iff.1 hv).2⟩
    | true =>
        rw [harrow, Bool.not_true, if_neg Bool.false_ne_true] at h
        exact .inr ⟨fun hno => absurd hno.2 (by decide), .inl (pure_ok_iff.1 h).2⟩
  · exact .inr ⟨fun hno => absurd hno.1 (by decide), .inr (discard_ok_iff.1 h)⟩
  · rename_i hne _
    exact .inr ⟨fun hno => hne hno.1, .inl (pure_ok_iff.1 h).2⟩

end Action

namespace Store

variable {s t : Store} {i : ScopeId} {kind : ScopeKind} {n : Node} {upper : Option ScopeId}

/-- What a scope is provided with is grounded. -/
theorem Grounds.enter (h : s.Grounds) (hs : s.Sound)
    (hn : (n.get "id").isIdentifier = true → ∃ text, (n.get "id").value.get "name" = .str text)
    (he : (Action.enter kind n upper).outcome s = (.ok i, t)) : t.Grounds := by
  obtain ⟨-, -, b, _, hb, hf⟩ := enter_frame hs he
  have hblock : b.block = n := Scope.block_of_frame hf
  obtain ⟨u, ho, hp⟩ := enter_ok_iff.1 he
  have hq := openScope_quiets (A := fun _ => True) ho fun _ _ => trivial
  have hE := (enter_quiets (A := fun _ => True) he (fun _ _ => trivial) trivial).changes.evolves hs
  obtain ⟨above, strict, -, -, -, -, rfl⟩ := openScope_ok_iff.1 ho
  have hopened : ((s.addScope kind n upper strict).record
      (.opened kind s.scopes.size n.type strict)).Grounds :=
    h.keep (hq.changes.evolves hs) fun v => by rw [variableAt?_record, variableAt?_addScope]
  obtain ⟨hkind, harrow, rfl⟩ | ⟨-, rfl | ⟨w, hw⟩⟩ := provide_ok_cases hp
  · intro v y hy
    obtain ⟨-, rfl⟩ | hy := variableAt?_bindNew_cases hy
    · exact ⟨⟨⟨_, rfl⟩, List.forall_mem_nil _⟩,
        fun _ => ⟨rfl, b, hb, (Scope.kind_of_frame hf).trans hkind, hblock ▸ harrow⟩⟩
    · rw [variableAt?_record, variableAt?_addScope] at hy
      exact (h v y hy).evolves hE
  · exact hopened
  · exact hopened.define (hq.changes.sound hs) hn rfl hw

/-- A function that is entered binds its arguments at once. -/
theorem Provides.enter (h : s.Provides) (hs : s.Sound)
    (he : (Action.enter kind n upper).outcome s = (.ok i, t)) : t.Provides := by
  intro j c hc harguments
  have hchanges := (enter_quiets (A := fun _ => True) he (fun _ _ => trivial) trivial).changes
  obtain ⟨-, -, hsize, -⟩ := enter_opened hs he
  obtain ⟨rfl, -, b, _, hb, hf⟩ := enter_frame hs he
  have hkind : b.kind = kind := Scope.kind_of_frame hf
  have hblock : b.block = n := Scope.block_of_frame hf
  rcases Nat.lt_succ_iff_lt_or_eq.1 (hsize ▸ scopeAt?_lt hc) with hj | rfl
  · exact h.old hs hchanges hj hc harguments
  obtain rfl := Option.some.inj (hc.symm.trans hb)
  obtain ⟨u, ho, hp⟩ := enter_ok_iff.1 he
  obtain ⟨-, strict, hfresh⟩ := openScope_scopeAt? ho
  obtain ⟨-, -, rfl⟩ | ⟨hno, -⟩ := provide_ok_cases hp
  · rw [scopeAt?_bindNew, if_pos rfl, hfresh] at hc
    obtain rfl := Option.some.inj hc
    exact ⟨_, (Table.find?_put _ _ _ _).trans (if_pos rfl)⟩
  · exact absurd ⟨hkind.symm.trans harguments.1, hblock ▸ harguments.2⟩ hno

/-! ### Closing -/

/-- A candidate that is open is that of a reference. -/
theorem openCandidates_origin {table : Table VariableId} {pending : List ReferenceId}
    {cs : List Candidate} (h : (openCandidates table pending).outcome s = (.ok cs, t)) :
    ∀ c ∈ cs, ∃ r ref, s.referenceAt? r = some ref ∧ ref.candidate = some c := by
  induction pending generalizing cs with
  | nil =>
      obtain ⟨rfl, -⟩ := pure_ok_iff.1 h
      exact nofun
  | cons r pending ih =>
      obtain ⟨ref, href, ⟨-, hrest⟩ | ⟨c, key, others, hc, -, hrest, rfl⟩⟩ :=
        openCandidates_cons_ok_iff.1 h
      · exact ih hrest
      · intro d hd
        split at hd
        · exact ih hrest d hd
        · rcases List.mem_cons.1 hd with rfl | hd
          · exact ⟨r, ref, href, hc⟩
          · exact ih hrest d hd

/-- The variables made for writes are grounded. -/
theorem Grounds.bindImplicits {a : Scope} {pending : List ReferenceId} (h : s.Grounds)
    (hs : s.Sound) (hsource : s.Sourced Tree.TextNames)
    (himp : (Action.bindImplicits i a pending).outcome s = (.ok (), t)) : t.Grounds := by
  rw [Action.bindImplicits] at himp
  split at himp
  · obtain ⟨cs, u, ho, hm⟩ := bind_ok_iff.1 himp
    obtain rfl := openCandidates_ok ho
    have horigin := openCandidates_origin ho
    obtain ⟨-, hend⟩ := forM_ok_done (P := fun _ w => w.Sound ∧ w.Grounds) hm ⟨hs, h⟩
      fun done c rest w w' hcs hinv hmake => by
        obtain ⟨hsound, hground⟩ := hinv
        have hq := makeImplicit_quiets hsound hmake
        refine ⟨hq.changes.sound hsound, ?_⟩
        obtain ⟨r, ref, href, hc⟩ :=
          horigin c (hcs ▸ List.mem_append_right _ List.mem_cons_self)
        obtain ⟨htext, -, hown⟩ := hsource.reference r ref href
        obtain ⟨v, w₁, key, hd, -, rfl⟩ := makeImplicit_ok_iff.1 hmake
        have hpattern : c.pattern.value.TextNames := (hown c hc).1 ▸ htext
        have hdefine : w₁.Grounds := hground.define hsound (Tree.TextNames.name hpattern) rfl hd
        have hnoted : Evolves (fun _ => True) w₁ (w₁.updateScope i (·.bindImplicit key v)) :=
          evolves_updateScope trivial fun _ => ⟨rfl, fun _ _ _ h => h, List.Subset.refl _, id, id⟩
        exact hdefine.keep hnoted fun _ => rfl
    exact hend
  · rw [(pure_ok_iff.1 himp).2]
    exact h

/-- Closing settles references and makes variables for writes; all stays grounded. -/
theorem Grounds.close {up : Option ScopeId} (h : s.Grounds) (hs : s.Sound)
    (hsource : s.Sourced Tree.TextNames) (hc : (Action.close i).outcome s = (.ok up, t)) :
    t.Grounds := by
  obtain ⟨a, u, -, ha, -, himp, hretained, -⟩ := close_retained hs hc
  obtain ⟨a', pending, u', w, last, ha', hp, himp', hset, -, -, -, ht⟩ := close_ok_iff.1 hc
  obtain rfl := Option.some.inj (ha.symm.trans ha')
  rw [pendingAt_of_pending ha hp] at himp
  obtain rfl : u = u' := (Prod.mk.inj (himp.symm.trans himp')).2
  have hsu := (bindImplicits_quiets hs himp).changes
  have hu := hsu.sound hs
  obtain ⟨b, hb, -⟩ := (hsu.evolves hs).scope i a ha
  have hut : Changes (fun _ => True) u t := by
    have hsettled := (settleAll_changes hu (scopeAt?_lt hb) hset).mono (B := fun _ => True)
      fun _ _ => trivial
    rw [ht]
    exact (hsettled.tail (.shut trivial)).tail (.quiet (.record _))
  exact (h.bindImplicits hs hsource himp).keep (hut.evolves hu) hretained.var

/-! ### Every operation of a walk -/

/-- What every operation of a walk keeps of the tables. -/
structure Tabled (s : Store) : Prop where
  grounds : s.Grounds
  provides : s.Provides
  stacked : s.Stacked

variable {A : ScopeId → Prop} {P : ScopeId → List ReferenceId} {D : ScopeId → Prop}

/-- What leaves the variables alone and opens no scope keeps the tables. -/
theorem Tabled.still (h : s.Tabled) (hb : s.Books P D) (hc : Changes A s t)
    (hsize : t.scopes.size = s.scopes.size) (hv : ∀ v, t.variableAt? v = s.variableAt? v) :
    t.Tabled where
  grounds := h.grounds.keep (hc.evolves hb.sound) fun v => by rw [hv]
  provides := h.provides.keep hb.sound hc hsize
  stacked := h.stacked.keeps hb (hc.evolves hb.sound) (retied_of_variableAt? hv)

end Store

namespace Walk

variable {m m' : Moment} {op : Option Operation} {ops : List Operation} {o : Options} {tree : Tree}

/-- **A step keeps the tables.** -/
theorem Moment.Known.tabled_step (h : m.Known Tree.TextNames) (ht : m.store.Tabled)
    (hs : Step m op m') : m'.store.Tabled := by
  have hgood := h.good
  have hbooks := hgood.disciplined.books
  have hsound := hbooks.sound
  have hchanges := hgood.changes hs
  cases hs with
  | @act c e todo rest s t op out he hop =>
      cases Event.does he hop with
      | @define target n d j w t _ hd =>
          have hname : d.name = n := (hgood.tidy _ List.mem_cons_self).1
          have htext : n.value.TextNames := (h.sourced.head rfl).1
          exact ⟨ht.grounds.define hsound (Tree.TextNames.name htext) hname hd,
            ht.provides.keep hsound hchanges (define_steady hd).size,
            ht.stacked.keeps hbooks (hchanges.evolves hsound) (define_retied hd)⟩
      | refer _ hr =>
          obtain ⟨-, -, rfl⟩ | ⟨-, -, rfl, -⟩ := refer_ok_iff.1 hr
          · exact ht
          · refine ht.still hbooks hchanges ?_ fun _ => rfl
            exact Array.size_modify
      | @callEval j =>
          refine ht.still hbooks hchanges (noteEval_steady s j).size fun v => ?_
          rw [Store.noteEval, variableAt?_updateScopes, variableAt?_updateScope]
      | useThis => exact ht.still hbooks hchanges Array.size_modify fun _ => rfl
  | @enter c kind n inside todo rest s t i hop =>
      have he := Operation.applyTo_enter_ok.1 hop
      have htext : n.value.TextNames := (h.sourced.head rfl).1.1
      have hid : (n.get "id").value.TextNames :=
        (Tree.hereditary_allObjects Tree.isNamedByText).get htext "id"
      exact ⟨ht.grounds.enter hsound (Tree.TextNames.name hid) he, ht.provides.enter hsound he,
        ht.stacked.keeps hbooks (hchanges.evolves hsound) (enter_retied he)⟩
  | @leave i f rest s t out hop =>
      obtain ⟨up, -, hc⟩ := Operation.applyTo_close_ok.1 hop
      have himp : s.implicitAt i = [] := h.implicitAt (self_mem_chain s i)
      exact ⟨ht.grounds.close hsound h.sourced.store hc,
        ht.provides.keep hsound hchanges (close_isOpen_iff hsound hc i).1,
        ht.stacked.close hsound h.sourced.store.own himp hc⟩
  | needScope => exact ht
  | phase => exact ht.still hbooks hchanges rfl fun _ => rfl
  | keep _ => exact ht

theorem Moment.Known.tabled (h : m.Known Tree.TextNames) (ht : m.store.Tabled)
    (hs : Steps m ops m') : m'.store.Tabled := by
  induction hs with
  | refl => exact ht
  | more hs _ ih => exact ih (h.steps (.more hs (.refl _))) (h.tabled_step ht hs)

end Walk

/-! ### Well-formed tables -/

namespace Store

variable {s : Store} {i : ScopeId} {a : Scope} {key : Name} {v : VariableId} {x : Variable}

/-- The variable of an entry belongs to the scope and has the name of the entry, and what it says of
its definitions and its references is so. -/
structure WellFormed (s : Store) (i : ScopeId) (a : Scope) (key : Name) (v : VariableId)
    (x : Variable) : Prop where
  scope : x.scope = i
  /-- The entry and its variable have one text for a name. -/
  name : ∃ text, key = .text text ∧ x.name = .str text
  /-- The binding identifiers are those of the definitions, in order, and have this name. -/
  identifiers : x.identifiers = x.defs.map (·.name) ∧
    ∀ n ∈ x.identifiers, n.isIdentifier = true ∧ n.value.get "name" = x.name
  /-- Only the arguments of a function that has some have no definition. -/
  defs : x.defs = [] → key = .text argumentsName ∧ a.kind = .function ∧ a.block.isArrow = false
  /-- The references to it are resolved to it and have this name. -/
  references : ∀ r ∈ x.references, ∃ ref, s.referenceAt? r = some ref ∧ ref.resolved = some v ∧
    ref.name = x.name
  /-- It is on the stack if and only if all of them were made in the variable scope of its own
  scope. -/
  stack : x.stack = true ↔ ∀ r ∈ x.references, ∃ ref, s.referenceAt? r = some ref ∧
    s.variableScope? ref.scope = some a.variableScope

/-- Where the tables are kept and references are accounted for, every entry is well formed. -/
theorem Tabled.wellFormed {P : ScopeId → List ReferenceId} {D : ScopeId → Prop} (h : s.Tabled)
    (hb : s.Books P D) (hsource : s.Sourced Tree.TextNames) (ha : s.scopeAt? i = some a)
    (he : (key, v) ∈ a.table) : ∃ x, s.variableAt? v = some x ∧ s.WellFormed i a key v x := by
  obtain ⟨x, hx, hscope, hkey⟩ := hb.sound.table i a key v ha he
  have hground := h.grounds v x hx
  obtain ⟨text, htext⟩ := hground.spelled.name
  have hentry : key = .text text := by
    rw [htext] at hkey
    exact (Option.some.inj hkey).symm
  -- A reference of the variable is there, is resolved to it, and has its name.
  have href : ∀ r ∈ x.references, ∃ ref, s.referenceAt? r = some ref ∧ ref.resolved = some v ∧
      ref.name = x.name := by
    intro r hr
    have hlink : r ∈ s.linksOf v := by rwa [linksOf, hx]
    obtain ⟨ref, href, hresolved⟩ := hb.of_mem_linksOf hlink
    obtain ⟨x', hx', -, k, hk, hkr⟩ := (hb.account_of_resolved href hresolved).bound v rfl
    obtain rfl := Option.some.inj (hx.symm.trans hx')
    obtain ⟨hnames, hid, -⟩ := hsource.reference r ref href
    obtain ⟨text', htext'⟩ : ∃ text', ref.name = .str text' := Tree.TextNames.name hnames hid
    have hsame : Name.ofTree? (.str text') = Name.ofTree? (.str text) := by
      rw [← htext', ← htext, hk, hkr]
    exact ⟨ref, href, hresolved, by
      rw [htext', htext, Name.text.inj (Option.some.inj hsame)]⟩
  refine ⟨x, hx, hscope, ⟨text, hentry, htext⟩, ⟨rfl, fun n hn => ?_⟩, fun hd => ?_, href, ?_⟩
  · obtain ⟨d, hd, rfl⟩ := List.mem_map.1 hn
    exact hground.spelled.defs d hd
  · obtain ⟨hname, a', ha', harguments⟩ := hground.bare hd
    rw [htext] at hname
    obtain rfl := Option.some.inj (ha.symm.trans (hscope ▸ ha'))
    exact ⟨by rw [hentry, Tree.str.inj hname], harguments⟩
  · have hvars : s.variableScope? x.scope = some a.variableScope := by
      rw [hscope, variableScope?, ha, Option.map_some]
    rw [h.stacked v x hx, List.all_eq_true]
    refine forall_congr' fun r => forall_congr' fun hr => ?_
    obtain ⟨ref, href, -⟩ := href r hr
    simp [stays, href, hvars]

end Store

namespace Walk

variable {m m' : Moment} {ops : List Operation} {o : Options} {tree : Tree}

/-- **Variable tables are well formed at every moment of every walk** over a program whose
identifiers have texts for names: every entry is, and a function that has arguments binds them. -/
theorem Steps.tables (hn : tree.TextNames) (h : Steps (.start o tree) ops m) :
    ∀ i a, m.store.scopeAt? i = some a →
      (∀ key v, (key, v) ∈ a.table → ∃ x, m.store.variableAt? v = some x ∧
        m.store.WellFormed i a key v x) ∧
      (a.kind = .function → a.block.isArrow = false →
        ∃ v, a.table.find? (.text argumentsName) = some v) := by
  have hstart : (Moment.start o tree).Known Tree.TextNames :=
    Moment.start_known (Tree.hereditary_allObjects Tree.isNamedByText) o hn
  have hknown := hstart.steps h
  have htabled := hstart.tabled ⟨nofun, nofun, nofun⟩ h
  have hbooks := hknown.good.disciplined.books
  intro i a ha
  exact ⟨fun key v he => htabled.wellFormed hbooks hknown.sourced.store ha he,
    fun hk harrow => htabled.provides i a ha ⟨hk, harrow⟩⟩

/-- `function f(a, a) { g = a; }` -/
def twiceProgram : Tree :=
  let name (text : String) : Tree := .obj [("type", .str "Identifier"), ("name", .str text)]
  .obj [("type", .str "Program"), ("body", .arr [
    .obj [("type", .str "FunctionDeclaration"), ("id", name "f"),
      ("params", .arr [name "a", name "a"]),
      ("body", .obj [("type", .str "BlockStatement"), ("body", .arr [
        .obj [("type", .str "ExpressionStatement"), ("expression",
          .obj [("type", .str "AssignmentExpression"), ("operator", .str "="), ("left", name "g"),
            ("right", name "a")])]])])]])]

/-- At the end of the walk the parameter that is there twice has one entry and two definitions, the
arguments have none, and `g` has the one made for the write, which is not on the stack. -/
theorem twiceProgram_tables : twiceProgram.TextNames ∧
    ∃ ops m a b x y z, Steps (.start {} twiceProgram) ops m ∧
      m.store.scopeAt? 1 = some a ∧ m.store.scopeAt? 0 = some b ∧
      m.store.WellFormed 1 a (.text argumentsName) 1 x ∧ x.defs.length = 0 ∧
      m.store.WellFormed 1 a (.text "a") 2 y ∧ y.defs.length = 2 ∧
      m.store.WellFormed 0 b (.text "g") 3 z ∧ z.stack = false := by
  have hn : twiceProgram.TextNames := by decide +kernel
  have hview : (analyze {} twiceProgram).toOption.map (fun s =>
      ((s.scopeAt? 1).map fun a => (a.table.find? (.text argumentsName), a.table.find? (.text "a")),
        (s.scopeAt? 0).map (·.table.find? (.text "g")),
        (s.vars.toList.map fun x => (x.defs.length, x.stack)))) =
      some (some (some 1, some 2), some (some 3),
        [(1, true), (0, true), (2, true), (1, false)]) := by
    decide +kernel
  obtain ⟨s, hs, hview⟩ := Option.map_eq_some_iff.1 hview
  have hs : analyze {} twiceProgram = .ok s := by
    cases h : analyze {} twiceProgram <;> rw [h] at hs <;> cases hs
    rfl
  obtain ⟨ops, m, hsteps, -, -, rfl⟩ := analyze_ok hs
  obtain ⟨hinner, houter, hvars⟩ := by simpa only [Prod.mk.injEq] using hview
  obtain ⟨a, ha, htable⟩ := Option.map_eq_some_iff.1 hinner
  obtain ⟨b, hb, hg⟩ := Option.map_eq_some_iff.1 houter
  obtain ⟨harguments, hparameter⟩ := Prod.mk.inj htable
  have htables := Steps.tables hn hsteps
  obtain ⟨x, hx, hwx⟩ := (htables 1 a ha).1 _ _ (Table.mem_of_find? harguments)
  obtain ⟨y, hy, hwy⟩ := (htables 1 a ha).1 _ _ (Table.mem_of_find? hparameter)
  obtain ⟨z, hz, hwz⟩ := (htables 0 b hb).1 _ _ (Table.mem_of_find? hg)
  have hnumber : ∀ {v x}, m.store.variableAt? v = some x →
      [(1, true), (0, true), (2, true), (1, false)][v]? = some (x.defs.length, x.stack) := by
    intro v x hx
    rw [← hvars, List.getElem?_map, Array.getElem?_toList]
    exact congrArg _ hx
  exact ⟨hn, ops, m, a, b, x, y, z, hsteps, ha, hb, hwx,
    (Prod.mk.inj (Option.some.inj (hnumber hx))).1.symm, hwy,
    (Prod.mk.inj (Option.some.inj (hnumber hy))).1.symm, hwz,
    (Prod.mk.inj (Option.some.inj (hnumber hz))).2.symm⟩

end Walk

end LexScope
