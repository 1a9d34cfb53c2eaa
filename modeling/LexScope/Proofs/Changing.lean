import LexScope.Proofs.Edits

/-!
# Proofs — Changing — every action is a run of changes

What an action does when it succeeds is a run of changes (`Changes`).  So is what it has done by the
time it fails: each part of an action checks what it needs before it changes anything, and a part
that fails leaves only the changes of the parts before it.

* `Operation.changes`: **every operation is a run of changes**, whether it succeeds or fails.
* `Walk.Steps.changes`: so is everything up to any moment of a walk.

Every store that operations or a walk come by is therefore sound, and whatever a change keeps, it
has kept.
-/

namespace LexScope

open Store

namespace Action

variable {α β : Type} {s t : Store}

/-- Whatever an action comes to in a sound store, it is a run of changes. -/
def Changing (x : Action α) : Prop :=
  ∀ s : Store, s.Sound → Changes (fun _ => True) s (x.outcome s).2

theorem Changing.changes {x : Action α} (hx : x.Changing) (hs : s.Sound) {r : Except Error α}
    (h : x.outcome s = (r, t)) : Changes (fun _ => True) s t := by
  have hrun := hx s hs
  rwa [h] at hrun

theorem changing_pure (a : α) : (pure a : Action α).Changing := fun _ _ => .refl

theorem changing_get : (get : Action Store).Changing := fun _ _ => .refl

theorem changing_throw (e : Error) : (throw e : Action α).Changing := fun _ _ => .refl

theorem changing_need (o : Option α) : (need o).Changing := by
  cases o with
  | none => exact changing_throw _
  | some a => exact changing_pure a

theorem changing_modify {f : Store → Store} (h : ∀ s, Change (fun _ => True) s (f s)) :
    (modify f : Action Unit).Changing := fun s _ => .single (h s)

theorem changing_record (entry : LogRecord) : (record entry).Changing :=
  changing_modify fun _ => .quiet (.record entry)

/-- What comes second may rely on what came first. -/
theorem Changing.bind_of {x : Action α} {f : α → Action β} (hx : x.Changing)
    (hf : ∀ s t a, s.Sound → t.Sound → x.outcome s = (.ok a, t) →
      Changes (fun _ => True) t ((f a).outcome t).2) : (x >>= f).Changing := by
  intro s hs
  rw [outcome_bind]
  rcases hr : x.outcome s with ⟨e | a, t⟩
  · exact hx.changes hs hr
  · have hst := hx.changes hs hr
    exact hst.trans (hf s t a hs (hst.sound hs) hr)

theorem Changing.bind {x : Action α} {f : α → Action β} (hx : x.Changing)
    (hf : ∀ a, (f a).Changing) : (x >>= f).Changing :=
  hx.bind_of fun _ t a _ ht _ => hf a t ht

theorem Changing.discard {x : Action α} (hx : x.Changing) : (discard x).Changing := by
  intro s hs
  rw [outcome_discard]
  exact hx s hs

theorem changing_forM {f : α → Action Unit} (hf : ∀ a, (f a).Changing) (l : List α) :
    (l.forM f).Changing := by
  induction l with
  | nil => exact changing_pure ()
  | cons a l ih => exact (hf a).bind fun _ => ih

theorem changing_scopeAt (i : ScopeId) : (scopeAt i).Changing :=
  changing_get.bind fun _ => changing_need _

theorem changing_referenceAt (r : ReferenceId) : (referenceAt r).Changing :=
  changing_get.bind fun _ => changing_need _

/-! ### Open scopes -/

theorem changing_define (i : ScopeId) (n : Node) (d : Definition) : (define i n d).Changing :=
  fun _ _ => (define_quiets rfl trivial).changes

theorem changing_enter (kind : ScopeKind) (n : Node) (upper : Option ScopeId) :
    (enter kind n upper).Changing :=
  fun _ _ => (enter_quiets rfl (fun _ _ => trivial) trivial).changes

theorem changing_nest (n : Node) (upper : Option ScopeId) (isMethod : Bool) :
    (nest n upper isMethod).Changing :=
  fun _ _ => (nest_quiets rfl).changes

theorem changing_noteEval (i : ScopeId) : (noteEval i).Changing :=
  fun _ _ => (noteEval_quiets rfl fun _ _ => trivial).changes

theorem changing_noteThis (i : ScopeId) : (noteThis i).Changing :=
  fun _ _ => (noteThis_quiets rfl trivial).changes

theorem changing_refer (i : ScopeId) (u : Use) : (refer i u).Changing := by
  intro s _
  rcases h : (refer i u).outcome s with ⟨e | r, t⟩
  · rw [(refer_error h).1]
  · obtain ⟨-, -, rfl⟩ | ⟨-, -, rfl, -⟩ := refer_ok_iff.1 h
    · exact .refl
    · exact .single (.addReference u trivial)

/-! ### Closing -/

theorem changing_handUp (i : ScopeId) (r : ReferenceId) : (handUp i r).Changing := by
  have hpass : (modify (·.updateScope i (·.pass r)) : Action Unit).Changing :=
    changing_modify fun _ => .pass r trivial
  rw [handUp]
  refine (changing_scopeAt i).bind fun a => ?_
  cases a.upper with
  | none => exact hpass
  | some u =>
      refine (changing_scopeAt u).bind fun b => ?_
      cases b.isClosed with
      | true => exact changing_throw _
      | false => exact (changing_modify fun _ => .receive r trivial).bind fun _ => hpass

theorem changing_settle (i : ScopeId) (r : ReferenceId) : (settle i r).Changing := by
  intro s hs
  rcases h : (settle i r).outcome s with ⟨e | u, t⟩
  · simp only [settle, bind_error_iff, referenceAt_error_iff, referenceAt_ok_iff, need_error_iff,
      need_ok_iff, scopeAt_error_iff, scopeAt_ok_iff] at h
    obtain ⟨-, -, rfl⟩ | ⟨ref, _, ⟨hr, rfl⟩, ⟨-, -, rfl⟩ |
      ⟨key, _, ⟨-, rfl⟩, ⟨-, -, rfl⟩ | ⟨a, _, ⟨-, rfl⟩, h⟩⟩⟩ := h
    · exact .refl
    · exact .refl
    · exact .refl
    · -- A reference that finds a variable is tied to it without fail.
      cases hf : a.table.find? key with
      | some v =>
          rw [hf] at h
          simp [resolveTo, hr] at h
      | none =>
          rw [hf] at h
          exact (changing_handUp i r).changes hs h
  · exact (settle_changes hs h).mono fun _ _ => trivial

theorem changing_escape (i : ScopeId) (r : ReferenceId) : (escape i r).Changing :=
  fun s _ => changes_updateScopes (fun _ _ _ => .pass r trivial) s

theorem changing_openCandidates (table : Table VariableId) (l : List ReferenceId) :
    (openCandidates table l).Changing := by
  induction l with
  | nil => exact changing_pure []
  | cons r l ih =>
      refine (changing_referenceAt r).bind fun ref => ?_
      split
      · exact ih
      · exact (changing_need _).bind fun _ => ih.bind fun _ => changing_pure _

theorem changing_makeImplicit (i : ScopeId) (c : Candidate) : (makeImplicit i c).Changing := by
  intro s hs
  rcases h : (makeImplicit i c).outcome s with ⟨e | u, t⟩
  · simp only [makeImplicit, bind_error_iff, need_error_iff, need_ok_iff, modify_error_iff,
      and_false, exists_false, or_false] at h
    obtain h | ⟨_, _, h, ⟨-, -, rfl⟩ | ⟨_, _, ⟨-, rfl⟩, -, -, rfl⟩⟩ := h
    · exact (changing_define _ _ _).changes hs h
    · exact (changing_define _ _ _).changes hs h
    · exact (changing_define _ _ _).changes hs h
  · exact (makeImplicit_quiets hs h).changes.mono fun _ _ => trivial

theorem changing_bindImplicits (i : ScopeId) (a : Scope) (l : List ReferenceId) :
    (bindImplicits i a l).Changing := by
  rw [bindImplicits]
  split
  · exact (changing_openCandidates _ _).bind fun _ => changing_forM (changing_makeImplicit i) _
  · exact changing_pure ()

theorem changing_settleAll (i : ScopeId) (settled : Bool) (l : List ReferenceId) :
    (settleAll i settled l).Changing := by
  rw [settleAll]
  split
  · exact changing_forM (changing_settle i) l
  · exact changing_forM (changing_escape i) l

theorem changing_close (i : ScopeId) : (close i).Changing := by
  refine (changing_scopeAt i).bind fun a => ?_
  split
  · exact changing_throw _
  · refine (changing_bindImplicits _ _ _).bind fun _ => changing_get.bind fun _ =>
      (changing_settleAll _ _ _).bind fun _ =>
        (changing_modify fun _ => .shut trivial).bind fun _ =>
          (changing_scopeAt i).bind fun b => ?_
    split
    · exact (changing_record _).bind fun _ => changing_pure _
    · exact (changing_throw _).bind fun _ => changing_pure _

theorem changing_closeOwnedFrom (n : Node) (fuel : Nat) (i : Option ScopeId) :
    (closeOwnedFrom n fuel i).Changing := by
  induction fuel generalizing i with
  | zero => exact changing_pure ()
  | succ fuel ih =>
      cases i with
      | none => exact changing_pure ()
      | some i =>
          refine (changing_scopeAt i).bind fun a => ?_
          split
          · exact (changing_close i).bind ih
          · exact changing_pure ()

theorem changing_closeOwned (n : Node) (i : Option ScopeId) : (closeOwned n i).Changing :=
  changing_get.bind fun _ => changing_closeOwnedFrom n _ i

end Action

open LexScope.Action

/-! ### Walks -/

namespace Walk

theorem changing_resolve (c : ScopeId) (target : Target) : (target.resolve c).Changing := by
  cases target with
  | here => exact changing_pure c
  | hoisted => exact (changing_scopeAt c).bind fun _ => changing_pure _

theorem changing_referFrom (c : ScopeId) (u : Use) : (referFrom c u).Changing :=
  (changing_scopeAt c).bind fun _ => (changing_refer _ _).discard

mutual

theorem Event.changing : ∀ (e : Event) (c : Option ScopeId), (e.run c).Changing
  | .define target n d, c =>
      (changing_need c).bind fun i => (changing_resolve i target).bind fun j =>
        (changing_define j n d).discard
  | .refer u, c => (changing_need c).bind fun i => changing_referFrom i u
  | .callEval, c =>
      (changing_need c).bind fun i => (changing_resolve i .hoisted).bind changing_noteEval
  | .useThis, c =>
      (changing_need c).bind fun i => (changing_resolve i .hoisted).bind changing_noteThis
  | .needScope, c => (changing_need c).discard
  | .phase p, _ => changing_record (.phase p)
  | .fail e, _ => changing_throw e
  | .within kind n inside, c =>
      (changing_enter kind n c).bind fun i => (runAll_changing inside (some i)).bind fun _ =>
        (changing_close i).discard
  | .closeOwned n, c => changing_closeOwned n c

/-- **A walk is a run of changes**, whether it succeeds or fails. -/
theorem runAll_changing : ∀ (events : List Event) (c : Option ScopeId),
    (runAll events c).Changing
  | [], _ => changing_pure ()
  | e :: rest, c => (e.changing c).bind fun _ => runAll_changing rest c

end

end Walk

/-! ### Operations -/

theorem Operation.changing (op : Operation) : op.apply.Changing := by
  cases op with
  | nest n upper isMethod => exact (changing_nest n upper isMethod).bind fun _ => changing_pure _
  | enter kind n upper => exact (changing_enter kind n upper).bind fun _ => changing_pure _
  | define i n d => exact (changing_define i n d).bind fun _ => changing_pure _
  | defineArguments i =>
      refine (changing_scopeAt i).bind_of fun s t a _ ht ha => ?_
      obtain ⟨ha, rfl⟩ := scopeAt_ok_iff.1 ha
      have harguments : Changes (fun _ => True) t ((Action.defineArguments i).outcome t).2 :=
        (defineArguments_quiets rfl ha trivial).changes
      rw [outcome_bind_pure]
      exact harguments
  | refer i u => exact (changing_refer i u).bind fun _ => changing_pure _
  | noteEval i => exact (changing_noteEval i).bind fun _ => changing_pure _
  | noteThis i => exact (changing_noteThis i).bind fun _ => changing_pure _
  | visit n current =>
      exact (changing_get.bind fun _ => Walk.runAll_changing _ current).bind fun _ =>
        changing_pure _
  | close i => exact (changing_close i).bind fun _ => changing_pure _

/-- **Every operation is a run of changes**, whether it succeeds or fails. -/
theorem Operation.changes (op : Operation) {s : Store} (hs : s.Sound) :
    Changes (fun _ => True) s (op.applyTo s).2 := op.changing s hs

/-! ### Moments of walks -/

namespace Walk

variable {m m' : Moment} {ops : List Operation}

theorem Step.changes {op : Option Operation} (h : Step m op m') (hs : m.store.Sound) :
    Changes (fun _ => True) m.store m'.store := by
  obtain ⟨o, out, -, -, hop⟩ | ⟨-, -, heq | ⟨entry, heq⟩⟩ := h.store_cases
  · have hrun := o.changes hs
    rwa [hop] at hrun
  · exact heq ▸ .refl
  · rw [heq]
    exact .single (.quiet (.record entry))

/-- **Everything up to a moment of a walk is a run of changes.** -/
theorem Steps.changes (h : Steps m ops m') (hs : m.store.Sound) :
    Changes (fun _ => True) m.store m'.store := by
  induction h with
  | refl => exact .refl
  | more h _ ih =>
      have hstep := h.changes hs
      exact hstep.trans (ih (hstep.sound hs))

end Walk

end LexScope
