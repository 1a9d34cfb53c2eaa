import LexScope.Proofs.Trace

/-!
# Proofs — Edits — what can happen to a scope

Of a scope, what it is (`Scope.frame`) and what was noted of it (`Flags`) make up its *bearing*.
Five things can happen to the bearings of a store and to the uses made in it (`Edit`): nothing, a
scope opens, a reference is made, `eval` is noted, `this` is noted.  Which references may be made is
a parameter, a relation `R`.

* `Still`: binding names and closing scopes leave every bearing and every use alone.
* `Operation.edits`, `analyze_edits`: **every operation and every analysis is a run of edits**,
  whether it succeeds or fails.
* `Walk.runAll_editing`: a walk makes no reference with a candidate in a strict scope (`Guarded`).
* `Edits.scope`, `Edits.around`: edits take nothing away.

What is claimed of every store that operations or an analysis can come to (`Arises`) is shown edit
by edit.
-/

namespace LexScope

open Store LexScope.Action

/-! ### Bearings -/

/-- What was noted of a scope. -/
structure Flags where
  dynamic : Bool
  callsEval : Bool
  usesThis : Bool
  deriving Repr, DecidableEq

namespace Scope

/-- The flags of a scope. -/
def flags (a : Scope) : Flags := ⟨a.dynamic, a.callsEval, a.usesThis⟩

/-- What a scope is, and what was noted of it. -/
def bearing (a : Scope) : (ScopeKind × Node × Option ScopeId × Bool × ScopeId) × Flags :=
  (a.frame, a.flags)

/-- One scope later on: it is what it was, and no flag is taken back. -/
structure Keeps (a b : Scope) : Prop where
  frame : b.frame = a.frame
  dynamic : a.dynamic = true → b.dynamic = true
  callsEval : a.callsEval = true → b.callsEval = true
  usesThis : a.usesThis = true → b.usesThis = true

variable {a b c : Scope}

theorem Keeps.refl (a : Scope) : a.Keeps a := ⟨rfl, id, id, id⟩

theorem Keeps.trans (h : a.Keeps b) (k : b.Keeps c) : a.Keeps c :=
  ⟨k.frame.trans h.frame, k.dynamic ∘ h.dynamic, k.callsEval ∘ h.callsEval,
    k.usesThis ∘ h.usesThis⟩

theorem Keeps.of_bearing (h : b.bearing = a.bearing) : a.Keeps b := by
  obtain ⟨hframe, hflags⟩ := Prod.mk.inj h
  have hf := Flags.mk.inj hflags
  exact ⟨hframe, hf.1 ▸ id, hf.2.1 ▸ id, hf.2.2 ▸ id⟩

/-! What the tables and the lists of a scope say is no part of its bearing. -/

theorem bearing_bind (a : Scope) (key : Name) (v : VariableId) :
    (a.bind key v).bearing = a.bearing := rfl

theorem bearing_bindImplicit (a : Scope) (key : Name) (v : VariableId) :
    (a.bindImplicit key v).bearing = a.bearing := rfl

theorem bearing_take (a : Scope) (r : ReferenceId) : (a.take r).bearing = a.bearing := rfl

theorem bearing_receive (a : Scope) (r : ReferenceId) : (a.receive r).bearing = a.bearing := rfl

theorem bearing_pass (a : Scope) (r : ReferenceId) : (a.pass r).bearing = a.bearing := rfl

theorem bearing_shut (a : Scope) : a.shut.bearing = a.bearing := rfl

end Scope

namespace Store

variable {A : ScopeId → Prop} {s t u : Store} {i j : ScopeId} {a b : Scope}

/-- The bearing of the scope with a given number. -/
def bearingAt? (s : Store) (i : ScopeId) :
    Option ((ScopeKind × Node × Option ScopeId × Bool × ScopeId) × Flags) :=
  (s.scopeAt? i).map (·.bearing)

/-- What the scope with a given number is. -/
def frameAt? (s : Store) (i : ScopeId) :
    Option (ScopeKind × Node × Option ScopeId × Bool × ScopeId) :=
  (s.scopeAt? i).map (·.frame)

/-- Two stores agree in the bearings of their scopes and in the uses made. -/
structure Agrees (s t : Store) : Prop where
  options : t.options = s.options
  bearing : ∀ i, t.bearingAt? i = s.bearingAt? i
  use : ∀ r, t.useAt? r = s.useAt? r

theorem Agrees.refl (s : Store) : s.Agrees s := ⟨rfl, fun _ => rfl, fun _ => rfl⟩

theorem Agrees.trans (h : s.Agrees t) (k : t.Agrees u) : s.Agrees u :=
  ⟨k.options.trans h.options, fun i => (k.bearing i).trans (h.bearing i),
    fun r => (k.use r).trans (h.use r)⟩

theorem Agrees.symm (h : s.Agrees t) : t.Agrees s :=
  ⟨h.options.symm, fun i => (h.bearing i).symm, fun r => (h.use r).symm⟩

/-- A scope has its likeness in a store that agrees. -/
theorem Agrees.scope (h : s.Agrees t) (ha : s.scopeAt? i = some a) :
    ∃ b, t.scopeAt? i = some b ∧ b.bearing = a.bearing := by
  have hi := h.bearing i
  rw [bearingAt?, bearingAt?, ha] at hi
  exact Option.map_eq_some_iff.1 hi

theorem Agrees.frameAt? (h : s.Agrees t) (i : ScopeId) : t.frameAt? i = s.frameAt? i := by
  have hi := congrArg (Option.map Prod.fst) (h.bearing i)
  rwa [bearingAt?, bearingAt?, Option.map_map, Option.map_map] at hi

/-- Where the same scopes are, there are as many. -/
theorem size_scopes_of_frame (h : ∀ i, t.frameAt? i = s.frameAt? i) :
    t.scopes.size = s.scopes.size := by
  have hnone : ∀ i, t.scopes.size ≤ i ↔ s.scopes.size ≤ i := by
    intro i
    rw [← scopeAt?_eq_none, ← scopeAt?_eq_none, ← Option.map_eq_none_iff (f := Scope.frame),
      ← Option.map_eq_none_iff (f := Scope.frame)]
    exact Eq.congr (h i) rfl
  exact le_antisymm ((hnone _).2 le_rfl) ((hnone _).1 le_rfl)

/-! ### Changes that no bearing shows -/

theorem agrees_updateScope (s : Store) (i : ScopeId) {f : Scope → Scope}
    (hf : ∀ a, (f a).bearing = a.bearing) : s.Agrees (s.updateScope i f) := by
  refine ⟨rfl, fun j => ?_, fun _ => rfl⟩
  rw [bearingAt?, scopeAt?_updateScope, bearingAt?]
  by_cases hj : i = j <;> cases s.scopeAt? j <;> simp [hj, hf]

theorem agrees_updateScopes (s : Store) (l : List ScopeId) {f : Scope → Scope}
    (hf : ∀ a, (f a).bearing = a.bearing) : s.Agrees (s.updateScopes l f) := by
  induction l generalizing s with
  | nil => exact .refl s
  | cons i l ih => exact (agrees_updateScope s i hf).trans (ih _)

theorem agrees_addDefinition (v : VariableId) (d : Definition) (s : Store) :
    s.Agrees (s.addDefinition v d) := ⟨rfl, fun _ => rfl, fun _ => rfl⟩

theorem agrees_link (r : ReferenceId) (origin : ScopeId) (v : VariableId) (s : Store) :
    s.Agrees (s.link r origin v) := by
  refine ⟨rfl, fun _ => rfl, fun q => ?_⟩
  rw [useAt?, referenceAt?_link, useAt?]
  by_cases hq : r = q <;> cases s.referenceAt? q <;> simp [hq]

theorem agrees_bindNew (i : ScopeId) (key : Name) (v : Variable) (s : Store) :
    s.Agrees (s.bindNew i key v) := by
  refine ⟨rfl, fun j => ?_, fun _ => rfl⟩
  rw [bearingAt?, scopeAt?_bindNew, bearingAt?]
  by_cases hj : i = j <;> cases s.scopeAt? j <;> simp [hj, Scope.bearing_bind]

end Store

/-! ### Actions that leave the bearings alone -/

namespace Action

variable {α β : Type}

/-- Whatever an action comes to, the bearings and the uses are the same afterwards. -/
def Still (x : Action α) : Prop := ∀ s : Store, s.Agrees (x.outcome s).2

theorem Still.agrees {x : Action α} (hx : x.Still) {s t : Store} {r : Except Error α}
    (h : x.outcome s = (r, t)) : s.Agrees t := by
  have hs := hx s
  rwa [h] at hs

theorem still_pure (a : α) : (pure a : Action α).Still := fun s => .refl s

theorem still_get : (get : Action Store).Still := fun s => .refl s

theorem still_throw (e : Error) : (throw e : Action α).Still := fun s => .refl s

theorem still_need (o : Option α) : (need o).Still := by
  cases o with
  | none => exact still_throw _
  | some a => exact still_pure a

theorem still_modify {f : Store → Store} (h : ∀ s : Store, s.Agrees (f s)) :
    (modify f : Action Unit).Still := h

theorem still_updateScope (i : ScopeId) {f : Scope → Scope}
    (hf : ∀ a, (f a).bearing = a.bearing) : (modify (·.updateScope i f) : Action Unit).Still :=
  still_modify fun s => agrees_updateScope s i hf

theorem still_record (entry : LogRecord) : (record entry).Still :=
  still_modify fun _ => ⟨rfl, fun _ => rfl, fun _ => rfl⟩

theorem Still.bind {x : Action α} {f : α → Action β} (hx : x.Still) (hf : ∀ a, (f a).Still) :
    (x >>= f).Still := by
  intro s
  rw [outcome_bind]
  rcases hs : x.outcome s with ⟨e | a, t⟩
  · exact hx.agrees hs
  · exact (hx.agrees hs).trans (hf a t)

theorem Still.discard {x : Action α} (hx : x.Still) : (discard x).Still := by
  intro s
  rw [outcome_discard]
  exact hx s

theorem still_forM {f : α → Action Unit} (hf : ∀ a, (f a).Still) (l : List α) :
    (l.forM f).Still := by
  induction l with
  | nil => exact still_pure ()
  | cons a l ih => exact (hf a).bind fun _ => ih

theorem still_scopeAt (i : ScopeId) : (scopeAt i).Still := still_get.bind fun _ => still_need _

theorem still_referenceAt (r : ReferenceId) : (referenceAt r).Still :=
  still_get.bind fun _ => still_need _

/-! ### Binding names -/

theorem still_bindNew (i : ScopeId) (key : Name) (v : Variable) : (bindNew i key v).Still :=
  still_get.bind fun _ => (still_modify (agrees_bindNew i key v)).bind fun _ => still_pure _

theorem still_define (i : ScopeId) (n : Node) (d : Definition) : (define i n d).Still := by
  rw [define]
  split
  · exact still_pure none
  · refine (still_need _).bind fun key => (still_scopeAt i).bind fun a => ?_
    split
    · exact (still_modify (agrees_addDefinition _ d)).bind fun _ => still_pure _
    · exact (still_bindNew _ _ _).bind fun _ => still_pure _

theorem still_provide (kind : ScopeKind) (n : Node) (i : ScopeId) : (provide kind n i).Still := by
  unfold provide
  split
  · split
    · exact (still_bindNew _ _ _).discard
    · exact still_pure ()
  · exact (still_define _ _ _).discard
  · exact still_pure ()

/-! ### Closing -/

theorem still_handUp (i : ScopeId) (r : ReferenceId) : (handUp i r).Still := by
  have hpass : (modify (·.updateScope i (·.pass r)) : Action Unit).Still :=
    still_updateScope i (·.bearing_pass r)
  rw [handUp]
  refine (still_scopeAt i).bind fun a => ?_
  cases a.upper with
  | none => exact hpass
  | some u =>
      refine (still_scopeAt u).bind fun b => ?_
      cases b.isClosed with
      | true => exact still_throw _
      | false => exact (still_updateScope u (·.bearing_receive r)).bind fun _ => hpass

theorem still_settle (i : ScopeId) (r : ReferenceId) : (settle i r).Still := by
  refine (still_referenceAt r).bind fun ref => (still_need _).bind fun key =>
    (still_scopeAt i).bind fun a => ?_
  split
  · exact (still_referenceAt r).bind fun _ => still_modify (agrees_link r _ _)
  · exact still_handUp i r

theorem still_escape (i : ScopeId) (r : ReferenceId) : (escape i r).Still :=
  still_modify fun s => agrees_updateScopes s (s.chain i) (·.bearing_pass r)

theorem still_openCandidates (table : Table VariableId) (l : List ReferenceId) :
    (openCandidates table l).Still := by
  induction l with
  | nil => exact still_pure []
  | cons r l ih =>
      refine (still_referenceAt r).bind fun ref => ?_
      split
      · exact ih
      · exact (still_need _).bind fun _ => ih.bind fun _ => still_pure _

theorem still_makeImplicit (i : ScopeId) (c : Candidate) : (makeImplicit i c).Still :=
  (still_define _ _ _).bind fun _ => (still_need _).bind fun _ => (still_need _).bind fun _ =>
    still_updateScope i (·.bearing_bindImplicit _ _)

theorem still_bindImplicits (i : ScopeId) (a : Scope) (l : List ReferenceId) :
    (bindImplicits i a l).Still := by
  rw [bindImplicits]
  split
  · exact (still_openCandidates _ _).bind fun _ => still_forM (still_makeImplicit i) _
  · exact still_pure ()

theorem still_settleAll (i : ScopeId) (settled : Bool) (l : List ReferenceId) :
    (settleAll i settled l).Still := by
  rw [settleAll]
  split
  · exact still_forM (still_settle i) l
  · exact still_forM (still_escape i) l

/-- **Closing a scope changes no bearing.** -/
theorem still_close (i : ScopeId) : (close i).Still := by
  refine (still_scopeAt i).bind fun a => ?_
  split
  · exact still_throw _
  · refine (still_bindImplicits _ _ _).bind fun _ => still_get.bind fun _ =>
      (still_settleAll _ _ _).bind fun _ =>
        (still_updateScope i (·.bearing_shut)).bind fun _ =>
          (still_scopeAt i).bind fun b => ?_
    split
    · exact (still_record _).bind fun _ => still_pure _
    · exact (still_throw _).bind fun _ => still_pure _

theorem still_closeOwnedFrom (n : Node) (fuel : Nat) (i : Option ScopeId) :
    (closeOwnedFrom n fuel i).Still := by
  induction fuel generalizing i with
  | zero => exact still_pure ()
  | succ fuel ih =>
      cases i with
      | none => exact still_pure ()
      | some i =>
          refine (still_scopeAt i).bind fun a => ?_
          split
          · exact (still_close i).bind ih
          · exact still_pure ()

theorem still_closeOwned (n : Node) (i : Option ScopeId) : (closeOwned n i).Still :=
  still_get.bind fun _ => still_closeOwnedFrom n _ i

end Action

/-! ### Edits -/

namespace Store

/-- One thing that can happen to the bearings of a store and to the uses made in it, where `R` says
which use may be made in which scope. -/
inductive Edit (R : Store → ScopeId → Use → Prop) (s : Store) : Store → Prop where
  | still {t : Store} (h : s.Agrees t) : Edit R s t
  | opens (kind : ScopeKind) (n : Node) {upper : Option ScopeId} {above strict : Bool}
      (ha : s.strictAt? upper = some above)
      (hs : isStrict? s.options kind n above = some strict) :
      Edit R s (s.addScope kind n upper strict)
  | refer {i : ScopeId} {u : Use} (h : R s i u) : Edit R s (s.addReference i u)
  | callsEval (i : ScopeId) : Edit R s (s.noteEval i)
  | usesThis (i : ScopeId) : Edit R s (s.noteThis i)

/-- Edits one after the other. -/
abbrev Edits (R : Store → ScopeId → Use → Prop) : Store → Store → Prop :=
  Relation.ReflTransGen (Edit R)

/-- A use that may be made by a walk: one in a scope that exists, and without a candidate if that
scope is strict. -/
def Guarded (s : Store) (i : ScopeId) (u : Use) : Prop :=
  ∃ a, s.scopeAt? i = some a ∧ (a.strict = true → u.candidate = none)

variable {R Q : Store → ScopeId → Use → Prop} {s t : Store} {i j : ScopeId} {a b : Scope}

theorem Edit.mono (hRQ : ∀ s i u, R s i u → Q s i u) (h : Edit R s t) : Edit Q s t := by
  cases h with
  | still h => exact .still h
  | opens kind n ha hs => exact .opens kind n ha hs
  | refer h => exact .refer (hRQ _ _ _ h)
  | callsEval i => exact .callsEval i
  | usesThis i => exact .usesThis i

theorem Edits.mono (hRQ : ∀ s i u, R s i u → Q s i u) (h : Edits R s t) : Edits Q s t := by
  induction h with
  | refl => exact .refl
  | tail _ h ih => exact ih.tail (h.mono hRQ)

end Store

namespace Action

variable {α β : Type} {R Q : Store → ScopeId → Use → Prop} {s : Store}

/-- Whatever an action comes to, it is a run of edits. -/
def Editing (R : Store → ScopeId → Use → Prop) (x : Action α) : Prop :=
  ∀ s : Store, Edits R s (x.outcome s).2

theorem Editing.edits {x : Action α} (hx : x.Editing R) {s t : Store} {r : Except Error α}
    (h : x.outcome s = (r, t)) : Edits R s t := by
  have hs := hx s
  rwa [h] at hs

theorem Still.editing {x : Action α} (h : x.Still) : x.Editing R := fun s => .single (.still (h s))

theorem Editing.mono (hRQ : ∀ s i u, R s i u → Q s i u) {x : Action α} (h : x.Editing R) :
    x.Editing Q := fun s => (h s).mono hRQ

theorem editing_modify {f : Store → Store} (h : ∀ s, Edit R s (f s)) :
    (modify f : Action Unit).Editing R := fun s => .single (h s)

theorem Editing.bind {x : Action α} {f : α → Action β} (hx : x.Editing R)
    (hf : ∀ a, (f a).Editing R) : (x >>= f).Editing R := by
  intro s
  rw [outcome_bind]
  rcases hs : x.outcome s with ⟨e | a, t⟩
  · exact hx.edits hs
  · exact (hx.edits hs).trans (hf a t)

/-! ### The actions, one by one -/

theorem editing_openScope (kind : ScopeKind) (n : Node) (upper : Option ScopeId) :
    (openScope kind n upper).Editing R := by
  intro s
  rw [openScope, outcome_bind_of_ok (outcome_get s)]
  -- Nothing has happened where the strictness is not known.
  cases ha : s.strictAt? upper with
  | none =>
      rw [outcome_bind_of_error (need_error_iff.2 ⟨rfl, rfl, rfl⟩)]
  | some above =>
      rw [outcome_bind_of_ok (outcome_need above s), outcome_bind_of_ok (outcome_get s)]
      cases hs : isStrict? s.options kind n above with
      | none => rw [outcome_bind_of_error (need_error_iff.2 ⟨rfl, rfl, rfl⟩)]
      | some strict =>
          rw [outcome_bind_of_ok (outcome_need strict s), outcome_bind_of_ok (outcome_get s),
            outcome_bind_of_ok (modify_ok_iff (u := ()).2 rfl)]
          refine .head (.opens kind n ha hs) (Still.editing ?_ _)
          split
          · exact (still_record _).bind fun _ => still_pure _
          · exact (still_throw _).bind fun _ => still_pure _

theorem editing_enter (kind : ScopeKind) (n : Node) (upper : Option ScopeId) :
    (enter kind n upper).Editing R :=
  (editing_openScope kind n upper).bind fun i =>
    ((still_provide kind n i).bind fun _ => still_pure i).editing

theorem editing_nest (n : Node) (upper : Option ScopeId) (isMethod : Bool) :
    (nest n upper isMethod).Editing R := by
  have hall : ∀ kinds up, (enterAll n kinds up).Editing R := by
    intro kinds
    induction kinds with
    | nil => exact fun up => (still_pure up).editing
    | cons kind rest ih => exact fun up => (editing_enter kind n up).bind fun i => ih (some i)
  exact (still_need _).editing.bind fun kinds => (hall kinds upper).bind fun _ =>
    (still_need _).editing

/-- Making a reference is an edit if the use may be made at the time. -/
theorem edits_refer {i : ScopeId} {u : Use} (h : R s i u) :
    Edits R s ((refer i u).outcome s).2 := by
  rcases hr : (refer i u).outcome s with ⟨e | r, t⟩
  · rw [(refer_error hr).1]
  · obtain ⟨-, -, rfl⟩ | ⟨-, -, rfl, -⟩ := refer_ok_iff.1 hr
    · exact .refl
    · exact .single (.refer h)

theorem editing_noteEval (i : ScopeId) : (noteEval i).Editing R :=
  (still_scopeAt i).editing.bind fun _ => editing_modify fun _ => .callsEval i

theorem editing_noteThis (i : ScopeId) : (noteThis i).Editing R :=
  (still_scopeAt i).editing.bind fun _ => editing_modify fun _ => .usesThis i

end Action

/-! ### Walks -/

namespace Walk

theorem still_resolve (c : ScopeId) (target : Target) : (target.resolve c).Still := by
  cases target with
  | here => exact still_pure c
  | hoisted => exact (still_scopeAt c).bind fun _ => still_pure _

/-- A use made by a walk leaves its candidate behind in a strict scope. -/
theorem editing_referFrom (c : ScopeId) (u : Use) : (referFrom c u).Editing Guarded := by
  intro s
  rw [referFrom]
  cases ha : s.scopeAt? c with
  | none => rw [outcome_bind_of_error (scopeAt_error_iff.2 ⟨ha, rfl, rfl⟩)]
  | some a =>
      rw [outcome_bind_of_ok (scopeAt_ok_iff.2 ⟨ha, rfl⟩), outcome_discard]
      exact edits_refer ⟨a, ha, fun hstrict => by rw [if_pos hstrict]⟩

mutual

theorem Event.editing : ∀ (e : Event) (c : Option ScopeId), (e.run c).Editing Guarded
  | .define target n d, c =>
      ((still_need c).bind fun i => (still_resolve i target).bind fun j =>
        (still_define j n d).discard).editing
  | .refer u, c => (still_need c).editing.bind fun i => editing_referFrom i u
  | .callEval, c =>
      (still_need c).editing.bind fun i => (still_resolve i .hoisted).editing.bind editing_noteEval
  | .useThis, c =>
      (still_need c).editing.bind fun i => (still_resolve i .hoisted).editing.bind editing_noteThis
  | .needScope, c => (still_need c).discard.editing
  | .phase p, _ => (still_record (.phase p)).editing
  | .fail e, _ => (still_throw e).editing
  | .within kind n inside, c =>
      (editing_enter kind n c).bind fun i => (runAll_editing inside (some i)).bind fun _ =>
        (still_close i).discard.editing
  | .closeOwned n, c => (still_closeOwned n c).editing

/-- **A walk is a run of edits**, and makes no reference with a candidate in a strict scope. -/
theorem runAll_editing : ∀ (events : List Event) (c : Option ScopeId),
    (runAll events c).Editing Guarded
  | [], _ => (still_pure ()).editing
  | e :: rest, c => (e.editing c).bind fun _ => runAll_editing rest c

end

end Walk

theorem Action.editing_visit (n : Node) (c : Option ScopeId) : (visit n c).Editing Guarded :=
  still_get.editing.bind fun _ => Walk.runAll_editing _ c

/-- Every use. -/
def Store.AnyUse (_ : Store) (_ : ScopeId) (_ : Use) : Prop := True

/-- **Every operation is a run of edits**, whether it succeeds or fails. -/
theorem Operation.edits (op : Operation) (s : Store) : Edits AnyUse s (op.applyTo s).2 := by
  suffices h : op.apply.Editing AnyUse from h s
  cases op with
  | nest n upper isMethod =>
      exact (editing_nest n upper isMethod).bind fun _ => (still_pure _).editing
  | enter kind n upper => exact (editing_enter kind n upper).bind fun _ => (still_pure _).editing
  | define i n d => exact ((still_define i n d).bind fun _ => still_pure _).editing
  | defineArguments i =>
      exact ((still_scopeAt i).bind fun _ => (still_bindNew i _ _).bind fun _ =>
        still_pure _).editing
  | refer i u =>
      have hrefer : (Action.refer i u).Editing AnyUse := fun s => edits_refer trivial
      exact hrefer.bind fun _ => (still_pure _).editing
  | noteEval i => exact (editing_noteEval i).bind fun _ => (still_pure _).editing
  | noteThis i => exact (editing_noteThis i).bind fun _ => (still_pure _).editing
  | visit n current =>
      exact ((editing_visit n current).mono fun _ _ _ _ => trivial).bind fun _ =>
        (still_pure _).editing
  | close i => exact ((still_close i).bind fun _ => still_pure _).editing

/-- What operations come to, one after the other, is a run of edits. -/
theorem Store.after_edits (s : Store) (ops : List Operation) : Edits AnyUse s (s.after ops) := by
  induction ops generalizing s with
  | nil => exact .refl
  | cons op ops ih => exact (op.edits s).trans (ih _)

theorem editing_analysis (tree : Tree) : (analysis tree).Editing Guarded := by
  have hrest : (do
      let options := (← get).options
      Action.record (.analyzing (tree.get "type") options.ecmaVersion options.sourceType)
      Action.visit (.root tree) none
      Action.record (.analyzed (← get).scopes.size) : Action Unit).Editing Guarded :=
    still_get.editing.bind fun _ => (still_record _).editing.bind fun _ =>
      (editing_visit _ _).bind fun _ => (still_get.bind fun _ => still_record _).editing
  rw [analysis]
  split
  · exact (still_throw _).editing.bind fun _ => hrest
  · exact hrest

/-- An analysis that returns is the run of its action. -/
theorem outcome_of_analyze {o : Options} {tree : Tree} {s : Store} (h : analyze o tree = .ok s) :
    (analysis tree).outcome (.new o) = (.ok (), s) := by
  rw [analyze, Walk.finish_eq] at h
  rcases hx : (analysis tree).outcome (.new o) with ⟨e | u, t⟩
  · rw [hx] at h
    cases h
  · rw [hx] at h
    rw [Except.ok.inj h]

/-- **An analysis is a run of edits.** -/
theorem analyze_edits {o : Options} {tree : Tree} {s : Store} (h : analyze o tree = .ok s) :
    Edits Guarded (.new o) s := (editing_analysis tree).edits (outcome_of_analyze h)

/-! ### What edits leave as it is -/

namespace Store

variable {R : Store → ScopeId → Use → Prop} {s t : Store} {i j : ScopeId} {a : Scope}

theorem frameAt?_addReference (s : Store) (i : ScopeId) (u : Use) (j : ScopeId) :
    (s.addReference i u).frameAt? j = s.frameAt? j := by
  rw [frameAt?, scopeAt?_addReference, frameAt?]
  by_cases hj : i = j <;> cases s.scopeAt? j <;> simp [hj, Scope.take, Scope.frame]

/-- Noting a call marks the scope that calls, and makes dynamic every scope on the way up. -/
theorem scopeAt?_noteEval (hs : s.Rooted) (i j : ScopeId) :
    (s.noteEval i).scopeAt? j = (s.scopeAt? j).map fun a =>
      { a with
        callsEval := a.callsEval || decide (j = i)
        dynamic := a.dynamic || decide (j ∈ s.chain i) } := by
  rw [noteEval, scopeAt?_updateScopes _ (nodup_chain hs i), scopeAt?_updateScope]
  cases s.scopeAt? j with
  | none => by_cases hj : i = j <;> simp [hj]
  | some a =>
      by_cases hj : i = j
      · subst hj
        simp [self_mem_chain]
      · by_cases hc : j ∈ s.chain i <;> simp [hj, hc, Ne.symm hj]

theorem scopeAt?_noteThis (s : Store) (i j : ScopeId) :
    (s.noteThis i).scopeAt? j = (s.scopeAt? j).map fun a =>
      { a with usesThis := a.usesThis || decide (j = i) } := by
  rw [noteThis, scopeAt?_updateScope]
  by_cases hj : i = j
  · subst hj
    cases s.scopeAt? i <;> simp
  · cases s.scopeAt? j <;> simp [hj, Ne.symm hj]

theorem frameAt?_noteEval (hs : s.Rooted) (i j : ScopeId) :
    (s.noteEval i).frameAt? j = s.frameAt? j := by
  rw [frameAt?, scopeAt?_noteEval hs, Option.map_map]
  rfl

theorem frameAt?_noteThis (s : Store) (i j : ScopeId) :
    (s.noteThis i).frameAt? j = s.frameAt? j := by
  rw [frameAt?, scopeAt?_noteThis, Option.map_map]
  rfl

/-- An edit leaves every scope what it is, or opens a scope. -/
theorem Edit.frames (h : Edit R s t) (hs : s.Rooted) :
    (∀ i, t.frameAt? i = s.frameAt? i) ∨
      ∃ kind n upper above strict, s.strictAt? upper = some above ∧
        isStrict? s.options kind n above = some strict ∧ t = s.addScope kind n upper strict := by
  cases h with
  | still h => exact .inl h.frameAt?
  | opens kind n ha hstrict => exact .inr ⟨kind, n, _, _, _, ha, hstrict, rfl⟩
  | refer h => exact .inl (frameAt?_addReference s _ _)
  | callsEval i => exact .inl (frameAt?_noteEval hs i)
  | usesThis i => exact .inl (frameAt?_noteThis s i)

theorem Edit.options (h : Edit R s t) : t.options = s.options := by
  cases h with
  | still h => exact h.options
  | opens kind n ha hs => exact options_addScope ..
  | refer h => rfl
  | callsEval i => exact options_updateScopes ..
  | usesThis i => rfl

theorem Edit.rooted (h : Edit R s t) (hs : s.Rooted) : t.Rooted := by
  rcases h.frames hs with hf | ⟨kind, n, upper, above, strict, ha, -, rfl⟩
  · exact rooted_of_frame hs hf
  · exact rooted_addScope hs kind n strict (upper_lt_of_strictAt? ha)

/-- **An edit takes nothing from a scope.** -/
theorem Edit.scope (h : Edit R s t) (hs : s.Rooted) (ha : s.scopeAt? i = some a) :
    ∃ b, t.scopeAt? i = some b ∧ a.Keeps b := by
  cases h with
  | still h =>
      obtain ⟨b, hb, hab⟩ := h.scope ha
      exact ⟨b, hb, .of_bearing hab⟩
  | @opens kind n upper above strict habove _ =>
      obtain ⟨l, hb⟩ := scopeAt?_addScope_keep (upper_lt_of_strictAt? habove) ha
      exact ⟨_, hb, .of_bearing rfl⟩
  | @refer k u _ =>
      refine ⟨if k = i then a.take s.references.size else a, ?_, ?_⟩
      · rw [scopeAt?_addReference, ha]
        by_cases hk : k = i <;> simp [hk]
      · split
        · exact .of_bearing (a.bearing_take _)
        · exact .refl a
  | callsEval k =>
      refine ⟨_, (scopeAt?_noteEval hs k i).trans (congrArg _ ha), rfl, fun hd => ?_, fun hc => ?_,
        id⟩
      · simp [hd]
      · simp [hc]
  | usesThis k =>
      refine ⟨_, (scopeAt?_noteThis s k i).trans (congrArg _ ha), rfl, id, id, fun hu => ?_⟩
      simp [hu]

/-- A use was there before an edit, or it is one that may be made. -/
theorem Edit.use {r : ReferenceId} {u : Use} (h : Edit R s t) (hu : t.useAt? r = some (u, i)) :
    s.useAt? r = some (u, i) ∨ R s i u := by
  cases h with
  | still h => exact .inl (h.use r ▸ hu)
  | opens kind n _ _ => exact .inl (by rwa [useAt?, referenceAt?_addScope] at hu)
  | @refer k v hR =>
      rw [useAt?, referenceAt?_addReference] at hu
      by_cases hr : r = s.references.size
      · rw [if_pos hr] at hu
        obtain ⟨rfl, rfl⟩ := Prod.mk.inj (Option.some.inj hu)
        exact .inr hR
      · rw [if_neg hr] at hu
        exact .inl hu
  | callsEval k => exact .inl (by rwa [useAt?, noteEval, referenceAt?_updateScopes] at hu)
  | usesThis k => exact .inl hu

theorem Edits.options (h : Edits R s t) : t.options = s.options := by
  induction h with
  | refl => rfl
  | tail _ h ih => exact h.options.trans ih

theorem Edits.rooted (h : Edits R s t) (hs : s.Rooted) : t.Rooted := by
  induction h with
  | refl => exact hs
  | tail _ h ih => exact h.rooted ih

/-- **Edits take nothing from a scope**: it stays what it is, and keeps its flags. -/
theorem Edits.scope (h : Edits R s t) (hs : s.Rooted) (ha : s.scopeAt? i = some a) :
    ∃ b, t.scopeAt? i = some b ∧ a.Keeps b := by
  induction h with
  | refl => exact ⟨a, ha, .refl a⟩
  | tail h' h ih =>
      obtain ⟨b, hb, hab⟩ := ih
      obtain ⟨c, hc, hbc⟩ := h.scope (Edits.rooted h' hs) hb
      exact ⟨c, hc, hab.trans hbc⟩

theorem Edits.frameAt? (h : Edits R s t) (hs : s.Rooted) (hi : i < s.scopes.size) :
    t.frameAt? i = s.frameAt? i := by
  obtain ⟨a, ha⟩ := scopeAt?_of_lt hi
  obtain ⟨b, hb, hab⟩ := h.scope hs ha
  rw [Store.frameAt?, Store.frameAt?, ha, hb, Option.map_some, Option.map_some, hab.frame]

/-- The way up from a scope stays the same. -/
theorem Edits.chain (h : Edits R s t) (hs : s.Rooted) (hi : i < s.scopes.size) :
    t.chain i = s.chain i := by
  refine chain_congr hs (h.rooted hs) fun j hj => ?_
  have hf := congrArg (Option.map fun f => f.2.2.1)
    (h.frameAt? hs ((le_of_mem_chain hs hj).trans_lt hi))
  rw [Store.frameAt?, Store.frameAt?, Option.map_map, Option.map_map] at hf
  rw [upperOf, upperOf]
  cases hb : t.scopeAt? j <;> cases ha : s.scopeAt? j <;> rw [ha, hb] at hf <;> simp at hf ⊢
  exact hf

/-- What is around a scope stays the same. -/
theorem Edits.around (h : Edits R s t) (hs : s.Rooted) (hi : i < s.scopes.size) :
    t.around i = s.around i := by
  rw [Store.around, Store.around, h.chain hs hi]
  refine List.filterMap_congr fun j hj => ?_
  have hf := congrArg (Option.map fun f => (f.1, f.2.1))
    (h.frameAt? hs ((le_of_mem_chain hs hj).trans_lt hi))
  rwa [Store.frameAt?, Store.frameAt?, Option.map_map, Option.map_map] at hf

theorem Edits.variableScope? (h : Edits R s t) (hs : s.Rooted) (hi : i < s.scopes.size) :
    t.variableScope? i = s.variableScope? i := by
  have hf := congrArg (Option.map fun f => f.2.2.2.2) (h.frameAt? hs hi)
  rwa [Store.frameAt?, Store.frameAt?, Option.map_map, Option.map_map] at hf

/-- The number of scopes never falls. -/
theorem Edits.size_le (h : Edits R s t) (hs : s.Rooted) : s.scopes.size ≤ t.scopes.size := by
  by_contra hlt
  obtain ⟨a, ha⟩ := scopeAt?_of_lt (not_le.1 hlt)
  obtain ⟨b, hb, -⟩ := h.scope hs ha
  exact absurd (scopeAt?_lt hb) (lt_irrefl _)

/-- The stores that operations by hand or an analysis come to, whatever fails on the way. -/
inductive Arises (o : Options) : Store → Prop where
  | operations (ops : List Operation) : Arises o ((Store.new o).after ops)
  | analysis {tree : Tree} {s : Store} (h : analyze o tree = .ok s) : Arises o s

theorem Arises.edits {o : Options} (h : Arises o s) : Edits AnyUse (.new o) s := by
  cases h with
  | operations ops => exact after_edits _ ops
  | analysis h => exact (analyze_edits h).mono fun _ _ _ _ => trivial

theorem Arises.rooted {o : Options} (h : Arises o s) : s.Rooted :=
  h.edits.rooted (Sound.new o).rooted

theorem Arises.options {o : Options} (h : Arises o s) : s.options = o := h.edits.options

/-- What an opening adds to what scopes are. -/
theorem frameAt?_addScope (kind : ScopeKind) (n : Node) {upper : Option ScopeId} {above : Bool}
    (strict : Bool) (ha : s.strictAt? upper = some above) (i : ScopeId) :
    (s.addScope kind n upper strict).frameAt? i =
      if i = s.scopes.size then some (s.freshScope kind n upper strict).frame
      else s.frameAt? i := by
  rw [frameAt?, scopeAt?_addScope s kind n upper strict (upper_lt_of_strictAt? ha), frameAt?]
  by_cases hi : i = s.scopes.size
  · rw [if_pos hi, if_pos hi, Option.map_some]
  · rw [if_neg hi, if_neg hi]
    cases s.scopeAt? i with
    | none => rfl
    | some a => by_cases hu : upper = some i <;> simp [hu, Scope.adopt, Scope.frame]

end Store

end LexScope
