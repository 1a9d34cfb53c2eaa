import LexScope.Proofs.RewordStore
import LexScope.Proofs.Moment

/-!
# Proofs — RewordAction — what a reworded program does to its store

An action *mirrors* another one if it does in the reworded store what the other does in the store:
it comes to a related result in the reworded store of the end, or fails with an error that restates
the other's (`Mirrors`).  The relation passes through sequencing, so that it holds of every action
because it holds of the steps an action is made of.

A reference is settled by its name, and what becomes of a name depends on whether its node is an
identifier.  Every node that was referred from is one (`Store.Identified`), and stays so.

* `Retold.mirrors`: **events that are retold do the same in the reworded store.**
* `analyze_reword`: **so does the analysis of a whole program.**
-/

namespace LexScope

open Store LexScope.Action

/-- Everything that was referred from is an identifier. -/
def Store.Identified (s : Store) : Prop :=
  ∀ r ref, s.referenceAt? r = some ref → ref.identifier.isIdentifier = true

/-- What one action does in a store, another one does in the reworded store. -/
structure Mirrors {α β : Type} (w : Wording) (R : α → β → Prop) (x : Action α)
    (x' : Action β) : Prop where
  ok : ∀ {s t a}, s.Identified → x.outcome s = (.ok a, t) →
    t.Identified ∧ ∃ b, R a b ∧ x'.outcome (s.reword w) = (.ok b, t.reword w)
  error : ∀ {s t e}, s.Identified → x.outcome s = (.error e, t) →
    ∃ e', w.Restates e e' ∧ x'.outcome (s.reword w) = (.error e', t.reword w)

namespace Mirrors

variable {α β γ δ : Type} {w : Wording} {R : α → β → Prop} {S : γ → δ → Prop} {x : Action α}
  {x' : Action β} {f : α → Action γ} {f' : β → Action δ}

/-! ### Single steps -/

protected theorem pure {a : α} {b : β} (h : R a b) :
    Mirrors w R (Pure.pure a : Action α) (Pure.pure b : Action β) where
  ok hs hx := by
    obtain ⟨rfl, rfl⟩ := pure_ok_iff.1 hx
    exact ⟨hs, b, h, rfl⟩
  error _ hx := (pure_error_iff.1 hx).elim

protected theorem get : Mirrors w (fun s s' => s' = s.reword w) get get where
  ok hs hx := by
    obtain ⟨rfl, rfl⟩ := get_ok_iff.1 hx
    exact ⟨hs, _, rfl, rfl⟩
  error _ hx := (get_error_iff.1 hx).elim

protected theorem modify {f f' : Store → Store} (hid : ∀ s, s.Identified → (f s).Identified)
    (h : ∀ s : Store, (f s).reword w = f' (s.reword w)) :
    Mirrors w Eq (modify f : Action Unit) (modify f') where
  ok hs hx := by
    rw [modify_ok_iff.1 hx]
    exact ⟨hid _ hs, (), rfl, modify_ok_iff.2 (h _)⟩
  error _ hx := (modify_error_iff.1 hx).elim

/-- Changing a scope in the same way. -/
theorem updateScope {f f' : Scope → Scope} (i : ScopeId)
    (h : ∀ a, (f a).reword w = f' (a.reword w)) :
    Mirrors w Eq (modify (·.updateScope i f) : Action Unit) (modify (·.updateScope i f')) :=
  .modify (fun _ hs => hs) fun _ => reword_updateScope h

theorem record (entry : LogRecord) :
    Mirrors w Eq (Action.record entry) (Action.record (entry.reword w)) :=
  .modify (fun _ hs => hs) fun _ => reword_record entry

protected theorem throw {e e' : Error} (h : w.Restates e e') :
    Mirrors w R (throw e : Action α) (throw e' : Action β) where
  ok _ hx := (throw_ok_iff.1 hx).elim
  error _ hx := by
    obtain ⟨rfl, rfl⟩ := throw_error_iff.1 hx
    exact ⟨e', h, rfl⟩

theorem malformed : Mirrors w R (Action.malformed : Action α) (Action.malformed : Action β) :=
  .throw (.refl w _)

/-- What is needed is there in both stores or in neither. -/
theorem need_map (g : α → β) (o : Option α) :
    Mirrors w (fun a b => b = g a) (need o) (need (o.map g)) := by
  cases o with
  | none => exact .malformed
  | some a => exact .pure rfl

theorem need (o : Option α) : Mirrors w Eq (Action.need o) (Action.need o) := by
  cases o with
  | none => exact .malformed
  | some a => exact .pure rfl

/-! ### Sequencing -/

protected theorem bind (hx : Mirrors w R x x') (hf : ∀ a b, R a b → Mirrors w S (f a) (f' b)) :
    Mirrors w S (x >>= f) (x' >>= f') where
  ok hs h := by
    obtain ⟨a, t, ha, hfa⟩ := bind_ok_iff.1 h
    obtain ⟨ht, b, hab, hb⟩ := hx.ok hs ha
    obtain ⟨hu, d, hd, hfb⟩ := (hf a b hab).ok ht hfa
    exact ⟨hu, d, hd, bind_ok_iff.2 ⟨b, _, hb, hfb⟩⟩
  error hs h := by
    rcases bind_error_iff.1 h with hxe | ⟨a, t, ha, hfe⟩
    · obtain ⟨e', he, hxe'⟩ := hx.error hs hxe
      exact ⟨e', he, bind_error_iff.2 (.inl hxe')⟩
    · obtain ⟨ht, b, hab, hb⟩ := hx.ok hs ha
      obtain ⟨e', he, hfe'⟩ := (hf a b hab).error ht hfe
      exact ⟨e', he, bind_error_iff.2 (.inr ⟨b, _, hb, hfe'⟩)⟩

/-- A step whose results are equal. -/
theorem andThen {x x' : Action α} {f f' : α → Action γ} {S : γ → γ → Prop}
    (hx : Mirrors w Eq x x') (hf : ∀ a, Mirrors w S (f a) (f' a)) :
    Mirrors w S (x >>= f) (x' >>= f') :=
  hx.bind fun a _ h => h ▸ hf a

/-- What would come after an error does not matter. -/
theorem throw_bind {e e' : Error} (h : w.Restates e e') :
    Mirrors w S ((throw e : Action α) >>= f) ((throw e' : Action β) >>= f') :=
  .bind (R := fun _ _ => False) (.throw h) fun _ _ h => h.elim

theorem malformed_bind :
    Mirrors w S ((Action.malformed : Action α) >>= f) ((Action.malformed : Action β) >>= f') :=
  .throw_bind (.refl w _)

theorem discard (hx : Mirrors w R x x') :
    Mirrors w Eq (Functor.discard x) (Functor.discard x') where
  ok hs h := by
    obtain ⟨a, ha⟩ := discard_ok_iff.1 h
    obtain ⟨ht, b, -, hb⟩ := hx.ok hs ha
    exact ⟨ht, (), rfl, discard_ok_iff.2 ⟨b, hb⟩⟩
  error hs h := by
    obtain ⟨e', he, hx'⟩ := hx.error hs (discard_error_iff.1 h)
    exact ⟨e', he, discard_error_iff.2 hx'⟩

protected theorem ite {c : Prop} [Decidable c] {y : Action α} {y' : Action β}
    (hx : Mirrors w R x x') (hy : Mirrors w R y y') :
    Mirrors w R (if c then x else y) (if c then x' else y') := by
  split
  · exact hx
  · exact hy

protected theorem forM {ι κ : Type} {f : ι → Action Unit} {f' : κ → Action Unit} (g : ι → κ)
    (h : ∀ a, Mirrors w Eq (f a) (f' (g a))) (l : List ι) :
    Mirrors w Eq (l.forM f) ((l.map g).forM f') := by
  induction l with
  | nil => exact .pure rfl
  | cons a l ih =>
      rw [List.map_cons, List.forM, List.forM]
      exact (h a).andThen fun _ => ih

/-! ### Reading the store -/

theorem scopeAt (i : ScopeId) :
    Mirrors w (fun a b => b = a.reword w) (Action.scopeAt i) (Action.scopeAt i) := by
  refine .bind .get ?_
  rintro s _ rfl
  rw [scopeAt?_reword]
  exact .need_map _ _

theorem referenceAt (r : ReferenceId) :
    Mirrors w (fun a b => b = a.reword w ∧ a.identifier.isIdentifier = true)
      (Action.referenceAt r) (Action.referenceAt r) where
  ok hs h := by
    obtain ⟨href, rfl⟩ := referenceAt_ok_iff.1 h
    exact ⟨hs, _, ⟨rfl, hs r _ href⟩,
      referenceAt_ok_iff.2 ⟨by rw [referenceAt?_reword, href]; rfl, rfl⟩⟩
  error hs h := by
    obtain ⟨href, rfl, rfl⟩ := referenceAt_error_iff.1 h
    exact ⟨_, .refl w _, referenceAt_error_iff.2 ⟨by rw [referenceAt?_reword, href]; rfl, rfl, rfl⟩⟩

end Mirrors

namespace Action

variable {w : Wording} {s : Store}

/-! ### Opening and binding -/

theorem mirrors_openScope (kind : ScopeKind) (n : Node) (upper : Option ScopeId) :
    Mirrors w Eq (openScope kind n upper) (openScope kind (n.reword w) upper) := by
  refine .bind .get ?_
  rintro s _ rfl
  rw [strictAt?_reword]
  refine .andThen (.need _) fun above => .bind .get ?_
  rintro t _ rfl
  rw [isStrict?_reword]
  refine .andThen (.need _) fun strict => .bind .get ?_
  rintro u _ rfl
  rw [size_scopes_reword, Node.isObj_reword, Node.type_reword]
  refine .andThen (.modify (fun v hv r ref href => ?_) fun v => reword_addScope ..) fun _ => ?_
  · rw [referenceAt?_addScope] at href
    exact hv r ref href
  · dsimp only
    exact .ite (.andThen (.record _) fun _ => .pure rfl) .malformed_bind

theorem mirrors_bindNew (hw : w.Faithful) (i : ScopeId) (key : Name) (x : Variable) :
    Mirrors w Eq (bindNew i key x) (bindNew i (w.key key) (x.reword w)) := by
  refine .bind .get ?_
  rintro s _ rfl
  rw [size_vars_reword]
  exact .andThen (.modify (fun _ hs => hs) fun _ => reword_bindNew hw i key x) fun _ => .pure rfl

/-- The key of an identifier is the other name. -/
theorem mirrors_key {n : Node} (h : n.isIdentifier = true) :
    Mirrors w (fun a b => b = w.key a) (need (Name.ofTree? (n.value.get "name")))
      (need (Name.ofTree? ((n.reword w).value.get "name"))) := by
  rw [Node.name_reword w n h, Wording.ofTree?_relabel]
  exact .need_map _ _

theorem find?_reword (hw : w.Faithful) (a : Scope) (key : Name) :
    (a.reword w).table.find? (w.key key) = a.table.find? key :=
  Table.find?_mapNames (Wording.key_injective hw) a.table key

theorem mirrors_define (hw : w.Faithful) (i : ScopeId) (n : Node) (d : Definition) :
    Mirrors w (fun a b => b = a ∧ (n.isIdentifier = false → a = none)) (define i n d)
      (define i (n.reword w) (d.reword w)) := by
  unfold define
  rw [Node.isIdentifier_reword]
  cases hid : n.isIdentifier with
  | false => exact .pure ⟨rfl, fun _ => rfl⟩
  | true =>
      have hname := Node.name_reword w n hid
      refine .bind (mirrors_key hid) ?_
      rintro key _ rfl
      refine .bind (.scopeAt i) ?_
      rintro a _ rfl
      rw [find?_reword hw]
      cases a.table.find? key with
      | some v =>
          exact .andThen (.modify (fun _ hs => hs) fun _ => reword_addDefinition v d) fun _ =>
            .pure ⟨rfl, nofun⟩
      | none =>
          rw [hname]
          exact .andThen (mirrors_bindNew hw i key _) fun _ => .pure ⟨rfl, nofun⟩

theorem mirrors_defineArguments (hw : w.Faithful) (i : ScopeId) :
    Mirrors w Eq (defineArguments i) (defineArguments i) := by
  have h := mirrors_bindNew hw i (.text argumentsName) { name := .str argumentsName, scope := i }
  have hkey : w.key (.text argumentsName) = .text argumentsName :=
    congrArg Name.text hw.arguments
  have hvar : Variable.reword w { name := .str argumentsName, scope := i } =
      { name := .str argumentsName, scope := i } := by
    rw [Variable.reword, Tree.relabel_str, hw.arguments]
    rfl
  rwa [hkey, hvar] at h

theorem reword_ofFunction (n : Node) :
    Definition.ofFunction (n.reword w) = (Definition.ofFunction n).reword w := by
  rw [Definition.ofFunction, n.get_reword w (by decide)]
  rfl

theorem mirrors_provide (hw : w.Faithful) (kind : ScopeKind) (n : Node) (i : ScopeId) :
    Mirrors w Eq (provide kind n i) (provide kind (n.reword w) i) := by
  cases kind with
  | function =>
      rw [provide, provide, show (n.reword w).hasArguments = n.hasArguments from
        congrArg not (isArrow_reword w n)]
      exact .ite (mirrors_defineArguments hw i).discard (.pure rfl)
  | functionName =>
      rw [provide, provide, reword_ofFunction, n.get_reword w (by decide)]
      exact (mirrors_define hw i _ _).discard
  | _ => exact .pure rfl

theorem mirrors_enter (hw : w.Faithful) (kind : ScopeKind) (n : Node) (upper : Option ScopeId) :
    Mirrors w Eq (enter kind n upper) (enter kind (n.reword w) upper) :=
  .andThen (mirrors_openScope kind n upper) fun i =>
    .andThen (mirrors_provide hw kind n i) fun _ => .pure rfl

/-! ### References and flags -/

theorem mirrors_refer (i : ScopeId) (u : Use) :
    Mirrors w Eq (refer i u) (refer i (u.reword w)) := by
  have hid : (u.reword w).identifier.isIdentifier = u.identifier.isIdentifier :=
    u.identifier.isIdentifier_reword w
  unfold refer
  rw [hid]
  cases hu : u.identifier.isIdentifier with
  | false => exact .pure rfl
  | true =>
      refine .bind (.scopeAt i) ?_
      rintro a _ rfl
      dsimp only
      refine .ite (.throw_bind (Fault.on_reword w _ u.identifier)) (.bind .get ?_)
      rintro s _ rfl
      rw [size_references_reword]
      refine .andThen (.modify (fun t ht r ref href => ?_) fun t => reword_addReference i u)
        fun _ => .pure rfl
      -- The new reference is made from an identifier.
      obtain ⟨-, rfl⟩ | href := referenceAt?_addReference_cases href
      · exact hu
      · exact ht r ref href

theorem mirrors_noteEval (i : ScopeId) : Mirrors w Eq (noteEval i) (noteEval i) := by
  refine .bind (.scopeAt i) fun _ _ _ =>
    .modify (fun s hs r ref href => ?_) fun _ => reword_noteEval i
  rw [Store.noteEval, referenceAt?_updateScopes] at href
  exact hs r ref href

theorem mirrors_noteThis (i : ScopeId) : Mirrors w Eq (noteThis i) (noteThis i) :=
  .bind (.scopeAt i) fun _ _ _ => .modify (fun _ hs => hs) fun _ => reword_noteThis i

/-! ### Settling references -/

theorem mirrors_resolveTo (r : ReferenceId) (v : VariableId) :
    Mirrors w Eq (resolveTo r v) (resolveTo r v) := by
  refine .bind (.referenceAt r) ?_
  rintro ref _ ⟨rfl, -⟩
  refine .modify (fun s hs q ref' href => ?_) fun _ => reword_link ..
  obtain ⟨-, ref₀, href₀, rfl⟩ | ⟨-, href⟩ := referenceAt?_link_cases href
  · exact hs q ref₀ href₀
  · exact hs q ref' href

theorem mirrors_handUp (i : ScopeId) (r : ReferenceId) :
    Mirrors w Eq (handUp i r) (handUp i r) := by
  have hpass : Mirrors w Eq (modify (·.updateScope i (·.pass r)) : Action Unit)
      (modify (·.updateScope i (·.pass r))) := .updateScope i fun _ => rfl
  have hreceive : ∀ u, Mirrors w Eq (modify (·.updateScope u (·.receive r)) : Action Unit)
      (modify (·.updateScope u (·.receive r))) := fun u => .updateScope u fun _ => rfl
  refine .bind (.scopeAt i) ?_
  rintro a _ rfl
  have hupper : (a.reword w).upper = a.upper := rfl
  dsimp only
  rw [hupper]
  cases a.upper with
  | none => exact hpass
  | some u =>
      refine .bind (.scopeAt u) ?_
      rintro b _ rfl
      exact .ite .malformed_bind ((hreceive u).andThen fun _ => hpass)

theorem mirrors_settle (hw : w.Faithful) (i : ScopeId) (r : ReferenceId) :
    Mirrors w Eq (settle i r) (settle i r) := by
  refine .bind (.referenceAt r) ?_
  rintro ref _ ⟨rfl, hid⟩
  refine .bind (mirrors_key hid) ?_
  rintro key _ rfl
  refine .bind (.scopeAt i) ?_
  rintro a _ rfl
  rw [find?_reword hw]
  cases a.table.find? key with
  | some v => exact mirrors_resolveTo r v
  | none => exact mirrors_handUp i r

theorem mirrors_escape (i : ScopeId) (r : ReferenceId) :
    Mirrors w Eq (escape i r) (escape i r) := by
  refine .modify (fun s hs q ref href => ?_) fun s => ?_
  · exact hs q ref ((referenceAt?_updateScopes ..).symm.trans href)
  · rw [reword_updateScopes (f := (·.pass r)) fun _ => rfl, chain_reword]

theorem mirrors_settleAll (hw : w.Faithful) (i : ScopeId) (settled : Bool)
    (pending : List ReferenceId) :
    Mirrors w Eq (settleAll i settled pending) (settleAll i settled pending) := by
  have hsettle := Mirrors.forM id (fun r => mirrors_settle hw i r) pending
  have hescape := Mirrors.forM id (fun r => mirrors_escape (w := w) i r) pending
  rw [List.map_id] at hsettle hescape
  exact .ite hsettle hescape

/-! ### Implicit globals -/

theorem mirrors_openCandidates (hw : w.Faithful) (table : Table VariableId)
    (l : List ReferenceId) : Mirrors w (fun a b => b = a.map (Candidate.reword w))
      (openCandidates table l) (openCandidates (table.mapNames w.key) l) := by
  induction l with
  | nil => exact .pure rfl
  | cons r l ih =>
      refine .bind (.referenceAt r) ?_
      rintro ref _ ⟨rfl, hid⟩
      have hcandidate : (ref.reword w).candidate = ref.candidate.map (Candidate.reword w) := rfl
      rw [hcandidate]
      cases ref.candidate with
      | none => exact ih
      | some c =>
          refine .bind (mirrors_key hid) ?_
          rintro key _ rfl
          refine .bind ih ?_
          rintro others _ rfl
          rw [Table.find?_mapNames (Wording.key_injective hw)]
          refine .pure ?_
          split <;> rfl

theorem mirrors_makeImplicit (hw : w.Faithful) (i : ScopeId) (c : Candidate) :
    Mirrors w Eq (makeImplicit i c) (makeImplicit i (c.reword w)) := by
  refine .bind (mirrors_define hw i c.pattern
    { kind := .variable, name := c.pattern, node := c.node }) ?_
  rintro _ made ⟨rfl, hnone⟩
  cases hid : c.pattern.isIdentifier with
  | false =>
      rw [hnone hid]
      exact .malformed_bind
  | true =>
      refine .andThen (.need made) fun v => .bind (mirrors_key hid) ?_
      rintro key _ rfl
      exact .modify (fun _ hs => hs) fun _ => reword_bindImplicit hw i key v

theorem mirrors_bindImplicits (hw : w.Faithful) (i : ScopeId) (a : Scope)
    (pending : List ReferenceId) :
    Mirrors w Eq (bindImplicits i a pending) (bindImplicits i (a.reword w) pending) := by
  refine .ite (.bind (mirrors_openCandidates hw a.table pending) ?_) (.pure rfl)
  rintro cs _ rfl
  exact .forM _ (mirrors_makeImplicit hw i) cs

/-! ### Closing -/

theorem mirrors_close (hw : w.Faithful) (i : ScopeId) :
    Mirrors w Eq (close i) (close i) := by
  refine .bind (.scopeAt i) ?_
  rintro a _ rfl
  have hpending : (a.reword w).pending = a.pending := rfl
  rw [hpending]
  cases a.pending with
  | none => exact .throw (Fault.on_reword w _ a.block)
  | some pending =>
      refine .andThen (mirrors_bindImplicits hw i a pending) fun _ => .bind .get ?_
      rintro s _ rfl
      refine .andThen (mirrors_settleAll hw i _ pending) fun _ =>
        .andThen (.updateScope i fun _ => rfl) fun _ => .bind (.scopeAt i) ?_
      rintro b _ rfl
      have hobj : (b.reword w).block.isObj = b.block.isObj := b.block.isObj_reword w
      have htype : (b.reword w).block.type = b.block.type.reword w := b.block.type_reword w
      dsimp only
      rw [hobj, htype]
      exact .ite (.andThen (.record _) fun _ => .pure rfl) .malformed_bind

theorem mirrors_closeOwned (hw : w.Faithful) (n : Node) (i : Option ScopeId) :
    Mirrors w Eq (closeOwned n i) (closeOwned (n.reword w) i) := by
  refine .bind .get ?_
  rintro s _ rfl
  rw [size_scopes_reword]
  generalize s.scopes.size = fuel
  induction fuel generalizing i with
  | zero => exact .pure rfl
  | succ fuel ih =>
      cases i with
      | none => exact .pure rfl
      | some i =>
          refine .bind (.scopeAt i) ?_
          rintro a _ rfl
          rw [show (a.reword w).block.same (n.reword w) = a.block.same n from
            a.block.same_reword w n]
          exact .ite (.andThen (mirrors_close hw i) fun up => ih up) (.pure rfl)

end Action

/-! ### Whole walks -/

namespace Walk

variable {w : Wording}

theorem mirrors_resolve (target : Target) (c : ScopeId) :
    Mirrors w Eq (target.resolve c) (target.resolve c) := by
  cases target with
  | here => exact .pure rfl
  | hoisted =>
      refine .bind (.scopeAt c) ?_
      rintro a _ rfl
      exact .pure rfl

theorem mirrors_referFrom (c : ScopeId) (u : Use) :
    Mirrors w Eq (referFrom c u) (referFrom c (u.reword w)) := by
  refine .bind (.scopeAt c) ?_
  rintro a _ rfl
  have hstrict : (a.reword w).strict = a.strict := rfl
  rw [hstrict]
  cases a.strict with
  | false => exact (mirrors_refer c u).discard
  | true => exact (mirrors_refer c { u with candidate := none }).discard

/-- **Events in other words do in the reworded store what the events do in the store.** -/
theorem Retold.mirrors (hw : w.Faithful) {l l' : List Event} (h : Retold w l l')
    (c : Option ScopeId) : Mirrors w Eq (runAll l c) (runAll l' c) := by
  induction h generalizing c with
  | nil => exact .pure rfl
  | define target n d _ ih =>
      refine .andThen ?_ fun _ => ih c
      exact .andThen (.need c) fun c => .andThen (mirrors_resolve target c) fun i =>
        (mirrors_define hw i n d).discard
  | refer u _ ih =>
      exact .andThen (.andThen (.need c) fun c => mirrors_referFrom c u) fun _ => ih c
  | callEval _ ih =>
      exact .andThen (.andThen (.need c) fun c => .andThen (mirrors_resolve .hoisted c)
        mirrors_noteEval) fun _ => ih c
  | useThis _ ih =>
      exact .andThen (.andThen (.need c) fun c => .andThen (mirrors_resolve .hoisted c)
        mirrors_noteThis) fun _ => ih c
  | needScope _ ih => exact .andThen (Mirrors.need c).discard fun _ => ih c
  | phase p _ ih => exact .andThen (.record (.phase p)) fun _ => ih c
  | within kind n _ _ ihi ih =>
      refine .andThen ?_ fun _ => ih c
      exact .andThen (mirrors_enter hw kind n c) fun i => .andThen (ihi (some i)) fun _ =>
        (mirrors_close hw i).discard
  | closeOwned n _ ih => exact .andThen (mirrors_closeOwned hw n c) fun _ => ih c
  | fail l l' he => exact .throw_bind he

end Walk

theorem mirrors_analysis {w : Wording} (hw : w.Faithful) (tree : Tree) :
    Mirrors w Eq (analysis tree) (analysis (tree.reword w)) := by
  unfold analysis
  rw [Tree.isObj_reword, Tree.get_reword_type]
  dsimp only
  refine .ite .malformed_bind (.bind .get ?_)
  rintro s _ rfl
  refine .andThen (.record _) fun _ => .andThen (.bind .get ?_) fun _ => .bind .get ?_
  · rintro t _ rfl
    exact (Walk.plan_reword hw _ (.root tree)).mirrors hw none
  · rintro t _ rfl
    rw [size_scopes_reword]
    exact .record _

/-- **The analysis of a program in other words** returns what the analysis of the program returns,
in other words, or stops with an error that restates the other's. -/
theorem analyze_reword {w : Wording} (hw : w.Faithful) (o : Options) (tree : Tree) :
    (∀ s, analyze o tree = .ok s → analyze o (tree.reword w) = .ok (s.reword w) ∧ s.Identified) ∧
      ∀ e, analyze o tree = .error e →
        ∃ e', w.Restates e e' ∧ analyze o (tree.reword w) = .error e' := by
  have hnew : (Store.new o).Identified := fun r ref h => by cases h
  have hsame : (Store.new o).reword w = .new o := by
    simp only [Store.reword, Store.new, List.map_toArray, List.map_nil]
  have hm := mirrors_analysis hw tree
  refine ⟨fun s hs => ?_, fun e he => ?_⟩
  · rw [analyze, Walk.finish_eq] at hs
    split at hs
    · rename_i t ht
      obtain ⟨hid, b, -, hb⟩ := hm.ok hnew ht
      rw [hsame] at hb
      rw [← Except.ok.inj hs]
      exact ⟨by rw [analyze, Walk.finish_eq, hb], hid⟩
    · cases hs
  · rw [analyze, Walk.finish_eq] at he
    split at he
    · cases he
    · rename_i e₀ t ht
      obtain ⟨e', he', hb⟩ := hm.error hnew ht
      rw [hsame] at hb
      rw [← Except.error.inj he]
      exact ⟨e', he', by rw [analyze, Walk.finish_eq, hb]⟩

end LexScope
