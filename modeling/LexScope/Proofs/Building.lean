import LexScope.Proofs.Lockstep

/-!
# Proofs — Building — stores in which nothing was closed

A store is *built* when scopes were opened in it, names bound, references made and flags set, by
hand, in any order and in any scopes, and nothing was closed (`Store.Built`).  In such a store all
scopes are open, every reference waits where it was made, no variable has references, and none was
made for a write (`Store.Unclosed`).

A variable is on the *stack* until a reference is resolved to it from another variable scope.  The
flag says no more than the references do (`Store.Stacked`), so it does not matter in which order
they came; a close keeps this (`Stacked.close`).

* `Built.unclosed`: every operation that builds keeps a store unclosed.
-/

namespace LexScope

open Store LexScope.Action

/-! ### What a variable is tied to -/

/-- The part of a variable that resolving changes, and the scope that it depends on. -/
def Variable.ties (v : Variable) : ScopeId × List ReferenceId × Bool :=
  (v.scope, v.references, v.stack)

/-- Whether nothing was resolved to a variable. -/
def Variable.Idle (v : Variable) : Prop := v.references = [] ∧ v.stack = true

theorem Variable.Idle.of_ties {x y : Variable} (hx : x.Idle) (h : y.ties = x.ties) : y.Idle := by
  simp only [Variable.ties, Prod.mk.injEq] at h
  exact ⟨h.2.1.trans hx.1, h.2.2.trans hx.2⟩

namespace Store

variable {A : ScopeId → Prop} {s t u s' : Store} {i j : ScopeId} {r : ReferenceId} {a : Scope}

/-- Variables that there were keep their ties, and new ones are idle. -/
def Retied (s t : Store) : Prop := ∀ v y, t.variableAt? v = some y →
  y.Idle ∨ ∃ x, s.variableAt? v = some x ∧ y.ties = x.ties

theorem Retied.refl (s : Store) : Retied s s := fun _ y hy => .inr ⟨y, hy, rfl⟩

theorem Retied.trans (h : Retied s t) (k : Retied t u) : Retied s u := by
  intro v z hz
  obtain hidle | ⟨y, hy, hyz⟩ := k v z hz
  · exact .inl hidle
  obtain hidle | ⟨x, hx, hxy⟩ := h v y hy
  · exact .inl (hidle.of_ties hyz)
  · exact .inr ⟨x, hx, hyz.trans hxy⟩

theorem retied_of_variableAt? (h : ∀ v, t.variableAt? v = s.variableAt? v) : Retied s t :=
  fun v y hy => .inr ⟨y, (h v).symm.trans hy, rfl⟩

theorem retied_bindNew (key : Name) {var : Variable} (h : var.Idle) :
    Retied s (s.bindNew i key var) := by
  intro v y hy
  obtain ⟨-, rfl⟩ | hy := variableAt?_bindNew_cases hy
  · exact .inl h
  · exact .inr ⟨y, hy, rfl⟩

theorem retied_addDefinition (v : VariableId) (d : Definition) :
    Retied s (s.addDefinition v d) := by
  intro w y hy
  obtain ⟨-, x, hx, rfl⟩ | ⟨-, hy⟩ := variableAt?_addDefinition_cases hy
  · exact .inr ⟨x, hx, rfl⟩
  · exact .inr ⟨y, hy, rfl⟩

end Store

namespace Action

variable {s s' : Store} {i : ScopeId} {n : Node}

theorem define_retied {d : Definition} {w : Option VariableId}
    (h : (define i n d).outcome s = (.ok w, s')) : Retied s s' := by
  obtain ⟨-, -, rfl⟩ | ⟨-, key, a, -, -, ⟨v, -, -, rfl⟩ | ⟨-, -, rfl⟩⟩ := define_ok_iff.1 h
  · exact .refl _
  · exact retied_addDefinition v d
  · exact retied_bindNew key ⟨rfl, rfl⟩

theorem enter_retied {kind : ScopeKind} {upper : Option ScopeId}
    (h : (enter kind n upper).outcome s = (.ok i, s')) : Retied s s' := by
  obtain ⟨t, ho, hp⟩ := enter_ok_iff.1 h
  obtain ⟨above, strict, -, -, -, -, rfl⟩ := openScope_ok_iff.1 ho
  have ht : Retied s ((s.addScope kind n upper strict).record
      (.opened kind s.scopes.size n.type strict)) :=
    retied_of_variableAt? fun v => by simp
  obtain rfl | ⟨v, hv⟩ | ⟨w, hw⟩ := provide_ok hp
  · exact ht
  · rw [(bindNew_ok_iff.1 hv).2]
    exact ht.trans (retied_bindNew _ ⟨rfl, rfl⟩)
  · exact ht.trans (define_retied hw)

theorem makeImplicit_retied {c : Candidate} (h : (makeImplicit i c).outcome s = (.ok (), s')) :
    Retied s s' := by
  obtain ⟨v, t, key, hd, -, rfl⟩ := makeImplicit_ok_iff.1 h
  exact (define_retied hd).trans (retied_of_variableAt? fun _ => rfl)

theorem bindImplicits_retied {scope : Scope} {pending : List ReferenceId}
    (h : (bindImplicits i scope pending).outcome s = (.ok (), s')) : Retied s s' :=
  bindImplicits_induction (P := Retied s) h (.refl s) fun _ _ _ ht hm =>
    ht.trans (makeImplicit_retied hm)

end Action

/-! ### Variables on the stack -/

namespace Store

variable {A : ScopeId → Prop} {s t u s' : Store} {i j : ScopeId} {r : ReferenceId} {a : Scope}

/-- Whether a reference was made in the variable scope of a given scope. -/
def stays (s : Store) (j : ScopeId) (r : ReferenceId) : Bool :=
  (s.referenceAt? r).any fun ref => decide (s.variableScope? ref.scope = s.variableScope? j)

/-- A variable is on the stack if all references to it stay in its variable scope. -/
def Stacked (s : Store) : Prop :=
  ∀ v x, s.variableAt? v = some x → x.stack = x.references.all (s.stays x.scope)

theorem Twin.variableScope? (h : Twin s t) (j : ScopeId) :
    t.variableScope? j = s.variableScope? j := by
  have hj := congrArg (Option.map Outline.variableScope) (h.outline j)
  rw [outlineAt?, outlineAt?, Option.map_map, Option.map_map] at hj
  exact hj

theorem Twin.stays (h : Twin s t) (j : ScopeId) (r : ReferenceId) : t.stays j r = s.stays j r := by
  rw [Store.stays, Store.stays]
  cases hr : s.referenceAt? r with
  | none => rw [referenceAt?_eq_none_of_use (h.use r) hr]; rfl
  | some ref =>
      obtain ⟨ref', href', -, hscope⟩ := h.referenceAt? hr
      rw [href', Option.any_some, Option.any_some, hscope, h.variableScope?, h.variableScope?]

theorem stays_updateScope {f : Scope → Scope} (hf : ∀ a, (f a).variableScope = a.variableScope)
    (j : ScopeId) (r : ReferenceId) : (s.updateScope i f).stays j r = s.stays j r := by
  have hv : ∀ k, (s.updateScope i f).variableScope? k = s.variableScope? k := by
    intro k
    rw [Store.variableScope?, Store.variableScope?, scopeAt?_updateScope]
    split
    · cases s.scopeAt? k <;> simp [hf]
    · rfl
  simp only [Store.stays, hv, referenceAt?_updateScope]

/-- Where ties stay, variables stay on the stack. -/
theorem Stacked.keep (h : s.Stacked) (ht : ∀ j r, t.stays j r = s.stays j r)
    (hr : Retied s t) : t.Stacked := by
  intro v y hy
  obtain ⟨hrefs, hstack⟩ | ⟨x, hx, heq⟩ := hr v y hy
  · rw [hrefs, hstack]
    rfl
  · simp only [Variable.ties, Prod.mk.injEq] at heq
    rw [heq.2.1, heq.2.2, heq.1, h v x hx]
    exact congrArg _ (funext fun r => (ht x.scope r).symm)

theorem Stacked.link {ref : Reference} {v : VariableId} (h : s.Stacked)
    (href : s.referenceAt? r = some ref) : (s.link r ref.scope v).Stacked := by
  intro w y hy
  have hstays : (s.link r ref.scope v).stays = s.stays :=
    funext fun j => funext fun q => (twin_link r ref.scope v).stays j q
  obtain ⟨-, x, hx, rfl⟩ | ⟨-, hy⟩ := variableAt?_link_cases hy
  · simp only [hstays, List.all_append, h w x hx, Store.stays, href, List.all_cons, List.all_nil,
      Bool.and_true, Option.any_some]
  · rw [hstays]
    exact h w y hy

end Store

section

variable {s s' : Store} {i : ScopeId}

theorem Store.Stacked.settle {r : ReferenceId} (h : s.Stacked)
    (hr : (settle i r).outcome s = (.ok (), s')) : s'.Stacked := by
  obtain ⟨ref, key, a, href, -, -, ⟨v, -, rfl⟩ | ⟨-, hup⟩⟩ := settle_ok_iff.1 hr
  · exact h.link href
  · refine h.keep (settle_twin hr).stays (retied_of_variableAt? fun v => ?_)
    obtain ⟨a, -, ⟨-, rfl⟩ | ⟨w, above, -, -, -, rfl⟩⟩ := handUp_ok_iff.1 hup <;> rfl

/-- **Closing a scope keeps the flags of variables true.** -/
theorem Store.Stacked.close {up : Option ScopeId} (h : s.Stacked) (hs : s.Sound)
    (hown : s.OwnCandidates) (hi : s.implicitAt i = [])
    (hc : (close i).outcome s = (.ok up, s')) : s'.Stacked := by
  obtain ⟨a, pending, t, u, last, ha, -, himp, hset, -, -, -, rfl⟩ := close_ok_iff.1 hc
  have ht : t.Stacked := h.keep
    (bindImplicits_twin hs hown ha ((implicitAt_eq ha).symm.trans hi) himp).stays
    (bindImplicits_retied himp)
  have hu : u.Stacked := settleAll_induction (P := fun _ w => w.Stacked) hset ht
    (fun r l w w' hw hr => hw.settle hr) fun r l w hw => by
      have htwin : Twin w (w.updateScopes (w.chain i) (·.pass r)) :=
        twin_updateScopes (fun _ => rfl) fun _ => rfl
      exact hw.keep htwin.stays (retied_of_variableAt? fun v => by simp)
  have hshut : (u.updateScope i (·.shut)).Stacked :=
    hu.keep (stays_updateScope (f := (·.shut)) fun _ => rfl) (retied_of_variableAt? fun _ => rfl)
  exact hshut.keep (twin_record _).stays (retied_of_variableAt? fun _ => rfl)

end

/-! ### Stores in which nothing was closed -/

namespace Store

variable {A : ScopeId → Prop} {s t : Store} {i : ScopeId}

/-- What is known of a store in which nothing was closed. -/
structure Unclosed (s : Store) : Prop where
  books : s.Books s.pendingAt s.IsClosed
  judged : s.Judged s.pendingAt s.IsClosed
  distinct : s.Distinct
  legible : s.Legible
  isOpen : ∀ i, ¬ s.IsClosed i
  implicit : ∀ i, s.implicitAt i = []
  idle : ∀ v x, s.variableAt? v = some x → x.Idle

theorem Unclosed.sound (h : s.Unclosed) : s.Sound := h.books.sound

theorem Unclosed.new (o : Options) : (Store.new o).Unclosed where
  books := .new o
  judged _ _ h := by cases h
  distinct _ _ h := by cases h
  legible := ⟨nofun, nofun, nofun⟩
  isOpen _ h := by obtain ⟨a, ha, -⟩ := h; cases ha
  implicit _ := rfl
  idle _ _ h := by cases h

/-- A quiet change by which nothing is closed and no variable made for a write. -/
theorem Unclosed.quietly (h : s.Unclosed) (hq : Quiets A s t) (ho : ∀ i, ¬ t.IsClosed i)
    (himp : ∀ i, t.implicitAt i = s.implicitAt i) (hties : Retied s t)
    (hblock : ∀ i a, t.scopeAt? i = some a → a.block.isObj = true) : t.Unclosed where
  books := h.books.quietly hq
  judged := h.judged.quietly h.books hq fun i _ => h.isOpen i
  distinct := h.distinct.changes hq.changes
  legible := by
    have href := hq.sameNotes.reference
    exact ⟨fun r ref hr => h.legible.reference r ref ((href r).symm.trans hr),
      fun r ref c hr => h.legible.own r ref c ((href r).symm.trans hr), hblock⟩
  isOpen := ho
  implicit i := (himp i).trans (h.implicit i)
  idle v y hy := by
    obtain hidle | ⟨x, hx, heq⟩ := hties v y hy
    · exact hidle
    · exact (h.idle v x hx).of_ties heq

/-- A quiet change that opens no scope. -/
theorem Unclosed.steadily (h : s.Unclosed) (hq : Quiets A s t) (hst : Steady s t)
    (himp : ∀ i, t.implicitAt i = s.implicitAt i) (hties : Retied s t) : t.Unclosed := by
  have hE := hq.changes.evolves h.sound
  refine h.quietly hq (fun i hc => ?_) himp hties fun i b hb => ?_
  · obtain ho | hsc := isOpen_or_isClosed (hst.size ▸ hc.lt)
    · exact (hst.isOpen i ho).not_isClosed hc
    · exact h.isOpen i hsc
  · obtain ⟨a, ha, hev⟩ := hE.scope_of_lt (hst.size ▸ scopeAt?_lt hb) hb
    exact Scope.block_of_frame hev.frame ▸ h.legible.block i a ha

theorem Unclosed.define {n : Node} {d : Definition} {w : Option VariableId} (h : s.Unclosed)
    (hd : (Action.define i n d).outcome s = (.ok w, t)) : t.Unclosed :=
  h.steadily (define_quiets (A := fun _ => True) hd trivial) (define_steady hd)
    (define_implicitAt hd) (define_retied hd)

theorem Unclosed.bindNew {key : Name} {var : Variable} (h : s.Unclosed)
    (hq : Quiets A s (s.bindNew i key var)) (hv : var.Idle) : (s.bindNew i key var).Unclosed :=
  h.steadily hq steady_bindNew (implicitAt_bindNew key var) (retied_bindNew key hv)

theorem Unclosed.enter {kind : ScopeKind} {n : Node} {upper : Option ScopeId} (h : s.Unclosed)
    (he : (Action.enter kind n upper).outcome s = (.ok i, t)) : t.Unclosed := by
  have hq := enter_quiets (A := fun _ => True) he (fun _ _ => trivial) trivial
  have hE := hq.changes.evolves h.sound
  obtain ⟨rfl, hobj, hsize, -, hopen, b, hb, -, hblock⟩ := enter_opened h.sound he
  -- A scope is new or was there before.
  have hcases : ∀ j c, t.scopeAt? j = some c → j = s.scopes.size ∨ ∃ a, s.scopeAt? j = some a := by
    intro j c hc
    rcases Nat.lt_succ_iff_lt_or_eq.1 (hsize ▸ scopeAt?_lt hc) with hlt | heq
    · exact .inr (scopeAt?_of_lt hlt)
    · exact .inl heq
  refine h.quietly hq ?_ (enter_implicitAt he) (enter_retied he) fun j c hc => ?_
  · rintro j ⟨c, hc, hclosed⟩
    obtain rfl | ⟨a, ha⟩ := hcases j c hc
    · exact hopen.not_isClosed ⟨c, hc, hclosed⟩
    · refine (hq.sameNotes.isOpen j ⟨a, ha, ?_⟩).not_isClosed ⟨c, hc, hclosed⟩
      exact eq_false_of_ne_true fun hac => h.isOpen j ⟨a, ha, hac⟩
  · obtain rfl | ⟨a, ha⟩ := hcases j c hc
    · obtain rfl := Option.some.inj (hb.symm.trans hc)
      exact hblock ▸ hobj
    · obtain ⟨a, ha, hev⟩ := hE.scope_of_lt (scopeAt?_lt ha) hc
      exact Scope.block_of_frame hev.frame ▸ h.legible.block j a ha

theorem Unclosed.enterAll {n : Node} {kinds : List ScopeKind} {upper w : Option ScopeId}
    (h : s.Unclosed) (he : (Action.enterAll n kinds upper).outcome s = (.ok w, t)) :
    t.Unclosed := by
  induction kinds generalizing s upper with
  | nil => exact (pure_ok_iff.1 he).2 ▸ h
  | cons kind rest ih =>
      obtain ⟨i, u, hk, hrest⟩ := bind_ok_iff.1 he
      exact ih (h.enter hk) hrest

theorem Unclosed.addReference {u : Use} (h : s.Unclosed) (hi : s.IsOpen i)
    (hid : u.identifier.isIdentifier = true) (hk : ∃ key, Name.ofTree? u.name = some key)
    (hc : ∀ c, u.candidate = some c → c.pattern = u.identifier) :
    (s.addReference i u).Unclosed where
  books := (h.books.addReference hi).mono (fun j hj => absurd hj (h.isOpen j)) fun j hj => hj.lt
  judged := by
    have hj := h.judged.addReference (u := u) h.books hi (h.isOpen i)
    exact hj.mono fun j hj => absurd hj (h.isOpen j)
  distinct := by
    have hchange : Change (fun _ => True) s (s.addReference i u) := .addReference u trivial
    exact h.distinct.change hchange
  legible := by
    refine ⟨fun r ref hr => ?_, fun r ref c hr => ?_, fun j b hb => ?_⟩
    · obtain ⟨-, rfl⟩ | hr := referenceAt?_addReference_cases hr
      · exact ⟨hid, hk⟩
      · exact h.legible.reference r ref hr
    · obtain ⟨-, rfl⟩ | hr := referenceAt?_addReference_cases hr
      · exact hc c
      · exact h.legible.own r ref c hr
    · obtain ⟨-, a, ha, rfl⟩ | ⟨-, hb⟩ := scopeAt?_addReference_cases hb
      · exact h.legible.block j a ha
      · exact h.legible.block j b hb
  isOpen j hj := by
    obtain ⟨b, hb, hbc⟩ := hj
    obtain ⟨-, a, ha, rfl⟩ | ⟨-, hb⟩ := scopeAt?_addReference_cases hb
    · exact h.isOpen j ⟨a, ha, by rwa [Scope.isClosed_take] at hbc⟩
    · exact h.isOpen j ⟨b, hb, hbc⟩
  implicit j := (implicitAt_updateScope (s := { s with references := _ }) (f := (·.take _))
    fun _ => rfl).trans (h.implicit j)
  idle := h.idle

end Store

/-- Whether an operation builds: it walks nothing and closes nothing, and a reference that it makes
has a text for a name and, if it has a candidate, itself for it. -/
def Operation.Builds : Operation → Prop
  | .refer _ u => (u.identifier.isIdentifier = true → ∃ text, u.name = .str text) ∧
      ∀ c, u.candidate = some c → c.pattern = u.identifier
  | .visit _ _ | .close _ => False
  | _ => True

namespace Store

variable {s t : Store} {o : Options} {op : Operation} {out : Outcome}

/-- The stores that operations lead to which build and succeed. -/
inductive Built (o : Options) : Store → Prop where
  | new : Built o (.new o)
  | step {s t : Store} {op : Operation} {out : Outcome} (h : Built o s) (hb : op.Builds)
      (hop : op.applyTo s = (.ok out, t)) : Built o t

theorem Built.next {s : Store} (op : Operation) (h : Built o s) (hb : op.Builds)
    (hok : (op.applyTo s).1.isOk = true) : Built o (op.applyTo s).2 := by
  cases hop : op.applyTo s with
  | mk res t =>
      rw [hop] at hok
      cases res with
      | ok out => exact .step h hb hop
      | error e => cases hok

theorem Unclosed.apply (h : s.Unclosed) (hb : op.Builds) (hop : op.applyTo s = (.ok out, t)) :
    t.Unclosed := by
  have happly : op.apply.outcome s = (.ok out, t) := hop
  cases op with
  | nest n upper isMethod =>
      obtain ⟨i, -, hn⟩ := bind_pure_ok_iff.1 happly
      simp only [Action.nest, bind_ok_iff, need_ok_iff] at hn
      obtain ⟨_, _, ⟨-, rfl⟩, _, _, hn, -, rfl⟩ := hn
      exact h.enterAll hn
  | enter kind n upper =>
      obtain ⟨i, -, he⟩ := bind_pure_ok_iff.1 happly
      exact h.enter he
  | define i n d =>
      obtain ⟨w, -, hd⟩ := bind_pure_ok_iff.1 happly
      exact h.define hd
  | defineArguments i =>
      obtain ⟨a, t', ha, hrest⟩ := bind_ok_iff.1 happly
      obtain ⟨hscope, rfl⟩ := scopeAt_ok_iff.1 ha
      obtain ⟨v, -, hv⟩ := bind_pure_ok_iff.1 hrest
      have hq := defineArguments_quiets (A := fun _ => True) hv hscope trivial
      obtain ⟨-, rfl⟩ := bindNew_ok_iff.1 hv
      exact h.bindNew hq ⟨rfl, rfl⟩
  | refer i u =>
      obtain ⟨w, -, hr⟩ := bind_pure_ok_iff.1 happly
      obtain ⟨-, -, rfl⟩ | ⟨hid, -, rfl, hopen⟩ := refer_ok_iff.1 hr
      · exact h
      · obtain ⟨text, htext⟩ := hb.1 hid
        exact h.addReference hopen hid ⟨.text text, by rw [htext]; rfl⟩ hb.2
  | noteEval i =>
      obtain ⟨w, -, hn⟩ := bind_pure_ok_iff.1 happly
      have hq := Action.noteEval_quiets (A := fun _ => True) hn fun _ _ => trivial
      obtain ⟨-, rfl⟩ := noteEval_ok_iff.1 hn
      exact h.steadily hq (noteEval_steady s i) (implicitAt_noteEval i)
        (retied_of_variableAt? fun v => by simp [Store.noteEval])
  | noteThis i =>
      obtain ⟨w, -, hn⟩ := bind_pure_ok_iff.1 happly
      have hq := Action.noteThis_quiets (A := fun _ => True) hn trivial
      obtain ⟨-, rfl⟩ := noteThis_ok_iff.1 hn
      exact h.steadily hq (steady_updateScope fun _ => rfl) (implicitAt_noteThis i)
        (retied_of_variableAt? fun _ => rfl)
  | visit n current => exact hb.elim
  | close i => exact hb.elim

/-- **Every operation that builds keeps a store unclosed.** -/
theorem Built.unclosed (h : Built o s) : s.Unclosed := by
  induction h with
  | new => exact .new o
  | step _ hb hop ih => exact ih.apply hb hop

/-- A variable to which nothing was resolved is on the stack. -/
theorem Unclosed.stacked (h : s.Unclosed) : s.Stacked := fun v x hx => by
  obtain ⟨hrefs, hstack⟩ := h.idle v x hx
  rw [hrefs, hstack]
  rfl

end Store

end LexScope
