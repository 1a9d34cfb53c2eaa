import LexScope.Proofs.Edits
import LexScope.Proofs.Innermost

/-!
# Proofs — Flags — why a scope is dynamic, and which scopes call `eval` or use `this`

A scope is dynamic if its kind makes it so from the start, or if a direct call of `eval` was noted
in it or below it (`Store.Tainted`).  What is noted in the course of a walk is noted of the scope
that holds the `var` declarations of the scope where it happens (`Store.HoistsTo`).

* `Arises.dynamic_iff`: **dynamic are exactly the scopes of such a kind and the tainted ones**,
  after any operations; edits keep this (`Dynamics.edit`).
* `runAll_noted`: what a walk has noted is what its leaves say (`Noted`), step by step.
* `mem_own_flag`: the rule of a call, or of `this`, is the only one that notes anything itself.
* `analyze_carries_iff`: **a scope carries a flag exactly if the walk visited a node that raises it,
  in a scope whose variable scope it is.**
-/

namespace LexScope

open Store LexScope.Action

/-! ### Dynamic scopes -/

namespace Store

variable {R : Store → ScopeId → Use → Prop} {o : Options} {s t : Store} {i j : ScopeId}
  {a b : Scope}

/-- A direct call of `eval` was noted in a scope or below it. -/
def Tainted (s : Store) (i : ScopeId) : Prop :=
  ∃ j b, s.scopeAt? j = some b ∧ i ∈ s.chain j ∧ b.callsEval = true

/-- Dynamic are the scopes of a kind that starts so, and those that are tainted. -/
def Dynamics (s : Store) : Prop :=
  ∀ i a, s.scopeAt? i = some a →
    (a.dynamic = true ↔ a.kind.startsDynamic = true ∨ s.Tainted i)

/-- Where scopes stay what they are, and `dynamic` and `callsEval` stay the same, dynamic are the
same scopes for the same reasons. -/
theorem Dynamics.congr (h : s.Dynamics) (hs : s.Rooted)
    (hview : ∀ i, (t.scopeAt? i).map (fun a => (a.frame, a.dynamic, a.callsEval)) =
      (s.scopeAt? i).map (fun a => (a.frame, a.dynamic, a.callsEval))) : t.Dynamics := by
  have hframe : ∀ i, t.frameAt? i = s.frameAt? i := fun i => by
    have hi := congrArg (Option.map Prod.fst) (hview i)
    rwa [Option.map_map, Option.map_map] at hi
  have hlike : ∀ {u v : Store}, (∀ i,
      (v.scopeAt? i).map (fun a => (a.frame, a.dynamic, a.callsEval)) =
        (u.scopeAt? i).map (fun a => (a.frame, a.dynamic, a.callsEval))) → ∀ {i a},
      u.scopeAt? i = some a → ∃ b, v.scopeAt? i = some b ∧ b.kind = a.kind ∧
        b.dynamic = a.dynamic ∧ b.callsEval = a.callsEval := by
    intro u v huv i a ha
    have hi := huv i
    rw [ha] at hi
    obtain ⟨b, hb, heq⟩ := Option.map_eq_some_iff.1 hi
    simp only [Prod.mk.injEq, Scope.frame] at heq
    exact ⟨b, hb, heq.1.1, heq.2.1, heq.2.2⟩
  intro i b hb
  obtain ⟨a, ha, hkind, hdyn, -⟩ := hlike (fun i => (hview i).symm) hb
  rw [← hdyn, ← hkind, h i a ha]
  refine or_congr_right ⟨?_, ?_⟩
  · rintro ⟨j, c, hc, hi, hcall⟩
    obtain ⟨c', hc', -, -, heval⟩ := hlike hview hc
    exact ⟨j, c', hc', by rwa [chain_of_frame hs hframe], heval.trans hcall⟩
  · rintro ⟨j, c, hc, hi, hcall⟩
    obtain ⟨c', hc', -, -, heval⟩ := hlike (fun i => (hview i).symm) hc
    exact ⟨j, c', hc', by rwa [chain_of_frame hs hframe] at hi, heval.trans hcall⟩

/-- A scope that opens starts as its kind says, and taints nothing. -/
theorem Dynamics.addScope (h : s.Dynamics) (hs : s.Rooted) (kind : ScopeKind) (n : Node)
    {upper : Option ScopeId} (strict : Bool) (hu : ∀ u, upper = some u → u < s.scopes.size) :
    (s.addScope kind n upper strict).Dynamics := by
  have hroot := rooted_addScope hs kind n strict hu
  intro i b hb
  obtain ⟨rfl, rfl⟩ | ⟨a, l, ha, rfl⟩ := scopeAt?_addScope_cases hu hb
  · -- Only a scope from which the new one is on the way up could taint it, which is itself.
    refine ⟨.inl, fun h => h.resolve_right ?_⟩
    rintro ⟨j, c, hc, hmem, hcall⟩
    obtain ⟨-, rfl⟩ | ⟨a, l, ha, rfl⟩ := scopeAt?_addScope_cases hu hc
    · cases hcall
    · exact absurd (scopeAt?_lt ha) (not_lt.2 (le_of_mem_chain hroot hmem))
  · refine (h i a ha).trans (or_congr_right ⟨?_, ?_⟩)
    · rintro ⟨j, c, hc, hmem, hcall⟩
      obtain ⟨l, hc'⟩ : ∃ l, (s.addScope kind n upper strict).scopeAt? j =
          some { c with children := l } := scopeAt?_addScope_keep hu hc
      exact ⟨j, _, hc', by rwa [chain_addScope hs kind n strict hu (scopeAt?_lt hc)], hcall⟩
    · rintro ⟨j, c, hc, hmem, hcall⟩
      obtain ⟨-, rfl⟩ | ⟨e, l, he, rfl⟩ := scopeAt?_addScope_cases hu hc
      · cases hcall
      · rw [chain_addScope hs kind n strict hu (scopeAt?_lt he)] at hmem
        exact ⟨j, e, he, hmem, hcall⟩

/-- A call that is noted taints exactly the scopes that it makes dynamic. -/
theorem Dynamics.noteEval (h : s.Dynamics) (hs : s.Rooted) (k : ScopeId) :
    (s.noteEval k).Dynamics := by
  have hat := scopeAt?_noteEval hs k
  have hchain := chain_of_frame hs (frameAt?_noteEval hs k)
  intro i b hb
  rw [hat] at hb
  obtain ⟨a, ha, rfl⟩ := Option.map_eq_some_iff.1 hb
  simp only [Bool.or_eq_true, decide_eq_true_iff]
  rw [h i a ha, or_assoc]
  refine or_congr_right ⟨?_, ?_⟩
  · rintro (⟨j, c, hc, hmem, hcall⟩ | hmem)
    · exact ⟨j, _, (hat j).trans (congrArg _ hc), by rwa [hchain], by simp [hcall]⟩
    · -- The scope that calls is there, because another one is above it.
      have hk : k < s.scopes.size := by
        by_contra hk
        have hup : s.upperOf k = none := by
          rw [upperOf, scopeAt?_eq_none.2 (not_lt.1 hk)]
          rfl
        rw [chain_top hs hup, List.mem_singleton] at hmem
        exact hk (hmem ▸ scopeAt?_lt ha)
      obtain ⟨c, hc⟩ := scopeAt?_of_lt hk
      exact ⟨k, _, (hat k).trans (congrArg _ hc), by rwa [hchain], by simp⟩
  · rintro ⟨j, c, hc, hmem, hcall⟩
    rw [hat] at hc
    obtain ⟨c', hc', rfl⟩ := Option.map_eq_some_iff.1 hc
    rw [hchain] at hmem
    simp only [Bool.or_eq_true, decide_eq_true_iff] at hcall
    rcases hcall with hcall | rfl
    · exact .inl ⟨j, c', hc', hmem, hcall⟩
    · exact .inr hmem

theorem Dynamics.edit (h : s.Dynamics) (hs : s.Rooted) (he : Edit R s t) : t.Dynamics := by
  cases he with
  | still hst =>
      refine h.congr hs fun i => ?_
      have hi := congrArg (Option.map fun x => (x.1, x.2.dynamic, x.2.callsEval)) (hst.bearing i)
      rwa [bearingAt?, bearingAt?, Option.map_map, Option.map_map] at hi
  | opens kind n ha _ => exact h.addScope hs kind n _ (upper_lt_of_strictAt? ha)
  | @refer k u _ =>
      refine h.congr hs fun i => ?_
      rw [scopeAt?_addReference]
      by_cases hi : k = i <;> cases s.scopeAt? i <;> simp [hi, Scope.take, Scope.frame]
  | callsEval k => exact h.noteEval hs k
  | usesThis k =>
      refine h.congr hs fun i => ?_
      rw [scopeAt?_noteThis, Option.map_map]
      rfl

theorem Arises.dynamics (h : Arises o s) : s.Dynamics := by
  have hrun := h.edits
  clear h
  induction hrun with
  | refl => exact fun i a ha => by cases ha
  | tail hst he ih => exact ih.edit (Edits.rooted hst (Sound.new o).rooted) he

theorem startsDynamic_iff {kind : ScopeKind} :
    kind.startsDynamic = true ↔ kind = .global ∨ kind = .withObject := by
  cases kind <;> decide

/-- **Dynamic are exactly the global scopes, those of a `with`, and those in which or below which a
direct call of `eval` was noted.** -/
theorem Arises.dynamic_iff (h : Arises o s) (ha : s.scopeAt? i = some a) :
    a.dynamic = true ↔ a.kind = .global ∨ a.kind = .withObject ∨ s.Tainted i := by
  rw [h.dynamics i a ha, startsDynamic_iff, or_assoc]

end Store

/-! ### The flags that a walk raises -/

/-- The flags that a walk raises. -/
inductive Flag where
  /-- `eval` is called directly. -/
  | eval
  /-- `this` is used. -/
  | this
  deriving Repr, DecidableEq

namespace Flag

open Walk

/-- Whether a scope carries a flag. -/
def on : Flag → Scope → Bool
  | .eval, a => a.callsEval
  | .this, a => a.usesThis

/-- What happens in a walk when a flag is raised. -/
def event : Flag → Event
  | .eval => .callEval
  | .this => .useThis

/-- Raise a flag of a scope. -/
def raise : Flag → Store → ScopeId → Store
  | .eval, s, i => s.noteEval i
  | .this, s, i => s.noteThis i

/-- Whether the rule of a node raises a flag: it calls what is named `eval`, and that is not
ignored, or it is `this`. -/
def RaisedBy (g : Gates) (n : Node) : Flag → Prop
  | .eval => g.ignoreEval = false ∧ n.hasType "CallExpression" = true ∧
      (n.get "callee").isIdentifier = true ∧ (n.get "callee").value.get "name" = .str "eval"
  | .this => n.hasType "ThisExpression" = true

theorem event_inj {f f' : Flag} : f.event = f'.event ↔ f = f' := by
  cases f <;> cases f' <;> simp [event]

end Flag

namespace Store

open Walk

variable {R : Store → ScopeId → Use → Prop} {s t m : Store} {i j k : ScopeId} {a b : Scope}
  {f f' : Flag} {c : Around} {leaves more : List Leaf}

/-- A scope carries a flag. -/
def Carries (s : Store) (f : Flag) (i : ScopeId) : Prop :=
  ∃ a, s.scopeAt? i = some a ∧ f.on a = true

/-- The variable scope of a scope around which there are some scopes. -/
def HoistsTo (s : Store) (c : Around) (i : ScopeId) : Prop :=
  ∃ j, s.around j = c ∧ s.variableScope? j = some i

theorem Edits.carries (h : Edits R s t) (hs : s.Rooted) (hc : s.Carries f i) : t.Carries f i := by
  obtain ⟨a, ha, hon⟩ := hc
  obtain ⟨b, hb, hab⟩ := h.scope hs ha
  refine ⟨b, hb, ?_⟩
  cases f with
  | eval => exact hab.callsEval hon
  | this => exact hab.usesThis hon

theorem Edits.hoistsTo (h : Edits R s t) (hs : s.Rooted) (hc : s.HoistsTo c i) :
    t.HoistsTo c i := by
  obtain ⟨j, hj, hv⟩ := hc
  obtain ⟨a, ha, -⟩ := Option.map_eq_some_iff.1 hv
  have hlt := scopeAt?_lt ha
  exact ⟨j, (h.around hs hlt).trans hj, (h.variableScope? hs hlt).trans hv⟩

theorem Agrees.carries (h : s.Agrees t) (hc : t.Carries f i) : s.Carries f i := by
  obtain ⟨b, hb, hon⟩ := hc
  obtain ⟨a, ha, hab⟩ := h.symm.scope hb
  have hkeeps := Scope.Keeps.of_bearing hab
  refine ⟨a, ha, ?_⟩
  cases f with
  | eval => exact hkeeps.callsEval hon
  | this => exact hkeeps.usesThis hon

/-- A scope that opens carries no flag. -/
theorem carries_of_addScope {kind : ScopeKind} {n : Node} {upper : Option ScopeId} {strict : Bool}
    (hu : ∀ u, upper = some u → u < s.scopes.size)
    (hc : (s.addScope kind n upper strict).Carries f i) : s.Carries f i := by
  obtain ⟨b, hb, hon⟩ := hc
  obtain ⟨-, rfl⟩ | ⟨a, l, ha, rfl⟩ := scopeAt?_addScope_cases hu hb
  · cases f <;> cases hon
  · exact ⟨a, ha, by cases f <;> exact hon⟩

theorem carries_of_addReference {u : Use} (hc : (s.addReference k u).Carries f i) :
    s.Carries f i := by
  obtain ⟨b, hb, hon⟩ := hc
  obtain ⟨-, a, ha, rfl⟩ | ⟨-, hb⟩ := scopeAt?_addReference_cases hb
  · exact ⟨a, ha, by cases f <;> exact hon⟩
  · exact ⟨b, hb, hon⟩

/-- Raising a flag of a scope raises no other flag and no flag of another scope. -/
theorem carries_raise (hs : s.Rooted) (hk : k < s.scopes.size) :
    (f'.raise s k).Carries f i ↔ s.Carries f i ∨ f = f' ∧ i = k := by
  obtain ⟨x, hx⟩ := scopeAt?_of_lt hk
  cases f' with
  | eval =>
      simp only [Carries, Flag.raise, scopeAt?_noteEval hs]
      cases f with
      | eval =>
          by_cases hi : i = k
          · subst hi
            simp [hx, Flag.on]
          · cases s.scopeAt? i <;> simp [hi, Flag.on]
      | this => cases s.scopeAt? i <;> simp [Flag.on]
  | this =>
      simp only [Carries, Flag.raise, scopeAt?_noteThis]
      cases f with
      | eval => cases s.scopeAt? i <;> simp [Flag.on]
      | this =>
          by_cases hi : i = k
          · subst hi
            simp [hx, Flag.on]
          · cases s.scopeAt? i <;> simp [hi, Flag.on]

theorem edit_raise (f : Flag) (s : Store) (i : ScopeId) : Edit R s (f.raise s i) := by
  cases f with
  | eval => exact .callsEval i
  | this => exact .usesThis i

/-! ### What a walk notes, step by step -/

/-- Between two stores a flag was raised exactly where some leaves raise it. -/
structure Noted (f : Flag) (leaves : List Leaf) (s t : Store) : Prop where
  only : ∀ i, t.Carries f i → s.Carries f i ∨
    ∃ l ∈ leaves, l.event = f.event ∧ t.HoistsTo l.around i
  all : ∀ l ∈ leaves, l.event = f.event → ∃ i, t.HoistsTo l.around i ∧ t.Carries f i

/-- What raises no flag notes nothing. -/
theorem Noted.silent (h : ∀ i, t.Carries f i → s.Carries f i)
    (hl : ∀ l ∈ leaves, l.event ≠ f.event) : Noted f leaves s t :=
  ⟨fun i hi => .inl (h i hi), fun l hm he => absurd he (hl l hm)⟩

theorem Noted.trans (h : Noted f leaves s m) (h' : Noted f more m t) (he : Edits R m t)
    (hm : m.Rooted) : Noted f (leaves ++ more) s t := by
  refine ⟨fun i hi => ?_, fun l hl hevent => ?_⟩
  · rcases h'.only i hi with hi | ⟨l, hl, hevent, hto⟩
    · refine (h.only i hi).imp_right ?_
      rintro ⟨l, hl, hevent, hto⟩
      exact ⟨l, List.mem_append_left _ hl, hevent, he.hoistsTo hm hto⟩
    · exact .inr ⟨l, List.mem_append_right _ hl, hevent, hto⟩
  · rcases List.mem_append.1 hl with hl | hl
    · obtain ⟨i, hto, hi⟩ := h.all l hl hevent
      exact ⟨i, he.hoistsTo hm hto, he.carries hm hi⟩
    · exact h'.all l hl hevent

/-- A flag is raised in a scope: it is noted of the variable scope. -/
theorem noted_raise (hs : s.Rooted) (hv : s.variableScope? j = some k) (hk : k < s.scopes.size) :
    Noted f [⟨s.around j, f'.event⟩] s (f'.raise s k) := by
  have hto : (f'.raise s k).HoistsTo (s.around j) k :=
    Edits.hoistsTo (R := AnyUse) (.single (edit_raise f' s k)) hs ⟨j, rfl, hv⟩
  refine ⟨fun i hi => ?_, fun l hl he => ?_⟩
  · refine ((carries_raise hs hk).1 hi).imp_right ?_
    rintro ⟨rfl, rfl⟩
    exact ⟨_, List.mem_singleton_self _, rfl, hto⟩
  · obtain rfl := List.mem_singleton.1 hl
    exact ⟨k, hto, (carries_raise hs hk).2 (.inr ⟨(Flag.event_inj.1 he).symm, rfl⟩)⟩

end Store

namespace Walk

variable {s t : Store} {f : Flag} {c : Option ScopeId}

/-- An action that leaves the bearings alone notes nothing. -/
theorem noted_still {x : Action Unit} {leaves : List Leaf} (hx : x.Still)
    (h : x.outcome s = (.ok (), t)) (hl : ∀ l ∈ leaves, l.event ≠ f.event) :
    Noted f leaves s t := by
  exact .silent (fun _ => (hx.agrees h).carries) hl

/-- The scope that is entered carries no flag, and is inside those around. -/
theorem enter_noted {kind : ScopeKind} {n : Node} {i : ScopeId} (hs : s.Rooted)
    (h : (enter kind n c).outcome s = (.ok i, t)) :
    i < t.scopes.size ∧ t.around i = (kind, n) :: s.aroundOf c ∧
      ∀ j, t.Carries f j → s.Carries f j := by
  obtain ⟨u, ho, hp⟩ := enter_ok_iff.1 h
  have hprovided := (still_provide kind n i).agrees hp
  have hedits : Edits AnyUse u t := .single (.still hprovided)
  obtain ⟨above, strict, ha, hstrict, -, rfl, rfl⟩ := openScope_ok_iff.1 ho
  have hu := upper_lt_of_strictAt? ha
  have hadd : Edits AnyUse s ((s.addScope kind n c strict).record
      (.opened kind s.scopes.size n.type strict)) :=
    .tail (.single (.opens kind n ha hstrict)) (.still ⟨rfl, fun _ => rfl, fun _ => rfl⟩)
  have hroot := hadd.rooted hs
  have hnew : ((s.addScope kind n c strict).record
      (.opened kind s.scopes.size n.type strict)).scopeAt? s.scopes.size =
      some (s.freshScope kind n c strict) := scopeAt?_addScope_new hu
  have hlt := scopeAt?_lt hnew
  refine ⟨hlt.trans_le (hedits.size_le hroot), ?_, fun j hj =>
    carries_of_addScope hu (hprovided.carries hj)⟩
  rw [hedits.around hroot hlt]
  cases c with
  | none => exact around_top hroot hnew rfl
  | some up =>
      rw [around_step hroot hnew rfl, hadd.around hs (hu up rfl)]
      rfl

/-- Raising a flag in a scope. -/
theorem raise_noted (raised : Flag) {i k : ScopeId} (hs : s.Rooted)
    (hr : (Target.hoisted.resolve i).outcome s = (.ok k, t)) (hk : ∃ a, t.scopeAt? k = some a) :
    Noted f [⟨s.around i, raised.event⟩] s (raised.raise t k) := by
  obtain ⟨a, u, ha, hp⟩ := bind_ok_iff.1 hr
  obtain ⟨ha, rfl⟩ := scopeAt_ok_iff.1 ha
  obtain ⟨rfl, rfl⟩ := pure_ok_iff.1 hp
  obtain ⟨b, hb⟩ := hk
  exact noted_raise hs (by rw [variableScope?, ha]; rfl) (scopeAt?_lt hb)

mutual

theorem Event.noted : ∀ (e : Event) {c : Option ScopeId} {s t : Store}, s.Rooted →
    (∀ i, c = some i → i < s.scopes.size) → (e.run c).outcome s = (.ok (), t) →
    Noted f (e.leaves (s.aroundOf c)) s t
  | .callEval, c, s, t, hs, _, h => by
      obtain ⟨i, u, hi, hrest⟩ := bind_ok_iff.1 h
      obtain ⟨rfl, rfl⟩ := need_ok_iff.1 hi
      obtain ⟨k, v, hk, hnote⟩ := bind_ok_iff.1 hrest
      obtain ⟨hk', rfl⟩ := noteEval_ok_iff.1 hnote
      exact raise_noted .eval hs hk hk'
  | .useThis, c, s, t, hs, _, h => by
      obtain ⟨i, u, hi, hrest⟩ := bind_ok_iff.1 h
      obtain ⟨rfl, rfl⟩ := need_ok_iff.1 hi
      obtain ⟨k, v, hk, hnote⟩ := bind_ok_iff.1 hrest
      obtain ⟨hk', rfl⟩ := noteThis_ok_iff.1 hnote
      exact raise_noted .this hs hk hk'
  | .within kind n inside, c, s, t, hs, hc, h => by
      obtain ⟨i, u, henter, hrest⟩ := bind_ok_iff.1 h
      obtain ⟨_, v, hrun, hclose⟩ := bind_ok_iff.1 hrest
      obtain ⟨hlt, haround, hcarries⟩ := enter_noted (f := f) hs henter
      have hroot := ((editing_enter (R := Guarded) kind n c).edits henter).rooted hs
      have hruns := (runAll_editing inside (some i)).edits hrun
      have hinside := runAll_noted inside hroot (fun j hj => Option.some.inj hj ▸ hlt) hrun
      rw [show u.aroundOf (some i) = (kind, n) :: s.aroundOf c from haround] at hinside
      have hclosed : Noted f [] v t := noted_still (still_close i).discard hclose nofun
      have hopened : Noted f [⟨s.aroundOf c, .within kind n []⟩] s u := by
        refine .silent hcarries fun l hl he => ?_
        rw [List.mem_singleton.1 hl] at he
        cases f <;> cases he
      have hcloses := (still_close i).discard.editing (R := Guarded).edits hclose
      have hall := (hopened.trans hinside hruns hroot).trans hclosed hcloses (hruns.rooted hroot)
      rwa [List.append_nil] at hall
  | .refer u, c, s, t, _, _, h => by
      obtain ⟨i, v, hi, hrest⟩ := bind_ok_iff.1 h
      obtain ⟨rfl, rfl⟩ := need_ok_iff.1 hi
      obtain ⟨a, w, ha, hrefer⟩ := bind_ok_iff.1 hrest
      obtain ⟨-, rfl⟩ := scopeAt_ok_iff.1 ha
      obtain ⟨r, hr⟩ := discard_ok_iff.1 hrefer
      refine .silent (fun j hj => ?_) fun l hl he => ?_
      · obtain ⟨-, -, rfl⟩ | ⟨-, -, rfl, -⟩ := refer_ok_iff.1 hr
        · exact hj
        · exact carries_of_addReference hj
      · rw [List.mem_singleton.1 hl] at he
        cases f <;> cases he
  | .define target n d, c, s, t, _, _, h => by
      refine noted_still (((still_need c).bind fun i => (still_resolve i target).bind fun j =>
        (still_define j n d).discard)) h fun l hl he => ?_
      rw [List.mem_singleton.1 hl] at he
      cases f <;> cases he
  | .needScope, c, s, t, _, _, h => by
      refine noted_still (still_need c).discard h fun l hl he => ?_
      rw [List.mem_singleton.1 hl] at he
      cases f <;> cases he
  | .phase p, c, s, t, _, _, h => by
      refine noted_still (still_record (.phase p)) h fun l hl he => ?_
      rw [List.mem_singleton.1 hl] at he
      cases f <;> cases he
  | .fail e, c, s, t, _, _, h => by
      cases throw_ok_iff.1 h
  | .closeOwned n, c, s, t, _, _, h => by
      refine noted_still (still_closeOwned n c) h fun l hl he => ?_
      rw [List.mem_singleton.1 hl] at he
      cases f <;> cases he

/-- **A walk notes exactly what its leaves say.** -/
theorem runAll_noted : ∀ (events : List Event) {c : Option ScopeId} {s t : Store}, s.Rooted →
    (∀ i, c = some i → i < s.scopes.size) → (runAll events c).outcome s = (.ok (), t) →
    Noted f (leavesOf (s.aroundOf c) events) s t
  | [], c, s, t, _, _, h => by
      obtain ⟨-, rfl⟩ := pure_ok_iff.1 h
      exact .silent (fun _ => id) nofun
  | e :: rest, c, s, t, hs, hc, h => by
      obtain ⟨_, u, he, hrest⟩ := bind_ok_iff.1 h
      have hfirst := (e.editing c).edits he
      have hthen := (runAll_editing rest c).edits hrest
      have hroot := hfirst.rooted hs
      have hnext := runAll_noted rest hroot
        (fun i hi => (hc i hi).trans_le (hfirst.size_le hs)) hrest
      have haround : u.aroundOf c = s.aroundOf c := by
        cases c with
        | none => rfl
        | some i => exact hfirst.around hs (hc i rfl)
      rw [haround] at hnext
      exact (e.noted hs hc he).trans hnext hthen hroot

end

end Walk

/-! ### Which rules raise flags -/

namespace Walk

open Grammar (inside)

variable {g : Gates} {n : Node} {c c' : Around} {f : Flag} {e : Event} {a b events : List Event}
  {family : Family} {isMethod : Bool}

/-- Whether an event raises a flag. -/
def Event.raises : Event → Bool
  | .callEval | .useThis => true
  | _ => false

/-- Events that raise no flag, however deep inside. -/
def Flagless (events : List Event) : Prop := ∀ c, ∀ l ∈ leavesOf c events, l.event.raises = false

theorem flagless_nil : Flagless [] := by
  intro c l hl
  rw [leavesOf_nil] at hl
  cases hl

theorem flagless_one (ho : e.opens = false) (he : e.raises = false) : Flagless [e] := by
  intro c l hl
  rw [(flat_one ho).leavesOf, List.map_singleton, List.mem_singleton] at hl
  rw [hl]
  exact he

theorem flagless_append (ha : Flagless a) (hb : Flagless b) : Flagless (a ++ b) := by
  intro c l hl
  rw [leavesOf_append] at hl
  exact (List.mem_append.1 hl).elim (ha c l) (hb c l)

theorem flagless_cons (ho : e.opens = false) (he : e.raises = false) (h : Flagless events) :
    Flagless (e :: events) := flagless_append (flagless_one ho he) h

theorem flagless_flatMap {α : Type} {l : List α} {each : α → List Event}
    (h : ∀ x, Flagless (each x)) : Flagless (l.flatMap each) := by
  induction l with
  | nil => exact flagless_nil
  | cons x l ih => exact flagless_append (h x) ih

theorem flagless_within {kind : ScopeKind} (h : Flagless events) :
    Flagless [.within kind n events] := by
  intro c l hl
  rw [leavesOf_cons, leavesOf_nil, List.append_nil, Event.leaves, List.mem_cons] at hl
  rcases hl with rfl | hl
  · rfl
  · exact h _ l hl

theorem flagless_malformed : Flagless [.fail .malformed] := flagless_one rfl rfl

theorem flagless_nested (h : Flagless events) : Flagless (nested n isMethod events) := by
  unfold nested
  split
  · rename_i kinds hkinds
    refine flagless_append ?_ (flagless_one rfl rfl)
    clear hkinds
    induction kinds with
    | nil => exact h
    | cons kind kinds ih => exact flagless_within ih
  · exact flagless_malformed

theorem flagless_nestedIf {condition : Bool} (h : Flagless events) :
    Flagless (nestedIf condition n events) := by
  cases condition with
  | true => exact flagless_nested h
  | false => exact flagless_append h (flagless_one rfl rfl)

theorem flagless_forBound {each : Node → List Event} (h : ∀ p, Flagless (each p)) :
    Flagless (forBound n each) := by
  refine flagless_flatMap fun item => ?_
  cases item with
  | bound p => exact h p
  | embedded p => exact flagless_nil
  | broken => exact flagless_malformed

theorem flagless_forSequence {each : List Node → List Event} (h : ∀ ns, Flagless (each ns)) :
    Flagless (forSequence n each) := by
  unfold forSequence
  split
  · exact h _
  · exact flagless_malformed

theorem flagless_bindDeclarator (target : Target) (kind : DefinitionKind) (n : Node) (i : Nat)
    (d : Node) : Flagless (bindDeclarator target kind n i d) := by
  refine flagless_forBound fun p => flagless_cons rfl rfl ?_
  split
  · exact flagless_nil
  · exact flagless_one rfl rfl

theorem flagless_bindHead (kind : DefinitionKind) (head : Node) :
    Flagless (bindHead kind head) := by
  unfold bindHead
  split
  · exact flagless_bindDeclarator _ _ _ _ _
  · exact flagless_malformed

theorem flagless_writeHead (n head : Node) : Flagless (writeHead n head) := by
  unfold writeHead
  split
  · exact flagless_forBound fun _ => flagless_one rfl rfl
  · exact flagless_malformed

theorem flagless_assignTo (pattern value n : Node) : Flagless (assignTo pattern value n) :=
  flagless_forBound fun _ => flagless_one rfl rfl

theorem flagless_function : Flagless (function (fun _ => []) n isMethod) := by
  unfold function
  refine flagless_append ?_ (flagless_nested (flagless_forSequence fun params => ?_))
  · split
    · exact flagless_one rfl rfl
    · exact flagless_nil
  · rw [functionBody_nothing, List.append_nil]
    exact flagless_append
      (flagless_flatMap fun _ => flagless_forBound fun _ => flagless_one rfl rfl)
      (flagless_flatMap fun _ => by rw [visitEmbedded_nothing]; exact flagless_nil)

theorem flagless_lexicalIteration : Flagless (lexicalIteration (fun _ => []) n) := by
  have hzone : Flagless (bindHead .deadZone (n.get "left") ++ [.phase .visitRight] ++
      [.phase .closeDeadZone]) :=
    flagless_append (flagless_append (flagless_bindHead _ _) (flagless_one rfl rfl))
      (flagless_one rfl rfl)
  have hturn : Flagless (bindHead .variable (n.get "left") ++ writeHead n (n.get "left") ++
      visitHead (fun _ => []) (n.get "left") ++ [.phase .visitBody] ++
      [.phase .closeIteration]) := by
    rw [visitHead_nothing, List.append_nil]
    exact flagless_append (flagless_append (flagless_append (flagless_bindHead _ _)
      (flagless_writeHead _ _)) (flagless_one rfl rfl)) (flagless_one rfl rfl)
  exact flagless_append (flagless_cons rfl rfl (flagless_append (flagless_within hzone)
    (flagless_one rfl rfl))) (flagless_nested hturn)

theorem flagless_onlyInModule (h : Flagless events) : Flagless (onlyInModule g n events) := by
  unfold onlyInModule
  split
  · exact h
  · exact flagless_one rfl rfl

theorem flagless_iteration : Flagless (iteration g (fun _ => []) n) := by
  unfold iteration
  dsimp only
  split
  · exact flagless_lexicalIteration
  · simp only [List.append_nil, List.nil_append]
    split
    · exact flagless_writeHead _ _
    · split
      · exact flagless_malformed
      · rw [visitEmbedded_nothing, List.append_nil]
        exact flagless_assignTo _ _ _
      · exact flagless_nil

theorem flagless_assign : Flagless (assign (fun _ => []) n) := by
  unfold assign
  dsimp only
  split
  · exact flagless_malformed
  · exact flagless_nil
  · split
    · rw [visitEmbedded_nothing, List.append_nil, List.append_nil]
      exact flagless_assignTo _ _ _
    · exact flagless_one rfl rfl

theorem flagless_declare : Flagless (declare (fun _ => []) n) := by
  unfold declare
  refine flagless_append ?_ (flagless_forSequence fun ds => flagless_flatMap fun d => ?_)
  · split
    · exact flagless_one rfl rfl
    · exact flagless_nil
  · dsimp only
    split
    · exact flagless_malformed
    · rw [visitEmbedded_nothing, List.append_nil, List.append_nil]
      exact flagless_bindDeclarator _ _ _ _ _

/-- **The rules of calls and of `this` alone raise flags.** -/
theorem flagless_rule (hc : family ≠ .call) (ht : family ≠ .this) :
    Flagless (rule g (fun _ => []) n family) := by
  have hchildren : Flagless (visitChildren (fun _ => []) n) := by
    rw [visitChildren_nothing]
    exact flagless_nil
  cases family with
  | call => exact absurd rfl hc
  | this => exact absurd rfl ht
  | program =>
      refine flagless_nested ?_
      split
      · exact flagless_within hchildren
      · exact hchildren
  | block => exact flagless_nestedIf hchildren
  | switch => exact flagless_nestedIf flagless_nil
  | withObject => exact flagless_nested flagless_nil
  | catchClause =>
      rw [rule, catchClause, visitEmbedded_nothing, List.append_nil, List.append_nil]
      exact flagless_nested (flagless_forBound fun _ => flagless_one rfl rfl)
  | function => exact flagless_function
  | classDefinition =>
      rw [rule, classDefinition, List.append_nil, List.append_nil]
      refine flagless_append ?_ (flagless_nested ?_) <;> split <;>
        first | exact flagless_one rfl rfl | exact flagless_nil
  | property =>
      rw [rule, property, ite_self, List.nil_append]
      split
      · exact flagless_function
      · exact flagless_nil
  | declaration => exact flagless_declare
  | assignment => exact flagless_assign
  | update =>
      unfold rule update
      dsimp only
      split
      · exact flagless_one rfl rfl
      · exact hchildren
  | access =>
      rw [rule, access, ite_self]
      exact flagless_nil
  | loop => exact flagless_nestedIf hchildren
  | iteration => exact flagless_iteration
  | lexicalIteration => exact flagless_lexicalIteration
  | importing =>
      refine flagless_onlyInModule (flagless_forSequence fun ns => flagless_flatMap fun m => ?_)
      dsimp only
      split
      · exact flagless_malformed
      · exact flagless_one rfl rfl
  | exportNamed =>
      rw [rule, exportNamed, ite_self, ite_self]
      exact flagless_onlyInModule flagless_nil
  | exportDefault => exact flagless_onlyInModule flagless_nil
  | exportAll => exact flagless_onlyInModule flagless_nil
  | declarator => exact flagless_malformed
  | identifier => exact flagless_one rfl rfl
  | label | inert | exportSpecifier => exact flagless_nil
  | plain => exact hchildren

/-- A family of one type covers the nodes of that type. -/
theorem covers_iff {family : Family} {type : String} (hof : Family.ofType type = family)
    (hone : ∀ other, Family.ofType other = family → other = type) :
    family.Covers n ↔ n.hasType type = true := by
  refine ⟨fun h => ?_, fun h => hof ▸ covers_of_hasType h⟩
  obtain ⟨other, ht, hfamily⟩ := Option.map_eq_some_iff.1 h
  exact Grammar.hasType_iff.2 (ht.trans (congrArg some (hone other hfamily)))

theorem covers_call : Family.call.Covers n ↔ n.hasType "CallExpression" = true := by
  refine covers_iff rfl fun other h => ?_
  unfold Family.ofType at h
  split at h <;> first | rfl | cases h

theorem covers_this : Family.this.Covers n ↔ n.hasType "ThisExpression" = true := by
  refine covers_iff rfl fun other h => ?_
  unfold Family.ofType at h
  split at h <;> first | rfl | cases h

/-- What the rule of a call raises itself. -/
theorem mem_leaves_call {e : Event} (he : e.raises = true) :
    (⟨c', e⟩ : Leaf) ∈ leavesOf c (call g (fun _ => []) n) ↔ c' = c ∧ e = .callEval ∧
      g.ignoreEval = false ∧ (n.get "callee").isIdentifier = true ∧
      (n.get "callee").value.get "name" = .str "eval" := by
  have hflat : Flat (call g (fun _ => []) n) := by
    unfold call
    rw [visitChildren_nothing]
    dsimp only
    split_ifs <;> simp [Flat]
  rw [hflat.mem_leavesOf]
  refine and_congr_right fun _ => ?_
  unfold call
  rw [visitChildren_nothing]
  dsimp only
  cases g.ignoreEval with
  | true => simp
  | false =>
      simp only [Bool.false_eq_true, if_false, true_and]
      by_cases hid : (n.get "callee").isIdentifier = true
      · have hobj := isObj_of_hasType hid
        rw [hobj, hid]
        simp only [Bool.not_true, Bool.and_false, Bool.false_eq_true, if_false, Bool.true_and,
          decide_eq_true_eq, true_and]
        split
        · rename_i hname
          exact ⟨fun h => ⟨List.mem_singleton.1 h, hname⟩, fun h => List.mem_singleton.2 h.1⟩
        · rename_i hname
          exact ⟨fun h => absurd h List.not_mem_nil, fun h => absurd h.2 hname⟩
      · simp only [hid, Bool.false_and, Bool.false_eq_true, if_false, false_and, and_false,
          iff_false]
        split
        · intro h
          rw [List.mem_singleton.1 h] at he
          cases he
        · exact List.not_mem_nil

/-- **Which nodes raise a flag, and where**: in the scopes around the node itself. -/
theorem mem_own_flag : (⟨c', f.event⟩ : Leaf) ∈ leavesOf c (own g n) ↔
    c' = c ∧ f.RaisedBy g n := by
  have hraises : f.event.raises = true := by cases f <;> rfl
  rw [mem_own]
  constructor
  · rintro ⟨family, hf, hl⟩
    by_cases hc : family = .call
    · subst hc
      obtain ⟨rfl, he, hrest⟩ := (mem_leaves_call hraises).1 hl
      obtain rfl : f = .eval := Flag.event_inj.1 he
      exact ⟨rfl, hrest.1, covers_call.1 hf, hrest.2⟩
    by_cases ht : family = .this
    · subst ht
      obtain ⟨rfl, he⟩ := (flat_one rfl).mem_leavesOf.1 hl
      obtain rfl : f = .this := Flag.event_inj.1 (List.mem_singleton.1 he)
      exact ⟨rfl, covers_this.1 hf⟩
    · have hno := flagless_rule hc ht c _ hl
      rw [hraises] at hno
      cases hno
  · rintro ⟨rfl, hr⟩
    cases f with
    | eval =>
        obtain ⟨hg, ht, hrest⟩ := hr
        exact ⟨.call, covers_call.2 ht, (mem_leaves_call rfl).2 ⟨rfl, rfl, hg, hrest⟩⟩
    | this => exact ⟨.this, covers_this.2 hr, List.mem_singleton_self _⟩

end Walk

/-! ### What an analysis finds -/

open Walk

variable {o : Options} {tree : Tree} {s : Store} {f : Flag} {i : ScopeId} {a : Scope}

/-- An analysis notes what the plan says. -/
theorem analyze_noted (h : analyze o tree = .ok s) :
    Noted f (leavesOf [] (plan (.ofOptions o) (.root tree))) (.new o) s := by
  have hrun := outcome_of_analyze h
  rw [analysis] at hrun
  split at hrun
  · obtain ⟨_, _, hno, -⟩ := bind_ok_iff.1 hrun
    cases malformed_ok_iff.1 hno
  · obtain ⟨_, _, hget, hrest⟩ := bind_ok_iff.1 hrun
    obtain ⟨rfl, rfl⟩ := get_ok_iff.1 hget
    obtain ⟨_, t, hrecord, hrest⟩ := bind_ok_iff.1 hrest
    obtain ⟨_, u, hvisit, hlast⟩ := bind_ok_iff.1 hrest
    obtain ⟨t', u', hget, hwalk⟩ := bind_ok_iff.1 hvisit
    obtain ⟨ht, hu⟩ := get_ok_iff.1 hget
    rw [ht, hu] at hwalk
    have hbefore := (still_record _).agrees hrecord
    have hafter : u.Agrees s :=
      (still_get.bind fun t : Store => still_record (.analyzed t.scopes.size)).agrees hlast
    have hroot : t.Rooted :=
      Edits.rooted (R := AnyUse) (.single (.still hbefore)) (Sound.new o).rooted
    have hnone : ∀ i, none = some i → i < t.scopes.size := fun _ hi => by cases hi
    have hplan := runAll_noted (f := f) _ hroot hnone hwalk
    rw [hbefore.options] at hplan
    have hedits := (runAll_editing _ _).edits hwalk
    have hfirst : Noted f [] (.new o) t := .silent (fun _ => hbefore.carries) nofun
    have hend : Noted f [] u s := .silent (fun _ => hafter.carries) nofun
    have hall := (hfirst.trans hplan hedits hroot).trans hend
      (.single (.still hafter) : Edits AnyUse u s) (hedits.rooted hroot)
    rwa [List.nil_append, List.append_nil] at hall

/-- The walk visited a node that raises a flag, in a scope whose variable scope is a given one. -/
def Store.Raises (s : Store) (o : Options) (tree : Tree) (f : Flag) (i : ScopeId) : Prop :=
  ∃ k ∈ visits (.ofOptions o) (.root tree), f.RaisedBy (.ofOptions o) k.node ∧
    s.HoistsTo k.around i

/-- **A scope carries a flag exactly if the walk visited a node that raises it, in a scope whose
variable scope it is.** -/
theorem analyze_carries_iff (hkeys : tree.DistinctKeys) (h : analyze o tree = .ok s) :
    s.Carries f i ↔ s.Raises o tree f i := by
  have hnoted := analyze_noted (f := f) h
  constructor
  · intro hi
    rcases hnoted.only i hi with ⟨a, ha, -⟩ | ⟨⟨c, e⟩, hl, rfl, hto⟩
    · cases ha
    · obtain ⟨k, hk, hown⟩ := mem_leaves_plan.1 hl
      obtain ⟨rfl, hraised⟩ := mem_own_flag.1 hown
      exact ⟨k, hk, hraised, hto⟩
  · rintro ⟨k, hk, hraised, j, hj, hv⟩
    obtain ⟨i', ⟨j', hj', hv'⟩, hi'⟩ :=
      hnoted.all ⟨k.around, f.event⟩ (mem_leaves_plan.2 ⟨k, hk, mem_own_flag.2 ⟨rfl, hraised⟩⟩) rfl
    -- Only one scope has these scopes around it.
    have hlt : ∀ {j i}, s.variableScope? j = some i → j < s.scopes.size := fun {j i} hv => by
      obtain ⟨a, ha, -⟩ := Option.map_eq_some_iff.1 hv
      exact scopeAt?_lt ha
    obtain rfl := eq_of_around hkeys h (hlt hv) (hlt hv') (hj.trans hj'.symm)
    obtain rfl := Option.some.inj (hv.symm.trans hv')
    exact hi'

/-- Only scopes that hold `var` declarations of their own carry flags. -/
theorem variableScope_of_carries (h : analyze o tree = .ok s) (hi : s.Carries f i) :
    s.variableScope? i = some i := by
  rcases (analyze_noted h).only i hi with ⟨a, ha, -⟩ | ⟨l, -, -, j, -, hv⟩
  · cases ha
  · obtain ⟨a, ha, rfl⟩ := Option.map_eq_some_iff.1 hv
    obtain ⟨b, hb, hheld⟩ := (analyze_records h).hoisting.held j a ha
    rw [variableScope?, hb, Option.map_some, hheld]

/-- **The flags are exact.**  In every store that operations or an analysis come to, a scope is
dynamic exactly if it is a global scope, a scope of a `with`, or one in which or below which a
direct call of `eval` was noted; no operation takes the flag back.  What an analysis notes is what
was visited: a scope calls `eval` directly exactly if that is not ignored and a call by that name was
visited in a scope whose variable scope it is, it uses `this` exactly if a `this` was, and it then
is its own variable scope. -/
theorem Store.Arises.flags (h : Arises o s) :
    (∀ i a, s.scopeAt? i = some a →
      (a.dynamic = true ↔ a.kind = .global ∨ a.kind = .withObject ∨ s.Tainted i) ∧
      ∀ ops, a.dynamic = true → ∃ b, (s.after ops).scopeAt? i = some b ∧ b.dynamic = true) ∧
    ∀ tree t, tree.DistinctKeys → analyze o tree = .ok t → ∀ i a, t.scopeAt? i = some a →
      (a.callsEval = true ↔ t.Raises o tree .eval i) ∧
      (a.usesThis = true ↔ t.Raises o tree .this i) ∧
      (a.callsEval = true ∨ a.usesThis = true → a.variableScope = i) := by
  refine ⟨fun i a ha => ⟨h.dynamic_iff ha, fun ops hd => ?_⟩, fun tree t hkeys ht i a ha => ?_⟩
  · obtain ⟨b, hb, hab⟩ := (after_edits s ops).scope h.rooted ha
    exact ⟨b, hb, hab.dynamic hd⟩
  · have hcarries : ∀ f : Flag, t.Carries f i ↔ f.on a = true := fun f =>
      ⟨fun ⟨b, hb, hon⟩ => Option.some.inj (hb.symm.trans ha) ▸ hon, fun hon => ⟨a, ha, hon⟩⟩
    refine ⟨(hcarries .eval).symm.trans (analyze_carries_iff hkeys ht),
      (hcarries .this).symm.trans (analyze_carries_iff hkeys ht), fun hor => ?_⟩
    have hown : t.variableScope? i = some i := by
      rcases hor with hon | hon
      · exact variableScope_of_carries ht ((hcarries .eval).2 hon)
      · exact variableScope_of_carries ht ((hcarries .this).2 hon)
    rw [variableScope?, ha] at hown
    exact Option.some.inj hown

/-- A function in a function, in which a call of `eval` is noted. -/
def evalOperations : List Operation :=
  let function (i : Nat) : Node := ⟨[.item i], .obj [("type", .str "FunctionExpression")]⟩
  [.enter .global ⟨[], .obj [("type", .str "Program")]⟩ none,
    .enter .function (function 0) (some 0), .enter .function (function 1) (some 1), .noteEval 2,
    .close 2]

/-- `function f() { eval(x) }` -/
def evalProgram : Tree :=
  let name (text : String) : Tree := .obj [("type", .str "Identifier"), ("name", .str text)]
  let call : Tree := .obj [("type", .str "CallExpression"), ("callee", name "eval"),
    ("arguments", .arr [name "x"])]
  .obj [("type", .str "Program"), ("body", .arr [
    .obj [("type", .str "FunctionDeclaration"), ("id", name "f"), ("params", .arr []),
      ("body", .obj [("type", .str "BlockStatement"), ("body", .arr [
        .obj [("type", .str "ExpressionStatement"), ("expression", call)]])])]])]

/-- The function around the one that calls is dynamic for no other reason; in the program, the scope
of the function is the one that calls. -/
theorem flags_sample : (∃ s, Arises {} s ∧ s.Tainted 1) ∧
    ∃ t, evalProgram.DistinctKeys ∧ analyze {} evalProgram = .ok t ∧
      t.Raises {} evalProgram .eval 1 := by
  have hb : Arises {} ((Store.new {}).after evalOperations) := .operations _
  refine ⟨⟨_, hb, ?_⟩, ?_⟩
  · obtain ⟨a, ha, hd, hk⟩ : ∃ a, ((Store.new {}).after evalOperations).scopeAt? 1 = some a ∧
        a.dynamic = true ∧ a.kind = .function := ⟨_, rfl, by decide +kernel, by decide +kernel⟩
    have hor := (hb.flags.1 1 a ha).1.1 hd
    rw [hk] at hor
    exact (hor.resolve_left nofun).resolve_left nofun
  · have hkeys : evalProgram.DistinctKeys := by decide +kernel
    have hrun : (analyze {} evalProgram).toOption.map (fun t =>
        (t.scopeAt? 1).map (·.callsEval)) = some (some true) := by decide +kernel
    cases ht : analyze {} evalProgram with
    | error e =>
        rw [ht] at hrun
        cases hrun
    | ok t =>
        rw [ht] at hrun
        obtain ⟨a, ha, hcalls⟩ := Option.map_eq_some_iff.1 (Option.some.inj hrun)
        exact ⟨t, hkeys, rfl, (hb.flags.2 evalProgram t hkeys ht 1 a ha).1.1 hcalls⟩

end LexScope
