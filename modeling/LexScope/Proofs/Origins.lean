import LexScope.Proofs.Leaves

/-!
# Proofs — Origins — where every definition comes from

The leaves of a walk account for all definitions in the store it leaves, those of `var` declarations
among them, which are made further up than where they are met.  A definition comes from a leaf that
defines its identifier, from the name that a function expression gives itself, or from a write that
made a variable; and every leaf that defines an identifier has its definition in the scope it means.

* `Attests.define`, `Attests.enter`: every step keeps the account.
* `analyze_attests`: **what an analysis returns attests the leaves of the plan.**
* `analyze_origin`: every definition has an origin.
-/

namespace LexScope

open Store LexScope.Action

namespace Walk

/-- The site of a leaf, if it is one. -/
def Leaf.site? : Leaf → Option Site
  | ⟨c, .define .here n d⟩ => some ⟨c, .binds n d⟩
  | ⟨c, .refer u⟩ => some ⟨c, .uses u.identifier⟩
  | ⟨c, .fail _⟩ => some ⟨c, .fails⟩
  | ⟨c, .within kind n _⟩ => some ⟨c, .opens kind n⟩
  | _ => none

mutual

theorem Event.sites_eq (c : Around) : ∀ e : Event, e.sites c = (e.leaves c).filterMap Leaf.site?
  | .within kind n inside => by
      rw [Event.sites, Event.leaves, sitesOf_eq]
      rfl
  | .define target n d => by cases target <;> rfl
  | .refer _ | .fail _ | .callEval | .useThis | .needScope | .phase _ | .closeOwned _ => rfl

/-- The sites of events can be read off their leaves. -/
theorem sitesOf_eq (c : Around) : ∀ events : List Event,
    sitesOf c events = (leavesOf c events).filterMap Leaf.site?
  | [] => rfl
  | e :: rest => by
      rw [sitesOf_cons, leavesOf_cons, List.filterMap_append, Event.sites_eq, sitesOf_eq]

end

end Walk

namespace Store

open Walk

variable {A : ScopeId → Prop} {s t : Store} {i j : ScopeId} {a b : Scope} {n : Node}
  {d : Definition} {key : Name} {leaves extra : List Leaf} {target : Target}

/-! ### The account -/

/-- A definition in a scope was made by a leaf, which was met in that scope or in one whose `var`
declarations it holds. -/
def DefinedBy (s : Store) (leaves : List Leaf) (i : ScopeId) (key : Name) (d : Definition) : Prop :=
  ∃ j target n, j < s.scopes.size ∧ target.scope? s j = some i ∧
    ⟨s.around j, .define target n d⟩ ∈ leaves ∧ n.isIdentifier = true ∧
    Name.ofTree? (n.value.get "name") = some key

/-- A definition is the name that a function expression gives itself. -/
def Scope.NamesItself (a : Scope) (key : Name) (d : Definition) : Prop :=
  a.kind = .functionName ∧ d = .ofFunction a.block ∧ (a.block.get "id").isIdentifier = true ∧
    Name.ofTree? ((a.block.get "id").value.get "name") = some key

/-- All definitions of an entry of a scope are accounted for.  Only the arguments of a function have
none. -/
def Accounted (s : Store) (leaves : List Leaf) (i : ScopeId) (a : Scope)
    (e : Name × Option Variable) : Prop :=
  ∃ var, e.2 = some var ∧ (var.defs = [] → a.kind = .function ∧ e.1 = .text argumentsName) ∧
    ∀ d ∈ var.defs, s.DefinedBy leaves i e.1 d ∨ Scope.NamesItself a e.1 d

/-- What happened at some leaves is to be found in the store, and all that is declared there comes
from it. -/
structure Attests (s : Store) (leaves : List Leaf) : Prop where
  /-- The `var` declarations of a scope are held by itself or by what holds those of the one
  above. -/
  holder : ∀ i a, s.scopeAt? i = some a → a.variableScope =
    if a.kind.holdsVars then i else (a.upper.bind s.variableScope?).getD i
  bound : ∀ c target n d, ⟨c, .define target n d⟩ ∈ leaves → n.isIdentifier = true →
    ∃ j i key var, j < s.scopes.size ∧ s.around j = c ∧ target.scope? s j = some i ∧
      Name.ofTree? (n.value.get "name") = some key ∧ (key, some var) ∈ s.declared i ∧ d ∈ var.defs
  named : ∀ i a, s.scopeAt? i = some a → a.kind = .functionName →
    (a.block.get "id").isIdentifier = true →
    ∃ key var, (key, some var) ∈ s.declared i ∧ .ofFunction a.block ∈ var.defs
  declared : ∀ i a, s.scopeAt? i = some a → ∀ e ∈ s.declared i, s.Accounted leaves i a e

theorem Attests.hoists (h : s.Attests leaves) : s.Hoists := h.holder

theorem accounted_of_frame (h : b.frame = a.frame) {e : Name × Option Variable} :
    s.Accounted leaves i b e ↔ s.Accounted leaves i a e := by
  simp only [Accounted, Scope.NamesItself, Scope.kind_of_frame h, Scope.block_of_frame h]

/-- A target means the same scope for good. -/
theorem target_evolves (hE : Evolves A s t) (hj : j < s.scopes.size) (target : Target) :
    target.scope? t j = target.scope? s j := by
  cases target with
  | here => rfl
  | hoisted => exact variableScope?_evolves hE hj

/-- What is accounted for stays so. -/
theorem Accounted.evolves {e : Name × Option Variable} (h : s.Accounted leaves i a e)
    (hE : Evolves A s t) (hs : s.Sound) (ht : t.Sound) (hsize : s.scopes.size ≤ t.scopes.size)
    (hsub : leaves ⊆ extra) : t.Accounted extra i a e := by
  obtain ⟨var, hvar, harguments, hdefs⟩ := h
  refine ⟨var, hvar, harguments, fun d hd => (hdefs d hd).imp_left ?_⟩
  rintro ⟨j, target, n, hj, htarget, hmem, hrest⟩
  refine ⟨j, target, n, hj.trans_le hsize, (target_evolves hE hj target).trans htarget, ?_, hrest⟩
  rw [hE.around hs ht hj]
  exact hsub hmem

/-- Further leaves make no difference to what is accounted for. -/
theorem Accounted.mono {e : Name × Option Variable} (h : s.Accounted leaves i a e)
    (hs : s.Sound) (hsub : leaves ⊆ extra) : s.Accounted extra i a e :=
  h.evolves (A := fun _ => True) (.refl s) hs hs le_rfl hsub

/-! ### Where no scope opens -/

/-- Where no scope opens, what is kept is what was kept and what is added. -/
theorem Attests.advance (h : s.Attests leaves) (hE : Evolves A s t) (hs : s.Sound) (ht : t.Sound)
    (hsize : t.scopes.size = s.scopes.size)
    (hbound : ∀ c target n d, ⟨c, .define target n d⟩ ∈ extra → n.isIdentifier = true →
      ∃ j i key var, j < s.scopes.size ∧ s.around j = c ∧ target.scope? s j = some i ∧
        Name.ofTree? (n.value.get "name") = some key ∧ (key, some var) ∈ t.declared i ∧
        d ∈ var.defs)
    (hkept : ∀ i key var, (key, some var) ∈ s.declared i →
      ∃ var', (key, some var') ∈ t.declared i ∧ var.defs ⊆ var'.defs)
    (hdeclared : ∀ i a, s.scopeAt? i = some a → ∀ e ∈ t.declared i,
      s.Accounted (leaves ++ extra) i a e) : t.Attests (leaves ++ extra) := by
  refine ⟨fun i b hb => ?_, fun c target n d hl hn => ?_, fun i b hb hk hid => ?_,
    fun i b hb e he => ?_⟩
  · exact h.hoists.old hE hs (hsize ▸ scopeAt?_lt hb) hb
  · have hold : ∃ j i key var, j < s.scopes.size ∧ s.around j = c ∧ target.scope? s j = some i ∧
        Name.ofTree? (n.value.get "name") = some key ∧ (key, some var) ∈ t.declared i ∧
        d ∈ var.defs := by
      rcases List.mem_append.1 hl with hl | hl
      · obtain ⟨j, i, key, var, hj, hc, hi, hkey, hmem, hd⟩ := h.bound c target n d hl hn
        obtain ⟨var', hmem', hsub⟩ := hkept i key var hmem
        exact ⟨j, i, key, var', hj, hc, hi, hkey, hmem', hsub hd⟩
      · exact hbound c target n d hl hn
    obtain ⟨j, i, key, var, hj, hc, hi, hrest⟩ := hold
    exact ⟨j, i, key, var, hsize ▸ hj, (hE.around hs ht hj).trans hc,
      (target_evolves hE hj target).trans hi, hrest⟩
  · obtain ⟨a, ha, hf⟩ := hE.scope_of_size hsize hb
    rw [Scope.block_of_frame hf] at hid ⊢
    obtain ⟨key, var, hmem, hd⟩ := h.named i a ha (Scope.kind_of_frame hf ▸ hk) hid
    obtain ⟨var', hmem', hsub⟩ := hkept i key var hmem
    exact ⟨key, var', hmem', hsub hd⟩
  · obtain ⟨a, ha, hf⟩ := hE.scope_of_size hsize hb
    exact (accounted_of_frame hf).2 ((hdeclared i a ha e he).evolves hE hs ht hsize.ge
      (List.Subset.refl _))

/-- What neither opens a scope nor declares anything keeps what there was. -/
theorem Attests.still (h : s.Attests leaves) (hE : Evolves A s t) (hs : s.Sound) (ht : t.Sound)
    (hsize : t.scopes.size = s.scopes.size) (hdeclared : ∀ i, t.declared i = s.declared i)
    (hextra : ∀ c target n d, (⟨c, .define target n d⟩ : Leaf) ∉ extra) :
    t.Attests (leaves ++ extra) :=
  h.advance hE hs ht hsize (fun c target n d hl => absurd hl (hextra c target n d))
    (fun i _ var hmem => ⟨var, hdeclared i ▸ hmem, List.Subset.refl _⟩)
    fun i a ha e he => (h.declared i a ha e (hdeclared i ▸ he)).mono hs
      (List.subset_append_left _ _)

/-- What is defined, in the scope that the target means. -/
theorem Attests.define {w : Option VariableId} (h : s.Attests leaves) (hE : Evolves A s t)
    (hs : s.Sound) (ht : t.Sound) (hsize : t.scopes.size = s.scopes.size) (hd : s.Distinct)
    (hi : s.implicitAt i = []) (hj : j < s.scopes.size) (htarget : target.scope? s j = some i)
    (hop : (Action.define i n d).outcome s = (.ok w, t)) :
    t.Attests (leaves ++ [⟨s.around j, .define target n d⟩]) := by
  have hold : ∀ {k a e}, s.scopeAt? k = some a → e ∈ s.declared k →
      s.Accounted (leaves ++ [⟨s.around j, .define target n d⟩]) k a e := fun ha he =>
    (h.declared _ _ ha _ he).mono hs (List.subset_append_left _ _)
  rcases define_adds hs hd hi hop with ⟨hn, rfl⟩ | ⟨hn, key, hk, hadds⟩
  · refine h.advance hE hs ht hsize (fun c target' m d' hm hid => ?_)
      (fun k key var hv => ⟨var, hv, List.Subset.refl _⟩) fun k a ha e he => hold ha he
    obtain ⟨-, -, rfl, -⟩ := by simpa using hm
    rw [hn] at hid
    cases hid
  · refine h.advance hE hs ht hsize (fun c target' m d' hm _ => ?_) hadds.kept
      fun k a ha e he => ?_
    · obtain ⟨rfl, rfl, rfl, rfl⟩ := by simpa using hm
      obtain ⟨var, hmem, hnew⟩ := hadds.added
      exact ⟨j, i, key, var, hj, rfl, htarget, hk, hmem, hnew⟩
    · obtain he | ⟨rfl, rfl, var, hvar, hnew, hdefs⟩ := hadds.only k e he
      · exact hold ha he
      · refine ⟨var, hvar, fun h0 => absurd h0 (List.ne_nil_of_mem hnew), fun d' hd' => ?_⟩
        rcases hdefs d' hd' with rfl | ⟨old, hmem, hd'⟩
        · exact .inl ⟨j, target, n, hj, htarget,
            List.mem_append_right _ List.mem_cons_self, hn, hk⟩
        · obtain ⟨_, hvar', -, hdefs'⟩ := hold ha hmem
          obtain rfl := Option.some.inj hvar'
          exact hdefs' d' hd'

/-! ### Where a scope opens -/

/-- What a scope is provided with when it is entered: a function with its arguments, the scope of a
function's name with that name, any other with nothing. -/
theorem enter_provides {kind : ScopeKind} {upper : Option ScopeId} (hs : s.Sound)
    (hd : s.Distinct) (h : (enter kind n upper).outcome s = (.ok i, t)) :
    (∀ e ∈ t.declared i, (kind = .function ∧ e.1 = .text argumentsName ∧
        ∃ var, e.2 = some var ∧ var.defs = []) ∨
      kind = .functionName ∧ (n.get "id").isIdentifier = true ∧
        Name.ofTree? ((n.get "id").value.get "name") = some e.1 ∧
        ∃ var, e.2 = some var ∧ var.defs = [.ofFunction n]) ∧
    (kind = .functionName → (n.get "id").isIdentifier = true →
      ∃ key var, (key, some var) ∈ t.declared i ∧ .ofFunction n ∈ var.defs) := by
  obtain ⟨u, ho, hp⟩ := enter_ok_iff.1 h
  have hq := openScope_quiets (A := fun _ => True) ho fun _ _ => trivial
  obtain ⟨above, strict, ha, -, -, rfl, hu⟩ := openScope_ok_iff.1 ho
  obtain ⟨-, strict', hfresh⟩ := openScope_scopeAt? ho
  have hempty : u.declared s.scopes.size = [] := by
    rw [hu]
    exact (declared_addScope kind n strict (upper_lt_of_strictAt? ha) _).trans (if_pos rfl)
  have hsound := hq.changes.sound hs
  unfold provide at hp
  split at hp
  · refine ⟨fun e he => ?_, nofun⟩
    split at hp
    · obtain ⟨v, hp⟩ := discard_ok_iff.1 hp
      obtain ⟨-, rfl⟩ := bindNew_ok_iff.1 hp
      rw [declared_bindNew hsound hfresh rfl rfl, if_pos rfl, hempty] at he
      rw [List.mem_singleton.1 he]
      exact .inl ⟨rfl, rfl, _, rfl, rfl⟩
    · rw [(pure_ok_iff.1 hp).2, hempty] at he
      cases he
  · obtain ⟨v, hp⟩ := discard_ok_iff.1 hp
    have himp : u.implicitAt s.scopes.size = [] := implicitAt_eq hfresh
    rcases define_declared hsound (hd.changes hq.changes) himp hp with
      ⟨hn, rfl⟩ | ⟨hn, key, hk, -, ⟨var, hdefs, hdecl⟩ | ⟨var, hmem, -⟩⟩
    · rw [hempty]
      exact ⟨nofun, fun _ hid => absurd hid (by simp [hn])⟩
    · rw [hdecl, hempty]
      refine ⟨fun e he => ?_, fun _ _ => ⟨key, var, List.mem_cons_self, by simp [hdefs]⟩⟩
      rw [List.mem_singleton.1 he]
      exact .inr ⟨rfl, hn, hk, var, rfl, hdefs⟩
    · rw [hempty] at hmem
      cases hmem
  · rename_i hne
    rw [(pure_ok_iff.1 hp).2, hempty]
    exact ⟨nofun, fun hk => absurd hk (by simpa using hne)⟩

/-- The scope that is entered, with what it is provided with. -/
theorem Attests.enter {kind : ScopeKind} {upper : Option ScopeId} (h : s.Attests leaves)
    (hE : Evolves A s t) (hs : s.Sound) (ht : t.Sound) (hd : s.Distinct)
    (hop : (Action.enter kind n upper).outcome s = (.ok i, t)) :
    t.Attests (leaves ++ [⟨s.aroundOf upper, .within kind n []⟩]) := by
  obtain ⟨-, -, hsize, -⟩ := enter_opened hs hop
  obtain ⟨rfl, hu, b, strict, hb, hf⟩ := enter_frame hs hop
  obtain ⟨hother, -⟩ := enter_declared hs hd hop
  obtain ⟨hprovided, hnamed⟩ := enter_provides hs hd hop
  have hkind : b.kind = kind := Scope.kind_of_frame hf
  have hblock : b.block = n := Scope.block_of_frame hf
  have hle : s.scopes.size ≤ t.scopes.size := by omega
  -- A scope is the new one or one that was there.
  have hcases : ∀ {j c}, t.scopeAt? j = some c →
      j < s.scopes.size ∨ j = s.scopes.size ∧ c = b := fun {j c} hc => by
    refine (Nat.lt_succ_iff_lt_or_eq.1 ((scopeAt?_lt hc).trans_eq hsize)).imp_right ?_
    rintro rfl
    exact ⟨rfl, Option.some.inj (hc.symm.trans hb)⟩
  refine ⟨fun j c hc => ?_, fun c target m d hl hid => ?_, fun j c hc hk hid => ?_,
    fun j c hc e he => ?_⟩
  · obtain hj | ⟨rfl, rfl⟩ := hcases hc
    · exact h.hoists.old hE hs hj hc
    · exact hoists_of_fresh hE hu hf
  · obtain hl : (⟨c, .define target m d⟩ : Leaf) ∈ leaves := by simpa using hl
    obtain ⟨j, k, key, var, hj, hc, hk, hkey, hmem, hdv⟩ := h.bound c target m d hl hid
    have hk' : k ≠ s.scopes.size := by
      rintro rfl
      rw [declared_eq_nil le_rfl] at hmem
      cases hmem
    exact ⟨j, k, key, var, hj.trans_le hle, (hE.around hs ht hj).trans hc,
      (target_evolves hE hj target).trans hk, hkey, (hother k hk').symm ▸ hmem, hdv⟩
  · obtain hj | ⟨rfl, rfl⟩ := hcases hc
    · obtain ⟨a, ha, hev⟩ := hE.scope_of_lt hj hc
      rw [Scope.block_of_frame hev.frame] at hid ⊢
      rw [hother j hj.ne]
      exact h.named j a ha (Scope.kind_of_frame hev.frame ▸ hk) hid
    · rw [hblock] at hid ⊢
      exact hnamed (hkind ▸ hk) hid
  · obtain hj | ⟨rfl, rfl⟩ := hcases hc
    · obtain ⟨a, ha, hev⟩ := hE.scope_of_lt hj hc
      rw [hother j hj.ne] at he
      exact (accounted_of_frame hev.frame).2 ((h.declared j a ha e he).evolves hE hs ht hle
        (List.subset_append_left _ _))
    · rcases hprovided e he with ⟨rfl, hname, var, hvar, hdefs⟩ |
        ⟨rfl, hid, hkey, var, hvar, hdefs⟩
      · exact ⟨var, hvar, fun _ => ⟨hkind, hname⟩, by simp [hdefs]⟩
      · refine ⟨var, hvar, fun h0 => ?_, fun d hd' => .inr ⟨hkind, ?_, hblock ▸ hid, hblock ▸ hkey⟩⟩
        · rw [hdefs] at h0
          cases h0
        · rw [hdefs, List.mem_singleton] at hd'
          rw [hd', hblock]

end Store

/-! ### A whole walk -/

namespace Walk

variable {m m' : Moment} {op : Option Operation} {ops : List Operation} {P : Tree → Prop}
  {leaves : List Leaf}

/-- The leaves of what is still to happen at a moment. -/
def Moment.leavesAhead (m : Moment) : List Leaf :=
  m.frames.flatMap fun f => leavesOf (m.store.aroundOf f.scope) f.todo

/-- What has happened at a moment is kept, and the rest is ahead. -/
def Moment.Accounts (leaves : List Leaf) (m : Moment) : Prop :=
  ∃ done, leaves = done ++ m.leavesAhead ∧ m.store.Attests done

theorem leavesAhead_evolves {A : ScopeId → Prop} {s t : Store} {frames : List Frame}
    (hE : Evolves A s t) (hs : s.Sound) (ht : t.Sound) (hl : Linked s frames) :
    (Moment.mk frames t).leavesAhead = (Moment.mk frames s).leavesAhead :=
  List.flatMap_congr fun f hf => by
    rw [aroundOf_evolves hE hs ht fun i hi => hl.of_mem hf hi]

/-- What an operation of a walk leaves kept. -/
theorem Moment.Known.attest_operation {o : Operation} (h : m.Known P) (hk : m.store.Attests leaves)
    {c : ScopeId} {e : Event} {todo : List Event} {rest : List Frame}
    (hf : m.frames = ⟨some c, e :: todo⟩ :: rest) (he : e.operation? m.store c = some o)
    {out : Outcome} {t : Store} (hop : o.applyTo m.store = (.ok out, t)) :
    t.Attests (leaves ++ e.leaves (m.store.around c)) := by
  have hs := h.good.disciplined.sound
  have ho := h.good.orderly_event hf he
  have hE := (h.good.disciplined.changes ho hop).evolves hs
  have ht := (h.good.disciplined.step ho hop).sound
  have hlt : c < m.store.scopes.size := h.good.linked.of_mem (hf ▸ List.mem_cons_self) rfl
  have hsize := Moment.size_event ho he hop
  cases Event.does he hop with
  | define hi hd => exact hk.define hE hs ht hsize h.distinct (h.implicitAt ho) hlt hi hd
  | refer _ hr => exact hk.still hE hs ht hsize (refer_declared hr) (by simp [Event.leaves])
  | @callEval j => exact hk.still hE hs ht hsize (declared_noteEval j) (by simp [Event.leaves])
  | @useThis j => exact hk.still hE hs ht hsize (declared_noteThis j) (by simp [Event.leaves])

theorem Moment.Known.accounts_step (h : m.Known P) (hacc : m.Accounts leaves)
    (hs : Step m op m') : m'.Accounts leaves := by
  obtain ⟨done, hleaves, hk⟩ := hacc
  have hsound := h.good.disciplined.sound
  have hE := (h.good.changes hs).evolves hsound
  have hsound' := (h.good.step hs).disciplined.sound
  have hl := h.good.linked
  cases hs with
  | @act c e todo rest s t o out he hop =>
      refine ⟨_, ?_, h.attest_operation hk rfl he hop⟩
      have hrest : Linked s (⟨some c, todo⟩ :: rest) := by cases rest <;> exact hl
      rw [leavesAhead_evolves hE hsound hsound' hrest, hleaves]
      simp [Moment.leavesAhead, Store.aroundOf]
  | @enter c kind n inside todo rest s t i hop =>
      have hent := Operation.applyTo_enter_ok.1 hop
      refine ⟨_, ?_, hk.enter hE hsound hsound' h.distinct hent⟩
      have hrest : Linked s (⟨c, todo⟩ :: rest) := by cases rest <;> exact hl
      have hahead : (Moment.mk (⟨some i, inside⟩ :: ⟨c, todo⟩ :: rest) t).leavesAhead =
          leavesOf (t.around i) inside ++ (Moment.mk (⟨c, todo⟩ :: rest) t).leavesAhead := rfl
      rw [hahead, leavesAhead_evolves hE hsound hsound' hrest,
        enter_around hE hsound hsound' hent, hleaves]
      simp [Moment.leavesAhead, Event.leaves]
  | @leave i f rest s t out hop =>
      obtain ⟨up, -, hc⟩ := Operation.applyTo_close_ok.1 hop
      have htwin := close_twin hsound h.sourced.store.own (h.implicitAt (self_mem_chain s i)) hc
      refine ⟨done ++ [], ?_, hk.still hE hsound hsound' ?_ (fun j => ?_)
        fun _ _ _ _ => List.not_mem_nil⟩
      · rw [leavesAhead_evolves hE hsound hsound' hl.2, hleaves, List.append_nil]
        rfl
      · exact htwin.size_scopes.trans (by simp [updateScope])
      · exact (htwin.declared j).trans (declared_updateScope (f := (·.shut)) (fun _ => rfl) i j)
  | @needScope c todo rest s =>
      refine ⟨done ++ [⟨s.around c, .needScope⟩], ?_,
        hk.still hE hsound hsound' rfl (fun _ => rfl) (by simp)⟩
      rw [hleaves, List.append_assoc]
      rfl
  | @phase c p todo rest s =>
      refine ⟨done ++ [⟨s.aroundOf c, .phase p⟩], ?_,
        hk.still hE hsound hsound' rfl (fun _ => rfl) (by simp)⟩
      have hrest : Linked s (⟨c, todo⟩ :: rest) := by cases rest <;> exact hl
      rw [leavesAhead_evolves hE hsound hsound' hrest, hleaves, List.append_assoc]
      rfl
  | @keep c n todo rest s hkeep =>
      refine ⟨done ++ [⟨s.aroundOf c, .closeOwned n⟩], ?_,
        hk.still hE hsound hsound' rfl (fun _ => rfl) (by simp)⟩
      rw [hleaves, List.append_assoc]
      rfl

theorem Moment.Known.accounts (h : m.Known P) (hacc : m.Accounts leaves) (hs : Steps m ops m') :
    m'.Accounts leaves := by
  induction hs with
  | refl => exact hacc
  | more hs _ ih => exact ih (h.steps (.more hs (.refl _))) (h.accounts_step hacc hs)

theorem Moment.start_accounts (o : Options) (tree : Tree) :
    (Moment.start o tree).Accounts (leavesOf [] (plan (.ofOptions o) (.root tree))) := by
  refine ⟨[], by simp [Moment.leavesAhead, Moment.start, Store.aroundOf], ?_⟩
  have hnone : ∀ i, (Moment.start o tree).store.scopeAt? i = none := fun _ => rfl
  exact ⟨fun i a ha => by simp [hnone] at ha, fun _ _ _ _ hl => absurd hl List.not_mem_nil,
    fun i a ha => by simp [hnone] at ha, fun i a ha => by simp [hnone] at ha⟩

/-- **What an analysis returns attests the leaves of the plan.** -/
theorem analyze_attests {o : Options} {tree : Tree} {s : Store} (h : analyze o tree = .ok s) :
    s.Attests (leavesOf [] (plan (.ofOptions o) (.root tree))) := by
  obtain ⟨ops, m, hsteps, hover, -, rfl⟩ := analyze_ok h
  have hknown : (Moment.start o tree).Known fun _ => True :=
    Moment.start_known Tree.hereditary_true o trivial
  obtain ⟨done, hleaves, hk⟩ := hknown.accounts (Moment.start_accounts o tree) hsteps
  have hs := (hknown.steps hsteps).good.disciplined.sound
  have hq : Quiets (fun _ => True) m.store (m.store.record (.analyzed m.store.scopes.size)) :=
    .single (.record _)
  have hahead : m.leavesAhead = [] := by rw [Moment.leavesAhead, hover]; rfl
  have hdone : (m.store.record (.analyzed m.store.scopes.size)).Attests (done ++ []) :=
    hk.still (hq.changes.evolves hs) hs (hq.changes.sound hs) rfl (fun _ => rfl) nofun
  rwa [hleaves, hahead]

end Walk

/-! ### Entries of the finished store -/

namespace Store

open Walk

variable {s : Store} {i : ScopeId} {a : Scope} {key : Name} {v : VariableId} {var : Variable}
  {d : Definition} {leaves : List Leaf} {P : Tree → Prop}

/-- A definition is that of a write from further in. -/
def WrittenFrom (s : Store) (i : ScopeId) (key : Name) (d : Definition) : Prop :=
  ∃ r ref c, s.referenceAt? r = some ref ∧ ref.candidate = some c ∧ i ∈ s.chain ref.scope ∧
    Name.ofTree? ref.name = some key ∧ d = c.definition

/-- An entry that no write made is declared. -/
theorem mem_declared (ha : s.scopeAt? i = some a) (hf : a.table.find? key = some v)
    (hi : a.implicit.find? key = none) (hv : s.variableAt? v = some var) :
    (key, some var.unused) ∈ s.declared i := by
  rw [declared_eq ha]
  refine List.mem_map.2 ⟨(key, v), List.mem_filter.2 ⟨Table.mem_of_find? hf, ?_⟩, by rw [hv]; rfl⟩
  rw [hi]
  rfl

/-- What is declared is an entry. -/
theorem find?_of_mem_declared {var : Variable} (hd : s.Distinct) (ha : s.scopeAt? i = some a)
    (h : (key, some var) ∈ s.declared i) : ∃ v var', a.table.find? key = some v ∧
      a.implicit.find? key = none ∧ s.variableAt? v = some var' ∧ var'.defs = var.defs := by
  rw [declared_eq ha] at h
  obtain ⟨e, he, heq⟩ := List.mem_map.1 h
  obtain ⟨hmem, himp⟩ := mem_declarations he
  obtain ⟨rfl, hvar⟩ := Prod.mk.inj heq
  obtain ⟨var', hvar', rfl⟩ := Option.map_eq_some_iff.1 hvar
  exact ⟨e.2, var', Table.find?_of_mem (hd i a ha) hmem, himp, hvar', rfl⟩

/-- **Every definition has an origin**: a leaf, the name of a function expression, or a write. -/
theorem Attests.origin (h : s.Attests leaves) (hfin : s.Finished P) (ha : s.scopeAt? i = some a)
    (hf : a.table.find? key = some v) (hv : s.variableAt? v = some var) (hd : d ∈ var.defs) :
    s.DefinedBy leaves i key d ∨ Scope.NamesItself a key d ∨
      a.kind = .global ∧ s.WrittenFrom i key d := by
  cases hi : a.implicit.find? key with
  | none =>
      obtain ⟨var', hvar', -, hdefs⟩ := h.declared i a ha _ (mem_declared ha hf hi hv)
      obtain rfl := Option.some.inj hvar'
      exact (hdefs d hd).imp_right .inl
  | some w =>
      have hk : a.kind = .global := by
        by_contra hne
        rw [hfin.bare i a ha hne] at hi
        cases hi
      have hexplained := (hfin.globals i a ha hk).1 key
      obtain rfl := Option.some.inj (hf.symm.trans (hexplained.bound w hi))
      obtain ⟨var', hvar', hdefs⟩ := hexplained.defs v hi
      obtain rfl := Option.some.inj (hv.symm.trans hvar')
      rw [hdefs] at hd
      obtain ⟨c, hc, rfl⟩ := List.mem_map.1 hd
      obtain ⟨r, hr, hrc⟩ := List.mem_filterMap.1 hc
      obtain ⟨ref, href, -, hkey, hreach⟩ := mem_arrivals_iff.1 hr
      obtain ⟨l, hl, -⟩ := (Store.reaches_iff hfin.sound.rooted).1 hreach
      rw [candidateOf?, href, Option.bind_some] at hrc
      exact .inr (.inr ⟨hk, r, ref, c, href, hrc,
        hl ▸ List.mem_append_right l (self_mem_chain s i), hkey, rfl⟩)

end Store

end LexScope
