import LexScope.Proofs.Origins

/-!
# Proofs — Faults — what stops a walk

An event can be there to stop the walk; the errors of such events are the *faults* of a plan
(`faults`).  Nothing else stops it where all names are texts, as long as everything can happen where
it stands: a scope is entered for an object the prologue of which can be read, and whatever needs a
scope has one around it (`Leaf.CanHappen`).

* `Known.event_total`, `Known.fault_of_fails`: at every moment, what can happen does.
* `analyze_of_faults`: **an analysis stops with the first fault of its plan**, and returns if there
  is none.
-/

namespace LexScope

open Store LexScope.Action

/-- Whether the prologue that counts for a scope of a node can be read, whatever tells directives
from other statements. -/
def HasPrologue (kind : ScopeKind) (n : Node) : Prop :=
  ∀ byField, ((prologueOf? kind n).bind (Directive.prologue? byField)).isSome = true

/-! ### Operations succeed -/

namespace Action

variable {s : Store} {i : ScopeId} {n : Node} {kind : ScopeKind} {upper : Option ScopeId}

/-- What has a text for a name can be bound. -/
theorem define_total (hi : ∃ a, s.scopeAt? i = some a) (hn : n.value.TextNames)
    (d : Definition) : ∃ w t, (define i n d).outcome s = (.ok w, t) := by
  obtain ⟨a, ha⟩ := hi
  cases hid : n.isIdentifier with
  | false => exact ⟨none, s, define_ok_iff.2 (.inl ⟨hid, rfl, rfl⟩)⟩
  | true =>
      obtain ⟨name, hname⟩ := hn.name hid
      have hkey : Name.ofTree? (n.value.get "name") = some (.text name) :=
        Name.ofTree?_eq_text.2 hname
      cases hf : a.table.find? (.text name) with
      | some v =>
          exact ⟨_, _, define_ok_iff.2 (.inr ⟨hid, _, a, hkey, ha, .inl ⟨v, hf, rfl, rfl⟩⟩)⟩
      | none =>
          exact ⟨_, _, define_ok_iff.2 (.inr ⟨hid, _, a, hkey, ha, .inr ⟨hf, rfl, rfl⟩⟩)⟩

/-- Whether a scope is strict is known if its prologue can be read. -/
theorem isStrict?_total (o : Options) (hp : HasPrologue kind n) (above : Bool) :
    ∃ strict, isStrict? o kind n above = some strict := by
  rw [isStrict?]
  split_ifs
  · exact ⟨_, rfl⟩
  · exact ⟨_, rfl⟩
  · exact Option.isSome_iff_exists.1 (hp _)

/-- A scope can be provided with what its kind provides. -/
theorem provide_total (hi : ∃ a, s.scopeAt? i = some a) (hn : n.value.TextNames)
    (kind : ScopeKind) : ∃ t, (provide kind n i).outcome s = (.ok (), t) := by
  unfold provide
  split
  · split
    · exact ⟨_, discard_ok_iff.2 ⟨_, bindNew_ok_iff.2 ⟨rfl, rfl⟩⟩⟩
    · exact ⟨s, rfl⟩
  · obtain ⟨w, t, hd⟩ :=
      define_total hi (Tree.hereditary_allObjects _ |>.get hn "id") (.ofFunction n)
    exact ⟨t, discard_ok_iff.2 ⟨w, hd⟩⟩
  · exact ⟨s, rfl⟩

/-- **A scope can be entered** for an object the prologue of which can be read. -/
theorem enter_total (hu : ∀ u, upper = some u → u < s.scopes.size) (ho : n.isObj = true)
    (hp : HasPrologue kind n) (hn : n.value.TextNames) :
    ∃ i t, (enter kind n upper).outcome s = (.ok i, t) := by
  obtain ⟨above, habove⟩ : ∃ above, s.strictAt? upper = some above := by
    cases upper with
    | none => exact ⟨false, rfl⟩
    | some u =>
        obtain ⟨a, ha⟩ := scopeAt?_of_lt (hu u rfl)
        exact ⟨a.strict, by rw [strictAt?, ha, Option.map_some]⟩
  obtain ⟨strict, hstrict⟩ := isStrict?_total s.options hp above
  have hopen := openScope_ok_iff.2 ⟨above, strict, habove, hstrict, ho, rfl, rfl⟩
  have hnew : ∃ a, (s.addScope kind n upper strict).scopeAt? s.scopes.size = some a :=
    ⟨_, scopeAt?_addScope_new hu⟩
  obtain ⟨t, ht⟩ := provide_total (s := (s.addScope kind n upper strict).record
    (.opened kind s.scopes.size n.type strict)) hnew hn kind
  exact ⟨_, t, enter_ok_iff.2 ⟨_, hopen, ht⟩⟩

end Action

namespace Walk

/-! ### Faults and what can happen -/

/-- The error that a leaf stops the walk with. -/
def Leaf.fault? : Leaf → Option Error
  | ⟨_, .fail e⟩ => some e
  | _ => none

mutual

theorem Event.suffix_of_mem_leaves (c : Around) : ∀ e : Event, ∀ l ∈ e.leaves c, c <:+ l.around
  | .within kind n inside, l, hl => by
      rcases List.mem_cons.1 hl with rfl | hl
      · exact List.suffix_refl c
      · exact (List.suffix_cons _ c).trans (suffix_of_mem_leaves ((kind, n) :: c) inside l hl)
  | .define .., l, hl | .refer _, l, hl | .callEval, l, hl | .useThis, l, hl
  | .needScope, l, hl | .phase _, l, hl | .fail _, l, hl | .closeOwned _, l, hl => by
      rw [List.mem_singleton.1 hl]

/-- What is around events is around all of their leaves. -/
theorem suffix_of_mem_leaves (c : Around) :
    ∀ events : List Event, ∀ l ∈ leavesOf c events, c <:+ l.around
  | [], _, hl => nomatch hl
  | e :: rest, l, hl => (List.mem_append.1 hl).elim (Event.suffix_of_mem_leaves c e l)
      (suffix_of_mem_leaves c rest l)

end

/-- Whether what a leaf does can be done where it stands.  To stop the walk can always be done. -/
def Leaf.CanHappen : Leaf → Prop
  | ⟨_, .within kind n _⟩ => n.isObj = true ∧ HasPrologue kind n
  | ⟨c, .define _ _ _⟩ | ⟨c, .refer _⟩ | ⟨c, .callEval⟩ | ⟨c, .useThis⟩ | ⟨c, .needScope⟩ =>
      c ≠ []
  | ⟨_, .phase _⟩ | ⟨_, .fail _⟩ | ⟨_, .closeOwned _⟩ => True

/-- The errors that events stop the walk with, in order. -/
def faults (events : List Event) : List Error := (leavesOf [] events).filterMap Leaf.fault?

variable {m m' : Moment} {s : Store} {c : Option ScopeId} {e : Event} {todo : List Event}
  {rest : List Frame} {ops : List Operation} {err : Error}

/-- An operation that succeeds is an event that does. -/
theorem Event.run_of_operation {i : ScopeId} {op : Operation}
    (he : e.operation? s i = some op) (hop : ∃ out t, op.apply.outcome s = (.ok out, t)) :
    ∃ t, (e.run (some i)).outcome s = (.ok (), t) := by
  obtain ⟨out, t, hop⟩ := hop
  exact ⟨t, by rw [Event.outcome_run he, Operation.applyTo_eq, hop]; rfl⟩

/-- **What can happen next does**, unless it is there to stop the walk. -/
theorem Moment.Known.event_total (h : Moment.Known Tree.TextNames ⟨⟨c, e :: todo⟩ :: rest, s⟩)
    (hw : ∀ kind n inside, e ≠ .within kind n inside) (he : ∀ err, e ≠ .fail err)
    (hp : ∀ l ∈ e.leaves (s.aroundOf c), l.CanHappen) :
    ∃ t, (e.run c).outcome s = (.ok (), t) := by
  have hd : s.Disciplined c := h.good.disciplined
  have hscope : s.aroundOf c ≠ [] → ∃ i a, c = some i ∧ s.scopeAt? i = some a := fun hne => by
    cases hc : c with
    | none => rw [hc] at hne; exact absurd rfl hne
    | some i =>
        obtain ⟨a, ha⟩ := scopeAt?_of_lt (h.good.linked.of_mem List.mem_cons_self hc)
        exact ⟨i, a, rfl, ha⟩
  have hopen : ∀ {j : ScopeId}, j ∈ s.line c → ∃ a, s.scopeAt? j = some a := fun hj =>
    (hd.open_of_mem hj).imp fun _ => And.left
  cases e with
  | define target n d =>
      obtain ⟨i, a, rfl, ha⟩ := hscope (hp _ List.mem_cons_self)
      obtain ⟨j, hj⟩ : ∃ j, target.scope? s i = some j := by
        cases target with
        | here => exact ⟨i, rfl⟩
        | hoisted => exact ⟨a.variableScope, by rw [Target.scope?, variableScope?, ha]; rfl⟩
      have hop : (Event.define target n d).operation? s i = some (.define j n d) := by
        rw [Event.operation?, hj, Option.map_some]
      obtain ⟨w, t, hrun⟩ := define_total (hopen (Event.orderly hd hop).1) (h.sourced.head rfl).1 d
      exact Event.run_of_operation hop ⟨_, t, bind_pure_ok_iff.2 ⟨w, rfl, hrun⟩⟩
  | refer u =>
      obtain ⟨i, a, rfl, ha⟩ := hscope (hp _ List.mem_cons_self)
      obtain ⟨b, hb, ho⟩ := hd.open_of_mem (self_mem_chain s i)
      have hrefer : ∀ u, ∃ r t, (refer i u).outcome s = (.ok r, t) := fun u => by
        cases hid : u.identifier.isIdentifier with
        | false => exact ⟨none, s, refer_ok_iff.2 (.inl ⟨hid, rfl, rfl⟩)⟩
        | true => exact ⟨_, _, refer_ok_iff.2 (.inr ⟨hid, rfl, rfl, b, hb, ho⟩)⟩
      obtain ⟨r, t, hrun⟩ := hrefer (if a.strict then { u with candidate := none } else u)
      have hop : (Event.refer u).operation? s i =
          some (.refer i (if a.strict then { u with candidate := none } else u)) := by
        rw [Event.operation?, ha, Option.map_some]
      exact Event.run_of_operation hop ⟨_, t, bind_pure_ok_iff.2 ⟨r, rfl, hrun⟩⟩
  | callEval =>
      obtain ⟨i, a, rfl, ha⟩ := hscope (hp _ List.mem_cons_self)
      have hop : Event.callEval.operation? s i = some (.noteEval a.variableScope) := by
        rw [Event.operation?, variableScope?, ha]
        rfl
      exact Event.run_of_operation hop ⟨.done, _, bind_pure_ok_iff.2
        ⟨(), rfl, noteEval_ok_iff.2 ⟨hopen (Event.orderly hd hop).1, rfl⟩⟩⟩
  | useThis =>
      obtain ⟨i, a, rfl, ha⟩ := hscope (hp _ List.mem_cons_self)
      have hop : Event.useThis.operation? s i = some (.noteThis a.variableScope) := by
        rw [Event.operation?, variableScope?, ha]
        rfl
      exact Event.run_of_operation hop ⟨.done, _, bind_pure_ok_iff.2
        ⟨(), rfl, noteThis_ok_iff.2 ⟨hopen (Event.orderly hd hop).1, rfl⟩⟩⟩
  | needScope =>
      obtain ⟨i, a, rfl, -⟩ := hscope (hp _ List.mem_cons_self)
      exact ⟨s, rfl⟩
  | phase p => exact ⟨_, rfl⟩
  | fail err => exact absurd rfl (he err)
  | within kind n inside => exact absurd rfl (hw kind n inside)
  | closeOwned n =>
      exact ⟨s, Event.outcome_keep (keeps hd (h.good.tidy _ List.mem_cons_self).1)⟩

/-- **A walk that stops is stopped by its next event**, if what is ahead can happen. -/
theorem Moment.Known.fault_of_fails (h : m.Known Tree.TextNames)
    (hp : ∀ l ∈ m.leavesAhead, l.CanHappen) (hf : Fails m err) :
    ∃ c rest, m.leavesAhead = ⟨c, .fail err⟩ :: rest := by
  cases hf with
  | @event c e todo rest s t err hw hrun =>
      rcases Event.run_malformed h.good.disciplined (h.good.tidy _ List.mem_cons_self).1 hw hrun
        with rfl | rfl
      · exact ⟨_, _, rfl⟩
      · by_cases he : ∃ err, e = .fail err
        · obtain ⟨err, rfl⟩ := he
          obtain ⟨rfl, -⟩ := throw_error_iff.1 hrun
          exact ⟨_, _, rfl⟩
        · obtain ⟨t, hok⟩ := h.event_total hw (fun err hc => he ⟨err, hc⟩) fun l hl =>
            hp l (List.mem_flatMap.2 ⟨_, List.mem_cons_self, List.mem_append_left _ hl⟩)
          rw [hok] at hrun
          cases hrun
  | @enter c kind n inside todo rest s t err hrun =>
      have hcan : n.isObj = true ∧ HasPrologue kind n :=
        hp _ (List.mem_flatMap.2 ⟨_, List.mem_cons_self, List.mem_cons_self⟩)
      have hc : ∀ u, c = some u → u < s.scopes.size := fun u hu =>
        h.good.linked.of_mem List.mem_cons_self hu
      obtain ⟨i, t', hok⟩ := enter_total hc hcan.1 hcan.2 (h.sourced.head rfl).1.1
      rw [Operation.applyTo_enter_error, hok] at hrun
      cases hrun
  | @leave i f rest s t err hrun =>
      obtain ⟨up, t', hok⟩ := close_total h.good.disciplined h.sourced.store
      rw [Operation.applyTo_close_error, hok] at hrun
      cases hrun

/-! ### Whole analyses -/

/-- The sites ahead are those of the leaves ahead. -/
theorem Moment.ahead_eq (m : Moment) : m.ahead = m.leavesAhead.filterMap Leaf.site? := by
  rw [Moment.ahead, Moment.leavesAhead, List.filterMap_flatMap]
  exact List.flatMap_congr fun f _ => sitesOf_eq _ _

/-- No fault has happened at a moment of a walk. -/
theorem Moment.Known.faults_done {o : Options} {tree : Tree} {P : Tree → Prop}
    (h : (Moment.start o tree).Known P) (hs : Steps (.start o tree) ops m) : ∃ done,
      leavesOf [] (plan (.ofOptions o) (.root tree)) = done ++ m.leavesAhead ∧
        done.filterMap Leaf.fault? = [] := by
  obtain ⟨done, hdone, -⟩ := h.accounts (Moment.start_accounts o tree) hs
  obtain ⟨sites, hsites, hrec⟩ := h.traced (Moment.start_traced o tree) hs
  refine ⟨done, hdone, List.filterMap_eq_nil_iff.2 fun l hl => ?_⟩
  -- What has been traced are the sites of what has been accounted for, and none is a failure.
  rw [sitesOf_eq, hdone, List.filterMap_append, m.ahead_eq] at hsites
  have heq : done.filterMap Leaf.site? = sites := List.append_cancel_right hsites
  obtain ⟨c, event⟩ := l
  cases event with
  | fail e => exact absurd (heq ▸ List.mem_filterMap.2 ⟨_, hl, rfl⟩) (hrec.fails c)
  | _ => rfl

/-- **An analysis stops with the first fault of its plan**, and returns if there is none, where all
names are texts and everything can happen where it stands. -/
theorem analyze_of_faults {o : Options} {tree : Tree} (ht : tree.isObj = true)
    (hn : tree.TextNames)
    (hp : ∀ l ∈ leavesOf [] (plan (.ofOptions o) (.root tree)), l.CanHappen) :
    match faults (plan (.ofOptions o) (.root tree)) with
    | [] => ∃ s, analyze o tree = .ok s
    | e :: _ => analyze o tree = .error e := by
  have hstart : (Moment.start o tree).Known Tree.TextNames :=
    Moment.start_known (Tree.hereditary_allObjects _) o hn
  obtain ⟨ops, m, hs, -, hend⟩ := hstart.good.ends
  have hm := hstart.steps hs
  obtain ⟨done, hdone, hfree⟩ := hstart.faults_done hs
  have hfaults : faults (plan (.ofOptions o) (.root tree)) =
      m.leavesAhead.filterMap Leaf.fault? := by
    rw [faults, hdone, List.filterMap_append, hfree, List.nil_append]
  rcases hend with hover | ⟨err, hf⟩
  · have hnone : m.leavesAhead = [] := by rw [Moment.leavesAhead, hover]; rfl
    rw [hfaults, hnone]
    exact ⟨_, analyze_of_over ht hs hover⟩
  · obtain ⟨c, rest, hahead⟩ :=
      hm.fault_of_fails (fun l hl => hp l (hdone ▸ List.mem_append_right _ hl)) hf
    rw [hfaults, hahead]
    exact analyze_of_fails ht hs hf

end Walk

end LexScope
