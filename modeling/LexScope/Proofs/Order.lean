import LexScope.Proofs.Lookup

/-!
# Proofs — Order — references wait in the order in which they were made

The references that wait in the open scopes of a walk, read from the outermost scope to the
innermost, stand in the order of their numbers (`Store.Ordered`): a new reference is made in the
innermost scope, and a scope that closes hands what it has left to the end of the list above.

Two moments of a walk are tied together by when a scope closes between them (`Good.closing`), and by
when a reference is made: never below a scope that is closed (`Good.made_outside`).

* `Good.ordered`: **at every moment of a walk, references wait in order.**
-/

namespace LexScope

open Store LexScope.Action

namespace Store

variable {A : ScopeId → Prop} {s t : Store} {current : Option ScopeId} {i j : ScopeId}
  {r : ReferenceId} {l : List ReferenceId}

/-- The references that wait in the current scope and the scopes above it, outermost scope first. -/
def waiting (s : Store) (current : Option ScopeId) : List ReferenceId :=
  (s.line current).reverse.flatMap s.pendingAt

/-- References wait in the order in which they were made. -/
def Ordered (s : Store) (current : Option ScopeId) : Prop := (s.waiting current).Pairwise (· < ·)

theorem waiting_congr (hl : t.line current = s.line current)
    (hp : ∀ j ∈ s.line current, t.pendingAt j = s.pendingAt j) :
    t.waiting current = s.waiting current := by
  rw [waiting, waiting, hl]
  exact List.flatMap_congr fun j hj => hp j (List.mem_reverse.1 hj)

/-- What leaves frames and pending lists alone leaves alone what waits. -/
theorem waiting_of_frame (h : s.Rooted)
    (hf : ∀ i, (t.scopeAt? i).map Scope.frame = (s.scopeAt? i).map Scope.frame)
    (hp : ∀ j, t.pendingAt j = s.pendingAt j) (current : Option ScopeId) :
    t.waiting current = s.waiting current := by
  refine waiting_congr ?_ fun j _ => hp j
  cases current with
  | none => rfl
  | some c => exact chain_of_frame h hf c

theorem waiting_pass (h : s.Rooted) (current : Option ScopeId) :
    (s.updateScope i (·.pass r)).waiting current = s.waiting current :=
  waiting_of_frame h (frame_updateScope (f := (·.pass r)) (fun _ => rfl) s i)
    (fun _ => pendingAt_pass) current

theorem waiting_record (h : s.Rooted) (entry : LogRecord) (current : Option ScopeId) :
    (s.record entry).waiting current = s.waiting current :=
  waiting_of_frame (t := s.record entry) h (fun _ => rfl) (fun _ => rfl) current

theorem waiting_passAll (h : s.Rooted) (current : Option ScopeId) :
    (s.updateScopes (s.chain i) (·.pass r)).waiting current = s.waiting current := by
  refine waiting_of_frame h (fun j => ?_) (fun _ => pendingAt_passAll (nodup_chain h i)) current
  rw [scopeAt?_updateScopes s (nodup_chain h i)]
  cases s.scopeAt? j <;> by_cases hj : j ∈ s.chain i <;> simp [hj, Scope.pass, Scope.frame]

/-- What is quiet leaves alone what waits. -/
theorem Quiets.waiting (h : Quiets A s t) (hs : s.Sound)
    (hc : ∀ c, current = some c → c < s.scopes.size) :
    t.waiting current = s.waiting current := by
  refine waiting_congr ?_ fun j _ => h.sameNotes.pending j
  cases current with
  | none => rfl
  | some c => exact (h.changes.evolves hs).chain hs (h.changes.sound hs) (hc c rfl)

/-- What waits in the innermost scope comes last. -/
theorem waiting_cons (h : s.Rooted) (i : ScopeId) :
    s.waiting (some i) = s.waiting (s.upperOf i) ++ s.pendingAt i := by
  have hline : s.line (some i) = i :: s.line (s.upperOf i) := by
    show s.chain i = _
    rw [chain_cons h, above]
    cases s.upperOf i <;> rfl
  rw [waiting, waiting, hline, List.reverse_cons, List.flatMap_append, List.flatMap_singleton]

/-- What is put at the end of the innermost list is put at the end of all. -/
theorem waiting_receive (h : s.Rooted) (hopen : s.IsOpen i) :
    (s.updateScope i (·.receive r)).waiting (some i) = s.waiting (some i) ++ [r] := by
  have hframe := frame_updateScope (f := (·.receive r)) (fun _ => rfl) s i
  have hup := upperOf_of_frame hframe
  have hroot := rooted_of_frame h hframe
  have habove : (s.updateScope i (·.receive r)).waiting (s.upperOf i) =
      s.waiting (s.upperOf i) := by
    cases hu : s.upperOf i with
    | none => rfl
    | some u =>
        refine waiting_congr (chain_of_frame h hframe u) fun j hj => ?_
        rw [pendingAt_receive hopen, if_neg]
        rintro rfl
        exact not_mem_chain_of_upper h hu hj
  rw [waiting_cons hroot, waiting_cons h, hup, habove, pendingAt_receive hopen, if_pos rfl,
    List.append_assoc]

end Store

/-! ### A scope closes -/

variable {s s' t : Store} {i : ScopeId} {l : List ReferenceId} {r : ReferenceId}
  {D : ScopeId → Prop}

/-- A close makes no reference. -/
theorem Action.close_referenceAt?_none {up : Option ScopeId}
    (h : (close i).outcome s = (.ok up, s')) (hr : s.referenceAt? r = none) :
    s'.referenceAt? r = none := by
  obtain ⟨scope, pending, t, u, last, -, -, himp, hset, -, -, -, rfl⟩ := close_ok_iff.1 h
  have ht : t.referenceAt? r = none := by
    refine bindImplicits_induction (P := fun t => t.referenceAt? r = none) himp hr ?_
    intro c v v' hv hm
    obtain ⟨w, x, key, hd, -, rfl⟩ := makeImplicit_ok_iff.1 hm
    exact ((define_quiets (A := fun _ => True) hd trivial).sameNotes.reference r).trans hv
  show u.referenceAt? r = none
  refine settleAll_induction (P := fun _ t => t.referenceAt? r = none) hset ht ?_ ?_
  · intro q l v v' hv hq
    obtain ⟨ref, key, a, -, -, -, ⟨w, -, rfl⟩ | ⟨-, hup⟩⟩ := settle_ok_iff.1 hq
    · rw [referenceAt?_link, hv]
      simp
    · obtain ⟨a, -, ⟨-, rfl⟩ | ⟨w, above, -, -, -, rfl⟩⟩ := handUp_ok_iff.1 hup
      · exact hv
      · exact hv
  · intro q l v hv
    rw [referenceAt?_updateScopes, hv]

/-- What waits above a scope that closes, followed by what it has still to settle, loses references
but keeps its order. -/
theorem Action.settle_waiting (hs : s.Rooted) (h : (settle i r).outcome s = (.ok (), s')) :
    (s'.waiting (s.upperOf i) ++ l).Sublist (s.waiting (s.upperOf i) ++ r :: l) := by
  have hsame : ∀ {t : Store}, t.waiting (s.upperOf i) = s.waiting (s.upperOf i) →
      (t.waiting (s.upperOf i) ++ l).Sublist (s.waiting (s.upperOf i) ++ r :: l) := by
    intro t ht
    rw [ht]
    exact List.Sublist.append_left (List.sublist_cons_self r l) _
  obtain ⟨ref, key, scope, -, -, hi, ⟨v, -, rfl⟩ | ⟨-, h⟩⟩ := settle_ok_iff.1 h
  · exact hsame (waiting_of_frame (t := s.link r ref.scope v) hs (fun _ => rfl) (fun _ => rfl) _)
  · obtain ⟨a, ha, ⟨-, rfl⟩ | ⟨w, above, hu, hw, hc, rfl⟩⟩ := handUp_ok_iff.1 h
    · exact hsame (waiting_pass hs _)
    · -- What is handed up comes right after what waited above.
      have hup : s.upperOf i = some w := (upperOf_eq ha).trans hu
      have hreceived :=
        rooted_of_frame hs (frame_updateScope (f := (·.receive r)) (fun _ => rfl) s w)
      rw [hup, waiting_pass hreceived, waiting_receive hs ⟨above, hw, hc⟩, List.append_assoc]
      exact List.Sublist.refl _

/-- What waits above a scope that closes, followed by what it has still to settle, is in order. -/
structure Store.OrderedAbove (s : Store) (i : ScopeId) (l : List ReferenceId) : Prop where
  sound : s.Sound
  known : i < s.scopes.size
  order : (s.waiting (s.upperOf i) ++ l).Pairwise (· < ·)

namespace Store.OrderedAbove

theorem settle (h : s.OrderedAbove i (r :: l)) (hr : (settle i r).outcome s = (.ok (), s')) :
    s'.OrderedAbove i l := by
  have hch := settle_changes h.sound hr
  have hE := hch.evolves h.sound
  refine ⟨hch.sound h.sound, hE.lt h.known, ?_⟩
  rw [hE.upperOf h.known]
  exact h.order.sublist (settle_waiting h.sound.rooted hr)

theorem escape (h : s.OrderedAbove i (r :: l)) :
    (s.updateScopes (s.chain i) (·.pass r)).OrderedAbove i l := by
  have hch : Changes (fun _ => True) s (s.updateScopes (s.chain i) (·.pass r)) :=
    changes_updateScopes (fun _ _ _ => .pass r trivial) s
  have hE := hch.evolves h.sound
  refine ⟨hch.sound h.sound, hE.lt h.known, ?_⟩
  rw [hE.upperOf h.known, waiting_passAll h.sound.rooted]
  exact h.order.sublist (List.Sublist.append_left (List.sublist_cons_self r l) _)

/-- Once nothing is left to settle, the scope is closed; it is not among those above it. -/
theorem shut (h : s.OrderedAbove i []) (last : Scope) :
    ((s.updateScope i (·.shut)).record (closedEntry last)).Ordered (s.upperOf i) := by
  have horder := h.order
  rw [List.append_nil] at horder
  suffices hsame : ((s.updateScope i (·.shut)).record (closedEntry last)).waiting (s.upperOf i) =
      s.waiting (s.upperOf i) by rwa [Ordered, hsame]
  have hframe := frame_updateScope (f := (·.shut)) (fun _ => rfl) s i
  rw [waiting_record (rooted_of_frame h.sound.rooted hframe)]
  cases hw : s.upperOf i with
  | none => rfl
  | some w =>
      refine waiting_congr (chain_of_frame h.sound.rooted hframe w) fun j hj => ?_
      rw [pendingAt_shut, leftover, if_neg]
      rintro rfl
      exact not_mem_chain_of_upper h.sound.rooted hw hj

end Store.OrderedAbove

theorem Store.Ordered.close {up : Option ScopeId} (h : s.Ordered (some i)) (hs : s.Sound)
    (hc : (close i).outcome s = (.ok up, s')) : s'.Ordered (s.upperOf i) := by
  obtain ⟨scope, pending, t, u, last, hi, hp, himp, hset, -, -, -, rfl⟩ := close_ok_iff.1 hc
  have hq := bindImplicits_quiets hs himp
  have hlt := scopeAt?_lt hi
  have hE := hq.changes.evolves hs
  have ht : t.OrderedAbove i pending := by
    have hts := hq.changes.sound hs
    refine ⟨hts, hE.lt hlt, ?_⟩
    rw [← pendingAt_of_pending hi hp, ← hq.sameNotes.pending, ← waiting_cons hts.rooted,
      hq.waiting hs fun c hc => Option.some.inj hc ▸ hlt]
    exact h
  have hu : u.OrderedAbove i [] :=
    settleAll_induction (P := fun l v => v.OrderedAbove i l) hset ht
      (fun r l v v' hv hr => hv.settle hr) fun r l v hv => hv.escape
  have hup : u.upperOf i = s.upperOf i := by
    rw [((settleAll_changes ht.sound ht.known hset).evolves ht.sound).upperOf ht.known,
      hE.upperOf hlt]
  rw [← hup]
  exact hu.shut last

/-- A new reference has the greatest number. -/
theorem Store.Ordered.addReference {u : Use} (h : s.Ordered (some i)) (hd : s.Disciplined (some i)) :
    (s.addReference i u).Ordered (some i) := by
  have hopen := hd.open_of_mem (self_mem_chain s i)
  have hch : Changes (fun _ => True) s (s.addReference i u) := .single (.addReference u trivial)
  have hE := hch.evolves hd.sound
  have hs := hch.sound hd.sound
  have hup := hE.upperOf hopen.lt
  have habove : (s.addReference i u).waiting (s.upperOf i) = s.waiting (s.upperOf i) := by
    cases hw : s.upperOf i with
    | none => rfl
    | some w =>
        refine waiting_congr (hE.chain hd.sound hs ((hd.sound.rooted i w hw).trans hopen.lt))
          fun j hj => ?_
        rw [pendingAt_addReference hopen, if_neg]
        rintro rfl
        exact not_mem_chain_of_upper hd.sound.rooted hw hj
  rw [Ordered, waiting_cons hs.rooted, hup, habove, pendingAt_addReference hopen, if_pos rfl,
    ← List.append_assoc, ← waiting_cons hd.sound.rooted, List.pairwise_append]
  refine ⟨h, List.pairwise_singleton _ _, fun r hr q hq => ?_⟩
  obtain ⟨j, -, hj⟩ := List.mem_flatMap.1 hr
  obtain ⟨ref, href, -⟩ := hd.books.waiting hj
  rw [List.mem_singleton.1 hq]
  exact referenceAt?_lt href

/-- **An orderly operation keeps the order.** -/
theorem Store.Ordered.apply {current : Option ScopeId} {op : Operation} {out : Outcome}
    (h : s.Ordered current) (hd : s.Disciplined current) (ho : op.Orderly s current)
    (hop : op.applyTo s = (.ok out, t)) : t.Ordered (op.next s current) := by
  have happly : op.apply.outcome s = (.ok out, t) := hop
  have hlt : ∀ c, current = some c → c < s.scopes.size := by
    rintro c rfl
    exact (hd.open_of_mem (self_mem_chain s c)).lt
  have hclose : ∀ i, op = .close i → t.Ordered (op.next s current) := by
    rintro i rfl
    obtain rfl : current = some i := ho
    obtain ⟨up, -, hc⟩ := Operation.applyTo_close_ok.1 hop
    exact h.close hd.sound hc
  rcases hd.quiets ho hop with hq | ⟨i, u, rfl⟩ | ⟨i, hi⟩
  · rcases Disciplined.steady ho hop with ⟨-, hnext⟩ | ⟨kind, n, upper, rfl⟩ | ⟨i, hi⟩
    · rw [hnext, Ordered, hq.waiting hd.sound hlt]
      exact h
    · obtain rfl : upper = current := ho
      obtain ⟨-, hup, -⟩ := hd.enter_isOpen_iff hop
      have hnone : t.pendingAt s.scopes.size = [] := by
        rw [hq.sameNotes.pending, pendingAt, scopeAt?_eq_none.2 le_rfl]
        rfl
      show t.Ordered (some s.scopes.size)
      rw [Ordered, waiting_cons (hq.changes.sound hd.sound).rooted, hup, hnone, List.append_nil,
        hq.waiting hd.sound hlt]
      exact h
    · exact hclose i hi
  · obtain rfl : current = some i := ho
    obtain ⟨w, -, hr⟩ := bind_pure_ok_iff.1 happly
    obtain ⟨-, -, rfl⟩ | ⟨-, -, rfl, a, ha, hc⟩ := refer_ok_iff.1 hr
    · exact h
    · exact h.addReference hd
  · exact hclose i hi

namespace Walk

variable {m m' m₁ m₂ : Moment} {op : Option Operation} {ops : List Operation}

/-- **At every moment of a walk, references wait in order.** -/
theorem Moment.Good.ordered (h : m.Good) (ho : m.store.Ordered m.current) (hs : Steps m ops m') :
    m'.store.Ordered m'.current := by
  induction hs with
  | refl => exact ho
  | @more m m₁ m' op ops hs _ ih =>
      refine ih (h.step hs) ?_
      obtain ⟨o, out, -, hord, hop, hnext⟩ | ⟨-, hsame, heq | ⟨entry, heq⟩⟩ := h.step_cases hs
      · rw [hnext]
        exact ho.apply h.disciplined hord hop
      · rwa [hsame, heq]
      · rw [hsame, heq, Ordered, waiting_record h.disciplined.sound.rooted]
        exact ho

/-! ### When a scope closes -/

theorem Steps.trans {ops' : List Operation} (h : Steps m ops m₁) (k : Steps m₁ ops' m') :
    Steps m (ops ++ ops') m' := by
  induction h with
  | refl => exact k
  | more hs _ ih => rw [List.append_assoc]; exact .more hs (ih k)

/-- The step between two moments by which a scope closes. -/
theorem Moment.Good.closing (h : m.Good) (hs : Steps m ops m') (hn : ¬ m.store.IsClosed i)
    (hc : m'.store.IsClosed i) : ∃ before m₁ m₂ after, Steps m before m₁ ∧
      Step m₁ (some (.close i)) m₂ ∧ Steps m₂ after m' := by
  induction hs with
  | refl => exact absurd hc hn
  | @more m m₁ m' op ops hs hrest ih =>
      by_cases hop : op = some (.close i)
      · exact ⟨[], m, m₁, ops, .refl m, hop ▸ hs, hrest⟩
      · have hn₁ : ¬ m₁.store.IsClosed i := fun hc =>
          ((h.isClosed_iff hs i).1 hc).elim hn hop
        obtain ⟨before, m₂, m₃, after, hb, hstep, ha⟩ := ih (h.step hs) hn₁ hc
        exact ⟨_, m₂, m₃, after, .more hs hb, hstep, ha⟩

/-- A step makes a reference only where the next event is a use of a name. -/
theorem Moment.Good.made_step (h : m.Good) (hs : Step m op m') {r : ReferenceId} {ref : Reference}
    (hn : m.store.referenceAt? r = none) (href : m'.store.referenceAt? r = some ref) :
    ∃ c u todo rest a, m.frames = ⟨some c, .refer u :: todo⟩ :: rest ∧
      m.store.scopeAt? c = some a ∧ u.identifier.isIdentifier = true ∧
      ref = { toUse := if a.strict then { u with candidate := none } else u, scope := c } := by
  have hquiet : ∀ {A : ScopeId → Prop} {s t : Store}, Quiets A s t →
      s.referenceAt? r = none → t.referenceAt? r = some ref → False := by
    intro A s t hq hn href
    rw [hq.sameNotes.reference, hn] at href
    cases href
  cases hs with
  | @act c e todo rest s t op out he hop =>
      have ho := (Event.orderly h.disciplined he).1
      have happly : op.apply.outcome s = (.ok out, t) := hop
      rcases h.disciplined.quiets ho hop with hq | ⟨i, u, rfl⟩ | ⟨i, rfl⟩
      · exact (hquiet hq hn href).elim
      · cases e with
        | refer v =>
            obtain ⟨a, ha, hv⟩ := Option.map_eq_some_iff.1 he
            obtain ⟨rfl, rfl⟩ := Operation.refer.inj hv
            obtain ⟨w, -, hr⟩ := bind_pure_ok_iff.1 happly
            obtain ⟨-, -, rfl⟩ | ⟨hid, -, rfl, -⟩ := refer_ok_iff.1 hr
            · rw [hn] at href
              cases href
            · rw [referenceAt?_addReference] at href
              by_cases hsize : r = s.references.size
              · rw [if_pos hsize, Option.some.injEq] at href
                refine ⟨c, v, todo, rest, a, rfl, ha, ?_, href.symm⟩
                cases hstrict : a.strict <;> rw [hstrict] at hid <;> exact hid
              · rw [if_neg hsize, hn] at href
                cases href
        | define target n d =>
            obtain ⟨j, -, hj⟩ := Option.map_eq_some_iff.1 he
            cases hj
        | callEval =>
            obtain ⟨j, -, hj⟩ := Option.map_eq_some_iff.1 he
            cases hj
        | useThis =>
            obtain ⟨j, -, hj⟩ := Option.map_eq_some_iff.1 he
            cases hj
        | _ => cases he
      · obtain ⟨up, -, hc⟩ := Operation.applyTo_close_ok.1 hop
        rw [close_referenceAt?_none hc hn] at href
        cases href
  | enter hop =>
      exact (hquiet (enter_quiets (A := fun _ => True) (Operation.applyTo_enter_ok.1 hop)
        (fun _ _ => trivial) trivial) hn href).elim
  | leave hop =>
      obtain ⟨up, -, hc⟩ := Operation.applyTo_close_ok.1 hop
      rw [close_referenceAt?_none hc hn] at href
      cases href
  | needScope => rw [hn] at href; cases href
  | phase => exact (hquiet (A := fun _ => True) (.single (.record _)) hn href).elim
  | keep _ => rw [hn] at href; cases href

/-- **A reference is made below open scopes only**: none of the scopes above it is closed yet. -/
theorem Moment.Good.made_outside (h : m.Good) (hs : Steps m ops m') {r : ReferenceId}
    {ref : Reference} (hn : m.store.referenceAt? r = none)
    (href : m'.store.referenceAt? r = some ref) (j : ScopeId)
    (hj : j ∈ m'.store.chain ref.scope) : ¬ m.store.IsClosed j := by
  induction hs with
  | refl => rw [hn] at href; cases href
  | @more m m₁ m' op ops hs hrest ih =>
      have hE := (h.changes hs).evolves h.disciplined.sound
      cases hr : m₁.store.referenceAt? r with
      | none => exact fun hc => ih (h.step hs) hr href hj (hE.isClosed hc)
      | some ref₁ =>
          have hg := h.step hs
          have hE' := hg.evolves hrest
          obtain ⟨ref', href', -, hsc⟩ := hE'.reference r ref₁ hr
          obtain rfl : ref = ref' := Option.some.inj (href.symm.trans href')
          have hd := h.disciplined
          obtain ⟨c, u, todo, rest, a, hf, ha, -, rfl⟩ := h.made_step hs hn hr
          have hcur : m.current = some c := by rw [Moment.current, hf]; rfl
          rw [hcur] at hd
          rw [hsc, hE'.chain hg.disciplined.sound (hg.steps hrest).disciplined.sound
            (hg.disciplined.books.home r _ hr), hE.chain hd.sound hg.disciplined.sound
            (scopeAt?_lt ha)] at hj
          exact (hd.open_of_mem hj).not_isClosed

end Walk

end LexScope
