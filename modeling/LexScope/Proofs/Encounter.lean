import LexScope.Proofs.Lockstep

/-!
# Proofs — Encounter — lists of references are in the order in which they were made

A close takes the references that wait in the scope one after the other and puts each at the end of
a list: of the variable that it is resolved to, or of the `through` lists of the scopes that it
leaves (`Store.Appends`).  What waits, waits in order, so what a close adds is in order.  The
variables of a scope get references from no other close, and nor does its `through` list unless a
scope below it is a barrier, whose references leave all scopes above at once.

* `Filed.apply`: every orderly operation keeps the lists in order.
* `analyze_encounter`: **the references of a variable are in the order in which they were made, and
  so are those that left a scope below which there is no barrier.**
-/

namespace LexScope

open Store LexScope.Action

namespace Store

variable {A : ScopeId → Prop} {s t u : Store} {i j : ScopeId} {r : ReferenceId} {a : Scope}
  {settled : Bool} {l : List ReferenceId}

/-! ### What a close puts where -/

/-- Some references, taken in order, went to lists of the scope `i`: to those of its variables and
to its `through` list; or else to the `through` lists of its whole chain, if it settles nothing. -/
structure Appends (s : Store) (i : ScopeId) (settled : Bool) (l : List ReferenceId) (t : Store) :
    Prop where
  links : ∀ v, ∃ k : List ReferenceId, k.Sublist l ∧ t.linksOf v = s.linksOf v ++ k
  others : ∀ v var, s.variableAt? v = some var → var.scope ≠ i → t.linksOf v = s.linksOf v
  through : ∀ j, ∃ k : List ReferenceId, k.Sublist l ∧ t.throughAt j = s.throughAt j ++ k
  elsewhere : ∀ j, j ≠ i → settled = true ∨ j ∉ s.chain i → t.throughAt j = s.throughAt j

theorem Appends.nil (s : Store) (i : ScopeId) (settled : Bool) : s.Appends i settled [] s :=
  ⟨fun _ => ⟨[], .slnil, by simp⟩, fun _ _ _ _ => rfl, fun _ => ⟨[], .slnil, by simp⟩,
    fun _ _ _ => rfl⟩

theorem Appends.trans {k : List ReferenceId} (h : s.Appends i settled l t)
    (h' : t.Appends i settled k u) (hE : Evolves A s t) (hchain : t.chain i = s.chain i) :
    s.Appends i settled (l ++ k) u where
  links v := by
    obtain ⟨p, hp, hv⟩ := h.links v
    obtain ⟨q, hq, hv'⟩ := h'.links v
    exact ⟨p ++ q, hp.append hq, by rw [hv', hv, List.append_assoc]⟩
  others v var hv hi := by
    obtain ⟨b, hb, hev, -⟩ := hE.var v var hv
    rw [h'.others v b hb (hev.scope ▸ hi), h.others v var hv hi]
  through j := by
    obtain ⟨p, hp, hj⟩ := h.through j
    obtain ⟨q, hq, hj'⟩ := h'.through j
    exact ⟨p ++ q, hp.append hq, by rw [hj', hj, List.append_assoc]⟩
  elsewhere j hj hor := by
    rw [h'.elsewhere j hj (by rwa [hchain]), h.elsewhere j hj hor]

/-- A change that notes nothing comes before. -/
theorem Appends.after (h : t.Appends i settled l u) (hn : SameNotes s t) (hE : Evolves A s t)
    (hchain : t.chain i = s.chain i) : s.Appends i settled l u := by
  refine Appends.trans (l := []) ⟨fun v => ⟨[], .slnil, ?_⟩, fun v _ _ _ => hn.links v,
    fun j => ⟨[], .slnil, ?_⟩, fun j _ _ => hn.through j⟩ h hE hchain
  · rw [hn.links, List.append_nil]
  · rw [hn.through, List.append_nil]

/-- A reference leaves a scope, and only that. -/
theorem appends_pass (hi : i < s.scopes.size) :
    s.Appends i true [r] (s.updateScope i (·.pass r)) where
  links v := ⟨[], List.nil_sublist _, by rw [List.append_nil]; rfl⟩
  others _ _ _ _ := rfl
  through j := by
    rw [throughAt_pass hi]
    by_cases hj : i = j
    · exact ⟨[r], .refl _, if_pos hj⟩
    · exact ⟨[], List.nil_sublist _, by rw [if_neg hj, List.append_nil]⟩
  elsewhere j hj _ := by rw [throughAt_pass hi, if_neg (Ne.symm hj)]

/-- A reference leaves a scope and all scopes above it. -/
theorem appends_passAll (hs : s.Sound) (hi : i < s.scopes.size) :
    s.Appends i false [r] (s.updateScopes (s.chain i) (·.pass r)) where
  links v := ⟨[], List.nil_sublist _, by simp [linksOf]⟩
  others v _ _ _ := by simp [linksOf]
  through j := by
    rw [throughAt_passAll (nodup_chain hs.rooted i) fun k hk =>
      (le_of_mem_chain hs.rooted hk).trans_lt hi]
    by_cases hj : j ∈ s.chain i
    · exact ⟨[r], .refl _, if_pos hj⟩
    · exact ⟨[], List.nil_sublist _, by rw [if_neg hj, List.append_nil]⟩
  elsewhere j hj hor := by
    rw [throughAt_passAll (nodup_chain hs.rooted i) fun k hk =>
      (le_of_mem_chain hs.rooted hk).trans_lt hi, if_neg (hor.resolve_left Bool.false_ne_true)]

/-- A reference is resolved to a variable of a scope. -/
theorem appends_link (hs : s.Sound) {key : Name} {v : VariableId} {origin : ScopeId}
    (ha : s.scopeAt? i = some a) (hf : a.table.find? key = some v) :
    s.Appends i true [r] (s.link r origin v) := by
  obtain ⟨var, hvar, hscope, -⟩ := hs.of_find? ha hf
  have hlinks : ∀ w, (s.link r origin v).linksOf w =
      if v = w then s.linksOf w ++ [r] else s.linksOf w := fun w =>
    linksOf_link (variableAt?_lt hvar)
  refine ⟨fun w => ?_, fun w x hx hne => ?_, fun j => ⟨[], List.nil_sublist _, ?_⟩,
    fun j _ _ => rfl⟩
  · rw [hlinks]
    by_cases hw : v = w
    · exact ⟨[r], .refl _, if_pos hw⟩
    · exact ⟨[], List.nil_sublist _, by rw [if_neg hw, List.append_nil]⟩
  · rw [hlinks, if_neg]
    rintro rfl
    rw [hvar] at hx
    exact hne (Option.some.inj hx ▸ hscope)
  · rw [List.append_nil]
    rfl

end Store

namespace Action

variable {s t : Store} {i : ScopeId} {r : ReferenceId} {settled : Bool} {l : List ReferenceId}

theorem settle_appends (hs : s.Sound) (hi : i < s.scopes.size)
    (h : (settle i r).outcome s = (.ok (), t)) : s.Appends i true [r] t := by
  obtain ⟨ref, key, a, -, -, ha, ⟨v, hf, rfl⟩ | ⟨-, hup⟩⟩ := settle_ok_iff.1 h
  · exact appends_link hs ha hf
  · obtain ⟨b, hb, ⟨-, rfl⟩ | ⟨w, above, hu, hw, -, rfl⟩⟩ := handUp_ok_iff.1 hup
    · exact appends_pass hi
    · have hch : Changes (fun _ => True) s (s.updateScope w (·.receive r)) :=
        .single (.receive r trivial)
      have hE := hch.evolves hs
      have hreceived : s.Appends i true [] (s.updateScope w (·.receive r)) :=
        ⟨fun v => ⟨[], .slnil, by rw [List.append_nil]; rfl⟩, fun _ _ _ _ => rfl,
          fun j => ⟨[], .slnil, by rw [throughAt_receive, List.append_nil]⟩,
          fun j _ _ => throughAt_receive⟩
      exact hreceived.trans (appends_pass (hE.lt hi)) hE (hE.chain hs (hch.sound hs) hi)

/-- What one step of a loop puts at the ends of lists, the whole loop does. -/
theorem appends_forM {f : ReferenceId → Action Unit} (hs : s.Sound) (hi : i < s.scopes.size)
    (hf : ∀ r u u', u.Sound → i < u.scopes.size → (f r).outcome u = (.ok (), u') →
      u.Appends i settled [r] u' ∧ Changes (fun _ => True) u u')
    (h : (l.forM f).outcome s = (.ok (), t)) : s.Appends i settled l t := by
  obtain ⟨happ, -⟩ := forM_ok_done
    (P := fun past u => s.Appends i settled past u ∧ Changes (fun _ => True) s u) h
    ⟨.nil s i settled, .refl⟩ fun past r rest u u' _ hinv hr => by
      obtain ⟨happ, hch⟩ := hinv
      have hE := hch.evolves hs
      obtain ⟨hone, hstep⟩ := hf r u u' (hch.sound hs) (hE.lt hi) hr
      exact ⟨happ.trans hone hE (hE.chain hs (hch.sound hs) hi), hch.trans hstep⟩
  exact happ

theorem settleAll_appends (hs : s.Sound) (hi : i < s.scopes.size)
    (h : (settleAll i settled l).outcome s = (.ok (), t)) : s.Appends i settled l t := by
  cases settled with
  | true =>
      refine appends_forM hs hi (fun r u u' hu hlt hr => ?_) h
      exact ⟨settle_appends hu hlt hr, (settle_changes hu hr).mono fun _ _ => trivial⟩
  | false =>
      refine appends_forM hs hi (fun r u u' hu hlt hr => ?_) h
      obtain rfl := escape_ok_iff.1 hr
      exact ⟨appends_passAll hu hlt, changes_updateScopes (fun _ _ _ => .pass r trivial) u⟩

/-- **What a close puts where**: what waits in the scope, in the order in which it waits. -/
theorem close_appends {up : Option ScopeId} (hs : s.Sound)
    (h : (close i).outcome s = (.ok up, t)) : ∃ a b, s.scopeAt? i = some a ∧
      t.scopeAt? i = some b ∧ b.isBarrier t.options = a.isBarrier s.options ∧
      s.Appends i (!b.isBarrier t.options) (s.pendingAt i) t := by
  have hE := (close_changes hs h).evolves hs
  obtain ⟨a, pending, v, u, last, ha, hp, himp, hset, hl, -, -, rfl⟩ := close_ok_iff.1 h
  have hq := bindImplicits_quiets hs himp
  have hqs := hq.changes.sound hs
  have hqE := hq.changes.evolves hs
  have hlt := scopeAt?_lt ha
  have hb : ((u.updateScope i (·.shut)).record (closedEntry last)).scopeAt? i = some last.shut := by
    simp [hl]
  have hpend : s.pendingAt i = pending := pendingAt_of_pending ha hp
  -- Settling changes nothing of what makes a scope a barrier.
  have hbar : last.shut.isBarrier s.options = a.isBarrier s.options := by
    obtain ⟨c, hc, hcbar⟩ := bindImplicits_isBarrier hs ha himp
    obtain ⟨d, hd, hlook⟩ := (settleAll_alike (D := fun _ => True) hset).look i c trivial hc
    obtain rfl := Option.some.inj (hl.symm.trans hd)
    rw [← hqE.options]
    exact (isBarrier_of_look (a := c) hlook _).trans hcbar
  refine ⟨a, last.shut, ha, hb, by rw [hE.options, hbar], ?_⟩
  rw [hE.options, hbar, hpend, ← hqE.options, ← settles_eq]
  have happ := (settleAll_appends hqs (hqE.lt hlt) hset).after hq.sameNotes hqE
    (hqE.chain hs hqs hlt)
  have hthrough : ∀ j, ((u.updateScope i (·.shut)).record (closedEntry last)).throughAt j =
      u.throughAt j := fun j => throughAt_shut (s := u)
  refine ⟨happ.links, happ.others, fun j => ?_, fun j hj hor => ?_⟩
  · rw [hthrough]
    exact happ.through j
  · rw [hthrough]
    exact happ.elsewhere j hj hor

end Action

/-! ### Lists in order -/

namespace Store

variable {A : ScopeId → Prop} {s t : Store} {i j : ScopeId} {v : VariableId}

/-- No scope strictly below a scope has been closed as a barrier. -/
def Undisturbed (s : Store) (i : ScopeId) : Prop :=
  ∀ j b, s.scopeAt? j = some b → b.isClosed = true → i ∈ s.chain j → j ≠ i →
    b.isBarrier s.options = false

/-- References are listed in the order in which they were made: with every variable, and in every
scope below which no barrier was closed.  Such a scope is left by nothing before it closes. -/
structure Filed (s : Store) : Prop where
  links : ∀ v, (s.linksOf v).Pairwise (· < ·)
  through : ∀ i, s.Undisturbed i → (s.throughAt i).Pairwise (· < ·)
  before : ∀ i, s.Undisturbed i → s.IsOpen i → s.throughAt i = []

/-- What was closed as a barrier is one later on. -/
theorem Undisturbed.of_evolves (h : t.Undisturbed i) (hE : Evolves A s t) (hs : s.Sound)
    (ht : t.Sound) (hA : ∀ j, A j → ¬ s.IsClosed j) : s.Undisturbed i := by
  intro j b hb hc hi hne
  obtain ⟨b', hb', -, hor⟩ := hE.scope j b hb
  obtain rfl := hor.resolve_left fun hj => hA j hj ⟨b, hb, hc⟩
  rw [← hE.options]
  exact h j b' hb' hc (by rwa [hE.chain hs ht (scopeAt?_lt hb)]) hne

/-- The variables of an open scope have no references yet. -/
theorem Books.linksOf_of_isOpen {P : ScopeId → List ReferenceId} (h : s.Books P s.IsClosed)
    {var : Variable} (hv : s.variableAt? v = some var) (ho : s.IsOpen var.scope) :
    s.linksOf v = [] := by
  rw [List.eq_nil_iff_forall_not_mem]
  intro r hr
  cases href : s.referenceAt? r with
  | none => exact List.count_pos_iff.2 hr |>.ne' ((h.unused r href).2.2 v)
  | some ref =>
      obtain ⟨w, hw⟩ := h.account r ref href
      have hcount := hw.links v
      split at hcount
      · rename_i hres
        obtain ⟨x, hx, hdone, -⟩ := hw.bound v hres
        obtain rfl := Option.some.inj (hv.symm.trans hx)
        exact ho.not_isClosed hdone
      · exact List.count_pos_iff.2 hr |>.ne' hcount

/-- What notes nothing keeps the lists in order. -/
theorem Filed.keep (h : s.Filed) (hE : Evolves A s t) (hs : s.Sound) (ht : t.Sound)
    (hA : ∀ j, A j → ¬ s.IsClosed j) (hlinks : ∀ v, t.linksOf v = s.linksOf v)
    (hthrough : ∀ j, t.throughAt j = s.throughAt j) : t.Filed where
  links v := hlinks v ▸ h.links v
  through i hi := hthrough i ▸ h.through i (hi.of_evolves hE hs ht hA)
  before i hi ho := by
    rw [hthrough]
    by_cases hlt : i < s.scopes.size
    · exact h.before i (hi.of_evolves hE hs ht hA) (hE.isOpen_of hlt ho)
    · rw [throughAt, scopeAt?_eq_none.2 (not_lt.1 hlt)]
      rfl

/-- **Closing the current scope keeps the lists in order.** -/
theorem Filed.close {up : Option ScopeId} (h : s.Filed) (hd : s.Disciplined (some i))
    (ho : s.Ordered (some i)) (hc : (close i).outcome s = (.ok up, t)) : t.Filed := by
  have hs := hd.sound
  have hch := close_changes hs hc
  have hE := hch.evolves hs
  have ht := hch.sound hs
  have hopen := hd.open_of_mem (self_mem_chain s i)
  have hA : ∀ j, j ∈ s.chain i → ¬ s.IsClosed j := fun j hj =>
    (hd.open_of_mem (hd.chain_subset (self_mem_chain s i) hj)).not_isClosed
  obtain ⟨a, b, ha, hb, hbar, happ⟩ := close_appends hs hc
  have hisOpen : ∀ j, t.IsOpen j ↔ s.IsOpen j ∧ j ≠ i := fun j => (close_isOpen_iff hs hc j).2
  have hpend : (s.pendingAt i).Pairwise (· < ·) := by
    rw [Ordered, waiting_cons hs.rooted] at ho
    exact (List.pairwise_append.1 ho).2.1
  have hclosed : b.isClosed = true := by
    rw [← Bool.not_eq_false]
    exact fun hopen => ((hisOpen i).1 ⟨b, hb, hopen⟩).2 rfl
  have hother : ∀ j, t.Undisturbed j → j ≠ i → t.throughAt j = s.throughAt j := by
    refine fun j hj hji => happ.elsewhere j hji ?_
    by_cases hmem : j ∈ s.chain i
    · refine .inl ?_
      rw [hj i b hb hclosed (by rwa [hE.chain hs ht hopen.lt]) (Ne.symm hji)]
      rfl
    · exact .inr hmem
  -- A list that was empty is in order, for it has what waited; any other has stayed what it was.
  refine ⟨fun v => ?_, fun j hj => ?_, fun j hj hjo => ?_⟩
  · cases hv : s.linksOf v with
    | nil =>
        obtain ⟨k, hk, hlinks⟩ := happ.links v
        rw [hlinks, hv, List.nil_append]
        exact hpend.sublist hk
    | cons r l =>
        obtain ⟨var, hvar⟩ : ∃ var, s.variableAt? v = some var := by
          cases hvar : s.variableAt? v with
          | none => rw [linksOf, hvar] at hv; cases hv
          | some var => exact ⟨var, rfl⟩
        rw [happ.others v var hvar]
        · exact h.links v
        · rintro rfl
          rw [hd.books.linksOf_of_isOpen hvar hopen] at hv
          cases hv
  · have hjs := hj.of_evolves hE hs ht hA
    by_cases hji : j = i
    · subst hji
      obtain ⟨k, hk, hthrough⟩ := happ.through j
      rw [hthrough, h.before j hjs hopen, List.nil_append]
      exact hpend.sublist hk
    · rw [hother j hj hji]
      exact h.through j hjs
  · obtain ⟨hjso, hji⟩ := (hisOpen j).1 hjo
    rw [hother j hj hji]
    exact h.before j (hj.of_evolves hE hs ht hA) hjso

/-- **An orderly operation keeps the lists in order.** -/
theorem Filed.apply {current : Option ScopeId} {op : Operation} {out : Outcome} (h : s.Filed)
    (hd : s.Disciplined current) (hord : s.Ordered current) (ho : op.Orderly s current)
    (hop : op.applyTo s = (.ok out, t)) : t.Filed := by
  have happly : op.apply.outcome s = (.ok out, t) := hop
  have hs := hd.sound
  have hch := hd.changes ho hop
  have hE := hch.evolves hs
  have hA : ∀ j, s.IsOpen j ∨ s.scopes.size ≤ j → ¬ s.IsClosed j := by
    rintro j (hj | hj) hc
    · exact hj.not_isClosed hc
    · exact absurd hc.lt (not_lt.2 hj)
  rcases hd.quiets ho hop with hq | ⟨i, u, rfl⟩ | ⟨i, rfl⟩
  · exact h.keep hE hs (hch.sound hs) hA hq.sameNotes.links hq.sameNotes.through
  · obtain ⟨w, -, hr⟩ := bind_pure_ok_iff.1 happly
    obtain ⟨-, -, rfl⟩ | ⟨-, -, rfl, -⟩ := refer_ok_iff.1 hr
    · exact h
    · exact h.keep hE hs (hch.sound hs) hA (fun _ => rfl) fun _ => throughAt_addReference
  · obtain rfl : current = some i := ho
    obtain ⟨up, -, hc⟩ := Operation.applyTo_close_ok.1 hop
    exact h.close hd hord hc

end Store

namespace Walk

variable {m m' : Moment} {op : Option Operation} {ops : List Operation} {P : Tree → Prop}

theorem Moment.Known.filed_step (h : m.Known P) (hf : m.store.Filed) (hs : Step m op m') :
    m'.store.Filed := by
  obtain ⟨o, out, -, ho, hop, -⟩ | ⟨-, -, heq | ⟨entry, heq⟩⟩ := h.good.step_cases hs
  · exact hf.apply h.good.disciplined h.ordered ho hop
  · exact heq ▸ hf
  · have hch : Changes (fun _ => False) m.store (m.store.record entry) :=
      .single (.quiet (.record _))
    have hsound := h.good.disciplined.sound
    rw [heq]
    exact hf.keep (hch.evolves hsound) hsound (hch.sound hsound) (fun _ => False.elim)
      (fun _ => rfl) fun _ => rfl

/-- **At every moment of a walk, references are listed in order.** -/
theorem Moment.Known.filed (h : m.Known P) (hf : m.store.Filed) (hs : Steps m ops m') :
    m'.store.Filed := by
  induction hs with
  | refl => exact hf
  | more hs _ ih => exact ih (h.steps (.more hs (.refl _))) (h.filed_step hf hs)

/-- What an analysis returns is where every walk over its program leads. -/
theorem analyze_of_steps {o : Options} {tree : Tree} {s : Store} (h : analyze o tree = .ok s)
    (hs : Steps (.start o tree) ops m) : ∃ ops' m', Steps m ops' m' ∧
      s = m'.store.record (.analyzed m'.store.scopes.size) := by
  have ht : tree.isObj = true := by
    cases ht : tree.isObj with
    | true => rfl
    | false => rw [analyze, analysis, ht] at h; cases h
  obtain ⟨ops', m', hs', -, hover | ⟨e, hf⟩⟩ := ((Moment.start_good o tree).steps hs).ends
  · rw [analyze_of_over ht (hs.trans hs') hover] at h
    exact ⟨ops', m', hs', (Except.ok.inj h).symm⟩
  · rw [analyze_of_fails ht (hs.trans hs') hf] at h
    cases h

end Walk

open Walk in
/-- **Lists of references are in encounter order.**  References are numbered in the order in which
they are made: those made up to a moment of the walk have the numbers below their count, and keep
them.  In the store that an analysis returns, the references of every variable are listed in this
order, and so are those that left a scope, if no scope strictly below it is a barrier. -/
theorem analyze_encounter {o : Options} {tree : Tree} {s : Store} (h : analyze o tree = .ok s) :
    (∀ ops m, Steps (.start o tree) ops m → ∀ r,
      (m.store.referenceAt? r = none ↔ m.store.references.size ≤ r) ∧
      ∀ ref, m.store.referenceAt? r = some ref →
        ∃ ref', s.referenceAt? r = some ref' ∧ ref'.toUse = ref.toUse ∧ ref'.scope = ref.scope) ∧
    (∀ v var, s.variableAt? v = some var → var.references.Pairwise (· < ·)) ∧
    ∀ i a, s.scopeAt? i = some a →
      (∀ j b, s.scopeAt? j = some b → i ∈ s.chain j → j ≠ i → b.isBarrier o = false) →
      a.through.Pairwise (· < ·) := by
  have hknown : (Moment.start o tree).Known fun _ => True :=
    Moment.start_known Tree.hereditary_true o trivial
  have hstart : (Moment.start o tree).store.Filed :=
    ⟨fun v => .nil, fun i _ => .nil, fun i _ _ => rfl⟩
  have hoptions := analyze_options h
  obtain ⟨ops, m, hsteps, -, hgood, rfl⟩ := analyze_ok h
  have hfiled := hknown.filed hstart hsteps
  refine ⟨fun ops₁ m₁ hs₁ r => ⟨Array.getElem?_eq_none_iff, fun ref href => ?_⟩,
    fun v var hv => ?_, fun i a ha hbelow => ?_⟩
  · obtain ⟨ops₂, m₂, hs₂, heq⟩ := analyze_of_steps h hs₁
    obtain ⟨ref', href', huse, hscope⟩ :=
      (((Moment.start_good o tree).steps hs₁).evolves hs₂).reference r ref href
    exact ⟨ref', heq ▸ href', huse, hscope⟩
  · have hlinks := hfiled.links v
    rwa [linksOf, show m.store.variableAt? v = some var from hv] at hlinks
  · have hund : m.store.Undisturbed i := fun j b hb _ hi hne => by
      have hb' := hbelow j b hb (by rwa [chain_record hgood.disciplined.sound.rooted]) hne
      rwa [← hoptions] at hb'
    rw [← throughAt_eq (s := m.store) ha]
    exact hfiled.through i hund

/-- `{ y } x; { x } y; var x`. -/
def mixedProgram : Tree :=
  let name (text : String) : Tree := .obj [("type", .str "Identifier"), ("name", .str text)]
  let state (text : String) : Tree :=
    .obj [("type", .str "ExpressionStatement"), ("expression", name text)]
  let block (text : String) : Tree :=
    .obj [("type", .str "BlockStatement"), ("body", .arr [state text])]
  .obj [("type", .str "Program"), ("body", .arr [block "y", state "x", block "x", state "y",
    .obj [("type", .str "VariableDeclaration"), ("kind", .str "var"), ("declarations", .arr [
      .obj [("type", .str "VariableDeclarator"), ("id", name "x"), ("init", .null)]])]])]

/-- The uses of `x` in the sample are the second and the third, one of them in a block; the others
leave the program. -/
theorem mixedProgram_encounter : ∃ s var a, analyze {} mixedProgram = .ok s ∧
    s.variableAt? 0 = some var ∧ var.references = [1, 2] ∧ var.references.Pairwise (· < ·) ∧
    s.scopeAt? 0 = some a ∧ a.through = [0, 3] ∧ a.through.Pairwise (· < ·) := by
  have hview : (analyze {} mixedProgram).toOption.map (fun s =>
      ((s.variableAt? 0).map (·.references), (s.scopeAt? 0).map (·.through),
        s.scopes.toList.map fun b => (b.dynamic, decide (b.kind = .global)))) =
      some (some [1, 2], some [0, 3], [(true, true), (false, false), (false, false)]) := by
    decide +kernel
  cases hs : analyze {} mixedProgram with
  | error e => rw [hs] at hview; cases hview
  | ok s =>
      rw [hs] at hview
      simp only [Except.toOption, Option.map_some, Option.some.injEq, Prod.mk.injEq,
        Option.map_eq_some_iff] at hview
      obtain ⟨⟨var, hvar, hrefs⟩, ⟨a, ha, hthrough⟩, hscopes⟩ := hview
      obtain ⟨-, hlists, hleft⟩ := analyze_encounter hs
      refine ⟨s, var, a, rfl, hvar, hrefs, hlists 0 var hvar, ha, hthrough,
        hleft 0 a ha fun j b hb _ _ => ?_⟩
      -- Nothing in the sample is dynamic but the program itself.
      have hmem : (b.dynamic, decide (b.kind = .global)) ∈
          [(true, true), (false, false), (false, false)] :=
        hscopes ▸ List.mem_map.2 ⟨b, Array.mem_toList_iff.2 (Array.mem_of_getElem? hb), rfl⟩
      rw [Scope.isBarrier]
      cases hd : b.dynamic <;> by_cases hk : b.kind = .global <;> simp [hd, hk] at hmem ⊢

end LexScope
