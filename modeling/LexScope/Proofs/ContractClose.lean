import LexScope.Proofs.ContractAction

/-!
# Proofs — ContractClose — how scopes close in contracted stores

A block scope binds nothing, so every reference that waits in it is handed up, in order, to the scope
around it.  There they come after what was waiting before, and this is just where the contracted
store has them (`Contracted.closeBlock`).

Any other scope has the same pending references in both stores by the time it closes, for all block
scopes below it are closed.  They are settled in the same way one after the other: tied to the same
variable, handed to the scope above, or let go through the whole chain (`Contracted.close`).
-/

namespace LexScope

open Store LexScope.Action

/-- Steps that keep a relation between two stores keep it when they are made one after the other. -/
theorem Action.forM_alongside {α : Type} {R : Store → Store → Prop} {f g : α → Action Unit}
    {l : List α} {s t t' : Store} (h : R s t) (ht : (l.forM f).outcome t = (.ok (), t'))
    (step : ∀ a s t t', R s t → (f a).outcome t = (.ok (), t') →
      ∃ s', (g a).outcome s = (.ok (), s') ∧ R s' t') :
    ∃ s', (l.forM g).outcome s = (.ok (), s') ∧ R s' t' := by
  induction l generalizing s t with
  | nil =>
      obtain rfl := forM_nil_ok_iff.1 ht
      exact ⟨s, forM_nil_ok_iff.2 rfl, h⟩
  | cons a l ih =>
      obtain ⟨u, ha, hl⟩ := forM_cons_ok_iff.1 ht
      obtain ⟨v, hv, hR⟩ := step a s t u h ha
      obtain ⟨s', hs', h'⟩ := ih hR hl
      exact ⟨s', forM_cons_ok_iff.2 ⟨v, hv, hs'⟩, h'⟩

namespace Store

variable {φ : ScopeId → ScopeId} {s s' t t' : Store} {i j k u w c : ScopeId} {a b : Scope}
  {kind : ScopeKind} {n : Node} {upper up : Option ScopeId} {line line' : List ScopeId}
  {P Q : ScopeId → List ReferenceId} {r : ReferenceId} {rest pending : List ReferenceId}

theorem above_eq_line (t : Store) (i : ScopeId) : t.above i = t.line (t.upperOf i) := rfl

theorem Fixed.upperOf (h : Fixed s t) (i : ScopeId) : t.upperOf i = s.upperOf i :=
  upperOf_of_frame h.frame i

theorem Fixed.chain (h : Fixed s t) (hs : s.Rooted) (i : ScopeId) : t.chain i = s.chain i :=
  chain_of_frame hs h.frame i

theorem Fixed.record (h : Fixed s t) (entry : LogRecord) : Fixed s (t.record entry) :=
  ⟨h.options, h.global, h.frame⟩

theorem Fixed.receive (h : Fixed s t) (w : ScopeId) (r : ReferenceId) :
    Fixed s (t.updateScope w (·.receive r)) :=
  h.trans (fixed_updateScope (f := (·.receive r)) (fun _ => rfl) t w)

theorem Fixed.pass (h : Fixed s t) (i : ScopeId) (r : ReferenceId) :
    Fixed s (t.updateScope i (·.pass r)) :=
  h.trans (fixed_updateScope (f := (·.pass r)) (fun _ => rfl) t i)

theorem Fixed.shut (h : Fixed s t) (i : ScopeId) : Fixed s (t.updateScope i (·.shut)) :=
  h.trans (fixed_updateScope (f := (·.shut)) (fun _ => rfl) t i)

/-! ### Where references are gathered -/

theorem content_receive (s : Store) (w : ScopeId) (r : ReferenceId) (j : ScopeId) :
    (s.updateScope w (·.receive r)).contentAt? j = s.contentAt? j := by
  rw [contentAt?, contentAt?, scopeAt?_updateScope]
  split
  · rw [Option.map_map]
    refine congrArg (Option.map · _) (funext fun a => ?_)
    simp [Scope.content, Scope.receive, Scope.isClosed]
  · rfl

/-- A reference that is handed up from a block scope stays where it is gathered. -/
theorem gathered_handUp (hφ : φ i = φ u) (hiu : i ≠ u) (hu : u ∉ line) (ho : t.IsOpen u)
    (hi : i ∉ line) (k : ScopeId) :
    gathered φ (((t.updateScope u (·.receive r)).updateScope i (·.pass r)).leftover i rest) k
        (i :: u :: line) =
      gathered φ (t.leftover i (r :: rest)) k (i :: u :: line) := by
  have hat : ∀ j, ((t.updateScope u (·.receive r)).updateScope i (·.pass r)).leftover i rest j =
      if j = i then rest else if u = j then t.pendingAt j ++ [r] else t.pendingAt j := fun j => by
    rw [leftover, pendingAt_pass, pendingAt_receive ho]
  have hline : gathered φ
      (((t.updateScope u (·.receive r)).updateScope i (·.pass r)).leftover i rest) k line =
      gathered φ (t.leftover i (r :: rest)) k line := by
    refine gathered_congr (fun j hj => ⟨rfl, ?_⟩) k
    have hji : j ≠ i := fun e => hi (e ▸ hj)
    have huj : u ≠ j := fun e => hu (e ▸ hj)
    rw [hat, leftover]
    simp only [if_neg hji, if_neg huj]
  rw [gathered, gathered, gathered, gathered, hline, hat, hat, leftover, leftover, hφ]
  simp only [if_pos, if_neg hiu.symm]
  split <;> simp

/-- A reference that is taken over from a scope of another place comes last where it is gathered. -/
theorem gathered_receive (hne : φ i ≠ φ u) (hu : u ∉ line) (ho : t.IsOpen u) (k : ScopeId) :
    gathered φ (t.updateScope u (·.receive r)).pendingAt k (i :: u :: line) =
      gathered φ t.pendingAt k (i :: u :: line) ++ if φ u = k then [r] else [] := by
  have hiu : u ≠ i := fun e => hne (by rw [e])
  have hP : ∀ j, (t.updateScope u (·.receive r)).pendingAt j =
      if u = j then t.pendingAt j ++ [r] else t.pendingAt j := fun j => pendingAt_receive ho
  rw [gathered, gathered_append hu hP, hP i, if_neg hiu,
    show gathered φ t.pendingAt k (i :: u :: line) =
      gathered φ t.pendingAt k (u :: line) ++ if φ i = k then t.pendingAt i else [] from rfl]
  by_cases hk : φ u = k
  · have hik : φ i ≠ k := fun e => hne (e.trans hk.symm)
    rw [if_pos hk, if_neg hik]
    simp
  · rw [if_neg hk]
    simp

namespace Contracted

/-! ### Block scopes -/

/-- A change of a block scope, if it binds nothing there. -/
theorem updateBlock {f : Scope → Scope} (h : Contracted φ line P s t) (hi : ¬ t.IsOuter i)
    (hf : ∀ a, (f a).frame = a.frame)
    (hblock : ∀ a, (f a).table = a.table ∧ (f a).dynamic = a.dynamic) :
    Contracted φ line P s (t.updateScope i f) := by
  have hsame : ∀ j, t.IsOuter j → s.contentAt? (φ j) = (t.updateScope i f).contentAt? j := by
    intro j hj
    have hne : i ≠ j := by
      rintro rfl
      exact hi hj
    rw [contentAt?, contentAt?, scopeAt?_updateScope, if_neg hne]
    exact h.content j hj
  refine h.change (.refl s) (fixed_updateScope hf t i) hsame (fun j a ha hk => ?_) h.pending h.vars
    h.refs h.isOuter_variable h.lt_reference
  obtain ⟨-, d, hd, rfl⟩ | ⟨-, ha⟩ := scopeAt?_updateScope_cases ha
  · obtain ⟨htable, hdynamic⟩ := h.blank j d hd ((congrArg (·.1.isBlock) (hf d)).symm.trans hk)
    exact ⟨(hblock d).1.trans htable, fun ho => (hblock d).2.trans (hdynamic ho)⟩
  · exact h.blank j a ha hk

/-- What a scope takes over does not show in its content. -/
theorem receive_right (h : Contracted φ line P s t) (w : ScopeId) (r : ReferenceId) :
    Contracted φ line P s (t.updateScope w (·.receive r)) := by
  refine h.change (.refl s) ((Fixed.refl t).receive w r) (fun j hj => ?_)
    (fun j a ha hk => ?_) h.pending h.vars h.refs h.isOuter_variable h.lt_reference
  · rw [content_receive, h.content j hj]
  · obtain ⟨-, d, hd, rfl⟩ | ⟨-, ha⟩ := scopeAt?_updateScope_cases ha
    · exact h.blank j d hd hk
    · exact h.blank j a ha hk

theorem receive_left (h : Contracted φ line P s t) (w : ScopeId) (r : ReferenceId)
    (hpending : ∀ j, (s.updateScope w (·.receive r)).pendingAt j = gathered φ Q j line') :
    Contracted φ line' Q (s.updateScope w (·.receive r)) t :=
  h.change ((Fixed.refl s).receive w r) (.refl t)
    (fun j hj => (content_receive s w r (φ j)).trans (h.content j hj)) h.blank hpending h.vars
    h.refs h.isOuter_variable h.lt_reference

/-- Settling a reference in a block scope hands it up. -/
theorem settleBlock (h : Contracted φ (i :: u :: line) (t.leftover i (r :: rest)) s t)
    (hl : (i :: u :: line).Nodup) (ha : t.scopeAt? i = some a) (hk : a.kind.isBlock = true)
    (hu : a.upper = some u) (ho : t.IsOpen u)
    (hr : (Action.settle i r).outcome t = (.ok (), t')) :
    Fixed t t' ∧ t'.IsOpen u ∧ Contracted φ (i :: u :: line) (t'.leftover i rest) s t' := by
  obtain ⟨hi, hl⟩ := List.nodup_cons.1 hl
  obtain ⟨w, b, hw, -, hφ, -, -⟩ := h.block i a ha hk
  obtain rfl := Option.some.inj (hu.symm.trans hw)
  have hiu : i ≠ u := fun e => hi (e ▸ List.mem_cons_self)
  have hfixed := ((Fixed.refl t).receive u r).pass i r
  have houter : ¬ (t.updateScope u (·.receive r)).IsOuter i := fun hi => by
    obtain ⟨a', ha', hk'⟩ := ((Fixed.refl t).receive u r).isOuter_iff.1 hi
    obtain rfl := Option.some.inj (ha.symm.trans ha')
    rw [hk] at hk'
    cases hk'
  obtain ⟨ref, key, a', -, -, ha', hcase⟩ := settle_ok_iff.1 hr
  obtain rfl := Option.some.inj (ha.symm.trans ha')
  rcases hcase with ⟨v, hv, -⟩ | ⟨-, hr⟩
  · rw [(h.blank i a ha hk).1] at hv
    cases hv
  · obtain ⟨a', ha', hcase⟩ := handUp_ok_iff.1 hr
    obtain rfl := Option.some.inj (ha.symm.trans ha')
    rcases hcase with ⟨hnone, -⟩ | ⟨w, above, hw, -, -, rfl⟩
    · rw [hu] at hnone
      cases hnone
    · obtain rfl := Option.some.inj (hu.symm.trans hw)
      refine ⟨hfixed, ?_, ?_⟩
      · exact isOpen_updateScope (fun _ => rfl)
          ((steady_updateScope fun a => Scope.isClosed_receive a r).isOpen u ho)
      · exact ((h.receive_right u r).updateBlock (f := (·.pass r)) houter (fun _ => rfl)
          fun _ => ⟨rfl, rfl⟩).congr (gathered_handUp hφ hiu (List.nodup_cons.1 hl).1 ho
            fun hm => hi (List.mem_cons_of_mem _ hm))

/-- **Closing a block scope leaves the contracted store as it is.** -/
theorem closeBlock (h : Contracted φ (t.chain i) t.pendingAt s t) (hd : t.Disciplined (some i))
    (ha : t.scopeAt? i = some a) (hk : a.kind.isBlock = true)
    (hc : (Action.close i).outcome t = (.ok up, t')) :
    Contracted φ (t'.line (t.upperOf i)) t'.pendingAt s t' := by
  obtain ⟨a', pending, t₁, t₂, last, ha', hp, himp, hset, -, -, -, rfl⟩ := close_ok_iff.1 hc
  obtain rfl := Option.some.inj (ha.symm.trans ha')
  have hrooted := h.rooted
  obtain ⟨u, b, hu, -, hφ, -, -⟩ := h.block i a ha hk
  have hup := (upperOf_eq ha).trans hu
  have hchain : t.chain i = i :: u :: t.above u := by
    rw [chain_step hrooted hup, chain_cons hrooted u]
  -- The scope is not the global one, and it settles its references by its empty table.
  have hglobal : a.kind ≠ .global := fun e => by
    rw [e] at hk
    cases hk
  rw [Action.bindImplicits, if_neg hglobal] at himp
  obtain rfl := (pure_ok_iff.1 himp).2
  have hsettles : settles t₁.options a = true := by
    have hdynamic := (h.blank i a ha hk).2
    cases ho : t₁.options.optimistic.truthy with
    | true => simp [settles, ho]
    | false => simp [settles, hdynamic ho]
  rw [hsettles, settleAll, if_pos rfl] at hset
  have hnodup := nodup_chain hrooted i
  rw [hchain] at h hnodup
  have hopen : t₁.IsOpen u := (hd.isOpen u).2 (by
    show u ∈ t₁.chain i
    rw [hchain]
    exact List.mem_cons_of_mem _ List.mem_cons_self)
  obtain ⟨hF, -, hC⟩ := forM_ok_induction (P := fun l t => Fixed t₁ t ∧ t.IsOpen u ∧
      Contracted φ (i :: u :: t₁.above u) (t.leftover i l) s t) hset
    ⟨.refl t₁, hopen, by rwa [leftover_pending (pendingAt_of_pending ha hp)]⟩
    fun r l v v' hv hr => by
      obtain ⟨hF, hov, hC⟩ := hv
      obtain ⟨c, hc, hf⟩ := hF.symm.scopeAt? ha
      have hkc : c.kind.isBlock = true := (congrArg (·.1.isBlock) hf).symm.trans hk
      have huc : c.upper = some u := (congrArg (·.2.2.1) hf).symm.trans hu
      obtain ⟨hF', ho', hC'⟩ := hC.settleBlock hnodup hc hkc huc hov hr
      exact ⟨hF.trans hF', ho', hC'⟩
  have houter : ¬ t₂.IsOuter i := fun hi => by
    obtain ⟨a', ha', hk'⟩ := hF.isOuter_iff.1 hi
    obtain rfl := Option.some.inj (ha.symm.trans ha')
    rw [hk] at hk'
    cases hk'
  have hshut := (hC.updateBlock (f := (·.shut)) houter (fun _ => rfl)
    fun _ => ⟨rfl, rfl⟩).record_right (closedEntry last)
  have hline : ((t₂.updateScope i (·.shut)).record (closedEntry last)).line (t₁.upperOf i) =
      u :: t₁.above u := by
    rw [hup, ← chain_cons hrooted u]
    exact ((hF.shut i).record (closedEntry last)).chain hrooted u
  have hat : ((t₂.updateScope i (·.shut)).record (closedEntry last)).pendingAt =
      t₂.leftover i [] := funext fun j => pendingAt_shut
  rw [hline, hat]
  refine hshut.congr fun k => ?_
  show _ = gathered φ _ k (u :: t₁.above u) ++ if φ i = k then t₂.leftover i [] i else []
  rw [leftover, if_pos rfl, ite_self, List.append_nil]

/-! ### Other scopes -/

/-- A reference is tied to the same variable, and stays in its variable scope in both or in
neither. -/
theorem link (h : Contracted φ line P s t) (r : ReferenceId) {o : ScopeId}
    (ho : o < t.scopes.size) (v : VariableId) :
    Contracted φ line P (s.link r (φ o) v) (t.link r o v) := by
  refine h.change ⟨rfl, rfl, fun _ => rfl⟩ ⟨rfl, rfl, fun _ => rfl⟩ h.content h.blank h.pending
    (fun w => ?_) (fun q => ?_) (fun w x hx => ?_) (fun q ref href => ?_)
  · rw [variableAt?_link, variableAt?_link, h.vars w]
    by_cases hv : v = w
    · rw [if_pos hv, if_pos hv]
      cases hw : t.variableAt? w with
      | none => rfl
      | some x =>
          have hstays := h.variableScope_inj ho (h.isOuter_variable w x hw).lt
          simp only [Option.map_some, Variable.under, hstays]
    · rw [if_neg hv, if_neg hv]
  · rw [referenceAt?_link, referenceAt?_link, h.refs q]
    split
    · rw [Option.map_map, Option.map_map]
      rfl
    · rfl
  · obtain ⟨-, y, hy, rfl⟩ | ⟨-, hx⟩ := variableAt?_link_cases hx
    · exact h.isOuter_variable w y hy
    · exact h.isOuter_variable w x hx
  · obtain ⟨-, y, hy, rfl⟩ | ⟨-, href⟩ := referenceAt?_link_cases href
    · exact h.lt_reference q y hy
    · exact h.lt_reference q ref href

theorem pass (h : Contracted φ line P s t) (hi : t.IsOuter i) (r : ReferenceId) :
    Contracted φ line P (s.updateScope (φ i) (·.pass r)) (t.updateScope i (·.pass r)) :=
  h.updateScope_still hi (fun _ => rfl) (fun _ => rfl) fun a b _ hc => by
    show { b.content with through := b.content.through ++ [r] } = _
    rw [hc]
    rfl

end Contracted

/-- While a scope that is no block closes, the contracted store follows. -/
structure Follows (φ : ScopeId → ScopeId) (i : ScopeId) (s t : Store) : Prop where
  contracted : Contracted φ (t.chain i) t.pendingAt s t
  isOuter : t.IsOuter i
  above : ∀ u, t.upperOf i = some u → t.IsOpen u ∧ s.IsOpen (φ u)

namespace Follows

theorem next (h : Follows φ i s t) (ht : Fixed t t')
    (hC : Contracted φ (t.chain i) t'.pendingAt s' t') (ho : ∀ u, t.IsOpen u → t'.IsOpen u)
    (ho' : ∀ u, s.IsOpen u → s'.IsOpen u) : Follows φ i s' t' where
  contracted := by rwa [ht.chain h.contracted.rooted]
  isOuter := ht.isOuter_iff.2 h.isOuter
  above u hu :=
    let ⟨hou, hou'⟩ := h.above u ((ht.upperOf i).symm.trans hu)
    ⟨ho u hou, ho' _ hou'⟩

/-- What settles a reference in a scope that is no block settles it in the contracted store. -/
theorem settle (h : Follows φ i s t) (hr : (Action.settle i r).outcome t = (.ok (), t')) :
    ∃ s', (Action.settle (φ i) r).outcome s = (.ok (), s') ∧ Follows φ i s' t' := by
  have hC := h.contracted
  obtain ⟨ref, key, a, href, hkey, ha, hcase⟩ := settle_ok_iff.1 hr
  obtain ⟨a', ha', hk⟩ := h.isOuter
  obtain rfl := Option.some.inj (ha.symm.trans ha')
  obtain ⟨b, hb, hbf, hbc⟩ := hC.scopeAt? ha hk
  obtain ⟨-, -, hupper, -, -⟩ := Layout.frame_eq hbf
  have htable : b.table = a.table := congrArg Content.table hbc
  have href' : s.referenceAt? r = some (ref.under φ) := by
    rw [hC.refs r, href]
    rfl
  rcases hcase with ⟨v, hv, rfl⟩ | ⟨hv, hr⟩
  · refine ⟨_, settle_ok_iff.2 ⟨_, key, b, href', hkey, hb, .inl ⟨v, by rwa [htable], rfl⟩⟩, ?_⟩
    exact h.next ⟨rfl, rfl, fun _ => rfl⟩ (hC.link r (hC.lt_reference r ref href) v)
      (fun _ => id) fun _ => id
  · suffices hup : ∃ s', (handUp (φ i) r).outcome s = (.ok (), s') ∧ Follows φ i s' t' by
      obtain ⟨s', hs', h'⟩ := hup
      exact ⟨s', settle_ok_iff.2 ⟨_, key, b, href', hkey, hb, .inr ⟨by rwa [htable], hs'⟩⟩, h'⟩
    obtain ⟨a', ha', hcase⟩ := handUp_ok_iff.1 hr
    obtain rfl := Option.some.inj (ha.symm.trans ha')
    have hopen : ∀ (t : Store) (u : ScopeId), t.IsOpen u →
        (t.updateScope i (·.pass r)).IsOpen u ∧ (t.updateScope (φ i) (·.pass r)).IsOpen u :=
      fun t u ho => ⟨isOpen_updateScope (fun _ => rfl) ho, isOpen_updateScope (fun _ => rfl) ho⟩
    rcases hcase with ⟨hnone, rfl⟩ | ⟨u, above, hu, -, -, rfl⟩
    · rw [hnone] at hupper
      refine ⟨_, handUp_ok_iff.2 ⟨b, hb, .inl ⟨hupper, rfl⟩⟩, h.next ((Fixed.refl t).pass i r) ?_
        (fun u ho => (hopen t u ho).1) fun u ho => (hopen s u ho).2⟩
      exact (hC.pass h.isOuter r).congr
        fun k => gathered_congr (fun j _ => ⟨rfl, pendingAt_pass⟩) k
    · rw [hu] at hupper
      have hup := (upperOf_eq ha).trans hu
      obtain ⟨hou, hou'⟩ := h.above u hup
      obtain ⟨c, hc, hclosed⟩ := hou'
      have hlt := hC.lt_of_lt h.isOuter (hC.rooted i u hup)
      have hchain : t.chain i = i :: u :: t.above u := by
        rw [chain_step hC.rooted hup, chain_cons hC.rooted u]
      have hnodup := nodup_chain hC.rooted u
      rw [chain_cons hC.rooted u] at hnodup
      have hreceive : ∀ (t : Store) (w u : ScopeId), t.IsOpen u →
          (t.updateScope w (·.receive r)).IsOpen u := fun t w u =>
        (steady_updateScope fun a => Scope.isClosed_receive a r).isOpen u
      refine ⟨_, handUp_ok_iff.2 ⟨b, hb, .inr ⟨_, c, hupper, hc, hclosed, rfl⟩⟩,
        h.next (((Fixed.refl t).receive u r).pass i r) ?_
        (fun w ho => (hopen _ w (hreceive t u w ho)).1)
        fun w ho => (hopen _ w (hreceive s (φ u) w ho)).2⟩
      -- It is added where it is gathered: last in the scope above, which goes to another place.
      have hpending : ∀ j, (s.updateScope (φ u) (·.receive r)).pendingAt j =
          gathered φ (t.updateScope u (·.receive r)).pendingAt j (t.chain i) := fun j => by
        rw [pendingAt_receive ⟨c, hc, hclosed⟩, hC.pending j, hchain,
          gathered_receive hlt.ne' (List.nodup_cons.1 hnodup).1 hou j]
        split <;> simp
      exact (((hC.receive_right u r).receive_left (φ u) r hpending).pass
        (((Fixed.refl t).receive u r).isOuter_iff.2 h.isOuter) r).congr
        fun k => gathered_congr (fun j _ => ⟨rfl, pendingAt_pass⟩) k

/-- What lets a reference leave lets it leave in the contracted store. -/
theorem escape (h : Follows φ i s t) (r : ReferenceId) :
    Follows φ i (s.updateScopes (s.chain (φ i)) (·.pass r))
      (t.updateScopes (t.chain i) (·.pass r)) := by
  refine h.next (fixed_updateScopes (f := (·.pass r)) (fun _ => rfl) t _) ?_ (fun u ho => ?_)
    fun u ho => ?_
  · have hC := h.contracted.updateChain (f := (·.pass r)) h.isOuter.lt (fun _ => rfl)
      (fun _ => rfl) (fun a b _ hc => ?_) fun _ => ⟨rfl, fun _ => rfl⟩
    · refine hC.congr fun k => gathered_congr (fun j _ => ⟨rfl, ?_⟩) k
      exact pendingAt_passAll (nodup_chain h.contracted.rooted i)
    · show { b.content with through := b.content.through ++ [r] } = _
      rw [hc]
      rfl
  · exact (steady_updateScopes (f := (·.pass r)) fun _ => rfl).isOpen u ho
  · exact (steady_updateScopes (f := (·.pass r)) fun _ => rfl).isOpen u ho

theorem settleAll {settled : Bool} (h : Follows φ i s t)
    (hr : (Action.settleAll i settled pending).outcome t = (.ok (), t')) :
    ∃ s', (Action.settleAll (φ i) settled pending).outcome s = (.ok (), s') ∧
      Follows φ i s' t' := by
  rw [Action.settleAll] at hr
  simp only [Action.settleAll]
  cases settled with
  | true => exact forM_alongside h hr fun r s t t' h hr => h.settle hr
  | false =>
      refine forM_alongside h hr fun r s t t' h hr => ⟨_, escape_ok_iff.2 rfl, ?_⟩
      rw [escape_ok_iff.1 hr]
      exact h.escape r

end Follows

/-! ### Implicit globals -/

namespace Contracted

theorem openCandidates {table : Table VariableId} {cs : List Candidate}
    (h : Contracted φ line P s t)
    (hc : (Action.openCandidates table pending).outcome t = (.ok cs, t')) :
    (Action.openCandidates table pending).outcome s = (.ok cs, s) := by
  induction pending generalizing cs with
  | nil =>
      rw [Action.openCandidates] at hc ⊢
      rw [(pure_ok_iff.1 hc).1]
      rfl
  | cons r pending ih =>
      obtain ⟨ref, href, hcase⟩ := openCandidates_cons_ok_iff.1 hc
      have href' : s.referenceAt? r = some (ref.under φ) := by
        rw [h.refs r, href]
        rfl
      refine openCandidates_cons_ok_iff.2 ⟨_, href', ?_⟩
      rcases hcase with ⟨hnone, hrest⟩ | ⟨c, key, others, hcand, hkey, hrest, rfl⟩
      · exact .inl ⟨hnone, ih hrest⟩
      · exact .inr ⟨c, key, others, hcand, hkey, ih hrest, rfl⟩

theorem makeImplicit {c : Candidate} (h : Contracted φ line P s t) (hi : t.IsOuter i)
    (hm : (Action.makeImplicit i c).outcome t = (.ok (), t')) :
    ∃ s', (Action.makeImplicit (φ i) c).outcome s = (.ok (), s') ∧
      Contracted φ line P s' t' ∧ t'.IsOuter i := by
  obtain ⟨v, t₁, key, hd, hkey, rfl⟩ := makeImplicit_ok_iff.1 hm
  obtain ⟨s₁, hs₁, h₁⟩ := h.define hi hd
  have hi₁ : t₁.IsOuter i := by
    obtain ⟨-, -, rfl⟩ | ⟨-, key, a, -, -, ⟨v, -, -, rfl⟩ | ⟨-, -, rfl⟩⟩ := define_ok_iff.1 hd
    · exact hi
    · exact hi
    · exact (fixed_bindNew ..).isOuter_iff.2 hi
  refine ⟨_, makeImplicit_ok_iff.2 ⟨v, s₁, key, hs₁, hkey, rfl⟩, ?_,
    (fixed_updateScope (f := (·.bindImplicit key v)) (fun _ => rfl) t₁ i).isOuter_iff.2 hi₁⟩
  refine h₁.updateScope_still hi₁ (fun _ => rfl) (fun _ => rfl) fun a b _ hc => ?_
  show { b.content with implicit := b.content.implicit.put key v } = _
  rw [hc]
  rfl

theorem bindImplicits (h : Contracted φ line P s t) (hi : t.IsOuter i) (hkind : b.kind = a.kind)
    (htable : b.table = a.table)
    (hb : (Action.bindImplicits i a pending).outcome t = (.ok (), t')) :
    ∃ s', (Action.bindImplicits (φ i) b pending).outcome s = (.ok (), s') ∧
      Contracted φ line P s' t' ∧ t'.IsOuter i := by
  rw [Action.bindImplicits] at hb
  simp only [Action.bindImplicits, hkind, htable]
  by_cases hk : a.kind = .global
  · rw [if_pos hk] at hb
    simp only [if_pos hk]
    obtain ⟨cs, t₁, hcs, hl⟩ := bind_ok_iff.1 hb
    obtain rfl := openCandidates_ok hcs
    obtain ⟨s', hs', h'⟩ := forM_alongside (R := fun s t => Contracted φ line P s t ∧ t.IsOuter i)
      ⟨h, hi⟩ hl fun c s t t' h hm => h.1.makeImplicit h.2 hm
    exact ⟨s', bind_ok_iff.2 ⟨cs, s, h.openCandidates hcs, hs'⟩, h'⟩
  · rw [if_neg hk] at hb
    simp only [if_neg hk]
    obtain rfl := (pure_ok_iff.1 hb).2
    exact ⟨s, rfl, h, hi⟩

/-! ### Closing -/

/-- By the time a scope that is no block closes, all that is gathered for it waits in itself. -/
theorem pending_eq (h : Contracted φ (t.chain i) t.pendingAt s t) (hi : t.IsOuter i) :
    s.pendingAt (φ i) = t.pendingAt i := by
  have hne : ∀ j ∈ t.above i, φ j ≠ φ i := fun j hj => by
    have hji : j ∈ t.chain i := by
      rw [chain_cons h.rooted i]
      exact List.mem_cons_of_mem _ hj
    have hlt := Nat.lt_of_le_of_ne (le_of_mem_chain h.rooted hji) fun e =>
      not_mem_above h.rooted i (e ▸ hj)
    exact (h.lt_of_lt hi hlt).ne
  rw [h.pending, chain_cons h.rooted i, gathered, gathered_of_ne hne, if_pos rfl, List.nil_append]

/-- What a scope that is no block leaves pending around it. -/
theorem shut (h : Contracted φ (t.chain i) t.pendingAt s t) (hi : t.IsOuter i) :
    Contracted φ (t.above i) (t.updateScope i (·.shut)).pendingAt
      (s.updateScope (φ i) (·.shut)) (t.updateScope i (·.shut)) := by
  refine h.updateScope (f := (·.shut)) hi (fun _ => rfl) (fun a b hk hc => ?_) fun j => ?_
  · show { b.content with
      isClosed := true
      implicitLeft := if b.kind = ScopeKind.global then b.content.through
        else b.content.implicitLeft } = _
    rw [hk, hc]
    rfl
  · have habove : gathered φ (t.updateScope i (·.shut)).pendingAt j (t.above i) =
        gathered φ t.pendingAt j (t.above i) :=
      gathered_congr (fun k hk => ⟨rfl, by
        have hki : k ≠ i := fun e => not_mem_above h.rooted i (e ▸ hk)
        rw [pendingAt_shut, leftover, if_neg hki]⟩) j
    rw [pendingAt_shut, leftover, habove]
    have hj := h.pending j
    rw [chain_cons h.rooted i, gathered] at hj
    by_cases hij : φ i = j
    · subst hij
      rw [if_pos rfl] at hj ⊢
      have hown := h.pending_eq hi
      rw [hown] at hj
      exact (List.append_left_eq_self.1 hj.symm).symm
    · rw [if_neg hij, List.append_nil] at hj
      rw [if_neg fun e => hij e.symm, hj]

theorem pending_eq_some (h : Contracted φ (t.chain i) t.pendingAt s t) (hi : t.IsOuter i)
    (ha : t.scopeAt? i = some a) (hb : s.scopeAt? (φ i) = some b) (hbc : b.content = a.content)
    (hp : a.pending = some pending) : b.pending = some pending := by
  have hclosed : b.isClosed = a.isClosed := congrArg Content.isClosed hbc
  have hsame := h.pending_eq hi
  rw [pendingAt_eq hb, pendingAt_eq ha, hp] at hsame
  rw [Scope.isClosed, Scope.isClosed, hp] at hclosed
  cases hbp : b.pending with
  | none =>
      rw [hbp] at hclosed
      cases hclosed
  | some l =>
      rw [hbp] at hsame
      exact congrArg some hsame

/-- Above a scope that is no block is where the scope above it goes. -/
theorem upperOf_eq_map (h : Contracted φ line P s t) (hi : t.IsOuter i) :
    s.upperOf (φ i) = (t.upperOf i).map φ := by
  obtain ⟨a, ha, hk⟩ := hi
  obtain ⟨b, hb, hbf, -⟩ := h.scopeAt? ha hk
  obtain ⟨-, -, hupper, -, -⟩ := Layout.frame_eq hbf
  rw [upperOf_eq hb, upperOf_eq ha, hupper]

/-- Once the implicit globals are made, the contracted store follows. -/
theorem follows {A B : ScopeId → Prop} {s₁ t₁ : Store}
    (h : Contracted φ (t.chain i) t.pendingAt s t) (hi : t.IsOuter i)
    (hd : t.Disciplined (some i)) (hd' : s.Disciplined (some (φ i))) (hq : Quiets A t t₁)
    (hq' : Quiets B s s₁) (h₁ : Contracted φ (t.chain i) t.pendingAt s₁ t₁)
    (hi₁ : t₁.IsOuter i) : Follows φ i s₁ t₁ := by
  have hE := hq.changes.evolves hd.sound
  refine ⟨?_, hi₁, fun u hu => ?_⟩
  · rw [hE.chain hd.sound (hq.changes.sound hd.sound) hi.lt]
    exact h₁.congr fun k => gathered_congr (fun j _ => ⟨rfl, hq.sameNotes.pending j⟩) k
  · rw [hE.upperOf hi.lt] at hu
    have hu' : s.upperOf (φ i) = some (φ u) := by
      rw [h.upperOf_eq_map hi, hu]
      rfl
    exact ⟨hq.sameNotes.isOpen u ((hd.isOpen u).2
        (upper_mem_chain h.rooted (self_mem_chain t i) hu)),
      hq'.sameNotes.isOpen _ ((hd'.isOpen _).2
        (upper_mem_chain h.rooted_contracted (self_mem_chain s _) hu'))⟩

/-- **Closing a scope that is no block closes it in both stores.** -/
theorem close (h : Contracted φ (t.chain i) t.pendingAt s t) (hi : t.IsOuter i)
    (hd : t.Disciplined (some i)) (hd' : s.Disciplined (some (φ i)))
    (hc : (Action.close i).outcome t = (.ok up, t')) :
    ∃ s', (Action.close (φ i)).outcome s = (.ok (up.map φ), s') ∧
      Contracted φ (t'.line (t.upperOf i)) t'.pendingAt s' t' := by
  obtain ⟨a, pending, t₁, t₂, last, ha, hp, himp, hset, hlast, hobj, rfl, rfl⟩ := close_ok_iff.1 hc
  obtain ⟨a', ha', hk⟩ := id hi
  obtain rfl := Option.some.inj (ha.symm.trans ha')
  obtain ⟨b, hb, hbf, hbc⟩ := h.scopeAt? ha hk
  obtain ⟨hkind, -, -, -, -⟩ := Layout.frame_eq hbf
  have hpb : b.pending = some pending := h.pending_eq_some hi ha hb hbc hp
  -- Its names are complete when the implicit globals are made.
  obtain ⟨s₁, hs₁, h₁, hi₁⟩ := h.bindImplicits hi hkind (congrArg Content.table hbc) himp
  have hq := bindImplicits_quiets hd.sound himp
  have hfollows := h.follows hi hd hd' hq (bindImplicits_quiets hd'.sound hs₁) h₁ hi₁
  -- The same decision settles the references in both stores.
  have hsettles : settles s₁.options b = settles t₁.options a := by
    obtain ⟨v, hv⟩ := h₁.options
    have hdynamic : b.dynamic = a.dynamic := congrArg Content.dynamic hbc
    rw [settles, settles, hv, hkind, hdynamic]
  obtain ⟨s₂, hs₂, h₂⟩ := hfollows.settleAll hset
  obtain ⟨last', hlast', hlf, -⟩ := h₂.contracted.scopeAt? hlast (by
    obtain ⟨l, hl, hkl⟩ := h₂.isOuter
    exact Option.some.inj (hl.symm.trans hlast) ▸ hkl)
  obtain ⟨-, hlblock, hlupper, -, -⟩ := Layout.frame_eq hlf
  refine ⟨_, close_ok_iff.2 ⟨b, pending, s₁, s₂, last', hb, hpb, hs₁, by rwa [hsettles], hlast',
    by rwa [hlblock], hlupper.symm, rfl⟩, ?_⟩
  have hsound₁ := hq.changes.sound hd.sound
  have hE := hq.changes.evolves hd.sound
  have hE₁ := (settleAll_changes hsound₁ (hE.lt hi.lt) hset).evolves hsound₁
  have hline : ((t₂.updateScope i (·.shut)).record (closedEntry last)).line (t.upperOf i) =
      t₂.above i := by
    rw [above_eq_line, hE₁.upperOf (hE.lt hi.lt), hE.upperOf hi.lt]
    cases t.upperOf i with
    | none => rfl
    | some u =>
        exact (((Fixed.refl t₂).shut i).record (closedEntry last)).chain h₂.contracted.rooted u
  rw [hline]
  exact ((h₂.contracted.shut h₂.isOuter).record_left (closedEntry last')).record_right
    (closedEntry last)

end Contracted

end Store

end LexScope
