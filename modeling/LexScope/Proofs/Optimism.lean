import LexScope.Proofs.Escaping
import LexScope.Proofs.Lockstep

/-!
# Proofs — Optimism — resolving through dynamic scopes only refines

An optimistic analysis has no barriers.  What reaches a scope in another analysis of the same
program reaches it there, too (`Rivals.arrivals`), so it makes at least the same variables for writes
(`Rivals.isImplicit`), resolves at least the same references, and lets fewer of them through.

Where program nodes are nested, one of the additional variables can catch a reference on its way to
a program further out (`Rivals.resolved`); under a sole program nothing comes in between.

* `analyze_optimistic`: **optimism only refines.**
* `nestedProgram_outrun`: a nested program in which it does more than that.
-/

namespace LexScope

open Store LexScope.Action

namespace Store

/-! ### Two finished stores -/

/-- Finished stores that are twins, the second of which has no barriers. -/
structure Rivals (s t : Store) : Prop where
  left : s.Finished Tree.TextNames
  right : t.Finished Tree.TextNames
  twin : Twin s t
  optimistic : t.options.optimistic.truthy = true

variable {s t : Store} {i : ScopeId} {r : ReferenceId} {ref : Reference} {key : Name}
  {v w : VariableId} {a b : Scope}

theorem Rivals.isBarrier (h : Rivals s t) (b : Scope) : b.isBarrier t.options = false := by
  rw [Scope.isBarrier, h.optimistic, Bool.not_true, Bool.and_false]

theorem Rivals.chain (h : Rivals s t) (i : ScopeId) : t.chain i = s.chain i :=
  h.twin.chain h.left.sound.rooted h.right.sound.rooted i

/-- The name of a reference is a text. -/
theorem Finished.text (h : s.Finished Tree.TextNames) (href : s.referenceAt? r = some ref) :
    ∃ name, ref.name = .str name := by
  obtain ⟨htext, hid, -⟩ := h.sourced.reference r ref href
  exact htext.name hid

/-- A variable that was made for writes in a global scope. -/
def IsImplicit (t : Store) (i : ScopeId) (key : Name) (w : VariableId) : Prop :=
  ∃ b, t.scopeAt? i = some b ∧ b.kind = .global ∧ b.implicit.find? key = some w

/-- What is bound in a scope and not in its likeness was made for writes. -/
theorem Rivals.implicit (h : Rivals s t) (ha : s.scopeAt? i = some a) (hb : t.scopeAt? i = some b)
    (hf : a.table.find? key = none) (hw : b.table.find? key = some w) : t.IsImplicit i key w := by
  cases hi : b.implicit.find? key with
  | none =>
      obtain ⟨v, hv, -⟩ := h.twin.symm.find?_declared h.right.sound h.left.distinct hb ha hw hi
      rw [hf] at hv
      cases hv
  | some w' =>
      have hk : b.kind = .global := by
        by_contra hk
        rw [h.right.bare i b hb hk] at hi
        cases hi
      have hbound := ((h.right.globals i b hb hk).1 key).bound w' hi
      exact ⟨b, hb, hk, hi.trans (hbound.symm.trans hw)⟩

/-! ### What reaches a scope -/

/-- Scopes that let a name pass do so without barriers, too, up to a variable that only the store
without barriers has. -/
theorem Rivals.clear_or (h : Rivals s t) {l : List ScopeId}
    (hc : s.Clear (fun _ => True) (some key) l) : t.Clear (fun _ => True) (some key) l ∨
      ∃ l₁ k l₂ w, l = l₁ ++ k :: l₂ ∧ t.Clear (fun _ => True) (some key) l₁ ∧
        t.IsImplicit k key w := by
  induction l with
  | nil => exact .inl nofun
  | cons j l ih =>
      obtain ⟨-, a, k, ha, -, hk, hf⟩ := hc j List.mem_cons_self
      obtain rfl := Option.some.inj hk
      obtain ⟨b, hb, -⟩ := h.twin.scopeAt? ha
      cases hw : b.table.find? key with
      | some w => exact .inr ⟨[], j, l, w, rfl, nofun, h.implicit ha hb hf hw⟩
      | none =>
          have hj : ∀ l, t.Clear (fun _ => True) (some key) l →
              t.Clear (fun _ => True) (some key) (j :: l) := fun l hl =>
            List.forall_mem_cons.2 ⟨⟨trivial, b, key, hb, h.isBarrier b, rfl, hw⟩, hl⟩
          rcases ih fun i hi => hc i (List.mem_cons_of_mem j hi) with
            hl | ⟨l₁, k, l₂, w, rfl, hl, hm⟩
          · exact .inl (hj l hl)
          · exact .inr ⟨j :: l₁, k, l₂, w, rfl, hj l₁ hl, hm⟩

/-- Nothing stops a write that makes a variable where it passed the barriers: the variable that
could do so would have been made for it in the other store, too. -/
theorem Rivals.clear (h : Rivals s t) (href : s.referenceAt? r = some ref)
    (hcand : ref.candidate.isSome = true) (hk : Name.ofTree? ref.name = some key)
    {l rest : List ScopeId} (hl : s.chain ref.scope = l ++ rest)
    (hc : s.Clear (fun _ => True) (some key) l) : t.Clear (fun _ => True) (some key) l := by
  rcases h.clear_or hc with hclear | ⟨l₁, k, l₂, w, rfl, -, b, hb, hkind, -⟩
  · exact hclear
  · obtain ⟨-, a, key', ha, -, hkey, hf⟩ := hc k (List.mem_append_right l₁ List.mem_cons_self)
    obtain rfl := Option.some.inj hkey
    obtain ⟨b', hb', hout⟩ := h.twin.scopeAt? ha
    obtain rfl := Option.some.inj (hb.symm.trans hb')
    have hroot := h.left.sound.rooted
    have hway : s.chain ref.scope = l₁ ++ k :: (l₂ ++ rest) := by rw [hl, List.append_assoc]; rfl
    have hreach : s.reaches k key ref.scope = true := (reaches_iff hroot).2
      ⟨l₁, hway.trans (by rw [chain_of_split hroot hway]),
        fun j hj => hc j (List.mem_append_left _ hj)⟩
    have hnone := ((h.left.globals k a ha ((congrArg Outline.kind hout).symm.trans hkind)).1
      key).missed hf
    have hmem : r ∈ s.arrivals k key := mem_arrivals_iff.2 ⟨ref, href, hcand, hk, hreach⟩
    rw [hnone] at hmem
    cases hmem

/-- **What arrives in a scope arrives without barriers, too.** -/
theorem Rivals.arrivals (h : Rivals s t) (hr : r ∈ s.arrivals i key) : r ∈ t.arrivals i key := by
  obtain ⟨ref, href, hcand, hk, hreach⟩ := mem_arrivals_iff.1 hr
  obtain ⟨ref', href', huse, hscope⟩ := h.twin.referenceAt? href
  obtain ⟨l, hl, hc⟩ := (reaches_iff h.left.sound.rooted).1 hreach
  refine mem_arrivals_iff.2 ⟨ref', href', ?_, ?_, (reaches_iff h.right.sound.rooted).2 ⟨l, ?_,
    h.clear href hcand hk hl hc⟩⟩
  · rw [huse]; exact hcand
  · rw [Reference.name, huse]; exact hk
  · rw [h.chain, h.chain, hscope, hl]

/-- What was made for writes is made for them without barriers, too. -/
theorem Rivals.isImplicit (h : Rivals s t) (hv : s.IsImplicit i key v) :
    ∃ w, t.IsImplicit i key w := by
  obtain ⟨a, ha, hkind, hv⟩ := hv
  obtain ⟨b, hb, hout⟩ := h.twin.scopeAt? ha
  have hkind' : b.kind = .global := (congrArg Outline.kind hout).trans hkind
  have hleft := (h.left.globals i a ha hkind).1 key
  obtain ⟨r, hr⟩ := List.exists_mem_of_ne_nil _ (hleft.arrived (by rw [hv]; rfl))
  have hmem := h.arrivals hr
  cases hw : b.table.find? key with
  | none =>
      rw [((h.right.globals i b hb hkind').1 key).missed hw] at hmem
      cases hmem
  | some w =>
      refine ⟨w, b, hb, hkind', ?_⟩
      cases hi : b.implicit.find? key with
      | some w' => exact (((h.right.globals i b hb hkind').1 key).bound w' hi).symm.trans hw
      | none =>
          obtain ⟨-, -, hnone⟩ :=
            h.twin.symm.find?_declared h.right.sound h.left.distinct hb ha hw hi
          rw [hv] at hnone
          cases hnone

/-- What is bound in a scope is bound in its likeness. -/
theorem Rivals.find? (h : Rivals s t) (ha : s.scopeAt? i = some a) (hb : t.scopeAt? i = some b)
    (hf : a.table.find? key = some v) : ∃ w, b.table.find? key = some w := by
  cases hi : a.implicit.find? key with
  | none =>
      obtain ⟨w, hw, -⟩ := h.twin.find?_declared h.left.sound h.right.distinct ha hb hf hi
      exact ⟨w, hw⟩
  | some v' =>
      have hkind : a.kind = .global := by
        by_contra hk
        rw [h.left.bare i a ha hk] at hi
        cases hi
      obtain ⟨w, b', hb', hkind', hw⟩ := h.isImplicit ⟨a, ha, hkind, hi⟩
      obtain rfl := Option.some.inj (hb.symm.trans hb')
      exact ⟨w, ((h.right.globals i b hb hkind').1 key).bound w hw⟩

/-! ### What references are resolved to -/

/-- A reference is resolved to what it meets first. -/
theorem Finished.resolved {P : Tree → Prop} (h : t.Finished P) {l rest : List ScopeId}
    (href : t.referenceAt? r = some ref) (hk : Name.ofTree? ref.name = some key)
    (hl : t.chain ref.scope = l ++ i :: rest) (hc : t.Clear (fun _ => True) (some key) l)
    (hb : t.scopeAt? i = some b) (hbar : b.isBarrier t.options = false)
    (hf : b.table.find? key = some v) : ref.resolved = some v := by
  rw [(h.verdict r ref href).eq_lookup h.closed, lookup?, hk, Option.bind_some, hl,
    lookupAlong_clear hc, lookupAlong, hb]
  simp only [hbar, Bool.false_eq_true, if_false, hf]

/-- Two variables have the same name, and the second is in the same scope as the first or was made
for writes in a scope that is on the way to the first and binds nothing of that name in `s`. -/
def Outruns (s t : Store) (v w : VariableId) : Prop :=
  ∃ x y key, s.variableAt? v = some x ∧ t.variableAt? w = some y ∧ y.name = x.name ∧
    Name.ofTree? x.name = some key ∧ x.scope ∈ s.chain y.scope ∧
    (y.scope = x.scope ∨ t.IsImplicit y.scope key w ∧
      ∃ a, s.scopeAt? y.scope = some a ∧ a.table.find? key = none)

/-- Two variables have the same name and are in the same scope. -/
def SameBinding (s t : Store) (v w : VariableId) : Prop :=
  ∃ x y, s.variableAt? v = some x ∧ t.variableAt? w = some y ∧ y.name = x.name ∧ y.scope = x.scope

/-- **What is resolved is resolved without barriers, too**, to the variable of its name in the same
scope, if no variable is in the way that was made for writes. -/
theorem Rivals.resolved (h : Rivals s t) {ref' : Reference} (href : s.referenceAt? r = some ref)
    (href' : t.referenceAt? r = some ref') (hv : ref.resolved = some v) :
    ∃ w, ref'.resolved = some w ∧ Outruns s t v w := by
  obtain ⟨name, hname⟩ := h.left.text href
  have hkey : Name.ofTree? ref.name = some (.text name) := Name.ofTree?_eq_text.2 hname
  obtain ⟨ref'', href'', huse, hscope⟩ := h.twin.referenceAt? href
  obtain rfl := Option.some.inj (href'.symm.trans href'')
  have hkey' : Name.ofTree? ref'.name = some (.text name) := by
    rw [Reference.name, huse]; exact hkey
  obtain ⟨l, i, rest, a, key, hl, hc, -, ha, -, hk, hf⟩ := (h.left.verdict r ref href).resolved v hv
  obtain rfl := Option.some.inj (hkey.symm.trans hk)
  rw [hkey] at hc
  have hclear : s.Clear (fun _ => True) (some (.text name)) l := hc.mono fun _ _ => trivial
  have hroot := h.left.sound.rooted
  obtain ⟨x, hx, hxi, hxname⟩ := h.left.sound.of_find? ha hf
  have hl' : t.chain ref'.scope = l ++ i :: rest := by rw [h.chain, hscope, hl]
  rcases h.clear_or hclear with hpass | ⟨l₁, k, l₂, w, rfl, hpass, b, hb, hkind, himp⟩
  · obtain ⟨b, hb, -⟩ := h.twin.scopeAt? ha
    obtain ⟨w, hw⟩ := h.find? ha hb hf
    obtain ⟨y, hy, hyi, hyname⟩ := h.right.sound.of_find? hb hw
    refine ⟨w, h.right.resolved href' hkey' hl' hpass hb (h.isBarrier b) hw, x, y, .text name, hx,
      hy, ?_, hxname, ?_, .inl (hyi.trans hxi.symm)⟩
    · rw [Name.ofTree?_eq_text.1 hyname, Name.ofTree?_eq_text.1 hxname]
    · rw [hxi, hyi]; exact self_mem_chain s i
  · have hw := ((h.right.globals k b hb hkind).1 _).bound w himp
    obtain ⟨y, hy, hyk, hyname⟩ := h.right.sound.of_find? hb hw
    have hway : s.chain ref.scope = l₁ ++ k :: (l₂ ++ i :: rest) := by
      rw [hl, List.append_assoc]; rfl
    obtain ⟨-, c, key, hc', -, hck, hnone⟩ :=
      hclear k (List.mem_append_right l₁ List.mem_cons_self)
    obtain rfl := Option.some.inj hck
    refine ⟨w, h.right.resolved href' hkey' (h.chain _ ▸ hscope ▸ hway) hpass hb (h.isBarrier b) hw,
      x, y, .text name, hx, hy, ?_, hxname, ?_,
      .inr (hyk ▸ ⟨⟨b, hb, hkind, himp⟩, c, hc', hnone⟩)⟩
    · rw [Name.ofTree?_eq_text.1 hyname, Name.ofTree?_eq_text.1 hxname]
    · rw [hxi, hyk, chain_of_split hroot hway]
      exact List.mem_cons_of_mem k (List.mem_append_right l₂ List.mem_cons_self)

/-- **Fewer references leave a scope without barriers.** -/
theorem Rivals.through (h : Rivals s t) (hr : r ∈ t.throughAt i) : r ∈ s.throughAt i := by
  cases href : s.referenceAt? r with
  | none =>
      have hnone : t.referenceAt? r = none := by
        have hu := h.twin.use r
        rw [useAt?, useAt?, href] at hu
        exact Option.map_eq_none_iff.1 hu
      exact absurd hr (List.count_eq_zero.1 ((h.right.books.unused r hnone).2.1 i))
  | some ref =>
      obtain ⟨ref', href', -, hscope⟩ := h.twin.referenceAt? href
      obtain ⟨w, hw⟩ := h.left.books.account r ref href
      obtain ⟨w', hw'⟩ := h.right.books.account r ref' href'
      have hcount := hw'.count_throughAt h.right.sound i
      obtain ⟨hi, hahead⟩ : i ∈ t.chain ref'.scope ∧ i ∉ t.ahead w' := by
        by_contra hnot
        rw [if_neg hnot] at hcount
        exact List.count_eq_zero.1 hcount hr
      refine List.count_pos_iff.1 ?_
      rw [hw.count_throughAt h.left.sound i, if_pos]
      · exact one_pos
      · refine ⟨by rw [← hscope, ← h.chain]; exact hi, fun hin => hahead ?_⟩
        cases w with
        | pending j => exact absurd (isOpen_of_pendingAt hw.waits) (h.left.closed j)
        | escaped => cases hin
        | resolved v =>
            obtain ⟨u, hu, x, y, -, hx, hy, -, -, hup, -⟩ := h.resolved href href' hw.resolved
            have hu' : w'.var? = some u := hw'.resolved.symm.trans hu
            cases w' with
            | pending j => cases hu'
            | escaped => cases hu'
            | resolved u' =>
                obtain rfl := Option.some.inj hu'
                rw [Store.ahead, hy, Option.elim_some, h.chain]
                rw [Store.ahead, hx, Option.elim_some] at hin
                exact mem_chain_trans h.left.sound.rooted hup hin

/-! ### What is reported -/

/-- What is undeclared without barriers is undeclared. -/
theorem Rivals.undeclared (h : Rivals s t) (ha : s.scopeAt? i = some a)
    (hb : t.scopeAt? i = some b) {issues issues' : List Issue}
    (hs : s.undeclaredIssues? a = some issues) (ht : t.undeclaredIssues? b = some issues') :
    ∀ issue ∈ issues', issue ∈ issues := by
  intro issue hissue
  obtain ⟨r, ref', key, hr, href', hres', hk, hbound', hat⟩ := (mem_undeclaredIssues? ht).1 hissue
  obtain ⟨ref, href, huse, hscope⟩ := h.twin.symm.referenceAt? href'
  refine (mem_undeclaredIssues? hs).2 ⟨r, ref, key, ?_, href, ?_, ?_, ?_, ?_⟩
  · rw [← throughAt_eq ha]
    exact h.through (by rw [throughAt_eq hb]; exact hr)
  · cases hv : ref.resolved with
    | none => rfl
    | some v =>
        obtain ⟨w, hw, -⟩ := h.resolved href href' hv
        rw [hres'] at hw
        cases hw
  · rw [Reference.name, huse]; exact hk
  · rw [← Bool.not_eq_true]
    intro hbound
    obtain ⟨j, hj, hbound⟩ := List.any_eq_true.1 hbound
    obtain ⟨c, hc, hbound⟩ := (Option.any_eq_true _ _).1 hbound
    obtain ⟨v, hv⟩ := Option.isSome_iff_exists.1 hbound
    obtain ⟨d, hd, -⟩ := h.twin.scopeAt? hc
    obtain ⟨w, hw⟩ := h.find? hc hd hv
    have hj' : j ∈ t.chain ref'.scope := by rw [h.chain, ← hscope]; exact hj
    have : t.isBoundFrom ref'.scope key = true :=
      List.any_eq_true.2 ⟨j, hj', (Option.any_eq_true _ _).2 ⟨d, hd, by rw [hw]; rfl⟩⟩
    rw [hbound'] at this
    cases this
  · rw [Reference.name, huse]; exact hat

/-- The variable of a global scope that was made for writes is defined by those that arrive. -/
theorem Finished.identifiers {P : Tree → Prop} (h : s.Finished P) (hv : s.IsImplicit i key v) :
    ∃ var, s.variableAt? v = some var ∧ Name.ofTree? var.name = some key ∧
      ∀ n, n ∈ var.identifiers ↔
        ∃ r ∈ s.arrivals i key, ∃ c, s.candidateOf? r = some c ∧ c.pattern = n := by
  obtain ⟨a, ha, hk, hv⟩ := hv
  have hexplained := (h.globals i a ha hk).1 key
  obtain ⟨var, hvar, hdefs⟩ := hexplained.defs v hv
  obtain ⟨-, hname⟩ := h.sound.home ha (hexplained.bound v hv) hvar
  refine ⟨var, hvar, hname, fun n => ?_⟩
  rw [Variable.identifiers, hdefs, List.map_map, List.mem_map]
  constructor
  · rintro ⟨c, hc, hn⟩
    obtain ⟨r, hr, hc⟩ := List.mem_filterMap.1 hc
    exact ⟨r, hr, c, hc, hn⟩
  · rintro ⟨r, hr, c, hc, hn⟩
    exact ⟨c, List.mem_filterMap.2 ⟨r, hr, hc⟩, hn⟩

/-- **A write that makes a variable is reported without barriers, too.** -/
theorem Rivals.written (h : Rivals s t) (ha : s.scopeAt? i = some a) (hb : t.scopeAt? i = some b)
    (hk : a.kind = .global) {issues issues' : List Issue}
    (hs : s.implicitIssues? a = some issues) (ht : t.implicitIssues? b = some issues') :
    ∀ issue ∈ issues, issue ∈ issues' := by
  intro issue hissue
  obtain ⟨v, var, n, hv, hvar, hn, hat⟩ := (mem_implicitIssues? hs).1 hissue
  obtain ⟨⟨key, v'⟩, he, rfl⟩ := List.mem_map.1 hv
  have himp : s.IsImplicit i key v' :=
    ⟨a, ha, hk, Table.find?_of_mem (h.left.globals i a ha hk).2.1 he⟩
  obtain ⟨w, hw⟩ := h.isImplicit himp
  obtain ⟨var₁, hvar₁, hname, hmade⟩ := h.left.identifiers himp
  obtain rfl := Option.some.inj (hvar.symm.trans hvar₁)
  obtain ⟨var', hvar', hname', hmade'⟩ := h.right.identifiers hw
  obtain ⟨r, hr, c, hc, hcn⟩ := (hmade n).1 hn
  have hsame : var'.name = var.name := by
    obtain ⟨ref, href, -, hkey, -⟩ := mem_arrivals_iff.1 hr
    obtain ⟨name, hrefname⟩ := h.left.text href
    obtain rfl := Option.some.inj (hkey.symm.trans (Name.ofTree?_eq_text.2 hrefname))
    rw [Name.ofTree?_eq_text.1 hname, Name.ofTree?_eq_text.1 hname']
  have hc' : t.candidateOf? r = some c := by
    obtain ⟨ref, href, hcand⟩ := Option.bind_eq_some_iff.1 hc
    obtain ⟨ref', href', huse, -⟩ := h.twin.referenceAt? href
    rw [candidateOf?, href', Option.bind_some, huse]
    exact hcand
  obtain ⟨b', hb', -, hw⟩ := hw
  obtain rfl := Option.some.inj (hb.symm.trans hb')
  exact (mem_implicitIssues? ht).2 ⟨w, var', n, List.mem_map.2 ⟨(key, w), Table.mem_of_find? hw, rfl⟩,
    hvar', (hmade' n).2 ⟨r, h.arrivals hr, c, hc', hcn⟩, hsame ▸ hat⟩

/-! ### Refinement -/

/-- What `t` knows is what `s` knows or more: the stores are twins, and `t` has all the variables
that writes made in `s`, resolves what is resolved in `s`, and lets nothing pass that does not pass
in `s`. -/
structure RefinedBy (s t : Store) : Prop extends Twin s t where
  implicit : ∀ i a b, s.scopeAt? i = some a → t.scopeAt? i = some b →
    ∀ key ∈ a.implicit.names, key ∈ b.implicit.names
  resolved : ∀ r ref ref' v, s.referenceAt? r = some ref → t.referenceAt? r = some ref' →
    ref.resolved = some v → ∃ w, ref'.resolved = some w ∧ Outruns s t v w
  through : ∀ i r, r ∈ t.throughAt i → r ∈ s.throughAt i

/-- A refinement in which everything that is resolved stays resolved to the same, and of which the
reports tell: nothing is newly undeclared, and no write is forgotten. -/
structure SafelyRefinedBy (s t : Store) : Prop extends RefinedBy s t where
  same : ∀ r ref ref' v, s.referenceAt? r = some ref → t.referenceAt? r = some ref' →
    ref.resolved = some v → ∃ w, ref'.resolved = some w ∧ SameBinding s t v w
  undeclared : ∀ issues issues', s.issues? true = some issues → t.issues? true = some issues' →
    ∀ issue ∈ issues', issue.finding.isUndeclared = true → issue ∈ issues
  written : ∀ undeclared issues issues', s.issues? undeclared = some issues →
    t.issues? undeclared = some issues' →
    ∀ issue ∈ issues, issue.finding.isImplicitGlobal = true → issue ∈ issues'
  listed : s.Readable → ∀ undeclared,
    (s.issues? undeclared).isSome = true ∧ (t.issues? undeclared).isSome = true

theorem Rivals.refined (h : Rivals s t) : s.RefinedBy t := by
  refine { h.twin with
    implicit := fun i a b ha hb key hkey => ?_
    resolved := fun r ref ref' v href href' hv => h.resolved href href' hv
    through := fun i r hr => h.through hr }
  obtain ⟨v, hv⟩ := Table.mem_names_iff.1 hkey
  have hk : a.kind = .global := by
    by_contra hk
    rw [h.left.bare i a ha hk] at hkey
    cases hkey
  obtain ⟨w, b', hb', -, hw⟩ := h.isImplicit ⟨a, ha, hk, hv⟩
  obtain rfl := Option.some.inj (hb.symm.trans hb')
  exact Table.mem_names_iff.2 ⟨w, hw⟩

/-- What can be read in a store can be read in its twin. -/
theorem Twin.readable (h : Twin s t) (hr : s.Readable) : t.Readable := by
  refine ⟨fun i b hb => ?_, fun r ref' href' => ?_⟩
  · obtain ⟨a, ha, hout⟩ := h.symm.scopeAt? hb
    rw [← show a.block = b.block from congrArg Outline.block hout]
    exact hr.block i a ha
  · obtain ⟨ref, href, huse, -⟩ := h.symm.referenceAt? href'
    have := hr.reference r ref href
    rwa [Reference.name, huse] at this

theorem Rivals.safe (h : Rivals s t) (hs : s.Sole a) (ht : t.Sole b) : s.SafelyRefinedBy t := by
  have hga : s.global.bind s.scopeAt? = some a := by rw [hs.global, Option.bind_some, hs.scope]
  have hgb : t.global.bind t.scopeAt? = some b := by rw [ht.global, Option.bind_some, ht.scope]
  refine { h.refined with
    same := fun r ref ref' v href href' hv => ?_
    undeclared := fun issues issues' hi hi' issue hmem hfind => ?_
    written := fun undeclared issues issues' hi hi' issue hmem hfind => ?_
    listed := fun hr undeclared => ⟨hr.issues? hga (hs.implicitIssues? hr),
      (h.twin.readable hr).issues? hgb (ht.implicitIssues? (h.twin.readable hr))⟩ }
  · obtain ⟨w, hw, x, y, key, hx, hy, hname, -, hup, hsame | ⟨⟨c, hc, hk, -⟩, -⟩⟩ :=
      h.resolved href href' hv
    · exact ⟨w, hw, x, y, hx, hy, hname, hsame⟩
    · -- Above the only global scope there is nothing that a variable of it could outrun.
      have hy0 : y.scope = 0 := ht.only _ c hc hk
      rw [hy0] at hup
      have hx0 : x.scope = 0 := Nat.le_zero.1 (le_of_mem_chain h.left.sound.rooted hup)
      exact ⟨w, hw, x, y, hx, hy, hname, hy0.trans hx0.symm⟩
  · exact (List.mem_filter.1 (h.undeclared hs.scope ht.scope (issues?_undeclared hga hi)
      (issues?_undeclared hgb hi') issue (List.mem_filter.2 ⟨hmem, hfind⟩))).1
  · exact (List.mem_filter.1 (h.written hs.scope ht.scope hs.kind (issues?_implicit hga hi)
      (issues?_implicit hgb hi') issue (List.mem_filter.2 ⟨hmem, hfind⟩))).1

end Store

/-- **Optimism only refines.**  Of a program whose names are texts, an analysis that is optimistic
returns if and only if one that is not does, or else stops with the same error.  What it returns
refines what the other returns; and in a sole program everything that the other resolves stays
resolved to the variable of its name in the same scope. -/
theorem analyze_optimistic {o : Options} {tree p q : Tree} (h : tree.TextNames)
    (hq : q.truthy = true) :
    (∀ e, analyze { o with optimistic := p } tree = .error e ↔
      analyze { o with optimistic := q } tree = .error e) ∧
    ∀ s t, analyze { o with optimistic := p } tree = .ok s →
      analyze { o with optimistic := q } tree = .ok t →
      s.RefinedBy t ∧ (tree.SoleProgram → s.SafelyRefinedBy t) := by
  refine ⟨fun e => ⟨Walk.analyze_error_of_optimistic (o := { o with optimistic := p }) h q,
    Walk.analyze_error_of_optimistic (o := { o with optimistic := q }) h p⟩, fun s t hs ht => ?_⟩
  obtain ⟨t', ht', htwin⟩ := Walk.analyze_twin h q hs
  obtain rfl : t = t' := Except.ok.inj (ht.symm.trans ht')
  have hrivals : s.Rivals t :=
    ⟨Walk.analyze_finished (Tree.hereditary_allObjects _) h hs,
      Walk.analyze_finished (Tree.hereditary_allObjects _) h ht, htwin, ?_⟩
  · refine ⟨hrivals.refined, fun hsole => ?_⟩
    obtain ⟨a, ha⟩ := Walk.analyze_sole hsole hs
    obtain ⟨b, hb⟩ := Walk.analyze_sole hsole ht
    exact hrivals.safe ha hb
  · rw [Walk.analyze_options ht]
    exact hq

/-- `var x; x; with (o) y = 1`. -/
def withProgram : Tree :=
  let name (text : String) : Tree := .obj [("type", .str "Identifier"), ("name", .str text)]
  let state (expression : Tree) : Tree :=
    .obj [("type", .str "ExpressionStatement"), ("expression", expression)]
  .obj [("type", .str "Program"), ("body", .arr [
    .obj [("type", .str "VariableDeclaration"), ("kind", .str "var"), ("declarations", .arr [
      .obj [("type", .str "VariableDeclarator"), ("id", name "x"), ("init", .null)]])],
    state (name "x"),
    .obj [("type", .str "WithStatement"), ("object", name "o"),
      ("body", state (.obj [("type", .str "AssignmentExpression"), ("operator", .str "="),
        ("left", name "y"), ("right", .obj [("type", .str "Literal"), ("value", .int 1)])]))]])]

/-- The first reference of the sample is resolved to the same in both analyses. -/
theorem withProgram_optimistic : withProgram.TextNames ∧ (Tree.bool true).truthy = true ∧
    ∃ s t ref w, analyze { optimistic := .bool false } withProgram = .ok s ∧
      analyze { optimistic := .bool true } withProgram = .ok t ∧
      t.referenceAt? 0 = some ref ∧ ref.resolved = some w ∧ s.SameBinding t 0 w := by
  have htext : withProgram.TextNames := by decide +kernel
  have hsole : withProgram.SoleProgram := by decide
  obtain ⟨hfails, hrefined⟩ := analyze_optimistic (o := {}) (p := .bool false) (q := .bool true)
    htext rfl
  have hrun : (analyze { optimistic := .bool false } withProgram).toOption.map (fun s =>
      (s.referenceAt? 0).map fun ref => ref.resolved) = some (some (some 0)) := by
    decide +kernel
  cases hs : analyze { optimistic := .bool false } withProgram with
  | error e => rw [hs] at hrun; cases hrun
  | ok s =>
      rw [hs] at hrun
      simp only [Except.toOption, Option.map_some, Option.some.injEq,
        Option.map_eq_some_iff] at hrun
      obtain ⟨ref, href, hv⟩ := hrun
      cases ht : analyze { optimistic := .bool true } withProgram with
      | error e =>
          rw [(hfails e).2 ht] at hs
          cases hs
      | ok t =>
          have hsafe := (hrefined s t hs ht).2 hsole
          obtain ⟨ref', href', -⟩ := hsafe.toTwin.referenceAt? href
          obtain ⟨w, hw, hsame⟩ := hsafe.same 0 ref ref' 0 href href' hv
          exact ⟨htext, rfl, s, t, ref', w, rfl, rfl, href', hw, hsame⟩

/-- `var x; { with (o) x = 1; x }`, in which the braces stand for a program of its own. -/
def nestedProgram : Tree :=
  let name (text : String) : Tree := .obj [("type", .str "Identifier"), ("name", .str text)]
  let state (expression : Tree) : Tree :=
    .obj [("type", .str "ExpressionStatement"), ("expression", expression)]
  .obj [("type", .str "Program"), ("body", .arr [
    .obj [("type", .str "VariableDeclaration"), ("kind", .str "var"), ("declarations", .arr [
      .obj [("type", .str "VariableDeclarator"), ("id", name "x"), ("init", .null)]])],
    .obj [("type", .str "Program"), ("body", .arr [
      .obj [("type", .str "WithStatement"), ("object", name "o"),
        ("body", state (.obj [("type", .str "AssignmentExpression"), ("operator", .str "="),
          ("left", name "x"), ("right", .obj [("type", .str "Literal"), ("value", .int 1)])]))],
      state (name "x")])]])]

/-- Without barriers the write in the nested program makes a variable of that program, and the read
after it, which else is a read of the variable outside, is one of the variable that was made. -/
theorem nestedProgram_outrun : nestedProgram.TextNames ∧
    ∃ s t ref ref' v w, analyze { optimistic := .bool false } nestedProgram = .ok s ∧
      analyze { optimistic := .bool true } nestedProgram = .ok t ∧
      s.referenceAt? 2 = some ref ∧ ref.resolved = some v ∧
      t.referenceAt? 2 = some ref' ∧ ref'.resolved = some w ∧ ¬ s.SameBinding t v w := by
  have htext : nestedProgram.TextNames := by decide +kernel
  have hleft : (analyze { optimistic := .bool false } nestedProgram).toOption.map (fun s =>
      ((s.referenceAt? 2).map fun ref => ref.resolved, (s.variableAt? 0).map (·.scope))) =
      some (some (some 0), some 0) := by
    decide +kernel
  have hright : (analyze { optimistic := .bool true } nestedProgram).toOption.map (fun t =>
      ((t.referenceAt? 2).map fun ref => ref.resolved, (t.variableAt? 1).map (·.scope))) =
      some (some (some 1), some 1) := by
    decide +kernel
  cases hs : analyze { optimistic := .bool false } nestedProgram with
  | error e => rw [hs] at hleft; cases hleft
  | ok s =>
      cases ht : analyze { optimistic := .bool true } nestedProgram with
      | error e => rw [ht] at hright; cases hright
      | ok t =>
          rw [hs] at hleft
          rw [ht] at hright
          simp only [Except.toOption, Option.map_some, Option.some.injEq, Prod.mk.injEq,
            Option.map_eq_some_iff] at hleft hright
          obtain ⟨⟨ref, href, hv⟩, x, hx, hxs⟩ := hleft
          obtain ⟨⟨ref', href', hw⟩, y, hy, hys⟩ := hright
          refine ⟨htext, s, t, ref, ref', 0, 1, rfl, rfl, href, hv, href', hw, ?_⟩
          rintro ⟨x', y', hx', hy', -, hsame⟩
          rw [Option.some.inj (hy'.symm.trans hy), Option.some.inj (hx'.symm.trans hx), hxs, hys]
            at hsame
          cases hsame

end LexScope
