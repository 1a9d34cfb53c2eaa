import LexScope.Proofs.Source

/-!
# Proofs — Implicit — what a global scope makes of the writes that reach it

A reference *reaches* a scope when the scope is on its way up and all scopes before it let its name
pass: they are no barriers and do not bind it (`Store.reaches`).  What reaches a scope is what waits
in it when it closes (`Good.mem_pendingAt_iff`).

A global scope looks at the references that wait in it before it settles them: those that carry a
candidate and find no entry become definitions of variables that are made for them
(`Imputed.bindImplicits`).  So the finished store shows what became of every such write
(`Known.explained`):

* the global scope has an implicit variable of a name exactly if nothing else of that name is bound
  in it and a reference with a candidate of that name reaches it;
* the definitions of the variable are those of all such references, in the order in which they were
  made.
-/

namespace LexScope

open Store LexScope.Action

/-! ### The names of a table -/

namespace Table

variable {α : Type} {t : Table α} {key : Name} {a : α}

theorem mem_names_iff : key ∈ t.names ↔ ∃ a, t.find? key = some a := by
  constructor
  · intro h
    induction t with
    | nil => cases h
    | cons e t ih =>
        obtain ⟨k, b⟩ := e
        by_cases hk : k = key
        · exact ⟨b, by rw [find?, if_pos hk]⟩
        · rw [find?, if_neg hk]
          exact ih ((List.mem_cons.1 h).resolve_left (Ne.symm hk))
  · rintro ⟨a, ha⟩
    exact List.mem_map.2 ⟨(key, a), mem_of_find? ha, rfl⟩

theorem nodup_put (h : t.names.Nodup) (key : Name) (a : α) : (t.put key a).names.Nodup := by
  rw [names_put]
  split
  · exact h
  · rename_i hkey
    exact List.nodup_append.2 ⟨h, List.nodup_singleton key, fun k hk _ hl e =>
      hkey (List.mem_singleton.1 hl ▸ e ▸ hk)⟩

/-- Where no name comes twice, every entry is found. -/
theorem find?_of_mem (h : t.names.Nodup) (he : (key, a) ∈ t) : t.find? key = some a := by
  induction t with
  | nil => cases he
  | cons e t ih =>
      obtain ⟨k, b⟩ := e
      obtain ⟨hnot, hrest⟩ := List.nodup_cons.1 h
      rcases List.mem_cons.1 he with heq | he
      · cases heq
        rw [find?, if_pos rfl]
      · rw [find?, if_neg, ih hrest he]
        rintro rfl
        exact hnot (List.mem_map.2 ⟨(k, a), he, rfl⟩)

end Table

/-! ### Which references reach a scope -/

namespace Store

variable {A : ScopeId → Prop} {s t : Store} {i j c : ScopeId} {r : ReferenceId} {key : Name}

/-- Whether a scope lets a name pass: it is no barrier and does not bind it. -/
def admits (s : Store) (key : Name) (i : ScopeId) : Bool :=
  (s.scopeAt? i).any fun a => !a.isBarrier s.options && (a.table.find? key).isNone

/-- Whether a name used in one scope is looked up in another. -/
def reaches (s : Store) (i : ScopeId) (key : Name) (origin : ScopeId) : Bool :=
  decide (i ∈ s.chain origin) && ((s.chain origin).takeWhile (· ≠ i)).all (s.admits key)

/-- Whether a reference has a given name and carries a candidate. -/
def imputes (s : Store) (key : Name) (r : ReferenceId) : Bool :=
  (s.referenceAt? r).any fun ref =>
    ref.candidate.isSome && decide (Name.ofTree? ref.name = some key)

/-- The references of a name that carry a candidate and reach a scope, in the order in which they
were made. -/
def arrivals (s : Store) (i : ScopeId) (key : Name) : List ReferenceId :=
  (List.range s.references.size).filter fun r =>
    s.imputes key r && (s.referenceAt? r).any fun ref => s.reaches i key ref.scope

theorem imputes_iff : s.imputes key r = true ↔ ∃ ref, s.referenceAt? r = some ref ∧
    ref.candidate.isSome = true ∧ Name.ofTree? ref.name = some key := by
  simp [imputes, Option.any_eq_true]

theorem reaches_iff (h : s.Rooted) : s.reaches i key c = true ↔
    ∃ l, s.chain c = l ++ s.chain i ∧ s.Clear (fun _ => True) (some key) l := by
  have hadmits : ∀ j, s.admits key j = true ↔ ∃ a, s.scopeAt? j = some a ∧
      a.isBarrier s.options = false ∧ a.table.find? key = none := by
    intro j
    simp [admits, Option.any_eq_true]
  have hclear : ∀ l, s.Clear (fun _ => True) (some key) l ↔ l.all (s.admits key) = true := by
    intro l
    simp [Clear, hadmits]
  -- The scopes before `i` are those that the way up has before it meets `i`.
  have hbefore : ∀ l, s.chain c = l ++ s.chain i → (s.chain c).takeWhile (· ≠ i) = l := by
    intro l hl
    have hnodup := nodup_chain h c
    rw [hl, chain_cons h] at hnodup ⊢
    have hi : ∀ j ∈ l, decide (j ≠ i) = true := by
      intro j hj
      refine decide_eq_true ?_
      rintro rfl
      exact (List.disjoint_of_nodup_append hnodup) hj List.mem_cons_self
    rw [List.takeWhile_append_of_pos hi, List.takeWhile_cons_of_neg (by simp), List.append_nil]
  rw [reaches, Bool.and_eq_true, decide_eq_true_iff]
  constructor
  · rintro ⟨hi, hall⟩
    obtain ⟨l, hl⟩ := chain_split h hi
    exact ⟨l, hl, (hclear l).2 (hbefore l hl ▸ hall)⟩
  · rintro ⟨l, hl, hc⟩
    refine ⟨hl ▸ List.mem_append_right l (self_mem_chain s i), ?_⟩
    rw [hbefore l hl]
    exact (hclear l).1 hc

theorem mem_arrivals_iff : r ∈ s.arrivals i key ↔
    ∃ ref, s.referenceAt? r = some ref ∧ ref.candidate.isSome = true ∧
      Name.ofTree? ref.name = some key ∧ s.reaches i key ref.scope = true := by
  rw [arrivals, List.mem_filter, List.mem_range, Bool.and_eq_true, imputes_iff]
  constructor
  · rintro ⟨-, ⟨ref, href, hc, hk⟩, hr⟩
    rw [href] at hr
    exact ⟨ref, href, hc, hk, hr⟩
  · rintro ⟨ref, href, hc, hk, hr⟩
    exact ⟨referenceAt?_lt href, ⟨ref, href, hc, hk⟩, by rw [href]; exact hr⟩

theorem pairwise_arrivals (s : Store) (i : ScopeId) (key : Name) :
    (s.arrivals i key).Pairwise (· < ·) :=
  List.Pairwise.filter _ List.pairwise_lt_range

/-- A reference waits in a scope below which it cannot be stopped and above which all is open. -/
theorem Verdict.waits {ref : Reference} {l : List ScopeId}
    (h : s.Verdict s.pendingAt s.IsClosed r ref) (hs : s.Rooted)
    (hopen : ∀ j ∈ s.chain i, s.IsOpen j) (hk : Name.ofTree? ref.name = some key)
    (hway : s.chain ref.scope = l ++ s.chain i) (hpass : s.Clear s.IsClosed (some key) l) :
    r ∈ s.pendingAt i := by
  have hi : i ∈ s.chain ref.scope := hway ▸ List.mem_append_right l (self_mem_chain s i)
  have hio : s.IsOpen i := hopen i (self_mem_chain s i)
  -- A closed scope on the way lies before the open ones.
  have hstop : ∀ {l' j rest a}, s.chain ref.scope = l' ++ j :: rest → s.IsClosed j →
      s.scopeAt? j = some a → a.isBarrier s.options = false ∧ a.table.find? key = none := by
    intro l' j rest a hl' hjc ha
    have hj : j ∈ l ++ s.chain i := hway ▸ hl' ▸ List.mem_append_right l' List.mem_cons_self
    have hjl : j ∈ l := (List.mem_append.1 hj).resolve_right fun hj =>
      (hopen j hj).not_isClosed hjc
    obtain ⟨-, b, k, hb, hbar, hkey, hf⟩ := hpass j hjl
    obtain rfl := Option.some.inj hkey
    obtain rfl : a = b := Option.some.inj (ha.symm.trans hb)
    exact ⟨hbar, hf⟩
  by_contra hnot
  have hnone : ∀ j, r ∉ s.pendingAt j := by
    intro j hrj
    obtain ⟨l', hl', hclear⟩ := h.pending j hrj
    have hj : j ∈ s.chain ref.scope := hl' ▸ List.mem_append_right l' (self_mem_chain s j)
    have hji : j ∈ s.chain i := (List.mem_append.1 (hway ▸ hj)).resolve_left fun hj =>
      (isOpen_of_pendingAt hrj).not_isClosed (hpass j hj).1
    have hij : i ∈ s.chain j := (List.mem_append.1 (hl' ▸ hi)).resolve_left fun hi =>
      hio.not_isClosed (hclear i hi).1
    exact hnot (mem_chain_antisymm hs hij hji ▸ hrj)
  cases hres : ref.resolved with
  | some v =>
      obtain ⟨l', j, rest, a, k, hl', -, hjc, ha, -, hkey, hf⟩ := h.resolved v hres
      obtain rfl := Option.some.inj (hk.symm.trans hkey)
      rw [(hstop hl' hjc ha).2] at hf
      cases hf
  | none =>
      rcases h.escaped hres hnone with hclear | ⟨l', j, rest, a, hl', -, hjc, ha, hbar⟩
      · exact hio.not_isClosed (hclear i hi).1
      · rw [(hstop hl' hjc ha).1] at hbar
        cases hbar

end Store

namespace Walk

variable {m m₁ m₂ m' : Moment} {ops : List Operation} {i : ScopeId} {r : ReferenceId}
  {ref : Reference} {key : Name}

/-- Scopes that are closed let the same names pass later on. -/
theorem Moment.Good.clear (h : m.Good) (hs : Steps m ops m') {name : Option Name}
    {l : List ScopeId} (hl : ∀ j ∈ l, m.store.IsClosed j) :
    m'.store.Clear (fun _ => True) name l ↔ m.store.Clear m.store.IsClosed name l := by
  have hopt := (h.evolves hs).options
  constructor
  · intro hc j hj
    obtain ⟨-, a, key, ha, hb, hrest⟩ := hc j hj
    exact ⟨hl j hj, a, key, (h.frozen hs (hl j hj)).scope.symm.trans ha, hopt ▸ hb, hrest⟩
  · intro hc j hj
    obtain ⟨-, a, key, ha, hb, hrest⟩ := hc j hj
    exact ⟨trivial, a, key, (h.frozen hs (hl j hj)).scope.trans ha, hopt.symm ▸ hb, hrest⟩

/-- **What waits in a scope when it closes** are the references that reach it in the finished
store. -/
theorem Moment.Good.mem_pendingAt_iff (h : m₁.Good)
    (hj : m₁.store.Judged m₁.store.pendingAt m₁.store.IsClosed)
    (hc : Step m₁ (some (.close i)) m₂) (hs : Steps m₂ ops m')
    (href : m'.store.referenceAt? r = some ref) (hk : Name.ofTree? ref.name = some key) :
    r ∈ m₁.store.pendingAt i ↔ m'.store.reaches i key ref.scope = true := by
  have hall : Steps m₁ ((some (Operation.close i)).toList ++ ops) m' := .more hc hs
  have hd : m₁.store.Disciplined (some i) := by
    rw [← show m₁.current = some i from h.orderly hc.attempts]
    exact h.disciplined
  have hopen : m₁.store.IsOpen i := hd.open_of_mem (self_mem_chain _ i)
  have hE := h.evolves hall
  have hsound' := (h.steps hall).disciplined.sound
  have hchain : ∀ {j}, j < m₁.store.scopes.size → m'.store.chain j = m₁.store.chain j :=
    hE.chain hd.sound hsound'
  rw [reaches_iff hsound'.rooted]
  constructor
  · intro hr
    obtain ⟨ref₁, href₁, -⟩ := hd.books.waiting hr
    obtain ⟨ref', href', huse, hsc⟩ := hE.reference r ref₁ href₁
    obtain rfl : ref = ref' := Option.some.inj (href.symm.trans href')
    obtain ⟨l, hl, hclear⟩ := (hj r ref₁ href₁).pending i hr
    have hname : Name.ofTree? ref₁.name = some key := by
      rw [Reference.name, ← huse]
      exact hk
    rw [hname] at hclear
    refine ⟨l, ?_, (h.clear hall fun j hj => (hclear j hj).1).2 hclear⟩
    rw [hsc, hchain (hd.books.home r ref₁ href₁), hchain hopen.lt, hl]
  · rintro ⟨l, hl, hclear⟩
    -- The reference was there already, for it could not be made below the scope later.
    have hmade : ∃ ref₁, m₁.store.referenceAt? r = some ref₁ := by
      cases hr : m₁.store.referenceAt? r with
      | some ref₁ => exact ⟨ref₁, rfl⟩
      | none =>
          obtain ⟨⟨out, hop⟩, -⟩ := h.step_operation hc
          obtain ⟨up, -, hclose⟩ := Operation.applyTo_close_ok.1 hop
          have hi : i ∈ m'.store.chain ref.scope := hl ▸ List.mem_append_right l (self_mem_chain _ i)
          exact absurd ((h.isClosed_iff hc i).2 (.inr rfl))
            ((h.step hc).made_outside hs (close_referenceAt?_none hclose hr) href i hi)
    obtain ⟨ref₁, href₁⟩ := hmade
    obtain ⟨ref', href', huse, hsc⟩ := hE.reference r ref₁ href₁
    obtain rfl : ref = ref' := Option.some.inj (href.symm.trans href')
    have hway : m₁.store.chain ref₁.scope = l ++ m₁.store.chain i := by
      rw [← hchain (hd.books.home r ref₁ href₁), ← hchain hopen.lt, ← hsc, hl]
    have hname : Name.ofTree? ref₁.name = some key := by
      rw [Reference.name, ← huse]
      exact hk
    -- The scopes before the current one are not on the open line.
    have hclosed : ∀ j ∈ l, m₁.store.IsClosed j := by
      intro j hj
      obtain ⟨a, ha⟩ := scopeAt?_of_lt ((le_of_mem_chain hd.sound.rooted
        (hway ▸ List.mem_append_left _ hj)).trans_lt (hd.books.home r ref₁ href₁))
      refine ⟨a, ha, eq_true_of_ne_false fun ho => ?_⟩
      have hdisjoint := (List.nodup_append.1 (hway ▸ nodup_chain hd.sound.rooted ref₁.scope)).2.2
      exact hdisjoint j hj j ((hd.isOpen j).1 ⟨a, ha, ho⟩) rfl
    exact (hj r ref₁ href₁).waits hd.sound.rooted (fun j => hd.open_of_mem) hname hway
      ((h.clear hall hclosed).1 hclear)

end Walk

/-! ### Making the variables -/

/-- The definition that a candidate stands for. -/
def Candidate.definition (c : Candidate) : Definition :=
  { kind := .variable, name := c.pattern, node := c.node }

/-- The name of a candidate. -/
def Candidate.key? (c : Candidate) : Option Name := Name.ofTree? (c.pattern.value.get "name")

/-- The candidates of a name. -/
def Candidate.named (cs : List Candidate) (key : Name) : List Candidate :=
  cs.filter fun c => decide (c.key? = some key)

theorem Candidate.named_append (cs ds : List Candidate) (key : Name) :
    Candidate.named (cs ++ ds) key = Candidate.named cs key ++ Candidate.named ds key :=
  List.filter_append ..

namespace Store

variable {s s' : Store} {i : ScopeId} {r : ReferenceId} {key : Name} {base : Table VariableId}
  {cs : List Candidate} {c : Candidate}

/-- A candidate is the identifier of its own reference. -/
def OwnCandidates (s : Store) : Prop :=
  ∀ r ref c, s.referenceAt? r = some ref → ref.candidate = some c → c.pattern = ref.identifier

theorem Sourced.own {P : Tree → Prop} (h : s.Sourced P) : s.OwnCandidates :=
  fun r ref c href hc => ((h.reference r ref href).2.2 c hc).1

/-- The candidate of a reference. -/
def candidateOf? (s : Store) (r : ReferenceId) : Option Candidate :=
  (s.referenceAt? r).bind (·.candidate)

/-- What a global scope is after variables were made for some candidates: its table has what it
had at first, and the variables of their names. -/
structure Imputed (s : Store) (i : ScopeId) (base : Table VariableId) (cs : List Candidate)
    (a : Scope) : Prop where
  scope : s.scopeAt? i = some a
  kept : ∀ key v, base.find? key = some v →
    a.table.find? key = some v ∧ a.implicit.find? key = none
  table : ∀ key, base.find? key = none → a.table.find? key = a.implicit.find? key
  made : ∀ key, base.find? key = none →
    (a.implicit.find? key = none ↔ Candidate.named cs key = [])
  defs : ∀ key v, a.implicit.find? key = some v → ∃ var, s.variableAt? v = some var ∧
    var.defs = (Candidate.named cs key).map Candidate.definition
  names : a.implicit.names.Nodup

theorem Imputed.start {a : Scope} (ha : s.scopeAt? i = some a) (hi : a.implicit = []) :
    s.Imputed i a.table [] a := by
  refine ⟨ha, fun key v hv => ⟨hv, ?_⟩, fun key hk => ?_, fun key _ => ?_, fun key v hv => ?_, ?_⟩
  · rw [hi]; rfl
  · rw [hk, hi]; rfl
  · rw [hi]; exact ⟨fun _ => rfl, fun _ => rfl⟩
  · rw [hi] at hv; cases hv
  · rw [hi]; exact List.nodup_nil

/-- The definition of a candidate is added to the variable of its name, which is new if there is
none, and no other implicit variable changes. -/
theorem Imputed.define {a : Scope} {t : Store} {v : VariableId} (h : s.Imputed i base cs a)
    (hs : s.Sound) (hc : c.key? = some key) (hk : base.find? key = none)
    (hd : (Action.define i c.pattern c.definition).outcome s = (.ok (some v), t)) :
    ∃ b, t.scopeAt? i = some b ∧
      (∀ k, b.table.find? k = if key = k then some v else a.table.find? k) ∧
      b.implicit = a.implicit ∧
      (∃ var, t.variableAt? v = some var ∧
        var.defs = (Candidate.named cs key).map Candidate.definition ++ [c.definition]) ∧
      ∀ k w, key ≠ k → a.implicit.find? k = some w → t.variableAt? w = s.variableAt? w := by
  obtain ⟨-, hv, -⟩ | ⟨-, key', b, hkey, hb, hd⟩ := define_ok_iff.1 hd
  · cases hv
  · obtain rfl : key' = key := Option.some.inj (hkey.symm.trans hc)
    obtain rfl : a = b := Option.some.inj (h.scope.symm.trans hb)
    rcases hd with ⟨w, hf, hv, rfl⟩ | ⟨hf, hv, rfl⟩
    · obtain rfl := Option.some.inj hv
      obtain ⟨var, hvar, hdefs⟩ := h.defs key' v ((h.table key' hk).symm.trans hf)
      refine ⟨a, hb, fun k => ?_, rfl, ⟨{ var with defs := var.defs ++ [c.definition] }, ?_, ?_⟩,
        fun k w hne hw => ?_⟩
      · by_cases hne : key' = k
        · rw [if_pos hne, ← hne, hf]
        · rw [if_neg hne]
      · simp [hvar]
      · rw [hdefs]
      · -- A variable stands in the table under its own name only.
        rw [variableAt?_addDefinition, if_neg]
        rintro rfl
        have hbase : base.find? k = none := by
          cases hbk : base.find? k with
          | none => rfl
          | some x => rw [(h.kept k x hbk).2] at hw; cases hw
        exact hne (hs.entry_unique hb (Table.mem_of_find? hf) hb
          (Table.mem_of_find? ((h.table k hbase).trans hw))).2
    · obtain rfl := Option.some.inj hv
      have hnone : Candidate.named cs key' = [] :=
        (h.made key' hk).1 ((h.table key' hk).symm.trans hf)
      refine ⟨a.bind key' s.vars.size, by simp [hb], fun k => ?_, rfl,
        ⟨_, by rw [variableAt?_bindNew, if_pos rfl], ?_⟩, fun k w _ hw => ?_⟩
      · rw [Scope.bind, Table.find?_put]
      · rw [hnone]; rfl
      · obtain ⟨x, hx, -⟩ := h.defs k w hw
        rw [variableAt?_bindNew, if_neg (variableAt?_lt hx).ne]

/-- One more variable is made, or one more definition added to a variable that was made. -/
theorem Imputed.makeImplicit {a : Scope} (h : s.Imputed i base cs a) (hs : s.Sound)
    (hc : c.key? = some key) (hk : base.find? key = none)
    (hm : (Action.makeImplicit i c).outcome s = (.ok (), s')) :
    ∃ b, s'.Imputed i base (cs ++ [c]) b := by
  obtain ⟨v, t, key', hd, hk', rfl⟩ := makeImplicit_ok_iff.1 hm
  obtain rfl : key' = key := Option.some.inj (hk'.symm.trans hc)
  obtain ⟨b, hb, htable, himplicit, ⟨var, hvar, hdefs⟩, hother⟩ := h.define hs hc hk hd
  refine ⟨b.bindImplicit key' v, by simp [hb], fun k w hw => ?_, fun k hw => ?_, fun k hw => ?_,
    fun k w hw => ?_, Table.nodup_put (himplicit ▸ h.names) key' v⟩
  · have hne : key' ≠ k := by
      rintro rfl
      rw [hk] at hw
      cases hw
    refine ⟨by simp [Scope.bindImplicit, htable, hne, (h.kept k w hw).1], ?_⟩
    simp [Scope.bindImplicit, hne, himplicit, (h.kept k w hw).2]
  · simp only [Scope.bindImplicit, htable, Table.find?_put, himplicit, h.table k hw]
  · simp only [Scope.bindImplicit, Table.find?_put, himplicit, Candidate.named_append]
    by_cases hne : key' = k
    · subst hne
      simp [Candidate.named, hc]
    · simp [hne, h.made k hw, Candidate.named, hc]
  · simp only [Scope.bindImplicit, Table.find?_put, himplicit] at hw
    by_cases hne : key' = k
    · subst hne
      rw [if_pos rfl, Option.some.injEq] at hw
      subst hw
      refine ⟨var, hvar, ?_⟩
      rw [hdefs, Candidate.named_append, List.map_append]
      simp [Candidate.named, hc]
    · rw [if_neg hne] at hw
      obtain ⟨var', hvar', hdefs'⟩ := h.defs k w hw
      refine ⟨var', (hother k w hne hw).trans hvar', ?_⟩
      rw [hdefs', Candidate.named_append]
      simp [Candidate.named, hc, hne]

/-- The candidate of a reference has the name of the reference. -/
theorem OwnCandidates.key?_eq {ref : Reference} (h : s.OwnCandidates)
    (href : s.referenceAt? r = some ref) (hc : ref.candidate = some c) :
    c.key? = Name.ofTree? ref.name := by
  rw [Candidate.key?, h r ref c href hc]
  rfl

/-- The candidates that find no entry, name by name. -/
theorem OwnCandidates.openCandidates {pending : List ReferenceId} (h : s.OwnCandidates)
    (ho : (Action.openCandidates base pending).outcome s = (.ok cs, s')) :
    (∀ c ∈ cs, ∃ key, c.key? = some key ∧ base.find? key = none) ∧
      ∀ key, base.find? key = none →
        Candidate.named cs key = (pending.filter (s.imputes key)).filterMap s.candidateOf? := by
  induction pending generalizing cs with
  | nil =>
      obtain ⟨rfl, -⟩ := pure_ok_iff.1 ho
      exact ⟨nofun, fun _ _ => rfl⟩
  | cons r pending ih =>
      obtain ⟨ref, href, ⟨hnone, hrest⟩ | ⟨c, k, others, hc, hk, hrest, rfl⟩⟩ :=
        openCandidates_cons_ok_iff.1 ho
      · obtain ⟨hmem, hnamed⟩ := ih hrest
        refine ⟨hmem, fun key hkey => ?_⟩
        rw [hnamed key hkey, List.filter_cons_of_neg]
        simp [imputes, href, hnone]
      · obtain ⟨hmem, hnamed⟩ := ih hrest
        have hck : c.key? = some k := (h.key?_eq href hc).trans hk
        have himputes : ∀ key, s.imputes key r = decide (k = key) := by
          intro key
          simp [imputes, href, hc, hk]
        cases hf : base.find? k with
        | some v =>
            refine ⟨by simpa using hmem, fun key hkey => ?_⟩
            have hne : k ≠ key := by
              rintro rfl
              rw [hkey] at hf
              cases hf
            rw [List.filter_cons_of_neg (by simp [himputes, hne]), ← hnamed key hkey]
            rfl
        | none =>
            refine ⟨?_, fun key hkey => ?_⟩
            · intro d hd
              rcases List.mem_cons.1 hd with rfl | hd
              · exact ⟨k, hck, hf⟩
              · exact hmem d hd
            · show Candidate.named (c :: others) key = _
              by_cases hne : k = key
              · rw [List.filter_cons_of_pos (by simp [himputes, hne]), List.filterMap_cons,
                  ← hnamed key hkey]
                simp [candidateOf?, href, hc, Candidate.named, hck, hne]
              · rw [List.filter_cons_of_neg (by simp [himputes, hne]), ← hnamed key hkey]
                simp [Candidate.named, hck, hne]

/-- **What a global scope makes of what waits in it**: of each name it does not bind, the candidates
that wait in it, in order. -/
theorem Imputed.bindImplicits {a : Scope} {pending : List ReferenceId}
    (hs : s.Sound) (hP : s.OwnCandidates) (ha : s.scopeAt? i = some a) (hk : a.kind = .global)
    (hi : a.implicit = []) (h : (Action.bindImplicits i a pending).outcome s = (.ok (), s')) :
    ∃ cs b, s'.Imputed i a.table cs b ∧ ∀ key, a.table.find? key = none →
      Candidate.named cs key = (pending.filter (s.imputes key)).filterMap s.candidateOf? := by
  rw [Action.bindImplicits, if_pos hk] at h
  obtain ⟨cs, t, ho, hm⟩ := bind_ok_iff.1 h
  obtain rfl : t = s := openCandidates_ok ho
  obtain ⟨hopen, hnamed⟩ := hP.openCandidates ho
  obtain ⟨-, b, hb⟩ := forM_ok_done
    (P := fun done u => u.Sound ∧ ∃ b, u.Imputed i a.table done b) hm ⟨hs, a, .start ha hi⟩
    fun done c rest u u' hcs hinv hmake => by
      obtain ⟨hu, b, hdone⟩ := hinv
      obtain ⟨key, hck, hf⟩ := hopen c (hcs ▸ List.mem_append_right _ List.mem_cons_self)
      exact ⟨(makeImplicit_quiets hu hmake).changes.sound hu, hdone.makeImplicit hu hck hf hmake⟩
  exact ⟨cs, b, hb, hnamed⟩

end Store

/-! ### What settling leaves alone -/

namespace Store

variable {A : ScopeId → Prop} {s t u : Store} {i j : ScopeId}

/-- The variables made for writes, in a scope. -/
def implicitAt (s : Store) (i : ScopeId) : Table VariableId :=
  ((s.scopeAt? i).map (·.implicit)).getD []

theorem implicitAt_eq {a : Scope} (h : s.scopeAt? i = some a) : s.implicitAt i = a.implicit := by
  rw [implicitAt, h]; rfl

theorem implicitAt_updateScope {f : Scope → Scope} (hf : ∀ a, (f a).implicit = a.implicit) :
    (s.updateScope i f).implicitAt j = s.implicitAt j := by
  simp only [implicitAt, scopeAt?_updateScope]
  by_cases h : i = j <;> cases s.scopeAt? j <;> simp [h, hf]

theorem implicitAt_updateScopes {l : List ScopeId} {f : Scope → Scope}
    (hf : ∀ a, (f a).implicit = a.implicit) :
    (s.updateScopes l f).implicitAt j = s.implicitAt j := by
  induction l generalizing s with
  | nil => rfl
  | cons k l ih => exact ih.trans (implicitAt_updateScope hf)

theorem implicitAt_noteEval (i j : ScopeId) : (s.noteEval i).implicitAt j = s.implicitAt j :=
  (implicitAt_updateScopes (f := fun a => { a with dynamic := true }) fun _ => rfl).trans
    (implicitAt_updateScope (f := fun a => { a with callsEval := true }) fun _ => rfl)

theorem implicitAt_noteThis (i j : ScopeId) : (s.noteThis i).implicitAt j = s.implicitAt j :=
  implicitAt_updateScope (f := fun a => { a with usesThis := true }) fun _ => rfl

/-- Tables and definitions stay what they are. -/
structure Retained (s t : Store) : Prop where
  table : ∀ j, (t.scopeAt? j).map (·.table) = (s.scopeAt? j).map (·.table)
  implicit : ∀ j, t.implicitAt j = s.implicitAt j
  var : ∀ v, (t.variableAt? v).map (fun x => (x.name, x.defs)) =
    (s.variableAt? v).map fun x => (x.name, x.defs)

theorem Retained.refl (s : Store) : Retained s s := ⟨fun _ => rfl, fun _ => rfl, fun _ => rfl⟩

theorem Retained.trans (h : Retained s t) (k : Retained t u) : Retained s u :=
  ⟨fun j => (k.table j).trans (h.table j), fun j => (k.implicit j).trans (h.implicit j),
    fun v => (k.var v).trans (h.var v)⟩

theorem retained_updateScope {f : Scope → Scope} (ht : ∀ a, (f a).table = a.table)
    (hi : ∀ a, (f a).implicit = a.implicit) : Retained s (s.updateScope i f) := by
  refine ⟨fun j => ?_, fun j => implicitAt_updateScope hi, fun _ => rfl⟩
  rw [scopeAt?_updateScope]
  by_cases h : i = j <;> cases s.scopeAt? j <;> simp [h, ht]

theorem retained_record (entry : LogRecord) : Retained s (s.record entry) :=
  ⟨fun _ => rfl, fun _ => rfl, fun _ => rfl⟩

theorem retained_passAll (l : List ScopeId) (r : ReferenceId) :
    Retained s (s.updateScopes l (·.pass r)) := by
  induction l generalizing s with
  | nil => exact .refl s
  | cons k l ih =>
      exact (retained_updateScope (f := (·.pass r)) (fun _ => rfl) fun _ => rfl).trans ih

theorem Imputed.retained {base : Table VariableId} {cs : List Candidate} {a : Scope}
    (h : s.Imputed i base cs a) (k : Retained s t) : ∃ b, t.Imputed i base cs b := by
  have htable := k.table i
  rw [h.scope] at htable
  obtain ⟨b, hb, hbt⟩ := Option.map_eq_some_iff.1 htable
  have himplicit : b.implicit = a.implicit := by
    rw [← implicitAt_eq hb, k.implicit, implicitAt_eq h.scope]
  refine ⟨b, hb, fun key v hv => ?_, fun key hk => ?_, fun key hk => ?_, fun key v hv => ?_,
    himplicit ▸ h.names⟩
  · rw [hbt, himplicit]
    exact h.kept key v hv
  · rw [hbt, himplicit]
    exact h.table key hk
  · rw [himplicit]
    exact h.made key hk
  · rw [himplicit] at hv
    obtain ⟨var, hvar, hdefs⟩ := h.defs key v hv
    have hvar' := k.var v
    rw [hvar] at hvar'
    obtain ⟨var', hvar', heq⟩ := Option.map_eq_some_iff.1 hvar'
    exact ⟨var', hvar', (Prod.mk.inj heq).2.trans hdefs⟩

end Store

namespace Action

variable {s s' : Store} {i j : ScopeId}

theorem settle_retained {r : ReferenceId} (h : (settle i r).outcome s = (.ok (), s')) :
    Retained s s' := by
  obtain ⟨ref, key, a, -, -, -, ⟨v, -, rfl⟩ | ⟨-, hup⟩⟩ := settle_ok_iff.1 h
  · refine ⟨fun _ => rfl, fun _ => rfl, fun w => ?_⟩
    rw [variableAt?_link]
    by_cases hw : v = w <;> cases s.variableAt? w <;> simp [hw]
  · obtain ⟨a, -, ⟨-, rfl⟩ | ⟨w, above, -, -, -, rfl⟩⟩ := handUp_ok_iff.1 hup
    · exact retained_updateScope (f := (·.pass r)) (fun _ => rfl) fun _ => rfl
    · exact (retained_updateScope (f := (·.receive r)) (fun _ => rfl) fun _ => rfl).trans
        (retained_updateScope (f := (·.pass r)) (fun _ => rfl) fun _ => rfl)

theorem settleAll_retained {settled : Bool} {pending : List ReferenceId}
    (h : (settleAll i settled pending).outcome s = (.ok (), s')) : Retained s s' := by
  refine settleAll_induction (P := fun _ t => Retained s t) h (.refl s) ?_ ?_
  · intro r _ t t' ih hr
    exact ih.trans (settle_retained hr)
  · intro r _ t ih
    exact ih.trans (retained_passAll _ r)

/-- What a close adds to tables is added by making implicit globals. -/
theorem close_retained {up : Option ScopeId} (hs : s.Sound)
    (h : (close i).outcome s = (.ok up, s')) :
    ∃ a t b, s.scopeAt? i = some a ∧ a.isClosed = false ∧
      (bindImplicits i a (s.pendingAt i)).outcome s = (.ok (), t) ∧ Retained t s' ∧
      s'.scopeAt? i = some b ∧ b.isClosed = true ∧ b.kind = a.kind ∧
      (b.kind = .global → b.implicitLeft = b.through) := by
  have hE := (close_changes hs h).evolves hs
  obtain ⟨a, pending, t, u, last, ha, hp, himp, hset, hl, -, -, rfl⟩ := close_ok_iff.1 h
  have hpend : s.pendingAt i = pending := pendingAt_of_pending ha hp
  have hlast : ((u.updateScope i (·.shut)).record (closedEntry last)).scopeAt? i =
      some last.shut := by
    simp [hl]
  obtain ⟨b, hb, hev, -⟩ := hE.scope i a ha
  obtain rfl : b = last.shut := Option.some.inj (hb.symm.trans hlast)
  refine ⟨a, t, last.shut, ha, by simp [Scope.isClosed, hp], hpend ▸ himp, ?_, hlast, rfl,
    Scope.kind_of_frame hev.frame, fun hk => ?_⟩
  · exact ((settleAll_retained hset).trans
      (retained_updateScope (f := (·.shut)) (fun _ => rfl) fun _ => rfl)).trans (retained_record _)
  · have hkind : last.kind = .global := hk
    simp [Scope.shut, hkind]

end Action

/-! ### Only a closed global scope has implicit variables -/

namespace Store

variable {A : ScopeId → Prop} {s t : Store} {i : ScopeId}

/-- Variables are made for writes in closed global scopes only. -/
def Bare (s : Store) : Prop := ∀ i, s.implicitAt i = [] ∨
  ∃ a, s.scopeAt? i = some a ∧ a.isClosed = true ∧ a.kind = .global

theorem Bare.evolves (h : s.Bare) (hE : Evolves A s t) (hi : t.implicitAt i = s.implicitAt i) :
    t.implicitAt i = [] ∨ ∃ a, t.scopeAt? i = some a ∧ a.isClosed = true ∧ a.kind = .global := by
  rw [hi]
  rcases h i with h | ⟨a, ha, hc, hk⟩
  · exact .inl h
  · obtain ⟨b, hb, hev, -⟩ := hE.scope i a ha
    exact .inr ⟨b, hb, hev.closed hc, (Scope.kind_of_frame hev.frame).trans hk⟩

theorem implicitAt_addScope (kind : ScopeKind) (n : Node) {upper : Option ScopeId} (strict : Bool)
    (hu : ∀ u, upper = some u → u < s.scopes.size) (j : ScopeId) :
    (s.addScope kind n upper strict).implicitAt j = s.implicitAt j := by
  rw [implicitAt, implicitAt, scopeAt?_addScope s kind n upper strict hu]
  by_cases hj : j = s.scopes.size
  · rw [if_pos hj, hj, scopeAt?_eq_none.2 le_rfl]
    rfl
  · cases s.scopeAt? j <;> by_cases hu : upper = some j <;> simp [hj, hu, Scope.adopt]

theorem implicitAt_bindNew (key : Name) (var : Variable) (j : ScopeId) :
    (s.bindNew i key var).implicitAt j = s.implicitAt j :=
  implicitAt_updateScope fun _ => rfl

end Store

namespace Action

variable {s s' : Store} {i : ScopeId} {n : Node}

theorem define_implicitAt {d : Definition} {w : Option VariableId}
    (h : (define i n d).outcome s = (.ok w, s')) (j : ScopeId) :
    s'.implicitAt j = s.implicitAt j := by
  obtain ⟨-, -, rfl⟩ | ⟨-, key, a, -, -, ⟨v, -, -, rfl⟩ | ⟨-, -, rfl⟩⟩ := define_ok_iff.1 h
  · rfl
  · rfl
  · exact implicitAt_bindNew key _ j

theorem enter_implicitAt {kind : ScopeKind} {upper : Option ScopeId}
    (h : (enter kind n upper).outcome s = (.ok i, s')) (j : ScopeId) :
    s'.implicitAt j = s.implicitAt j := by
  obtain ⟨t, ho, hp⟩ := enter_ok_iff.1 h
  obtain ⟨above, strict, ha, -, -, -, rfl⟩ := openScope_ok_iff.1 ho
  have ht := implicitAt_addScope kind n strict (upper_lt_of_strictAt? ha) j
  obtain rfl | ⟨v, hv⟩ | ⟨w, hw⟩ := provide_ok hp
  · exact ht
  · rw [(bindNew_ok_iff.1 hv).2]
    exact (implicitAt_bindNew _ _ j).trans ht
  · exact (define_implicitAt hw j).trans ht

end Action

/-- An orderly operation other than closing makes no variable for a write. -/
theorem Operation.Orderly.implicitAt {s t : Store} {current : Option ScopeId} {op : Operation}
    {out : Outcome} (ho : op.Orderly s current) (hop : op.applyTo s = (.ok out, t))
    (hne : ∀ i, op ≠ .close i) (j : ScopeId) : t.implicitAt j = s.implicitAt j := by
  have happly : op.apply.outcome s = (.ok out, t) := hop
  cases op with
  | enter kind n upper =>
      obtain ⟨i, -, he⟩ := bind_pure_ok_iff.1 happly
      exact enter_implicitAt he j
  | define i n d =>
      obtain ⟨w, -, hd⟩ := bind_pure_ok_iff.1 happly
      exact define_implicitAt hd j
  | refer i u =>
      obtain ⟨w, -, hr⟩ := bind_pure_ok_iff.1 happly
      obtain ⟨-, -, rfl⟩ | ⟨-, -, rfl, -⟩ := refer_ok_iff.1 hr
      · rfl
      · exact implicitAt_updateScope fun _ => rfl
  | noteEval i =>
      obtain ⟨w, -, hn⟩ := bind_pure_ok_iff.1 happly
      rw [(noteEval_ok_iff.1 hn).2]
      exact implicitAt_noteEval i j
  | noteThis i =>
      obtain ⟨w, -, hn⟩ := bind_pure_ok_iff.1 happly
      rw [(noteThis_ok_iff.1 hn).2]
      exact implicitAt_noteThis i j
  | close i => exact absurd rfl (hne i)
  | nest _ _ _ => exact ho.elim
  | defineArguments _ => exact ho.elim
  | visit _ _ => exact ho.elim

theorem Store.Bare.close {s s' : Store} {i : ScopeId} {up : Option ScopeId} (h : s.Bare)
    (hs : s.Sound) (hc : (close i).outcome s = (.ok up, s')) : s'.Bare := by
  have hE := (close_changes hs hc).evolves hs
  obtain ⟨a, t, b, ha, ho, himp, hret, hb, hbc, hkind, -⟩ := close_retained hs hc
  intro j
  by_cases hglobal : a.kind = .global ∧ j = i
  · obtain ⟨hk, rfl⟩ := hglobal
    exact .inr ⟨b, hb, hbc, hkind.trans hk⟩
  · -- Nothing is made elsewhere, and nothing in a scope of another kind.
    have hj : s'.implicitAt j = s.implicitAt j := by
      rw [hret.implicit]
      by_cases hk : a.kind = .global
      · have hij : i ≠ j := fun e => hglobal ⟨hk, e.symm⟩
        refine bindImplicits_induction (P := fun v => v.implicitAt j = s.implicitAt j) himp rfl ?_
        intro c v v' hv hm
        obtain ⟨w, x, key, hd, -, rfl⟩ := makeImplicit_ok_iff.1 hm
        rw [Store.implicitAt, scopeAt?_updateScope, if_neg hij, ← Store.implicitAt,
          define_implicitAt hd, hv]
      · rw [bindImplicits, if_neg hk] at himp
        rw [(pure_ok_iff.1 himp).2]
    exact h.evolves hE hj

/-! ### Names stand once -/

namespace Store

variable {A : ScopeId → Prop} {s t : Store} {i : ScopeId}

/-- No name of a table stands twice in it. -/
def Distinct (s : Store) : Prop := ∀ i a, s.scopeAt? i = some a → a.table.names.Nodup

theorem Distinct.updateScope (h : s.Distinct) (i : ScopeId) {f : Scope → Scope}
    (hf : ∀ a, a.table.names.Nodup → (f a).table.names.Nodup) : (s.updateScope i f).Distinct := by
  intro j b hb
  obtain ⟨-, a, ha, rfl⟩ | ⟨-, hb⟩ := scopeAt?_updateScope_cases hb
  · exact hf a (h j a ha)
  · exact h j b hb

theorem Distinct.quiet (h : s.Distinct) (hq : Quiet A s t) : t.Distinct := by
  cases hq with
  | record entry => exact h
  | @addScope kind n upper strict hu =>
      intro j b hb
      obtain ⟨-, rfl⟩ | ⟨a, l, ha, rfl⟩ := scopeAt?_addScope_cases (fun u h => (hu u h).2) hb
      · exact List.nodup_nil
      · exact h j a ha
  | bindNew _ _ _ _ _ _ => exact Distinct.updateScope h _ fun a ha => Table.nodup_put ha _ _
  | addDefinition _ _ _ _ => exact h
  | reflag _ hf => exact h.updateScope _ fun a ha => (hf a).table ▸ ha
  | bindImplicit _ _ _ => exact h.updateScope _ fun a ha => ha

theorem Distinct.change (h : s.Distinct) (hc : Change A s t) : t.Distinct := by
  cases hc with
  | quiet hq => exact h.quiet hq
  | addReference u _ => exact Distinct.updateScope h _ fun a ha => ha
  | link r origin _ _ _ => exact h
  | receive r _ => exact h.updateScope _ fun a ha => ha
  | pass r _ => exact h.updateScope _ fun a ha => ha
  | shut _ => exact h.updateScope _ fun a ha => ha

theorem Distinct.changes (h : s.Distinct) (hc : Changes A s t) : t.Distinct := by
  induction hc with
  | refl => exact h
  | tail _ hc ih => exact ih.change hc

end Store

namespace Walk

variable {m m₁ m₂ m' : Moment} {op : Option Operation} {ops : List Operation} {i : ScopeId}
  {a : Scope} {key : Name} {s : Store} {o : Options} {tree : Tree}

theorem Moment.Good.bare_step (h : m.Good) (hb : m.store.Bare) (hs : Step m op m') :
    m'.store.Bare := by
  have hE := (h.changes hs).evolves h.disciplined.sound
  obtain ⟨o, out, -, ho, hop, -⟩ | ⟨-, -, heq | ⟨entry, heq⟩⟩ := h.step_cases hs
  · by_cases hclose : ∃ i, o = .close i
    · obtain ⟨i, rfl⟩ := hclose
      obtain ⟨up, -, hc⟩ := Operation.applyTo_close_ok.1 hop
      exact hb.close h.disciplined.sound hc
    · exact fun i => hb.evolves hE (ho.implicitAt hop (fun i hi => hclose ⟨i, hi⟩) i)
  · exact heq ▸ hb
  · exact fun i => hb.evolves hE (by rw [heq]; rfl)

theorem Moment.Good.distinct (h : m.Good) (hd : m.store.Distinct) (hs : Steps m ops m') :
    m'.store.Distinct := by
  induction hs with
  | refl => exact hd
  | more hs _ ih => exact ih (h.step hs) (hd.changes (h.changes hs))

theorem Moment.Good.bare (h : m.Good) (hb : m.store.Bare) (hs : Steps m ops m') :
    m'.store.Bare := by
  induction hs with
  | refl => exact hb
  | more hs _ ih => exact ih (h.step hs) (h.bare_step hb hs)

/-! ### The finished store -/

/-- What is known at every moment of a walk over a program. -/
structure Moment.Known (P : Tree → Prop) (m : Moment) : Prop where
  good : m.Good
  judged : m.store.Judged m.store.pendingAt m.store.IsClosed
  ordered : m.store.Ordered m.current
  sourced : m.Sourced P
  bare : m.store.Bare
  distinct : m.store.Distinct

theorem Moment.start_known {P : Tree → Prop} (hP : Tree.Hereditary P) (o : Options)
    (h : P tree) : (Moment.start o tree).Known P := by
  refine ⟨start_good o tree, fun r ref href => ?_, List.Pairwise.nil, start_sourced hP o h,
    fun _ => .inl rfl, nofun⟩
  rw [show (Moment.start o tree).store.referenceAt? r = none from rfl] at href
  cases href

theorem Moment.Known.steps {P : Tree → Prop} (h : m.Known P) (hs : Steps m ops m') : m'.Known P :=
  ⟨h.good.steps hs, h.good.judged h.judged hs, h.good.ordered h.ordered hs,
    h.good.sourced h.sourced hs, h.good.bare h.bare hs, h.good.distinct h.distinct hs⟩

/-- The references of a name that wait in a scope with a candidate when it closes are those that
arrive there in the finished store. -/
theorem Moment.Known.arrivals {P : Tree → Prop} (h : m₁.Known P)
    (hc : Step m₁ (some (.close i)) m₂) (hs : Steps m₂ ops m') (key : Name) :
    (m₁.store.pendingAt i).filter (m₁.store.imputes key) = m'.store.arrivals i key ∧
      ∀ r ∈ m₁.store.pendingAt i, m'.store.candidateOf? r = m₁.store.candidateOf? r := by
  have hg := h.good
  have hE := hg.evolves (.more hc hs)
  have hd : m₁.store.Disciplined (some i) := by
    rw [← show m₁.current = some i from hg.orderly hc.attempts]
    exact hg.disciplined
  have hordered : (m₁.store.pendingAt i).Pairwise (· < ·) := by
    have ho := h.ordered
    rw [show m₁.current = some i from hg.orderly hc.attempts, Ordered,
      waiting_cons hd.sound.rooted, List.pairwise_append] at ho
    exact ho.2.1
  have huse : ∀ {r ref}, m₁.store.referenceAt? r = some ref →
      ∃ ref', m'.store.referenceAt? r = some ref' ∧ ref'.toUse = ref.toUse := by
    intro r ref href
    obtain ⟨ref', href', huse, -⟩ := hE.reference r ref href
    exact ⟨ref', href', huse⟩
  refine ⟨?_, ?_⟩
  · -- Both lists are in order, so it is enough that they have the same members.
    have hmem : ∀ r, r ∈ (m₁.store.pendingAt i).filter (m₁.store.imputes key) ↔
        r ∈ m'.store.arrivals i key := by
      intro r
      rw [List.mem_filter, imputes_iff, mem_arrivals_iff]
      constructor
      · rintro ⟨hr, ref, href, hcand, hk⟩
        obtain ⟨ref', href', hu⟩ := huse href
        have hk' : Name.ofTree? ref'.name = some key := by rw [Reference.name, hu]; exact hk
        exact ⟨ref', href', hu ▸ hcand, hk', (hg.mem_pendingAt_iff h.judged hc hs href' hk').1 hr⟩
      · rintro ⟨ref', href', hcand, hk', hr⟩
        have hr := (hg.mem_pendingAt_iff h.judged hc hs href' hk').2 hr
        obtain ⟨ref, href, -⟩ := hd.books.waiting hr
        obtain ⟨ref'', href'', hu⟩ := huse href
        obtain rfl := Option.some.inj (href'.symm.trans href'')
        exact ⟨hr, ref, href, hu ▸ hcand, by rw [Reference.name, ← hu]; exact hk'⟩
    exact (hordered.filter _).eq_of_mem_iff (pairwise_arrivals ..) hmem
  · intro r hr
    obtain ⟨ref, href, -⟩ := hd.books.waiting hr
    obtain ⟨ref', href', hu⟩ := huse href
    simp only [candidateOf?, href, href', Option.bind_some, hu]

end Walk

namespace Store

/-- What the implicit variables of a global scope come from: its own references and those handed up
to it that carry a candidate. -/
structure Explained (s : Store) (i : ScopeId) (a : Scope) (key : Name) : Prop where
  /-- An implicit variable is the variable of its name. -/
  bound : ∀ v, a.implicit.find? key = some v → a.table.find? key = some v
  /-- Its definitions are those of the references that arrive, in order. -/
  defs : ∀ v, a.implicit.find? key = some v → ∃ var, s.variableAt? v = some var ∧
    var.defs = ((s.arrivals i key).filterMap s.candidateOf?).map Candidate.definition
  arrived : (a.implicit.find? key).isSome = true → s.arrivals i key ≠ []
  /-- Where a name has no variable, no reference that carries a candidate arrives. -/
  missed : a.table.find? key = none → s.arrivals i key = []

theorem filterMap_candidateOf?_eq_nil_iff {s : Store} {i : ScopeId} {key : Name} :
    (s.arrivals i key).filterMap s.candidateOf? = [] ↔ s.arrivals i key = [] := by
  refine ⟨fun h => ?_, fun h => by rw [h]; rfl⟩
  rw [List.filterMap_eq_nil_iff] at h
  refine List.eq_nil_iff_forall_not_mem.2 fun r hr => ?_
  have hnone := h r hr
  obtain ⟨ref, href, hc, -⟩ := mem_arrivals_iff.1 hr
  rw [candidateOf?, href, Option.bind_some] at hnone
  rw [hnone] at hc
  cases hc

theorem Imputed.base_of_implicit {s : Store} {i : ScopeId} {base : Table VariableId}
    {cs : List Candidate} {a : Scope} {key : Name} {v : VariableId} (h : s.Imputed i base cs a)
    (hv : a.implicit.find? key = some v) : base.find? key = none := by
  cases hb : base.find? key with
  | none => rfl
  | some w => rw [(h.kept key w hb).2] at hv; cases hv

/-- Closed scopes keep what was made in them. -/
theorem Imputed.frozen {s t : Store} {i : ScopeId} {base : Table VariableId}
    {cs : List Candidate} {a : Scope} (h : s.Imputed i base cs a) (hs : s.Sound)
    (hf : s.Frozen t i) : t.Imputed i base cs a := by
  refine ⟨hf.scope.trans h.scope, h.kept, h.table, h.made, fun key v hv => ?_, h.names⟩
  obtain ⟨var, hvar, hdefs⟩ := h.defs key v hv
  obtain ⟨hscope, -⟩ :=
    hs.home h.scope ((h.table key (h.base_of_implicit hv)).trans hv) hvar
  exact ⟨var, hf.var v var hvar hscope, hdefs⟩

theorem Imputed.explained {s : Store} {i : ScopeId} {base : Table VariableId}
    {cs : List Candidate} {a : Scope} {key : Name} (h : s.Imputed i base cs a)
    (hcs : base.find? key = none →
      Candidate.named cs key = (s.arrivals i key).filterMap s.candidateOf?) :
    s.Explained i a key := by
  have hbase : ∀ v, a.implicit.find? key = some v → base.find? key = none :=
    fun v => h.base_of_implicit
  refine ⟨fun v hv => (h.table key (hbase v hv)).trans hv, fun v hv => ?_, fun hv => ?_,
    fun hn => ?_⟩
  · obtain ⟨var, hvar, hdefs⟩ := h.defs key v hv
    exact ⟨var, hvar, hdefs.trans (by rw [hcs (hbase v hv)])⟩
  · obtain ⟨v, hv⟩ := Option.isSome_iff_exists.1 hv
    intro hnil
    have hmade := (h.made key (hbase v hv)).2 (by rw [hcs (hbase v hv), hnil]; rfl)
    rw [hmade] at hv
    cases hv
  · have hb : base.find? key = none := by
      cases hb : base.find? key with
      | none => rfl
      | some w => rw [(h.kept key w hb).1] at hn; cases hn
    have hmade := (h.made key hb).1 ((h.table key hb).symm.trans hn)
    exact filterMap_candidateOf?_eq_nil_iff.1 ((hcs hb).symm.trans hmade)

end Store

namespace Walk

variable {P : Tree → Prop} {m m₁ m₂ m' : Moment} {op : Option Operation} {ops : List Operation}
  {i : ScopeId} {a : Scope} {key : Name} {s : Store} {o : Options} {tree : Tree}

/-- **The implicit variables of a closed global scope are explained** by the references that arrive
in it, at every later moment of the walk. -/
theorem Moment.Known.explained (h : m.Known P) (hs : Steps m ops m')
    (hn : ¬ m.store.IsClosed i) (ha : m'.store.scopeAt? i = some a) (hc : a.isClosed = true)
    (hk : a.kind = .global) : (∀ key, m'.store.Explained i a key) ∧
      a.implicit.names.Nodup ∧ a.implicitLeft = a.through := by
  obtain ⟨before, m₁, m₂, after, hb, hstep, hafter⟩ := h.good.closing hs hn ⟨a, ha, hc⟩
  have h₁ := h.steps hb
  have hall : Steps m₁ ((some (Operation.close i)).toList ++ after) m' := .more hstep hafter
  obtain ⟨⟨out, hop⟩, -⟩ := h₁.good.step_operation hstep
  obtain ⟨up, -, hclose⟩ := Operation.applyTo_close_ok.1 hop
  have hsound := h₁.good.disciplined.sound
  obtain ⟨a₁, t, b, ha₁, ho, himp, hret, hb₂, hbc, hkind, hleft⟩ := close_retained hsound hclose
  have hfrozen := (h₁.good.step hstep).frozen hafter ⟨b, hb₂, hbc⟩
  obtain rfl : a = b := Option.some.inj (ha.symm.trans (hfrozen.scope.trans hb₂))
  have hbare : a₁.implicit = [] := by
    rw [← implicitAt_eq ha₁]
    refine (h₁.bare i).resolve_right ?_
    rintro ⟨a', ha', hc', -⟩
    obtain rfl := Option.some.inj (ha₁.symm.trans ha')
    rw [ho] at hc'
    cases hc'
  obtain ⟨cs, b, himputed, hnamed⟩ := Imputed.bindImplicits hsound h₁.sourced.store.own ha₁
    (hkind.symm.trans hk) hbare himp
  obtain ⟨b', hb'⟩ := himputed.retained hret
  obtain rfl : a = b' := Option.some.inj (hb₂.symm.trans hb'.scope)
  have hsound₂ := (h₁.good.step hstep).disciplined.sound
  refine ⟨fun key => ?_, hb'.names, hleft hk⟩
  obtain ⟨harrive, hcandidate⟩ := h₁.arrivals hstep hafter key
  refine (hb'.frozen hsound₂ hfrozen).explained fun hkey => ?_
  rw [hnamed key hkey, ← harrive]
  refine List.filterMap_congr fun r hr => (hcandidate r (List.mem_filter.1 hr).1).symm

end Walk

namespace Store

variable {s : Store} {i : ScopeId} {a : Scope} {key : Name}

theorem chain_record (h : s.Rooted) (entry : LogRecord) (i : ScopeId) :
    (s.record entry).chain i = s.chain i := chain_congr h h fun _ _ => rfl

theorem reaches_record (h : s.Rooted) (entry : LogRecord) (i : ScopeId) (key : Name) (c : ScopeId) :
    (s.record entry).reaches i key c = s.reaches i key c := by
  rw [reaches, chain_record h]
  rfl

theorem arrivals_record (h : s.Rooted) (entry : LogRecord) (i : ScopeId) (key : Name) :
    (s.record entry).arrivals i key = s.arrivals i key := by
  simp only [arrivals, reaches_record h]
  rfl

theorem Explained.record (h : s.Explained i a key) (hs : s.Rooted) (entry : LogRecord) :
    (s.record entry).Explained i a key := by
  have ha := arrivals_record hs entry i key
  exact ⟨h.bound, fun v hv => ha ▸ h.defs v hv, fun hv => ha ▸ h.arrived hv,
    fun hn => ha ▸ h.missed hn⟩

/-- What an analysis leaves. -/
structure Finished (P : Tree → Prop) (s : Store) : Prop where
  sound : s.Sound
  books : s.Books s.pendingAt s.IsClosed
  closed : ∀ i, ¬ s.IsOpen i
  distinct : s.Distinct
  sourced : s.Sourced P
  verdict : ∀ r ref, s.referenceAt? r = some ref → s.Verdict s.pendingAt s.IsClosed r ref
  bare : ∀ i a, s.scopeAt? i = some a → a.kind ≠ .global → a.implicit = []
  globals : ∀ i a, s.scopeAt? i = some a → a.kind = .global →
    (∀ key, s.Explained i a key) ∧ a.implicit.names.Nodup ∧ a.implicitLeft = a.through

end Store

namespace Walk

/-- A walk that is over has left a finished store. -/
theorem Moment.Known.finished {P : Tree → Prop} {o : Options} {tree : Tree} {m : Moment}
    {ops : List Operation} (hP : Tree.Hereditary P) (h : P tree)
    (hs : Steps (.start o tree) ops m) (ho : m.Over) (entry : LogRecord) :
    (m.store.record entry).Finished P := by
  have hstart := Moment.start_known hP o h
  have hknown := hstart.steps hs
  have hd := Disciplined.record hknown.good.disciplined entry
  have hclosed : ∀ i, ¬ m.store.IsOpen i := hknown.good.not_isOpen ho
  refine ⟨hd.sound, hd.books, hclosed, hknown.distinct,
    ⟨hknown.sourced.store.reference, hknown.sourced.store.scope⟩,
    hknown.judged.quietly hknown.good.disciplined.books (A := fun _ => False)
      (.single (.record entry)) nofun, fun i a ha hk => ?_, fun i a ha hk => ?_⟩
  · rcases hknown.bare i with hnil | ⟨b, hb, -, hk'⟩
    · exact (implicitAt_eq ha).symm.trans hnil
    · exact absurd (Option.some.inj (hb.symm.trans ha) ▸ hk') hk
  · have hac : a.isClosed = true := by
      obtain ⟨b, hb, hc⟩ := (isOpen_or_isClosed (scopeAt?_lt ha)).resolve_left (hclosed i)
      exact Option.some.inj (ha.symm.trans hb) ▸ hc
    obtain ⟨hexplained, hrest⟩ := hstart.explained hs (i := i)
      (by rintro ⟨b, hb, -⟩; cases hb) ha hac hk
    exact ⟨fun key => (hexplained key).record hknown.good.disciplined.sound.rooted entry, hrest⟩

/-- **What an analysis returns is finished.** -/
theorem analyze_finished {P : Tree → Prop} {o : Options} {tree : Tree} {s : Store}
    (hP : Tree.Hereditary P) (h : P tree) (hs : analyze o tree = .ok s) : s.Finished P := by
  obtain ⟨ops, m, hsteps, hover, -, rfl⟩ := analyze_ok hs
  exact Moment.Known.finished hP h hsteps hover _

end Walk

end LexScope
