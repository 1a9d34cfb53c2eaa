import LexScope.Proofs.RenameStore

/-!
# Proofs — RenameAction — what a renamed program does to its store

Whether a renaming is *safe* is seen at the end of an analysis (`Renaming.Safe`): the new name is
bound neither in the scope of the variable nor on the way from one of its uses to that scope, no use
of the new name leaves the scope, and the places renamed are those of the variable and of no other.
Tables only grow and `through` lists only grow, so all of this held before, too.

* `Safe.define`: a name is bound under the key that the renamed table has for it.
* `Safe.settle`: a reference is settled as before.  A use of the variable meets the new name in its
  scope and not before; any other use does not ask for the variable under either name.
* `Safe.enter`, `Safe.close`: **an action that comes to a store that the analysis goes on from comes
  to the renamed store in the renamed one.**
-/

namespace LexScope

open Store LexScope.Action

/-- One store later on, whatever was touched. -/
abbrev Store.Becomes (s t : Store) : Prop := Evolves (fun _ => True) s t

theorem Store.Changes.becomes {A : ScopeId → Prop} {s t F : Store} (h : Changes A s t)
    (hs : s.Sound) (ht : t.Becomes F) : s.Becomes F :=
  ((h.evolves hs).mono fun _ _ => trivial).trans ht

/-! ### Where the settled references are -/

namespace Store

variable {A : ScopeId → Prop} {s t : Store} {i o : ScopeId} {r : ReferenceId} {v : VariableId}

theorem Evolves.links (hE : Evolves A s t) (hr : r ∈ s.linksOf v) : r ∈ t.linksOf v := by
  rw [linksOf] at hr ⊢
  cases hv : s.variableAt? v with
  | none => simp [hv] at hr
  | some var =>
      obtain ⟨var', hvar', hev, -⟩ := hE.var v var hv
      rw [hv] at hr
      rw [hvar']
      exact hev.references hr

theorem Evolves.throughAt (hE : Evolves A s t) (hr : r ∈ s.throughAt i) : r ∈ t.throughAt i := by
  rw [Store.throughAt] at hr ⊢
  cases ha : s.scopeAt? i with
  | none => simp [ha] at hr
  | some a =>
      obtain ⟨b, hb, hab, -⟩ := hE.scope i a ha
      rw [ha] at hr
      rw [hb]
      exact hab.through hr

theorem mem_linksOf_link (hv : v < s.vars.size) : r ∈ (s.link r o v).linksOf v := by
  rw [linksOf_link hv, if_pos rfl]
  exact List.mem_append_right _ List.mem_cons_self

end Store

namespace Action

variable {s t : Store} {i : ScopeId} {r q : ReferenceId}

theorem handUp_referenceAt? (h : (handUp i r).outcome s = (.ok (), t)) :
    t.referenceAt? q = s.referenceAt? q := by
  obtain ⟨a, -, ⟨-, rfl⟩ | ⟨w, above, -, -, -, rfl⟩⟩ := handUp_ok_iff.1 h
  · rfl
  · rfl

theorem mem_throughAt_handUp (h : (handUp i r).outcome s = (.ok (), t)) : r ∈ t.throughAt i := by
  obtain ⟨a, ha, hcase⟩ := handUp_ok_iff.1 h
  have hi := scopeAt?_lt ha
  obtain ⟨-, rfl⟩ | ⟨w, above, -, -, -, rfl⟩ := hcase
  · rw [throughAt_pass hi, if_pos rfl]
    exact List.mem_append_right _ List.mem_cons_self
  · rw [throughAt_pass (by simpa [updateScope] using hi), if_pos rfl]
    exact List.mem_append_right _ List.mem_cons_self

/-- Settling several references in a scope ties each to the variable that the table has for its
name, or lets it leave if there is none. -/
theorem settled {l : List ReferenceId} {ref : Reference} {key : Name} {a : Scope} (hs : s.Sound)
    (h : (l.forM (settle i)).outcome s = (.ok (), t)) (hr : r ∈ l)
    (href : s.referenceAt? r = some ref) (hk : Name.ofTree? ref.name = some key)
    (ha : s.scopeAt? i = some a) :
    (∃ v, a.table.find? key = some v ∧ r ∈ t.linksOf v) ∨
      (a.table.find? key = none ∧ r ∈ t.throughAt i) := by
  induction l generalizing s a ref with
  | nil => cases hr
  | cons q l ih =>
      obtain ⟨u, hq, hl⟩ := forM_cons_ok_iff.1 h
      have hqu := settle_changes hs hq
      have hu := Changes.sound hqu hs
      obtain ⟨b, hb, hlook⟩ :=
        (settle_alike (D := fun _ => True) hq).look i a trivial ha
      rcases List.mem_cons.1 hr with rfl | hr
      · -- Its turn is first; that it is tied to a variable, or has left, is never undone.
        have hrest : (settleAll i true l).outcome u = (.ok (), t) := hl
        have hut := Changes.evolves (settleAll_changes hu (scopeAt?_lt hb) hrest) hu
        obtain ⟨ref', key', a', href', hk', ha', hcase⟩ := settle_ok_iff.1 hq
        obtain rfl : ref = ref' := Option.some.inj (href.symm.trans href')
        obtain rfl : key = key' := Option.some.inj (hk.symm.trans hk')
        obtain rfl : a = a' := Option.some.inj (ha.symm.trans ha')
        rcases hcase with ⟨v, hf, rfl⟩ | ⟨hf, hup⟩
        · obtain ⟨var, hvar, -⟩ := hs.of_find? ha hf
          exact .inl ⟨v, hf, hut.links (mem_linksOf_link (variableAt?_lt hvar))⟩
        · exact .inr ⟨hf, hut.throughAt (mem_throughAt_handUp hup)⟩
      · -- Its turn comes later, and the table is the same then.
        obtain ⟨ref', href', huse, -⟩ := (Changes.evolves hqu hs).reference r ref href
        have hk' : Name.ofTree? ref'.name = some key := by
          rw [Reference.name, huse]
          exact hk
        rw [← table_of_look hlook]
        exact ih hu hl hr href' hk' hb

end Action

/-- What makes a renaming safe, in the store at the end. -/
structure Renaming.Safe (ρ : Renaming) (F : Store) : Prop where
  sound : F.Sound
  old : ρ.old ≠ argumentsName
  new : ρ.new ≠ argumentsName
  bound : ∃ a, F.scopeAt? ρ.scope = some a ∧ a.table.find? (.text ρ.old) = some ρ.var ∧
    a.table.find? (.text ρ.new) = none
  /-- The variable is defined at the places renamed, and no other is. -/
  defs : ∀ v var d, F.variableAt? v = some var → d ∈ var.defs →
    (d.name.path ∈ ρ.places ↔ v = ρ.var)
  /-- The variable is used at the places renamed, and nothing else is. -/
  uses : ∀ r ref, F.referenceAt? r = some ref →
    (ref.identifier.path ∈ ρ.places ↔ ref.resolved = some ρ.var)
  links : ∀ v r ref, r ∈ F.linksOf v → F.referenceAt? r = some ref → ref.resolved = some v
  /-- No use of the new name leaves the scope of the variable. -/
  through : ∀ r ref, r ∈ F.throughAt ρ.scope → F.referenceAt? r = some ref →
    Name.ofTree? ref.name ≠ some (.text ρ.new)
  /-- The new name is not bound on the way from a use to the variable. -/
  way : ∀ r ref i a, F.referenceAt? r = some ref → ref.resolved = some ρ.var →
    r ∈ F.throughAt i → F.scopeAt? i = some a → a.table.find? (.text ρ.new) = none

namespace Renaming.Safe

variable {ρ : Renaming} {F s t : Store} {i : ScopeId} {a : Scope} {key : Name} {v : VariableId}

/-! ### Before the end -/

theorem entry (hE : s.Becomes F) (ha : s.scopeAt? i = some a) (hk : key ≠ .text argumentsName)
    (hf : a.table.find? key = some v) :
    ∃ b, F.scopeAt? i = some b ∧ b.table.find? key = some v := by
  obtain ⟨b, hb, hab, -⟩ := hE.scope i a ha
  exact ⟨b, hb, hab.table key v hk hf⟩

theorem text_ne {s : String} (h : s ≠ argumentsName) : Name.text s ≠ .text argumentsName :=
  fun e => h (Name.text.inj e)

/-- The new name is never bound in the scope of the variable. -/
theorem free (h : ρ.Safe F) (hE : s.Becomes F) (ha : s.scopeAt? i = some a) (hi : i = ρ.scope) :
    a.table.find? (.text ρ.new) = none := by
  subst hi
  obtain ⟨b, hb, -, hnew⟩ := h.bound
  cases hf : a.table.find? (.text ρ.new) with
  | none => rfl
  | some w =>
      obtain ⟨b', hb', hw⟩ := entry hE ha (text_ne h.new) hf
      obtain rfl : b = b' := Option.some.inj (hb.symm.trans hb')
      rw [hnew] at hw
      cases hw

theorem free_implicit (h : ρ.Safe F) (hs : s.Sound) (hE : s.Becomes F)
    (ha : s.scopeAt? i = some a) (hi : i = ρ.scope) :
    a.implicit.find? (.text ρ.new) = none := by
  cases hf : a.implicit.find? (.text ρ.new) with
  | none => rfl
  | some w =>
      have := hs.implicit i a _ ha (Table.mem_of_find? hf)
      rw [h.free hE ha hi] at this
      cases this

/-- The old name is bound to nothing but the variable in its scope. -/
theorem eq_var (h : ρ.Safe F) (hE : s.Becomes F) (ha : s.scopeAt? ρ.scope = some a)
    (hf : a.table.find? (.text ρ.old) = some v) : v = ρ.var := by
  obtain ⟨b, hb, hold, -⟩ := h.bound
  obtain ⟨b', hb', hv⟩ := entry hE ha (text_ne h.old) hf
  obtain rfl : b = b' := Option.some.inj (hb.symm.trans hb')
  exact Option.some.inj (hv.symm.trans hold)

/-- The variable, wherever it is met. -/
theorem var_eq (h : ρ.Safe F) (hE : s.Becomes F) {var : Variable}
    (hv : s.variableAt? ρ.var = some var) : var.scope = ρ.scope ∧ var.name = .str ρ.old := by
  obtain ⟨b, hb, hold, -⟩ := h.bound
  obtain ⟨var', hvar', hev, -⟩ := hE.var _ var hv
  obtain ⟨hscope, hname⟩ := h.sound.home hb hold hvar'
  exact ⟨hev.scope.symm.trans hscope, by rw [← hev.name, Name.ofTree?_eq_text.1 hname]⟩

/-- An entry is the variable's if it is that of the old name in its scope. -/
theorem entry_iff (h : ρ.Safe F) (hs : s.Sound) (hE : s.Becomes F) (ha : s.scopeAt? i = some a)
    (hf : a.table.find? key = some v) : v = ρ.var ↔ i = ρ.scope ∧ key = .text ρ.old := by
  obtain ⟨var, hvar, hscope, hname⟩ := hs.of_find? ha hf
  constructor
  · rintro rfl
    obtain ⟨hs, hold⟩ := h.var_eq hE hvar
    rw [hold] at hname
    exact ⟨hscope.symm.trans hs, (Option.some.inj hname).symm⟩
  · rintro ⟨rfl, rfl⟩
    exact h.eq_var hE ha hf

theorem ne_new (h : ρ.Safe F) (hE : s.Becomes F) (ha : s.scopeAt? i = some a)
    (hf : a.table.find? key = some v) (hi : i = ρ.scope) : key ≠ .text ρ.new := by
  rintro rfl
  rw [h.free hE ha hi] at hf
  cases hf

/-! ### Binding names -/

/-- An identifier that is bound is renamed exactly if it binds the variable, which is exactly if it
binds the old name in the scope of the variable; and it never binds the new name there. -/
theorem isRenamed_iff (h : ρ.Safe F) (ht : t.Sound) (hE : t.Becomes F) {n : Node}
    {d : Definition} {var : Variable} (hn : d.name = n)
    (hk : Name.ofTree? (n.value.get "name") = some key) (ha : t.scopeAt? i = some a)
    (hf : a.table.find? key = some v) (hvar : t.variableAt? v = some var) (hd : d ∈ var.defs) :
    (n.IsRenamed ρ ↔ v = ρ.var) ∧ (n.IsRenamed ρ ↔ i = ρ.scope ∧ key = .text ρ.old) ∧
      (i = ρ.scope → key ≠ .text ρ.new) := by
  subst hn
  obtain ⟨varF, hvarF, hev, -⟩ := hE.var v var hvar
  have hplace := h.defs v varF d hvarF (hev.defs hd)
  have hkey := h.entry_iff ht hE ha hf
  have hrenamed : d.name.IsRenamed ρ ↔ v = ρ.var := by
    constructor
    · intro hr
      exact hplace.1 hr.1
    · intro hv
      obtain ⟨-, rfl⟩ := hkey.1 hv
      exact ⟨hplace.2 hv, Name.ofTree?_eq_text.1 hk⟩
  exact ⟨hrenamed, hrenamed.trans hkey, h.ne_new hE ha hf⟩

/-- The key under which a renamed identifier is bound. -/
theorem ofTree?_of_iff {n : Node} (hk : Name.ofTree? (n.value.get "name") = some key)
    (hr : n.IsRenamed ρ ↔ i = ρ.scope ∧ key = .text ρ.old) :
    Name.ofTree? ((n.rename ρ).value.get "name") = some (ρ.key i key) := by
  rw [Node.ofTree?_name_rename]
  by_cases hn : n.IsRenamed ρ
  · obtain ⟨rfl, rfl⟩ := hr.1 hn
    rw [if_pos hn, ρ.key_old]
  · rw [if_neg hn, hk, ρ.key_of_ne fun e => hn (hr.2 e)]

theorem define (h : ρ.Safe F) (hs : s.Sound) (hE : t.Becomes F) {n : Node} {d : Definition}
    {w : Option VariableId} (hn : d.name = n) (hdef : (define i n d).outcome s = (.ok w, t)) :
    (Action.define i (n.rename ρ) (d.rename ρ)).outcome (s.rename ρ) = (.ok w, t.rename ρ) := by
  have hq : Quiets (fun _ => True) s t := define_quiets hdef trivial
  have ht := hq.changes.sound hs
  have hEs := hq.changes.becomes hs hE
  obtain ⟨hid, rfl, rfl⟩ | ⟨hid, key, a, hk, ha, hcase⟩ := define_ok_iff.1 hdef
  · exact define_ok_iff.2 (.inl ⟨by rw [Node.isIdentifier_rename, hid], rfl, rfl⟩)
  · have hfree := fun hi => h.free hEs ha hi
    have hiff : ∀ {v}, w = some v → (n.IsRenamed ρ ↔ v = ρ.var) ∧
        (n.IsRenamed ρ ↔ i = ρ.scope ∧ key = .text ρ.old) ∧
        (i = ρ.scope → key ≠ .text ρ.new) := by
      rintro v rfl
      obtain ⟨key', b, var, hk', hb, hf, hvar, -, hd⟩ := define_bound hs hdef
      obtain rfl : key = key' := Option.some.inj (hk.symm.trans hk')
      exact h.isRenamed_iff ht hE hn hk hb hf hvar hd
    have hid' : (n.rename ρ).isIdentifier = true := by rw [Node.isIdentifier_rename, hid]
    have ha' : (s.rename ρ).scopeAt? i = some (a.rename ρ i) := by rw [scopeAt?_rename, ha]; rfl
    -- Bound already or bound now: the renamed table answers the same under the renamed key.
    rcases hcase with ⟨v, hf, rfl, rfl⟩ | ⟨hf, rfl, rfl⟩
    · obtain ⟨-, hkey, hnew⟩ := hiff rfl
      have hf' := ρ.find?_table hfree hnew
      exact define_ok_iff.2 (.inr ⟨hid', _, _, ofTree?_of_iff hk hkey, ha',
        .inl ⟨v, hf'.trans hf, rfl, rename_addDefinition v d⟩⟩)
    · obtain ⟨hv, hkey, hnew⟩ := hiff rfl
      have hf' := ρ.find?_table hfree hnew
      refine define_ok_iff.2 (.inr ⟨hid', _, _, ofTree?_of_iff hk hkey, ha', .inr ⟨hf'.trans hf,
        by rw [size_vars_rename], ?_⟩⟩)
      rw [rename_bindNew (fun b hb hi => h.free hEs hb hi) hnew, n.name_rename ρ hk]
      simp only [Variable.rename, hv, List.map_cons, List.map_nil]

theorem defineArguments (h : ρ.Safe F) (hs : s.Sound) (hE : t.Becomes F)
    (ha : s.scopeAt? i = some a) (hdef : (defineArguments i).outcome s = (.ok v, t)) :
    (Action.defineArguments i).outcome (s.rename ρ) = (.ok v, t.rename ρ) := by
  have hq : Quiets (fun _ => True) s t := defineArguments_quiets hdef ha trivial
  have hEs := hq.changes.becomes hs hE
  obtain ⟨rfl, rfl⟩ := bindNew_ok_iff.1 hdef
  have hold : Name.text argumentsName ≠ .text ρ.old := (text_ne h.old).symm
  have hne : s.vars.size ≠ ρ.var := by
    intro hv
    obtain ⟨-, hname⟩ := h.var_eq hE (by rw [← hv, variableAt?_bindNew, if_pos rfl])
    exact h.old (Tree.str.inj hname).symm
  refine bindNew_ok_iff.2 ⟨by rw [size_vars_rename], ?_⟩
  rw [rename_bindNew (fun b hb hi => h.free hEs hb hi) fun _ => (text_ne h.new).symm,
    ρ.key_of_ne fun e => hold e.2, Variable.rename, if_neg hne]
  rfl

/-! ### Entering a scope -/

theorem openScope {kind : ScopeKind} {n : Node} {upper : Option ScopeId}
    (ho : (openScope kind n upper).outcome s = (.ok i, t)) :
    (Action.openScope kind (n.rename ρ) upper).outcome (s.rename ρ) = (.ok i, t.rename ρ) := by
  obtain ⟨above, strict, habove, hstrict, hobj, rfl, rfl⟩ := openScope_ok_iff.1 ho
  refine openScope_ok_iff.2 ⟨above, strict, by rw [strictAt?_rename, habove],
    by rw [isStrict?_rename]; exact hstrict, by rw [Node.isObj_rename, hobj],
    by rw [size_scopes_rename], ?_⟩
  rw [rename_record, rename_addScope, Node.type_rename, size_scopes_rename]

theorem provide (h : ρ.Safe F) (hs : s.Sound) (hE : t.Becomes F) {kind : ScopeKind} {n : Node}
    (ha : s.scopeAt? i = some a) (hp : (provide kind n i).outcome s = (.ok (), t)) :
    (Action.provide kind (n.rename ρ) i).outcome (s.rename ρ) = (.ok (), t.rename ρ) := by
  have hpure : (pure () : Action Unit).outcome s = (.ok (), t) →
      (pure () : Action Unit).outcome (s.rename ρ) = (.ok (), t.rename ρ) := by
    intro hp
    rw [(pure_ok_iff.1 hp).2]
    rfl
  cases kind with
  | function =>
      have hsame : (n.rename ρ).hasArguments = n.hasArguments := congrArg not (isArrow_rename ρ n)
      rw [Action.provide] at hp ⊢
      rw [hsame]
      cases hargs : n.hasArguments with
      | true =>
          rw [hargs] at hp
          obtain ⟨v, hv⟩ := discard_ok_iff.1 hp
          exact discard_ok_iff.2 ⟨v, h.defineArguments hs hE ha hv⟩
      | false =>
          rw [hargs] at hp
          exact hpure hp
  | functionName =>
      obtain ⟨w, hw⟩ := discard_ok_iff.1 hp
      refine discard_ok_iff.2 ⟨w, ?_⟩
      have hdef := h.define hs hE (n := n.get "id") rfl hw
      have hid : (n.rename ρ).get "id" = (n.get "id").rename ρ := n.get_rename ρ (by decide)
      have hd : Definition.ofFunction (n.rename ρ) = (Definition.ofFunction n).rename ρ := by
        rw [Definition.ofFunction, hid]
        rfl
      rw [hid, hd]
      exact hdef
  | _ => exact hpure hp

theorem enter (h : ρ.Safe F) (hs : s.Sound) (hE : t.Becomes F) {kind : ScopeKind} {n : Node}
    {upper : Option ScopeId} (he : (enter kind n upper).outcome s = (.ok i, t)) :
    (Action.enter kind (n.rename ρ) upper).outcome (s.rename ρ) = (.ok i, t.rename ρ) := by
  obtain ⟨u, ho, hp⟩ := enter_ok_iff.1 he
  obtain ⟨-, strict, ha⟩ := openScope_scopeAt? ho
  have hu : u.Sound :=
    Changes.sound (Quiets.changes (openScope_quiets (A := fun _ => True) ho fun _ _ => trivial)) hs
  exact enter_ok_iff.2 ⟨u.rename ρ, openScope ho, h.provide hu hE ha hp⟩

/-! ### References and flags -/

theorem refer {u : Use} {r : Option ReferenceId} (hr : (refer i u).outcome s = (.ok r, t)) :
    (Action.refer i (u.rename ρ)).outcome (s.rename ρ) = (.ok r, t.rename ρ) := by
  have hid : (u.rename ρ).identifier.isIdentifier = u.identifier.isIdentifier :=
    u.identifier.isIdentifier_rename ρ
  obtain ⟨hno, rfl, rfl⟩ | ⟨hyes, rfl, rfl, a, ha, hc⟩ := refer_ok_iff.1 hr
  · exact refer_ok_iff.2 (.inl ⟨hid.trans hno, rfl, rfl⟩)
  · exact refer_ok_iff.2 (.inr ⟨hid.trans hyes, by rw [size_references_rename],
      rename_addReference i u, a.rename ρ i, by rw [scopeAt?_rename, ha]; rfl, hc⟩)

theorem noteEval (hn : (noteEval i).outcome s = (.ok (), t)) :
    (Action.noteEval i).outcome (s.rename ρ) = (.ok (), t.rename ρ) := by
  obtain ⟨⟨a, ha⟩, rfl⟩ := noteEval_ok_iff.1 hn
  exact noteEval_ok_iff.2 ⟨⟨a.rename ρ i, by rw [scopeAt?_rename, ha]; rfl⟩, rename_noteEval i⟩

theorem noteThis (hn : (noteThis i).outcome s = (.ok (), t)) :
    (Action.noteThis i).outcome (s.rename ρ) = (.ok (), t.rename ρ) := by
  obtain ⟨⟨a, ha⟩, rfl⟩ := noteThis_ok_iff.1 hn
  exact noteThis_ok_iff.2 ⟨⟨a.rename ρ i, by rw [scopeAt?_rename, ha]; rfl⟩, rename_noteThis i⟩

/-! ### Settling references -/

theorem handUp {r : ReferenceId} (hr : (handUp i r).outcome s = (.ok (), t)) :
    (Action.handUp i r).outcome (s.rename ρ) = (.ok (), t.rename ρ) := by
  obtain ⟨a, ha, hcase⟩ := handUp_ok_iff.1 hr
  refine handUp_ok_iff.2 ⟨a.rename ρ i, by rw [scopeAt?_rename, ha]; rfl, ?_⟩
  obtain ⟨hu, rfl⟩ | ⟨w, above, hu, hw, hc, rfl⟩ := hcase
  · exact .inl ⟨hu, rename_updateScope fun _ _ => rfl⟩
  · refine .inr ⟨w, above.rename ρ w, hu, by rw [scopeAt?_rename, hw]; rfl, hc, ?_⟩
    rw [rename_updateScope (g := (·.pass r)) fun _ _ => rfl,
      rename_updateScope (g := (·.receive r)) fun _ _ => rfl]

theorem escape {r : ReferenceId} (hr : (escape i r).outcome s = (.ok (), t)) :
    (Action.escape i r).outcome (s.rename ρ) = (.ok (), t.rename ρ) := by
  rw [escape_ok_iff] at hr ⊢
  rw [hr, rename_updateScopes (fun _ _ => rfl), chain_rename]

/-- A reference that is tied to a variable is renamed exactly if it is the variable's. -/
theorem place_iff_of_link (h : ρ.Safe F) (hE : s.Becomes F) {r : ReferenceId} {ref : Reference}
    (href : s.referenceAt? r = some ref) (hr : r ∈ s.linksOf v) :
    ref.identifier.path ∈ ρ.places ↔ v = ρ.var := by
  obtain ⟨ref', href', huse, -⟩ := hE.reference r ref href
  rw [← huse, h.uses r ref' href', h.links v r ref' (hE.links hr) href', Option.some.injEq]

/-- The name that a reference has after renaming, if it is tied to an entry of a table. -/
theorem ofTree?_of_link (h : ρ.Safe F) (hE : s.Becomes F) {r : ReferenceId} {ref : Reference}
    (href : s.referenceAt? r = some ref) (hr : r ∈ s.linksOf v)
    (hk : Name.ofTree? ref.name = some key)
    (hkey : v = ρ.var ↔ i = ρ.scope ∧ key = .text ρ.old) :
    Name.ofTree? (ref.rename ρ).name = some (ρ.key i key) := by
  have hplace := h.place_iff_of_link hE href hr
  refine ofTree?_of_iff (n := ref.identifier) hk ⟨fun hren => hkey.1 (hplace.1 hren.1), ?_⟩
  intro hik
  refine ⟨hplace.2 (hkey.2 hik), Name.ofTree?_eq_text.1 ?_⟩
  rw [← hik.2]
  exact hk

/-- A reference that leaves a scope does not find the name it has after renaming there. -/
theorem find?_of_through (h : ρ.Safe F) (hs : s.Becomes F) (ht : t.Becomes F) {r : ReferenceId}
    {ref : Reference} (href : t.referenceAt? r = some ref) (hk : Name.ofTree? ref.name = some key)
    (hr : r ∈ t.throughAt i) (ha : s.scopeAt? i = some a) (hf : a.table.find? key = none) :
    ∃ key', Name.ofTree? (ref.rename ρ).name = some key' ∧
      (ρ.table i a.table).find? key' = none := by
  have hname := ref.identifier.ofTree?_name_rename ρ
  obtain ⟨ref', href', huse, -⟩ := ht.reference r ref href
  obtain ⟨b, hb, hab, -⟩ := hs.scope i a ha
  have hrF := ht.throughAt hr
  by_cases hren : ref.identifier.IsRenamed ρ
  · rw [if_pos hren] at hname
    refine ⟨_, hname, ?_⟩
    have hold : key = .text ρ.old := by
      have hk' : Name.ofTree? (ref.identifier.value.get "name") = some key := hk
      rw [hren.2] at hk'
      exact (Option.some.inj hk').symm
    by_cases hi : i = ρ.scope
    · subst hi
      rw [ρ.table_scope, Table.find?_rekey (h.free hs ha rfl), if_pos rfl, ← hold, hf]
    · -- Below its scope, a use of the variable finds the new name bound nowhere.
      rw [ρ.table_of_ne hi]
      have hres := (h.uses r ref' href').1 (huse ▸ hren.1)
      cases hnew : a.table.find? (.text ρ.new) with
      | none => rfl
      | some w =>
          have := hab.table _ w (text_ne h.new) hnew
          rw [h.way r ref' i b href' hres hrF hb] at this
          cases this
  · rw [if_neg hren] at hname
    refine ⟨key, hname.trans hk, ?_⟩
    by_cases hi : i = ρ.scope
    · subst hi
      have hnew : key ≠ .text ρ.new := by
        rintro rfl
        refine h.through r ref' hrF href' ?_
        rw [Reference.name, huse]
        exact hk
      rw [ρ.table_scope, Table.find?_rekey (h.free hs ha rfl), if_neg hnew]
      split
      · rfl
      · exact hf
    · rw [ρ.table_of_ne hi, hf]

theorem settle (h : ρ.Safe F) (hs : s.Sound) (hE : t.Becomes F) {r : ReferenceId}
    (hr : (settle i r).outcome s = (.ok (), t)) :
    (Action.settle i r).outcome (s.rename ρ) = (.ok (), t.rename ρ) := by
  have hEs := (settle_changes hs hr).becomes hs hE
  obtain ⟨ref, key, a, href, hk, ha, hcase⟩ := settle_ok_iff.1 hr
  have href' : (s.rename ρ).referenceAt? r = some (ref.rename ρ) := by
    rw [referenceAt?_rename, href]
    rfl
  have ha' : (s.rename ρ).scopeAt? i = some (a.rename ρ i) := by rw [scopeAt?_rename, ha]; rfl
  rcases hcase with ⟨v, hf, rfl⟩ | ⟨hf, hup⟩
  · obtain ⟨var, hvar, -⟩ := hs.of_find? ha hf
    have hlink := mem_linksOf_link (r := r) (o := ref.scope) (variableAt?_lt hvar)
    have href'' : (s.link r ref.scope v).referenceAt? r = some { ref with resolved := some v } := by
      rw [referenceAt?_link, if_pos rfl, href]
      rfl
    have hf' := ρ.find?_table (fun hi => h.free hEs ha hi) (h.ne_new hEs ha hf)
    have hname := h.ofTree?_of_link hE href'' hlink hk (h.entry_iff hs hEs ha hf)
    exact settle_ok_iff.2 ⟨_, _, _, href', hname, ha',
      .inl ⟨v, hf'.trans hf, rename_link r ref.scope v⟩⟩
  · obtain ⟨key', hk', hf'⟩ := h.find?_of_through hEs hE ((handUp_referenceAt? hup).trans href) hk
      (mem_throughAt_handUp hup) ha hf
    exact settle_ok_iff.2 ⟨_, key', _, href', hk', ha', .inr ⟨hf', handUp hup⟩⟩

/-! ### Several steps -/

/-- Steps that each can be followed in another store can be followed together.  What comes before
(`I`) is known going forwards, what comes after (`R`) going backwards. -/
theorem forM_follow {α β : Type} {f : α → Action Unit} {g : β → Action Unit} {κ : α → β}
    {φ : Store → Store} {I R : Store → Prop} {l : List α}
    (hl : (l.forM f).outcome s = (.ok (), t)) (hI : I s) (hR : R t)
    (step : ∀ a u v, I u → (f a).outcome u = (.ok (), v) →
      I v ∧ (R v → R u ∧ (g (κ a)).outcome (φ u) = (.ok (), φ v))) :
    R s ∧ ((l.map κ).forM g).outcome (φ s) = (.ok (), φ t) := by
  induction l generalizing s with
  | nil =>
      obtain rfl := forM_nil_ok_iff.1 hl
      exact ⟨hR, forM_nil_ok_iff.2 rfl⟩
  | cons a l ih =>
      obtain ⟨u, ha, hl⟩ := forM_cons_ok_iff.1 hl
      obtain ⟨hIu, hback⟩ := step a s u hI ha
      obtain ⟨hRu, hrest⟩ := ih hl hIu
      obtain ⟨hRs, hfirst⟩ := hback hRu
      exact ⟨hRs, forM_cons_ok_iff.2 ⟨φ u, hfirst, hrest⟩⟩

theorem settleAll (h : ρ.Safe F) (hs : s.Sound) (hE : t.Becomes F) {settled : Bool}
    {l : List ReferenceId} (hset : (settleAll i settled l).outcome s = (.ok (), t)) :
    (Action.settleAll i settled l).outcome (s.rename ρ) = (.ok (), t.rename ρ) := by
  cases settled with
  | true =>
      have hfollow := forM_follow (f := Action.settle i) (g := Action.settle i) (κ := id)
        (φ := rename ρ) (I := Sound) (R := fun u => u.Becomes F) hset hs hE
        fun r u v hu hr => ⟨Changes.sound (settle_changes hu hr) hu, fun hv =>
          ⟨(settle_changes hu hr).becomes hu hv, h.settle hu hv hr⟩⟩
      rw [List.map_id] at hfollow
      exact hfollow.2
  | false =>
      have hfollow := forM_follow (f := Action.escape i) (g := Action.escape i) (κ := id)
        (φ := rename ρ) (I := fun _ => True) (R := fun _ => True) hset trivial trivial
        fun r u v _ hr => ⟨trivial, fun _ => ⟨trivial, escape hr⟩⟩
      rw [List.map_id] at hfollow
      exact hfollow.2

/-! ### Implicit globals -/

theorem openCandidates {table table' : Table VariableId} {l : List ReferenceId}
    {cs : List Candidate}
    (hopen : ∀ r ∈ l, ∀ ref key, s.referenceAt? r = some ref → Name.ofTree? ref.name = some key →
      ∃ key', Name.ofTree? (ref.rename ρ).name = some key' ∧
        (table'.find? key').isSome = (table.find? key).isSome)
    (hc : (openCandidates table l).outcome s = (.ok cs, t)) :
    (Action.openCandidates table' l).outcome (s.rename ρ) =
      (.ok (cs.map (Candidate.rename ρ)), s.rename ρ) := by
  induction l generalizing cs with
  | nil =>
      obtain ⟨rfl, rfl⟩ := pure_ok_iff.1 hc
      rfl
  | cons r l ih =>
      have hrest := fun q hq => hopen q (List.mem_cons_of_mem r hq)
      obtain ⟨ref, href, hcase⟩ := openCandidates_cons_ok_iff.1 hc
      have href' : (s.rename ρ).referenceAt? r = some (ref.rename ρ) := by
        rw [referenceAt?_rename, href]
        rfl
      have hcand : (ref.rename ρ).candidate = ref.candidate.map (Candidate.rename ρ) := rfl
      refine openCandidates_cons_ok_iff.2 ⟨_, href', ?_⟩
      obtain ⟨hnone, hl⟩ | ⟨c, key, others, hsome, hk, hl, rfl⟩ := hcase
      · exact .inl ⟨by rw [hcand, hnone]; rfl, ih hrest hl⟩
      · obtain ⟨key', hk', hfind⟩ := hopen r List.mem_cons_self ref key href hk
        refine .inr ⟨c.rename ρ, key', _, by rw [hcand, hsome]; rfl, hk', ih hrest hl, ?_⟩
        rw [hfind]
        split <;> rfl

theorem makeImplicit (h : ρ.Safe F) (hs : s.Sound) (hE : t.Becomes F) {c : Candidate}
    (hm : (makeImplicit i c).outcome s = (.ok (), t)) :
    (Action.makeImplicit i (c.rename ρ)).outcome (s.rename ρ) = (.ok (), t.rename ρ) := by
  obtain ⟨v, u, key, hdef, hk, rfl⟩ := makeImplicit_ok_iff.1 hm
  obtain ⟨key', b, var, hk', hb, hf, hvar, -, hd⟩ := define_bound hs hdef
  obtain rfl : key = key' := Option.some.inj (hk.symm.trans hk')
  have hu : u.Sound := Changes.sound (define_quiets (A := fun _ => True) hdef trivial).changes hs
  have hnote : Quiets (fun _ => True) u (u.updateScope i (·.bindImplicit key v)) :=
    .single (.bindImplicit trivial hb hf)
  have hEu := hnote.changes.becomes hu hE
  obtain ⟨-, hkey, hnew⟩ := h.isRenamed_iff hu hEu (n := c.pattern) rfl hk hb hf hvar hd
  have hdef' := h.define hs hEu (n := c.pattern) rfl hdef
  have hname := ofTree?_of_iff hk hkey
  have himp := rename_bindImplicit (v := v) (fun a ha hi => h.free_implicit hu hEu ha hi) hnew
  rw [himp]
  exact makeImplicit_ok_iff.2 ⟨v, u.rename ρ, ρ.key i key, hdef', hname, rfl⟩

/-- A reference that a scope settles at its close finds an entry in the renamed table exactly if it
found one before, also while implicit globals are still to be made. -/
theorem isSome_of_settled (h : ρ.Safe F) {u : Store} {b : Scope} {l : List ReferenceId}
    {r : ReferenceId} {ref : Reference} (hst : s.Becomes t) (ht : t.Sound) (htF : t.Becomes F)
    (hset : (l.forM (Action.settle i)).outcome t = (.ok (), u)) (huF : u.Becomes F) (hr : r ∈ l)
    (href : s.referenceAt? r = some ref) (hk : Name.ofTree? ref.name = some key)
    (ha : s.scopeAt? i = some a) (hb : t.scopeAt? i = some b) :
    ∃ key', Name.ofTree? (ref.rename ρ).name = some key' ∧
      ((ρ.table i a.table).find? key').isSome = (a.table.find? key).isSome := by
  have hsF : s.Becomes F := hst.trans htF
  have hfree := fun hi => h.free hsF ha hi
  have hrest : (Action.settleAll i true l).outcome t = (.ok (), u) := hset
  have htu : t.Becomes u :=
    ((settleAll_changes ht (scopeAt?_lt hb) hrest).evolves ht).mono fun _ _ => trivial
  obtain ⟨ref', href', huse, -⟩ := (hst.trans htu).reference r ref href
  have hk' : Name.ofTree? ref'.name = some key := by
    rw [Reference.name, huse]
    exact hk
  have hname : (ref'.rename ρ).name = (ref.rename ρ).name := by
    simp only [Reference.name, Reference.rename, huse]
  obtain ⟨reft, hreft, huset, -⟩ := hst.reference r ref href
  have hkt : Name.ofTree? reft.name = some key := by
    rw [Reference.name, huset]
    exact hk
  -- What becomes of the reference when it is settled says what its new name finds before.
  rcases settled ht hset hr hreft hkt hb with ⟨v, hf, hlink⟩ | ⟨hf, hthrough⟩
  · have hkey := h.ofTree?_of_link huF href' hlink hk' (h.entry_iff ht htF hb hf)
    rw [hname] at hkey
    exact ⟨_, hkey, by rw [ρ.find?_table hfree (h.ne_new htF hb hf)]⟩
  · by_cases harg : key = .text argumentsName
    · -- Nothing can be said of `arguments`, but neither name is that one.
      subst harg
      have hren : ¬ ref.identifier.IsRenamed ρ := by
        intro hren
        have hold : Name.ofTree? (ref.identifier.value.get "name") = _ := hk
        rw [hren.2] at hold
        exact text_ne h.old (Option.some.inj hold)
      have hkey := ref.identifier.ofTree?_name_rename ρ
      rw [if_neg hren] at hkey
      refine ⟨_, hkey.trans hk, ?_⟩
      rw [← ρ.find?_table hfree fun _ => (text_ne h.new).symm,
        ρ.key_of_ne fun e => text_ne h.old e.2.symm]
    · have hfa : a.table.find? key = none := by
        cases hfa : a.table.find? key with
        | none => rfl
        | some w =>
            obtain ⟨b', hb', hw⟩ := entry hst ha harg hfa
            obtain rfl : b = b' := Option.some.inj (hb.symm.trans hb')
            rw [hf] at hw
            cases hw
      obtain ⟨key', hkey, hnone⟩ := h.find?_of_through hsF huF href' hk' hthrough ha hfa
      rw [hname] at hkey
      exact ⟨key', hkey, by rw [hnone, hfa]⟩

theorem bindImplicits (h : ρ.Safe F) (hs : s.Sound) {u : Store} {l : List ReferenceId}
    (ha : s.scopeAt? i = some a) (hb : (bindImplicits i a l).outcome s = (.ok (), t))
    (htF : t.Becomes F) (hset : a.kind = .global →
      (l.forM (Action.settle i)).outcome t = (.ok (), u)) (huF : u.Becomes F) :
    (Action.bindImplicits i (a.rename ρ i) l).outcome (s.rename ρ) = (.ok (), t.rename ρ) := by
  have hst : s.Becomes t :=
    ((bindImplicits_quiets hs hb).changes.evolves hs).mono fun _ _ => trivial
  have ht := (bindImplicits_quiets hs hb).changes.sound hs
  have hkind : (a.rename ρ i).kind = a.kind := rfl
  rw [Action.bindImplicits] at hb ⊢
  rw [hkind]
  by_cases hk : a.kind = .global
  · rw [if_pos hk] at hb ⊢
    obtain ⟨cs, s', hc, hl⟩ := bind_ok_iff.1 hb
    obtain rfl := (openCandidates_ok hc).symm
    -- Which candidates are open is asked of the table before any of them is bound.
    have hopen : ∀ r ∈ l, ∀ ref key, s.referenceAt? r = some ref →
        Name.ofTree? ref.name = some key → ∃ key', Name.ofTree? (ref.rename ρ).name = some key' ∧
          ((ρ.table i a.table).find? key').isSome = (a.table.find? key).isSome := by
      intro r hr ref key href hkey
      obtain ⟨b, hb, -⟩ := hst.scope i a ha
      exact h.isSome_of_settled hst ht htF (hset hk) huF hr href hkey ha hb
    have hfollow := forM_follow (g := Action.makeImplicit i) (κ := Candidate.rename ρ)
      (φ := rename ρ) (I := Sound) (R := fun u => u.Becomes F) hl hs htF
      fun c v w hv hm => ⟨(makeImplicit_quiets hv hm).changes.sound hv, fun hw =>
        ⟨(makeImplicit_quiets hv hm).changes.becomes hv hw, h.makeImplicit hv hw hm⟩⟩
    exact bind_ok_iff.2 ⟨_, _, openCandidates hopen hc, hfollow.2⟩
  · rw [if_neg hk] at hb ⊢
    rw [(pure_ok_iff.1 hb).2]
    rfl

/-! ### Closing a scope -/

/-- **Closing a scope comes to the renamed store in the renamed one.** -/
theorem close (h : ρ.Safe F) (hs : s.Sound) (hE : t.Becomes F) {up : Option ScopeId}
    (hc : (close i).outcome s = (.ok up, t)) :
    (Action.close i).outcome (s.rename ρ) = (.ok up, t.rename ρ) := by
  obtain ⟨a, l, u, w, last, ha, hp, hb, hset, hl, hobj, rfl, rfl⟩ := close_ok_iff.1 hc
  have hq := bindImplicits_quiets hs hb
  have hu := hq.changes.sound hs
  obtain ⟨b, hbu, -⟩ := (hq.changes.evolves hs).scope i a ha
  have huw := settleAll_changes hu (scopeAt?_lt hbu) hset
  have hw := huw.sound hu
  -- Each store on the way comes to the one at the end, where safety is known.
  have hshut : Changes (fun _ => True) w
      ((w.updateScope i (·.shut)).record (closedEntry last)) :=
    .tail (.single (.shut trivial)) (.quiet (.record _))
  have hwF := hshut.becomes hw hE
  have huF := huw.becomes hu hwF
  have hglobal : a.kind = .global → (l.forM (Action.settle i)).outcome u = (.ok (), w) := by
    intro hk
    have hsettles : settles u.options a = true := by simp [settles, hk]
    rw [hsettles] at hset
    exact hset
  have hentry : closedEntry (last.rename ρ i) = closedEntry last := by
    have htype : (last.rename ρ i).block.type = last.block.type := last.block.type_rename ρ
    simp only [closedEntry, htype]
    rfl
  have hobj' : (last.rename ρ i).block.isObj = true := (last.block.isObj_rename ρ).trans hobj
  refine close_ok_iff.2 ⟨a.rename ρ i, l, u.rename ρ, w.rename ρ, last.rename ρ i,
    by rw [scopeAt?_rename, ha]; rfl, hp, h.bindImplicits hs ha hb huF hglobal hwF,
    h.settleAll hu hwF hset, by rw [scopeAt?_rename, hl]; rfl, hobj', rfl, ?_⟩
  rw [hentry, rename_record, rename_updateScope (g := (·.shut)) fun _ _ => rfl]

end Renaming.Safe

end LexScope
