import Mathlib
import LexScope.Analyze

/-!
# Proofs — Overrides — overrides of a mapping and overrides of options

An analysis can be given its options by a mapping or as options, and overrides are laid over either.
Options are read first and overridden then, so every override counts.  A mapping is overridden first
and read then: an override takes the place of the member with its plain name, and a member further
on that spells the same setting in the other way is read after it.

* `Setting.last?`, `Setting.after?`: what the members of a mapping say of a setting, and what they
  say of it after its plain name.
* `last?_layOver`: what is said of a setting once overrides are laid over.
* `resolve_overrides`: **an override of a mapping is lost exactly if the mapping has the other
  spelling of its setting, with another value, after the plain one.**
-/

namespace LexScope

/-! ### Settings and their values -/

/-- The members of a tree that is an object, none of any other. -/
def Tree.members : Tree → List (String × Tree)
  | .obj members => members
  | _ => []

theorem Tree.members_of_falsy {t : Tree} (h : t.truthy = false) : t.members = [] := by
  cases t with
  | obj ms => simpa [truthy, members] using h
  | _ => rfl

/-- The value that a draft has for a setting. -/
def Draft.get (d : Draft) : Setting → Tree
  | .ecmaVersion => d.ecmaVersion
  | .sourceType => d.sourceType
  | .directive => d.directive
  | .optimistic => d.optimistic
  | .ignoreEval => d.ignoreEval
  | .impliedStrict => d.impliedStrict

/-- The value that options have for a setting. -/
def Options.value (o : Options) (s : Setting) : Tree := o.draft.get s

namespace Draft

theorem get_set (d : Draft) (s s' : Setting) (t : Tree) :
    (d.set s t).get s' = if s = s' then t else d.get s' := by
  cases s <;> cases s' <;> rfl

/-- Drafts with the same values are the same. -/
theorem eq_of_get {d d' : Draft} (h : ∀ s, d.get s = d'.get s) : d = d' := by
  obtain ⟨a, b, c, e, f, g⟩ := d
  obtain ⟨a', b', c', e', f', g'⟩ := d'
  simp only [Draft.mk.injEq]
  exact ⟨h .ecmaVersion, h .sourceType, h .directive, h .optimistic, h .ignoreEval,
    h .impliedStrict⟩

/-- A draft that is accepted is the draft of what it is accepted as. -/
theorem eq_of_validate {d : Draft} {o : Options} (h : d.validate = .ok o) : o.draft = d := by
  obtain ⟨version, source, a, b, c, e⟩ := d
  unfold validate at h
  dsimp only at h
  split at h
  · cases h
  · rename_i sourceType v hs
    cases h
    have hsource : source = .str sourceType.text := by
      unfold SourceType.ofTree? at hs
      split at hs <;> cases hs <;> rfl
    rw [hsource]
    rfl
  · cases h

end Draft

/-- Options with the same values are the same. -/
theorem Options.eq_of_value {o o' : Options} (h : ∀ s, o.value s = o'.value s) : o = o' := by
  have hdraft : o.draft = o'.draft := Draft.eq_of_get h
  obtain ⟨version, source, a, b, c, e⟩ := o
  obtain ⟨version', source', a', b', c', e'⟩ := o'
  simp only [draft, Draft.mk.injEq, Tree.int.injEq, Tree.str.injEq] at hdraft
  obtain ⟨rfl, hsource, rfl, rfl, rfl, rfl⟩ := hdraft
  have : source = source' := by
    cases source <;> cases source' <;> first | rfl | exact absurd hsource (by decide)
  rw [this]

/-! ### What members say of a setting -/

namespace Setting

/-- The plain name of a setting. -/
def field : Setting → String
  | .ecmaVersion => "ecma_version"
  | .sourceType => "source_type"
  | .directive => "directive"
  | .optimistic => "optimistic"
  | .ignoreEval => "ignore_eval"
  | .impliedStrict => "implied_strict"

/-- What the last of the members about a setting says, in whatever spelling. -/
def last? (s : Setting) : List (String × Tree) → Option Tree
  | [] => none
  | (key, t) :: rest => (last? s rest).or (if ofKey? key = some s then some t else none)

/-- What the last of the members about a setting says, of those after its plain name. -/
def after? (s : Setting) : List (String × Tree) → Option Tree
  | [] => none
  | (key, _) :: rest => if key = s.field then last? s rest else after? s rest

variable {s s' : Setting} {key : String} {members overrides : List (String × Tree)} {v : Tree}

theorem ofKey?_field (s : Setting) : ofKey? s.field = some s := by cases s <;> rfl

theorem eq_field_of_ofField? (h : ofField? key = some s) : key = s.field := by
  unfold ofField? at h
  split at h <;> cases h <;> rfl

/-! ### What laying one member over changes -/

theorem last?_layMember : s.last? (Options.layMember members (s'.field, v)) =
    if s = s' then some ((s.after? members).getD v) else s.last? members := by
  have hown : ofKey? s'.field = some s ↔ s = s' := by
    rw [ofKey?_field, Option.some.injEq, eq_comm]
  induction members with
  | nil =>
      simp only [Options.layMember, last?, after?, hown]
      split <;> rfl
  | cons m rest ih =>
      obtain ⟨key, t⟩ := m
      by_cases hk : key = s'.field
      · subst hk
        simp only [Options.layMember, if_true, last?, after?, hown]
        by_cases hs : s = s'
        · subst hs
          rw [if_pos rfl, if_pos rfl, if_pos rfl]
          cases s.last? rest <;> rfl
        · rw [if_neg hs, if_neg hs, if_neg hs]
      · simp only [Options.layMember, if_neg hk, last?, ih]
        by_cases hs : s = s'
        · subst hs
          rw [if_pos rfl, if_pos rfl, after?, if_neg hk]
          rfl
        · rw [if_neg hs, if_neg hs]

/-- What comes after the plain name of a setting stays where it is. -/
theorem after?_layMember :
    s.after? (Options.layMember members (s'.field, v)) = s.after? members := by
  induction members with
  | nil => simp only [Options.layMember, after?, last?, ite_self]
  | cons m rest ih =>
      obtain ⟨key, t⟩ := m
      by_cases hk : key = s'.field
      · subst hk
        simp only [Options.layMember, if_true, after?]
      · simp only [Options.layMember, if_neg hk, after?, ih]
        by_cases hs : key = s.field
        · have hne : s ≠ s' := by
            rintro rfl
            exact hk hs
          rw [if_pos hs, if_pos hs, last?_layMember, if_neg hne]
        · rw [if_neg hs, if_neg hs]

/-- What is said of a setting once overrides are laid over: the last override of it, unless the
members speak of it again after its plain name. -/
theorem last?_layOver (h : ∀ m ∈ overrides, ∃ s : Setting, m.1 = s.field) :
    s.last? (Options.layOver members overrides) =
      ((s.last? overrides).map (s.after? members).getD).or (s.last? members) := by
  induction overrides generalizing members with
  | nil => rfl
  | cons m overrides ih =>
      obtain ⟨key, v⟩ := m
      obtain ⟨s', rfl⟩ := h _ List.mem_cons_self
      have hlay : Options.layOver members ((s'.field, v) :: overrides) =
          Options.layOver (Options.layMember members (s'.field, v)) overrides := rfl
      rw [hlay, ih fun m hm => h m (List.mem_cons_of_mem _ hm), after?_layMember,
        last?_layMember, last?, ofKey?_field]
      cases s.last? overrides with
      | some w => rfl
      | none =>
          by_cases hs : s = s'
          · subst hs
            simp
          · simp [hs, Ne.symm hs]

end Setting

/-! ### How mappings and fields are read -/

namespace Draft

variable {d d' : Draft} {members : List (String × Tree)}

/-- Members read in order leave each setting with what the last of them says of it. -/
theorem get_of_setKeys (h : d.setKeys members = .ok d') (s : Setting) :
    d'.get s = (s.last? members).getD (d.get s) := by
  induction members generalizing d with
  | nil =>
      cases h
      rfl
  | cons m rest ih =>
      obtain ⟨key, t⟩ := m
      rw [setKeys] at h
      split at h
      · rename_i s' hs'
        rw [ih h, get_set, Setting.last?]
        cases s.last? rest with
        | some w => rfl
        | none => by_cases hs : s' = s <;> simp [hs', hs]
      · cases h

/-- Fields are members with plain names. -/
theorem setKeys_of_setFields (h : d.setFields members = .ok d') :
    d.setKeys members = .ok d' ∧ ∀ m ∈ members, ∃ s : Setting, m.1 = s.field := by
  induction members generalizing d with
  | nil => exact ⟨h, nofun⟩
  | cons m rest ih =>
      obtain ⟨key, t⟩ := m
      rw [setFields] at h
      split at h
      · rename_i s hs
        obtain rfl := Setting.eq_field_of_ofField? hs
        obtain ⟨hrest, hfields⟩ := ih h
        refine ⟨?_, List.forall_mem_cons.2 ⟨⟨s, rfl⟩, hfields⟩⟩
        rw [setKeys, Setting.ofKey?_field]
        exact hrest
      · cases h

end Draft

namespace Options

variable {t : Tree} {o o' : Options} {overrides members : List (String × Tree)} {s : Setting}

theorem value_of_setKeys {d : Draft}
    (h : (d.setKeys members >>= Draft.validate) = .ok o) :
    o.value s = (s.last? members).getD (d.get s) := by
  cases hd : d.setKeys members with
  | error e =>
      rw [hd] at h
      cases h
  | ok d' =>
      rw [hd] at h
      have hdraft : o.draft = d' := Draft.eq_of_validate h
      rw [value, hdraft]
      exact Draft.get_of_setKeys hd s

theorem value_of_ofMapping (h : ofMapping t = .ok o) :
    o.value s = (s.last? t.members).getD (({} : Draft).get s) := by
  unfold ofMapping at h
  split at h
  · rename_i ht
    cases h
    rw [Tree.members_of_falsy (by simpa using ht)]
    cases s <;> rfl
  · split at h
    · exact value_of_setKeys h
    · cases h

theorem value_of_ofMappingWith (h : ofMappingWith t overrides = .ok o)
    (hfields : ∀ m ∈ overrides, ∃ s : Setting, m.1 = s.field) :
    o.value s = (s.last? (layOver t.members overrides)).getD (({} : Draft).get s) := by
  unfold ofMappingWith at h
  split at h
  · rename_i ht
    rw [Setting.last?_layOver hfields, Tree.members_of_falsy (by simpa using ht),
      value_of_ofMapping h]
    show (s.last? overrides).getD _ = _
    cases s.last? overrides <;> rfl
  · split at h
    · exact value_of_ofMapping h
    · cases h

theorem value_of_withFields (h : o.withFields overrides = .ok o') :
    o'.value s = (s.last? overrides).getD (o.value s) ∧
      ∀ m ∈ overrides, ∃ s : Setting, m.1 = s.field := by
  rw [withFields] at h
  cases hd : o.draft.setFields overrides with
  | error e =>
      rw [hd] at h
      cases h
  | ok d =>
      obtain ⟨hkeys, hfields⟩ := Draft.setKeys_of_setFields hd
      rw [hd] at h
      refine ⟨value_of_setKeys (d := o.draft) ?_, hfields⟩
      rw [hkeys]
      exact h

end Options

/-! ### Overrides of a mapping and of its options -/

/-- **When an override counts.**  Overrides of options always count: the settings overridden have
their values, all others stay.  Overrides of the mapping the options come from say the same of every
setting, except that one is lost to a member of the mapping that spells its setting in the other way
after the plain one; so both ways lead to the same options exactly if no such member says anything
else than the override. -/
theorem Given.resolve_overrides {t : Tree} {overrides : List (String × Tree)} {o o₁ o₂ : Options}
    (hbase : Options.ofMapping t = .ok o)
    (hmapping : (Given.mapping t).resolve overrides = .ok o₁)
    (hoptions : (Given.options o).resolve overrides = .ok o₂) :
    (∀ s : Setting, o₂.value s = (s.last? overrides).getD (o.value s)) ∧
      (∀ s : Setting, o₁.value s =
        ((s.last? overrides).map (s.after? t.members).getD).getD (o.value s)) ∧
      (o₁ = o₂ ↔ ∀ (s : Setting) v w, s.last? overrides = some v → s.after? t.members = some w → w = v) := by
  unfold resolve at hmapping hoptions
  split at hmapping
  · cases hmapping
  rename_i hnames
  rw [if_neg hnames] at hoptions
  obtain ⟨-, hfields⟩ := Options.value_of_withFields (s := .directive) hoptions
  have hobject : ∀ s : Setting, o₂.value s = (s.last? overrides).getD (o.value s) := fun s =>
    (Options.value_of_withFields hoptions).1
  have hmap : ∀ s : Setting, o₁.value s =
      ((s.last? overrides).map (s.after? t.members).getD).getD (o.value s) := by
    intro s
    rw [Options.value_of_ofMappingWith hmapping hfields, Setting.last?_layOver hfields,
      Options.value_of_ofMapping hbase]
    cases s.last? overrides <;> rfl
  refine ⟨hobject, hmap, ?_, fun h => Options.eq_of_value fun s => ?_⟩
  · rintro rfl s v w hv hw
    have hsame := (hmap s).symm.trans (hobject s)
    rw [hv, hw] at hsame
    exact hsame
  · rw [hmap, hobject]
    cases hv : s.last? overrides with
    | none => rfl
    | some v =>
        cases hw : s.after? t.members with
        | none => rfl
        | some w => exact h s v w hv hw

/-- A mapping in which a setting has both its names, the plain one in front. -/
def spelledTwice : Tree := .obj [("ecma_version", .int 5), ("ecmaVersion", .int 6)]

/-- Of two overrides, the one of a setting that is spelled twice is lost, and the other is not. -/
theorem Given.spelledTwice_overrides : ∃ o o₁ o₂ : Options,
    Options.ofMapping spelledTwice = .ok o ∧
      (Given.mapping spelledTwice).resolve [("ecma_version", .int 7), ("directive", .bool true)] =
        .ok o₁ ∧
      (Given.options o).resolve [("ecma_version", .int 7), ("directive", .bool true)] = .ok o₂ ∧
      o₂.value .ecmaVersion = .int 7 ∧ o₁.value .ecmaVersion = .int 6 ∧
      o₁.value .directive = .bool true ∧ o₁ ≠ o₂ := by
  have hbase : Options.ofMapping spelledTwice = .ok {} := rfl
  have hmapping : (Given.mapping spelledTwice).resolve
      [("ecma_version", .int 7), ("directive", .bool true)] =
        .ok { directive := .bool true } := rfl
  have hoptions : (Given.options {}).resolve
      [("ecma_version", .int 7), ("directive", .bool true)] =
        .ok { ecmaVersion := 7, directive := .bool true } := rfl
  obtain ⟨h₂, h₁, hiff⟩ := Given.resolve_overrides hbase hmapping hoptions
  refine ⟨_, _, _, hbase, hmapping, hoptions, h₂ .ecmaVersion, h₁ .ecmaVersion, h₁ .directive,
    fun heq => ?_⟩
  have hlost := hiff.1 heq .ecmaVersion (.int 7) (.int 6) rfl rfl
  cases hlost

/-- The two ways to override a setting lead to different options. -/
theorem Given.override_lost :
    Options.ofMapping spelledTwice = .ok { ecmaVersion := 6 } ∧
      (Given.mapping spelledTwice).resolve [("ecma_version", .int 7)] =
        .ok { ecmaVersion := 6 } ∧
      (Given.options { ecmaVersion := 6 }).resolve [("ecma_version", .int 7)] =
        .ok { ecmaVersion := 7 } :=
  ⟨rfl, rfl, rfl⟩

end LexScope
