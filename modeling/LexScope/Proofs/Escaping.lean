import LexScope.Proofs.SoleProgram
import LexScope.Proofs.Report

/-!
# Proofs — Escaping — implicit globals are the writes that escape

A reference *escapes* when it carries a candidate and nothing on its way up stops it: no scope is a
barrier, and none declares its name (`Store.isEscaping`).  An implicit variable declares nothing, so
that references of one name do not hide one another.

* `Sole.mem_escapingAs_iff`: what escapes under a name is what arrives in the global scope, if an
  implicit variable was made there.
* `analyze_implicit`: **the implicit globals of a sole program are the writes that escape**, in the
  table, definition by definition, and in the report.
-/

namespace LexScope

open Store LexScope.Action

/-! ### What escapes -/

/-- Whether a scope binds a name by something other than a write. -/
def Scope.declares (a : Scope) (name : Tree) : Bool :=
  (Name.ofTree? name).any fun key =>
    (a.table.find? key).isSome && decide (a.implicit.find? key ≠ a.table.find? key)

namespace Store

/-- Whether a reference with a candidate is stopped by nothing on its way up. -/
def isEscaping (s : Store) (ref : Reference) : Bool :=
  ref.candidate.isSome && (s.chain ref.scope).all fun i =>
    (s.scopeAt? i).all fun a => !a.isBarrier s.options && !a.declares ref.name

/-- The references that escape, in the order in which they were made. -/
def escaping (s : Store) : List ReferenceId :=
  (List.range s.references.size).filter fun r => (s.referenceAt? r).any s.isEscaping

/-- The references that escape under a name. -/
def escapingAs (s : Store) (key : Name) : List ReferenceId :=
  s.escaping.filter fun r => (s.referenceAt? r).any fun ref =>
    decide (Name.ofTree? ref.name = some key)

/-- Whether a definition is the one that a write makes: the identifier written to, on behalf of the
assignment or the iteration that writes to it. -/
def IsWrittenBy (s : Store) (r : ReferenceId) (d : Definition) : Prop :=
  ∃ ref type, s.referenceAt? r = some ref ∧ ref.candidate = some ⟨ref.identifier, d.node⟩ ∧
    d.kind = .variable ∧ d.name = ref.identifier ∧ d.node.typeName? = some type ∧
    (Walk.Family.ofType type = .assignment ∨ Walk.Family.ofType type = .iteration) ∧
    ref.identifier ∈ Pattern.bound (d.node.get "left")

/-- Whether an issue reports that a reference made a global variable. -/
def Reports (s : Store) (r : ReferenceId) (issue : Issue) : Prop :=
  ∃ ref name, s.referenceAt? r = some ref ∧ issue.finding = .implicitGlobal name ∧
    Name.ofTree? name = Name.ofTree? ref.name ∧
    ref.identifier.position? = some issue.position

variable {s : Store} {a : Scope} {r : ReferenceId} {ref : Reference} {key : Name} {v : VariableId}

theorem mem_escaping_iff :
    r ∈ s.escaping ↔ ∃ ref, s.referenceAt? r = some ref ∧ s.isEscaping ref = true := by
  rw [escaping, List.mem_filter, List.mem_range, Option.any_eq_true]
  exact ⟨fun h => h.2, fun ⟨ref, href, he⟩ => ⟨referenceAt?_lt href, ref, href, he⟩⟩

theorem mem_escapingAs_iff : r ∈ s.escapingAs key ↔ ∃ ref, s.referenceAt? r = some ref ∧
    s.isEscaping ref = true ∧ Name.ofTree? ref.name = some key := by
  rw [escapingAs, List.mem_filter, mem_escaping_iff, Option.any_eq_true]
  constructor
  · rintro ⟨⟨ref, href, he⟩, ref', href', hk⟩
    obtain rfl := Option.some.inj (href.symm.trans href')
    exact ⟨ref, href, he, of_decide_eq_true hk⟩
  · rintro ⟨ref, href, he, hk⟩
    exact ⟨⟨ref, href, he⟩, ref, href, decide_eq_true hk⟩

theorem pairwise_escapingAs (s : Store) (key : Name) : (s.escapingAs key).Pairwise (· < ·) :=
  (List.pairwise_lt_range.filter _).filter _

theorem declares_eq_false_iff (hk : Name.ofTree? ref.name = some key) :
    a.declares ref.name = false ↔
      ∀ v, a.table.find? key = some v → a.implicit.find? key = some v := by
  rw [Scope.declares, hk, Option.any_some]
  cases a.table.find? key <;> simp

theorem isEscaping_iff : s.isEscaping ref = true ↔ ref.candidate.isSome = true ∧
    ∀ i ∈ s.chain ref.scope, ∀ a, s.scopeAt? i = some a →
      a.isBarrier s.options = false ∧ a.declares ref.name = false := by
  simp [isEscaping, Option.all_eq_true]

/-! ### In the store of a sole program -/

theorem Sole.chain_zero (h : s.Sole a) : s.chain 0 = [0] := by
  refine chain_top h.sound.rooted ?_
  cases hu : s.upperOf 0 with
  | none => rfl
  | some u => exact absurd (h.sound.rooted 0 u hu) (Nat.not_lt_zero u)

theorem Sole.home (h : s.Sole a) (href : s.referenceAt? r = some ref) : 0 ∈ s.chain ref.scope :=
  h.below _ (h.books.home r ref href)

/-- The way up of a reference ends in the global scope, and nothing before it is global. -/
theorem Sole.way (h : s.Sole a) (href : s.referenceAt? r = some ref) :
    ∃ l, s.chain ref.scope = l ++ [0] ∧ ∀ i ∈ l, i ≠ 0 := by
  obtain ⟨l, hl⟩ := chain_split h.sound.rooted (h.home href)
  rw [h.chain_zero] at hl
  refine ⟨l, hl, ?_⟩
  rintro i hi rfl
  have hnodup := nodup_chain h.sound.rooted ref.scope
  rw [hl] at hnodup
  exact List.disjoint_of_nodup_append hnodup hi List.mem_cons_self

theorem Sole.not_pending (h : s.Sole a) (i : ScopeId) : r ∉ s.pendingAt i :=
  fun hr => h.closed i (isOpen_of_pendingAt hr)

/-- What is not stopped at a barrier has a name. -/
theorem Sole.named (h : s.Sole a) (href : s.referenceAt? r = some ref)
    (hb : ∀ i ∈ s.chain ref.scope, ∀ b, s.scopeAt? i = some b → b.isBarrier s.options = false) :
    ∃ key, Name.ofTree? ref.name = some key := by
  have hv := h.verdict r ref href
  cases hres : ref.resolved with
  | some v =>
      obtain ⟨-, -, -, -, key, -, -, -, -, -, hk, -⟩ := hv.resolved v hres
      exact ⟨key, hk⟩
  | none =>
      rcases hv.escaped hres fun i => h.not_pending i with hc | ⟨l, i, rest, b, hl, -, -, hsc, hbar⟩
      · obtain ⟨-, b, key, -, -, hk, -⟩ := hc 0 (h.home href)
        exact ⟨key, hk⟩
      · have hi : i ∈ s.chain ref.scope := hl ▸ List.mem_append_right l List.mem_cons_self
        rw [hb i hi b hsc] at hbar
        cases hbar

/-- Nothing stops a reference before the global scope exactly if it reaches it. -/
theorem Sole.reaches_iff (h : s.Sole a) (href : s.referenceAt? r = some ref)
    (hk : Name.ofTree? ref.name = some key) : s.reaches 0 key ref.scope = true ↔
      ∀ i ∈ s.chain ref.scope, i ≠ 0 → ∀ b, s.scopeAt? i = some b →
        b.isBarrier s.options = false ∧ b.declares ref.name = false := by
  obtain ⟨l, hl, hne⟩ := h.way href
  have hdeclares : ∀ i b, i ≠ 0 → s.scopeAt? i = some b →
      (b.declares ref.name = false ↔ b.table.find? key = none) := by
    intro i b hi hb
    rw [declares_eq_false_iff hk, (h.others hb hi).2]
    cases b.table.find? key <;> simp [Table.find?]
  rw [Store.reaches_iff h.sound.rooted, h.chain_zero, hl]
  constructor
  · rintro ⟨l', hl', hc⟩ i hi hi0 b hb
    obtain rfl := List.append_cancel_right hl'
    have hil : i ∈ l := (List.mem_append.1 hi).resolve_right fun hi => hi0 (List.mem_singleton.1 hi)
    obtain ⟨-, b', k, hb', hbar, hkey, hf⟩ := hc i hil
    obtain rfl := Option.some.inj (hb.symm.trans hb')
    obtain rfl := Option.some.inj hkey
    exact ⟨hbar, (hdeclares i b hi0 hb).2 hf⟩
  · intro hall
    refine ⟨l, rfl, fun i hi => ?_⟩
    have hle : i ≤ ref.scope := le_of_mem_chain h.sound.rooted (hl ▸ List.mem_append_left [0] hi)
    obtain ⟨b, hb⟩ := scopeAt?_of_lt (hle.trans_lt (h.books.home r ref href))
    obtain ⟨hbar, hd⟩ := hall i (List.mem_append_left [0] hi) (hne i hi) b hb
    exact ⟨trivial, b, key, hb, hbar, rfl, (hdeclares i b (hne i hi) hb).1 hd⟩

/-- **A reference escapes** if it arrives in the global scope and a variable was made there. -/
theorem Sole.mem_escapingAs_iff (h : s.Sole a) : r ∈ s.escapingAs key ↔
    r ∈ s.arrivals 0 key ∧ (a.implicit.find? key).isSome = true := by
  rw [Store.mem_escapingAs_iff, mem_arrivals_iff]
  have hglobal : a.isBarrier s.options = false := by simp [Scope.isBarrier, h.kind]
  constructor
  · rintro ⟨ref, href, he, hk⟩
    obtain ⟨hc, hall⟩ := isEscaping_iff.1 he
    have hreach : s.reaches 0 key ref.scope = true :=
      (h.reaches_iff href hk).2 fun i hi _ => hall i hi
    refine ⟨⟨ref, href, hc, hk, hreach⟩, ?_⟩
    have hdeclares := (hall 0 (h.home href) a h.scope).2
    cases hf : a.table.find? key with
    | none =>
        have hmissed := (h.explained key).missed hf
        have hr : r ∈ s.arrivals 0 key := mem_arrivals_iff.2 ⟨ref, href, hc, hk, hreach⟩
        rw [hmissed] at hr
        cases hr
    | some v =>
        rw [(declares_eq_false_iff hk).1 hdeclares v hf]
        rfl
  · rintro ⟨⟨ref, href, hc, hk, hreach⟩, hi⟩
    obtain ⟨v, hv⟩ := Option.isSome_iff_exists.1 hi
    refine ⟨ref, href, isEscaping_iff.2 ⟨hc, fun i hi b hb => ?_⟩, hk⟩
    by_cases hi0 : i = 0
    · subst hi0
      obtain rfl := Option.some.inj (h.scope.symm.trans hb)
      refine ⟨hglobal, (declares_eq_false_iff hk).2 fun w hw => ?_⟩
      rw [hv, ← hw, (h.explained key).bound v hv]
    · exact (h.reaches_iff href hk).1 hreach i hi hi0 b hb

/-- All that escapes under a name arrives, where a variable was made for it. -/
theorem Sole.escapingAs_eq (h : s.Sole a) (hv : a.implicit.find? key = some v) :
    s.escapingAs key = s.arrivals 0 key := by
  refine (pairwise_escapingAs s key).eq_of_mem_iff (pairwise_arrivals s 0 key) fun r => ?_
  rw [h.mem_escapingAs_iff, hv]
  exact and_iff_left rfl

/-- The names of the implicit variables are those under which something escapes. -/
theorem Sole.mem_names_iff (h : s.Sole a) :
    key ∈ a.implicit.names ↔ ∃ r, r ∈ s.escapingAs key := by
  rw [Table.mem_names_iff]
  constructor
  · rintro ⟨v, hv⟩
    rw [h.escapingAs_eq hv]
    exact List.exists_mem_of_ne_nil _ ((h.explained key).arrived (by rw [hv]; rfl))
  · rintro ⟨r, hr⟩
    exact Option.isSome_iff_exists.1 (h.mem_escapingAs_iff.1 hr).2

/-- The definitions of an implicit variable are those of the references that escape under its
name. -/
theorem Sole.defs (h : s.Sole a) (hv : a.implicit.find? key = some v) :
    ∃ var, s.variableAt? v = some var ∧
      List.Forall₂ s.IsWrittenBy (s.escapingAs key) var.defs := by
  obtain ⟨var, hvar, hdefs⟩ := (h.explained key).defs v hv
  refine ⟨var, hvar, ?_⟩
  have hall : ∀ r ∈ s.arrivals 0 key, ∃ ref, s.referenceAt? r = some ref ∧
      ref.candidate.isSome = true := fun r hr => by
    obtain ⟨ref, href, hc, -⟩ := mem_arrivals_iff.1 hr
    exact ⟨ref, href, hc⟩
  rw [hdefs, h.escapingAs_eq hv]
  generalize s.arrivals 0 key = rs at hall
  induction rs with
  | nil => exact .nil
  | cons r rs ih =>
      obtain ⟨ref, href, hc⟩ := hall r List.mem_cons_self
      obtain ⟨c, hc⟩ := Option.isSome_iff_exists.1 hc
      have hcand : s.candidateOf? r = some c := by rw [candidateOf?, href, Option.bind_some, hc]
      rw [List.filterMap_cons_some hcand, List.map_cons]
      obtain ⟨hpattern, hbound, type, htype, hfamily⟩ := (h.sourced.reference r ref href).2.2 c hc
      refine .cons ⟨ref, type, href, ?_, rfl, hpattern, htype, hfamily, hbound⟩
        (ih fun q hq => hall q (List.mem_cons_of_mem r hq))
      rw [hc, ← hpattern]
      rfl

/-- What reaches the global scope is resolved to the implicit variable of its name. -/
theorem Sole.resolved (h : s.Sole a) (href : s.referenceAt? r = some ref)
    (hk : Name.ofTree? ref.name = some key) (hr : s.reaches 0 key ref.scope = true)
    (hv : a.implicit.find? key = some v) : ref.resolved = some v := by
  obtain ⟨l, hl, hc⟩ := (Store.reaches_iff h.sound.rooted).1 hr
  rw [(h.verdict r ref href).eq_lookup h.closed, lookup?, hk, Option.bind_some, hl,
    lookupAlong_clear hc, h.chain_zero, lookupAlong, h.scope]
  simp [Scope.isBarrier, h.kind, (h.explained key).bound v hv]

/-- Everything that escapes does so under one of the names. -/
theorem Sole.perm_escaping (h : s.Sole a) :
    (a.implicit.names.flatMap s.escapingAs).Perm s.escaping := by
  have hnodup : (a.implicit.names.flatMap s.escapingAs).Nodup := by
    refine List.nodup_flatMap.2 ⟨fun key _ => (pairwise_escapingAs s key).imp Nat.ne_of_lt, ?_⟩
    refine h.names.imp fun {key key'} hne r hr hr' => hne ?_
    -- A reference has one name.
    obtain ⟨ref, href, -, hk⟩ := Store.mem_escapingAs_iff.1 hr
    obtain ⟨ref', href', -, hk'⟩ := Store.mem_escapingAs_iff.1 hr'
    obtain rfl := Option.some.inj (href.symm.trans href')
    exact Option.some.inj (hk.symm.trans hk')
  refine (List.perm_ext_iff_of_nodup hnodup (List.nodup_range.filter _)).2 fun r => ?_
  rw [List.mem_flatMap]
  constructor
  · rintro ⟨key, -, hr⟩
    exact (List.mem_filter.1 hr).1
  · intro hr
    obtain ⟨ref, href, he⟩ := mem_escaping_iff.1 hr
    obtain ⟨key, hk⟩ := h.named href fun i hi b hb => ((isEscaping_iff.1 he).2 i hi b hb).1
    have hr : r ∈ s.escapingAs key := Store.mem_escapingAs_iff.2 ⟨ref, href, he, hk⟩
    exact ⟨key, h.mem_names_iff.2 ⟨r, hr⟩, hr⟩

/-- The references that escape under a name are reported at the variable made for it. -/
theorem Sole.reports_variable (h : s.Sole a) (hv : a.implicit.find? key = some v) {var : Variable}
    (hvar : s.variableAt? v = some var) {issues : List Issue}
    (hi : var.identifiers.mapM (Finding.implicitGlobal var.name).at? = some issues) :
    List.Forall₂ s.Reports (s.escapingAs key) issues := by
  obtain ⟨var', hvar', hdefs⟩ := h.defs hv
  obtain rfl := Option.some.inj (hvar.symm.trans hvar')
  obtain ⟨-, hname⟩ := h.sound.home h.scope ((h.explained key).bound v hv) hvar
  have hkeys : ∀ r ∈ s.escapingAs key, ∀ ref, s.referenceAt? r = some ref →
      Name.ofTree? ref.name = some key := by
    intro r hr ref href
    obtain ⟨ref', href', -, hk⟩ := Store.mem_escapingAs_iff.1 hr
    exact Option.some.inj (href.symm.trans href') ▸ hk
  have hissues := forall₂_of_mapM hi
  rw [Variable.identifiers, List.forall₂_map_left_iff] at hissues
  generalize s.escapingAs key = rs at hdefs hkeys
  generalize var.defs = defs at hdefs hissues
  clear hi
  induction hdefs generalizing issues with
  | nil =>
      rw [List.forall₂_nil_left_iff.1 hissues]
      exact .nil
  | @cons r d rs defs hd _ ih =>
      obtain ⟨issue, rest, hat, hrest, rfl⟩ := List.forall₂_cons_left_iff.1 hissues
      refine .cons ?_ (ih (fun q hq => hkeys q (List.mem_cons_of_mem r hq)) hrest)
      obtain ⟨ref, -, href, -, -, hn, -⟩ := hd
      obtain ⟨hfinding, hposition⟩ := Finding.at?_eq_some hat
      exact ⟨ref, var.name, href, hfinding,
        hname.trans (hkeys r List.mem_cons_self ref href).symm, hn ▸ hposition⟩

/-- Each reference that escapes is reported once. -/
theorem Sole.reports (h : s.Sole a) {issues : List Issue}
    (hi : s.implicitIssues? a = some issues) :
    ∃ rs, rs.Perm s.escaping ∧ List.Forall₂ s.Reports rs issues := by
  refine ⟨_, h.perm_escaping, ?_⟩
  obtain ⟨found, hf, hfound⟩ := Option.bind_eq_some_iff.1 hi
  obtain rfl : found.flatten = issues := Option.some.inj hfound
  have hentries : ∀ e ∈ a.implicit, a.implicit.find? e.1 = some e.2 :=
    fun e he => Table.find?_of_mem h.names he
  replace hfound := forall₂_of_mapM hf
  clear hf hi
  unfold Table.names
  unfold Table.entries at hfound
  generalize hE : a.implicit = entries at hfound
  have hsub : ∀ e ∈ entries, a.implicit.find? e.1 = some e.2 := hE ▸ hentries
  clear hE hentries
  induction entries generalizing found with
  | nil =>
      rw [List.forall₂_nil_left_iff.1 hfound]
      exact .nil
  | cons e entries ih =>
      have hv := hsub e List.mem_cons_self
      obtain ⟨var, hvar, -⟩ := h.defs hv
      rw [List.map_cons, List.filterMap_cons_some hvar] at hfound
      obtain ⟨issues, rest, hissues, hrest, rfl⟩ := List.forall₂_cons_left_iff.1 hfound
      rw [List.map_cons, List.flatMap_cons, List.flatten_cons]
      exact List.rel_append (h.reports_variable hv hvar hissues)
        (ih rest hrest fun e' he' => hsub e' (List.mem_cons_of_mem e he'))

/-- Where positions can be read, what the implicit variables report can be listed. -/
theorem Sole.implicitIssues? (h : s.Sole a) (hr : s.Readable) :
    (s.implicitIssues? a).isSome = true := by
  obtain ⟨found, hf⟩ := Option.isSome_iff_exists.1 (mapM_isSome
    (l := a.implicit.entries.filterMap s.variableAt?)
    (f := fun v => v.identifiers.mapM (Finding.implicitGlobal v.name).at?) fun v hv => by
      obtain ⟨w, hw, hvar⟩ := List.mem_filterMap.1 hv
      obtain ⟨e, he, rfl⟩ := List.mem_map.1 hw
      obtain ⟨var, hvar', hdefs⟩ := h.defs (Table.find?_of_mem h.names he)
      obtain rfl := Option.some.inj (hvar.symm.trans hvar')
      refine mapM_isSome fun n hn => Finding.at?_isSome ?_
      obtain ⟨d, hd, rfl⟩ := List.mem_map.1 hn
      obtain ⟨r, -, ref, -, href, -, -, hname, -⟩ := exists_of_forall₂ hdefs hd
      exact hname ▸ (hr.reference r ref href).1)
  rw [Store.implicitIssues?, hf]
  rfl

end Store

/-- **Implicit globals are exactly the writes that escape.**  In the store that an analysis of a
sole program returns, the implicit variables of the global scope have the names under which
references escape; each is the variable that the table has for its name, is defined once by every
reference that escapes under it, in the order in which they were made, and is what every reference
of its name is resolved to that reaches the global scope.  The report has one issue for each
reference that escapes, and it can be listed wherever positions and names can be read. -/
theorem analyze_implicit {o : Options} {tree : Tree} {s : Store} (h : tree.SoleProgram)
    (hs : analyze o tree = .ok s) : ∃ g a, s.global = some g ∧ s.scopeAt? g = some a ∧
      a.kind = .global ∧
      (∀ key, key ∈ a.implicit.names ↔ ∃ r ref, s.referenceAt? r = some ref ∧
        s.isEscaping ref = true ∧ Name.ofTree? ref.name = some key) ∧
      (∀ key v, a.implicit.find? key = some v → a.table.find? key = some v ∧
        (∃ var, s.variableAt? v = some var ∧
          List.Forall₂ s.IsWrittenBy (s.escapingAs key) var.defs) ∧
        ∀ r ref, s.referenceAt? r = some ref → Name.ofTree? ref.name = some key →
          s.reaches g key ref.scope = true → ref.resolved = some v) ∧
      a.implicitLeft = a.through ∧
      (∀ undeclared issues, s.issues? undeclared = some issues → ∃ rs, rs.Perm s.escaping ∧
        List.Forall₂ s.Reports rs (issues.filter (·.finding.isImplicitGlobal))) ∧
      (s.Readable → ∀ undeclared, (s.issues? undeclared).isSome = true) := by
  obtain ⟨a, ha⟩ := Walk.analyze_sole h hs
  have hglobal : s.global.bind s.scopeAt? = some a := by rw [ha.global, Option.bind_some, ha.scope]
  refine ⟨0, a, ha.global, ha.scope, ha.kind, fun key => ?_, fun key v hv => ⟨?_, ha.defs hv, ?_⟩,
    ha.left, ?_, ?_⟩
  · rw [ha.mem_names_iff]
    exact exists_congr fun r => Store.mem_escapingAs_iff
  · exact (ha.explained key).bound v hv
  · exact fun r ref href hk hr => ha.resolved href hk hr hv
  · exact fun undeclared issues hi => ha.reports (issues?_implicit hglobal hi)
  · exact fun hr undeclared => hr.issues? hglobal (ha.implicitIssues? hr)

/-- `x = 1; x`. -/
def sloppyProgram : Tree :=
  let x : Tree := .obj [("type", .str "Identifier"), ("name", .str "x")]
  .obj [("type", .str "Program"), ("body", .arr [
    .obj [("type", .str "ExpressionStatement"), ("expression",
      .obj [("type", .str "AssignmentExpression"), ("operator", .str "="), ("left", x),
        ("right", .obj [("type", .str "Literal"), ("value", .int 1)])])],
    .obj [("type", .str "ExpressionStatement"), ("expression", x)]])]

/-- The write of the sample makes a global variable, and the read is a read of that. -/
theorem sloppyProgram_implicit : sloppyProgram.SoleProgram ∧
    ∃ s g a v var ref, analyze {} sloppyProgram = .ok s ∧
    s.global = some g ∧ s.scopeAt? g = some a ∧ a.table.find? (.text "x") = some v ∧
    s.variableAt? v = some var ∧ List.Forall₂ s.IsWrittenBy [0] var.defs ∧
    s.referenceAt? 1 = some ref ∧ ref.resolved = some v := by
  have hsole : sloppyProgram.SoleProgram := by decide
  have hrun : (analyze {} sloppyProgram).toOption.map (fun s =>
      (s.escapingAs (.text "x"), (s.referenceAt? 1).map fun ref =>
        (Name.ofTree? ref.name, s.reaches 0 (.text "x") ref.scope, s.global))) =
        some ([0], some (some (.text "x"), true, some 0)) := by
    decide +kernel
  cases hs : analyze {} sloppyProgram with
  | error e => rw [hs] at hrun; cases hrun
  | ok s =>
      rw [hs] at hrun
      simp only [Except.toOption, Option.map_some, Option.some.injEq, Prod.mk.injEq,
        Option.map_eq_some_iff] at hrun
      obtain ⟨hescape, ref, href, hk, hreach, hg⟩ := hrun
      obtain ⟨g, a, hg', ha, -, hnames, hmade, -⟩ := analyze_implicit hsole hs
      obtain rfl : 0 = g := Option.some.inj (hg.symm.trans hg')
      have hmem : (0 : ReferenceId) ∈ s.escapingAs (.text "x") := hescape ▸ List.mem_cons_self
      obtain ⟨v, hv⟩ := Table.mem_names_iff.1
        ((hnames (.text "x")).2 ⟨0, mem_escapingAs_iff.1 hmem⟩)
      obtain ⟨hv', ⟨var, hvar, hdefs⟩, hresolved⟩ := hmade (.text "x") v hv
      exact ⟨hsole, s, 0, a, v, var, ref, rfl, hg, ha, hv', hvar, hescape ▸ hdefs, href,
        hresolved 1 ref href hk hreach⟩

end LexScope
