import LexScope.Proofs.Escaping

/-!
# Proofs — Undeclared — what is reported as undeclared is what nothing binds

The report looks only at the references that left the global scope, and skips those whose names are
bound on the way up.  Nothing is lost by that: a reference that no scope on its way up binds is
resolved to nothing, so it leaves every scope of that way, and each of them once, whether it was
handed up step by step or left them all at a barrier (`Store.Account.way`).

* `Sole.mem_unboundLeft_iff`: what the report looks at comes to all references that nothing binds.
* `analyze_undeclared`: **the undeclared references of a sole program are reported once each**,
  after everything else.
-/

namespace LexScope

open Store LexScope.Action

namespace Store

/-- A reference has a name, and no scope from its own up to the outermost one binds it. -/
def IsUnbound (s : Store) (ref : Reference) : Prop :=
  ∃ key, Name.ofTree? ref.name = some key ∧
    ∀ i ∈ s.chain ref.scope, ∀ a, s.scopeAt? i = some a → a.table.find? key = none

/-- Whether an issue reports that nothing binds the name of a reference. -/
def Misses (s : Store) (r : ReferenceId) (issue : Issue) : Prop :=
  ∃ ref, s.referenceAt? r = some ref ∧ issue.finding = .undeclaredReference ref.name ∧
    ref.identifier.position? = some issue.position

/-- Whether a reference is resolved to nothing and nothing binds its name. -/
def isMissing (s : Store) (ref : Reference) : Bool :=
  ref.resolved.isNone && (Name.ofTree? ref.name).any fun key => !s.isBoundFrom ref.scope key

/-- The references that left a scope, are resolved to nothing, and are bound by nothing. -/
def unboundLeft (s : Store) (a : Scope) : List ReferenceId :=
  a.through.filter fun r => (s.referenceAt? r).any s.isMissing

variable {s : Store} {a : Scope} {r : ReferenceId} {ref : Reference} {key : Name}

theorem isBoundFrom_eq_false_iff {i : ScopeId} : s.isBoundFrom i key = false ↔
    ∀ j ∈ s.chain i, ∀ a, s.scopeAt? j = some a → a.table.find? key = none := by
  rw [isBoundFrom, List.any_eq_false]
  refine forall₂_congr fun j _ => ?_
  cases s.scopeAt? j <;> simp

theorem isMissing_iff : s.isMissing ref = true ↔ ref.resolved = none ∧ s.IsUnbound ref := by
  simp only [isMissing, Bool.and_eq_true, Option.isNone_iff_eq_none, Option.any_eq_true,
    Bool.not_eq_true', isBoundFrom_eq_false_iff, IsUnbound]

/-! ### What is reported for the references that left a scope -/

/-- A reference has one issue if it is missing, and none otherwise. -/
theorem misses_of_undeclaredIssue? {issues : List Issue} (href : s.referenceAt? r = some ref)
    (h : s.undeclaredIssue? ref = some issues) :
    List.Forall₂ s.Misses (if s.isMissing ref then [r] else []) issues := by
  rw [undeclaredIssue?_eq] at h
  cases hres : ref.resolved with
  | some v =>
      rw [hres] at h
      cases h
      simp [isMissing, hres]
  | none =>
      rw [hres] at h
      obtain ⟨key, hk, h⟩ := Option.bind_eq_some_iff.1 h
      cases hb : s.isBoundFrom ref.scope key with
      | true =>
          rw [hb] at h
          cases h
          simp [isMissing, hk, hb]
      | false =>
          rw [hb] at h
          obtain ⟨issue, hat, rfl⟩ := Option.map_eq_some_iff.1 h
          obtain ⟨hfinding, hposition⟩ := Finding.at?_eq_some hat
          have hmissing : s.isMissing ref = true := by simp [isMissing, hres, hk, hb]
          rw [if_pos hmissing]
          exact .cons ⟨ref, href, hfinding, hposition⟩ .nil

/-- The issues of some references are, in order, those of the missing ones. -/
theorem misses_of_mapM {rs : List ReferenceId} {found : List (List Issue)}
    (h : (rs.filterMap s.referenceAt?).mapM s.undeclaredIssue? = some found) :
    List.Forall₂ s.Misses (rs.filter fun r => (s.referenceAt? r).any s.isMissing)
      found.flatten := by
  replace h := forall₂_of_mapM h
  induction rs generalizing found with
  | nil =>
      rw [List.forall₂_nil_left_iff.1 h]
      exact .nil
  | cons r rs ih =>
      cases href : s.referenceAt? r with
      | none =>
          rw [List.filterMap_cons_none href] at h
          rw [List.filter_cons_of_neg (by simp [href])]
          exact ih h
      | some ref =>
          rw [List.filterMap_cons_some href] at h
          obtain ⟨issues, rest, hissues, hrest, rfl⟩ := List.forall₂_cons_left_iff.1 h
          have hhead := misses_of_undeclaredIssue? href hissues
          rw [List.flatten_cons, List.filter_cons, href, Option.any_some]
          split at hhead
          · rename_i hm
            rw [if_pos hm]
            exact List.rel_append hhead (ih hrest)
          · rename_i hm
            rw [if_neg hm, List.forall₂_nil_left_iff.1 hhead]
            exact ih hrest

/-- What is reported for the references that left a scope. -/
theorem misses_of_undeclaredIssues? {issues : List Issue}
    (h : s.undeclaredIssues? a = some issues) :
    List.Forall₂ s.Misses (s.unboundLeft a) issues := by
  obtain ⟨found, hf, hfound⟩ := Option.bind_eq_some_iff.1 h
  obtain rfl : found.flatten = issues := Option.some.inj hfound
  exact misses_of_mapM hf

/-- With the names that nothing binds, all issues are those without, and these names after them. -/
theorem issues?_split (hg : s.global.bind s.scopeAt? = some a) {issues : List Issue}
    (h : s.issues? true = some issues) : ∃ rest unbound, s.issues? false = some rest ∧
      s.undeclaredIssues? a = some unbound ∧ issues = rest ++ unbound ∧
      ∀ issue ∈ rest, issue.finding.isUndeclared = false := by
  obtain ⟨found, implicit, unbound, hf, hi, hu, rfl⟩ := issues?_parts hg h
  refine ⟨found.flatten ++ implicit, unbound, ?_, hu, rfl, fun issue hin => ?_⟩
  · simp [issues?_eq hg, hf, hi]
  · rcases List.mem_append.1 hin with hin | hin
    · obtain ⟨b, -, is, hb, hin⟩ := (mem_flatten_of_mapM hf).1 hin
      exact (finding_of_scopeIssues? hb issue hin).2
    · have := finding_of_implicitIssues? hi issue hin
      cases hfind : issue.finding <;> simp_all [Finding.isUndeclared, Finding.isImplicitGlobal]

/-! ### What leaves the global scope -/

/-- A reference that nothing binds is resolved to nothing. -/
theorem Finished.resolved_of_isUnbound {P : Tree → Prop} (h : s.Finished P)
    (href : s.referenceAt? r = some ref) (hu : s.IsUnbound ref) : ref.resolved = none := by
  obtain ⟨key, hk, hall⟩ := hu
  refine Option.eq_none_iff_forall_ne_some.2 fun v hv => ?_
  obtain ⟨l, i, rest, b, key', hl, -, -, hb, -, hk', hf⟩ :=
    (h.verdict r ref href).resolved v hv
  obtain rfl := Option.some.inj (hk.symm.trans hk')
  have hi : i ∈ s.chain ref.scope := hl ▸ List.mem_append_right l List.mem_cons_self
  rw [hall i hi b hb] at hf
  cases hf

/-- What is resolved to nothing has left every scope of its way up, each once. -/
theorem Finished.count_throughAt {P : Tree → Prop} (h : s.Finished P)
    (href : s.referenceAt? r = some ref) (hres : ref.resolved = none) (i : ScopeId) :
    (s.throughAt i).count r = (s.chain ref.scope).count i := by
  obtain ⟨w, hw⟩ := h.books.account r ref href
  obtain ⟨behind, hway, hcount⟩ := hw.way
  have hescaped : w = .escaped := by
    cases w with
    | escaped => rfl
    | pending j => exact absurd (isOpen_of_pendingAt hw.waits) (h.closed j)
    | resolved v =>
        have := hres.symm.trans hw.resolved
        cases this
  subst hescaped
  rw [hcount i, hway, ahead, List.append_nil]

/-- No reference leaves a scope more than once. -/
theorem Finished.nodup_throughAt {P : Tree → Prop} (h : s.Finished P) (i : ScopeId) :
    (s.throughAt i).Nodup := by
  refine List.nodup_iff_count_le_one.2 fun r => ?_
  cases href : s.referenceAt? r with
  | none =>
      rw [(h.books.unused r href).2.1 i]
      exact Nat.zero_le 1
  | some ref =>
      obtain ⟨w, hw⟩ := h.books.account r ref href
      obtain ⟨behind, hway, hcount⟩ := hw.way
      have hnodup := nodup_chain h.sound.rooted ref.scope
      rw [hway] at hnodup
      rw [hcount i]
      exact List.nodup_iff_count_le_one.1 hnodup.of_append_left i

theorem Sole.throughAt (h : s.Sole a) : s.throughAt 0 = a.through := throughAt_eq h.scope

/-- **What the report looks at** comes to all references that nothing binds. -/
theorem Sole.mem_unboundLeft_iff (h : s.Sole a) :
    r ∈ s.unboundLeft a ↔ ∃ ref, s.referenceAt? r = some ref ∧ s.IsUnbound ref := by
  rw [unboundLeft, List.mem_filter, Option.any_eq_true]
  constructor
  · rintro ⟨-, ref, href, hm⟩
    exact ⟨ref, href, (isMissing_iff.1 hm).2⟩
  · rintro ⟨ref, href, hu⟩
    have hres := h.resolved_of_isUnbound href hu
    refine ⟨?_, ref, href, isMissing_iff.2 ⟨hres, hu⟩⟩
    -- The way up ends in the global scope, so it was left like all others.
    have hcount := h.count_throughAt href hres 0
    rw [h.throughAt] at hcount
    exact List.count_pos_iff.1 (hcount ▸ List.count_pos_iff.2 (h.home href))

end Store

/-- **The undeclared references are exactly those that nothing binds.**  In the store that an
analysis of a sole program returns, every way up ends in the global scope, and the issues that are
listed with undeclared references are those listed without, followed by one for each reference
whose name no scope on that way binds.  They can be listed wherever positions and names can be
read. -/
theorem analyze_undeclared {o : Options} {tree : Tree} {s : Store} (h : tree.SoleProgram)
    (hs : analyze o tree = .ok s) : ∃ g, s.global = some g ∧
      (∀ r ref, s.referenceAt? r = some ref → (s.chain ref.scope).getLast? = some g) ∧
      (∀ issues, s.issues? true = some issues → ∃ rest reported rs,
        s.issues? false = some rest ∧ issues = rest ++ reported ∧
        (∀ issue ∈ rest, issue.finding.isUndeclared = false) ∧ rs.Nodup ∧
        (∀ r, r ∈ rs ↔ ∃ ref, s.referenceAt? r = some ref ∧ s.IsUnbound ref) ∧
        List.Forall₂ s.Misses rs reported) ∧
      (s.Readable → ∀ undeclared, (s.issues? undeclared).isSome = true) := by
  obtain ⟨a, ha⟩ := Walk.analyze_sole h hs
  have hglobal : s.global.bind s.scopeAt? = some a := by rw [ha.global, Option.bind_some, ha.scope]
  refine ⟨0, ha.global, fun r ref href => ?_, fun issues hi => ?_,
    fun hr undeclared => hr.issues? hglobal (ha.implicitIssues? hr)⟩
  · obtain ⟨l, hl, -⟩ := ha.way href
    rw [hl, List.getLast?_concat]
  · obtain ⟨rest, reported, hrest, hreported, rfl, hclean⟩ := issues?_split hglobal hi
    have hnodup : a.through.Nodup := ha.throughAt ▸ ha.nodup_throughAt 0
    exact ⟨rest, reported, s.unboundLeft a, hrest, rfl, hclean, hnodup.filter _,
      fun r => ha.mem_unboundLeft_iff, misses_of_undeclaredIssues? hreported⟩

/-- `var v; with (o) with (p) { v; x }`. -/
def nestedWithProgram : Tree :=
  let name (text : String) : Tree := .obj [("type", .str "Identifier"), ("name", .str text)]
  let state (text : String) : Tree :=
    .obj [("type", .str "ExpressionStatement"), ("expression", name text)]
  .obj [("type", .str "Program"), ("body", .arr [
    .obj [("type", .str "VariableDeclaration"), ("kind", .str "var"), ("declarations", .arr [
      .obj [("type", .str "VariableDeclarator"), ("id", name "v"), ("init", .null)]])],
    .obj [("type", .str "WithStatement"), ("object", name "o"), ("body",
      .obj [("type", .str "WithStatement"), ("object", name "p"), ("body",
        .obj [("type", .str "BlockStatement"), ("body", .arr [state "v", state "x"])])])]])]

/-- Of the five scopes and four references of the sample, the objects and `x` are bound by nothing,
and each is reported once, although two barriers were passed; `v` is bound and is not reported. -/
theorem nestedWithProgram_undeclared : nestedWithProgram.SoleProgram ∧
    ∃ s rest reported rs, analyze {} nestedWithProgram = .ok s ∧
      s.issues? true = some (rest ++ reported) ∧ s.issues? false = some rest ∧ rs.Nodup ∧
      (∀ r, r ∈ rs ↔ ∃ ref, s.referenceAt? r = some ref ∧ s.IsUnbound ref) ∧
      List.Forall₂ s.Misses rs reported ∧
      reported.map (·.finding.message) = [
        "'x' is not declared in any enclosing scope.",
        "'p' is not declared in any enclosing scope.",
        "'o' is not declared in any enclosing scope."] := by
  have hsole : nestedWithProgram.SoleProgram := by decide
  have hrun : (analyze {} nestedWithProgram).toOption.bind (fun s =>
      (s.issues? true).map fun issues =>
        (issues.map (·.finding.message), (s.issues? false).map (·.length))) =
      some (["`with` statement changes scope resolution dynamically.",
        "`with` statement changes scope resolution dynamically.",
        "'x' is not declared in any enclosing scope.",
        "'p' is not declared in any enclosing scope.",
        "'o' is not declared in any enclosing scope."], some 2) := by
    decide +kernel
  cases hs : analyze {} nestedWithProgram with
  | error e => rw [hs] at hrun; cases hrun
  | ok s =>
      rw [hs] at hrun
      obtain ⟨issues, hi, heq⟩ := Option.map_eq_some_iff.1 hrun
      obtain ⟨hmessages, hlength⟩ := Prod.mk.inj heq
      obtain ⟨g, -, -, hreport, -⟩ := analyze_undeclared hsole hs
      obtain ⟨rest, reported, rs, hrest, rfl, -, hnodup, hmem, hmisses⟩ := hreport issues hi
      rw [hrest] at hlength
      have htwo : rest.length = 2 := Option.some.inj hlength
      refine ⟨hsole, s, rest, reported, rs, rfl, hi, hrest, hnodup, hmem, hmisses, ?_⟩
      have hdrop := congrArg (List.drop 2) hmessages
      rwa [List.map_append, List.drop_left' (by rw [List.length_map, htwo])] at hdrop

end LexScope
