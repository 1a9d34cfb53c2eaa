import LexScope.Proofs.Outcome
import LexScope.Issue

/-!
# Proofs — Report — which issues a store has

All issues are put together from those of the scopes and those that only the global scope knows.
The parts have findings of different kinds, so each part can be got back from the whole by its
findings: `issues?_implicit` for the variables that writes made, `issues?_deadZone` for the
references to names of a dead zone.
-/

namespace LexScope

/-- A list of results comes from one success for each item. -/
theorem forall₂_of_mapM {α β : Type} {f : α → Option β} {l : List α} {l' : List β}
    (h : l.mapM f = some l') : List.Forall₂ (fun a b => f a = some b) l l' := by
  induction l generalizing l' with
  | nil =>
      rw [List.mapM_nil] at h
      cases h
      exact .nil
  | cons a l ih =>
      rw [List.mapM_cons] at h
      obtain ⟨b, hb, h⟩ := Option.bind_eq_some_iff.1 h
      obtain ⟨bs, hbs, h⟩ := Option.bind_eq_some_iff.1 h
      cases h
      exact .cons hb (ih hbs)

theorem mapM_map_option {α β γ : Type} (l : List α) (f : α → Option β) (g : β → γ) :
    (l.mapM fun a => (f a).map g) = (l.mapM f).map (List.map g) := by
  induction l with
  | nil => rfl
  | cons a l ih =>
      rw [List.mapM_cons, List.mapM_cons, ih]
      cases f a with
      | none => rfl
      | some b => cases l.mapM f <;> rfl

theorem mapM_congr_option {α β : Type} {l : List α} {f g : α → Option β}
    (h : ∀ a ∈ l, f a = g a) : l.mapM f = l.mapM g := by
  induction l with
  | nil => rfl
  | cons a l ih =>
      rw [List.mapM_cons, List.mapM_cons, h a List.mem_cons_self,
        ih fun b hb => h b (List.mem_cons_of_mem a hb)]

/-- There are results if every item has one. -/
theorem mapM_isSome {α β : Type} {f : α → Option β} {l : List α}
    (h : ∀ a ∈ l, (f a).isSome = true) : (l.mapM f).isSome = true := by
  induction l with
  | nil => rfl
  | cons a l ih =>
      obtain ⟨b, hb⟩ := Option.isSome_iff_exists.1 (h a List.mem_cons_self)
      obtain ⟨bs, hbs⟩ := Option.isSome_iff_exists.1 (ih fun c hc => h c (List.mem_cons_of_mem a hc))
      rw [List.mapM_cons, hb, hbs]
      rfl

/-- What is related to a list has for each item one that it is related to. -/
theorem exists_of_forall₂ {α β : Type} {R : α → β → Prop} {l : List α} {l' : List β} {b : β}
    (h : List.Forall₂ R l l') (hb : b ∈ l') : ∃ a ∈ l, R a b := by
  induction h with
  | nil => cases hb
  | @cons a c l l' hac _ ih =>
      rcases List.mem_cons.1 hb with rfl | hb
      · exact ⟨a, List.mem_cons_self, hac⟩
      · obtain ⟨d, hd, hdb⟩ := ih hb
        exact ⟨d, List.mem_cons_of_mem a hd, hdb⟩

theorem exists_of_mapM {α β : Type} {f : α → Option β} {l : List α} {l' : List β} {b : β}
    (h : l.mapM f = some l') (hb : b ∈ l') : ∃ a ∈ l, f a = some b :=
  exists_of_forall₂ (R := fun a b => f a = some b) (forall₂_of_mapM h) hb

/-- The results are those of the items. -/
theorem mem_of_mapM {α β : Type} {f : α → Option β} {l : List α} {l' : List β}
    (h : l.mapM f = some l') {b : β} : b ∈ l' ↔ ∃ a ∈ l, f a = some b := by
  refine ⟨exists_of_mapM h, ?_⟩
  rintro ⟨a, ha, hb⟩
  obtain ⟨c, hc, hac⟩ := exists_of_forall₂ (forall₂_of_mapM h).flip ha
  exact Option.some.inj (hb.symm.trans hac) ▸ hc

theorem mem_flatten_of_mapM {α β : Type} {f : α → Option (List β)} {l : List α}
    {found : List (List β)} (h : l.mapM f = some found) {b : β} :
    b ∈ found.flatten ↔ ∃ a ∈ l, ∃ bs, f a = some bs ∧ b ∈ bs := by
  rw [List.mem_flatten]
  constructor
  · rintro ⟨bs, hbs, hb⟩
    obtain ⟨a, ha, hf⟩ := exists_of_mapM h hbs
    exact ⟨a, ha, bs, hf, hb⟩
  · rintro ⟨a, ha, bs, hf, hb⟩
    exact ⟨bs, (mem_of_mapM h).2 ⟨a, ha, hf⟩, hb⟩

namespace Finding

/-- A write made a variable. -/
def isImplicitGlobal : Finding → Bool
  | .implicitGlobal _ => true
  | _ => false

/-- A name of a dead zone was used. -/
def isDeadZone : Finding → Bool
  | .deadZoneReference _ => true
  | _ => false

/-- A name is bound by nothing. -/
def isUndeclared : Finding → Bool
  | .undeclaredReference _ => true
  | _ => false

theorem others_of_isImplicitGlobal {f : Finding} (h : f.isImplicitGlobal = true) :
    f.isDeadZone = false ∧ f.isUndeclared = false := by
  cases f with
  | implicitGlobal _ => exact ⟨rfl, rfl⟩
  | _ => cases h

theorem others_of_isDeadZone {f : Finding} (h : f.isDeadZone = true) :
    f.isImplicitGlobal = false ∧ f.isUndeclared = false := by
  cases f with
  | deadZoneReference _ => exact ⟨rfl, rfl⟩
  | _ => cases h

theorem others_of_isUndeclared {f : Finding} (h : f.isUndeclared = true) :
    f.isImplicitGlobal = false ∧ f.isDeadZone = false := by
  cases f with
  | undeclaredReference _ => exact ⟨rfl, rfl⟩
  | _ => cases h

theorem at?_eq_some {f : Finding} {n : Node} {issue : Issue} (h : f.at? n = some issue) :
    issue.finding = f ∧ n.position? = some issue.position := by
  obtain ⟨p, hp, rfl⟩ := Option.map_eq_some_iff.1 h
  exact ⟨rfl, hp⟩

theorem at?_isSome {f : Finding} {n : Node} (h : n.position?.isSome = true) :
    (f.at? n).isSome = true := by
  rw [at?, Option.isSome_map, h]

end Finding

namespace Store

variable {s : Store} {a : Scope} {ref : Reference} {issues l : List Issue} {undeclared : Bool}

theorem scopeIssues?_eq (s : Store) (a : Scope) : s.scopeIssues? a =
    (if a.callsEval then (Finding.evalCall.at? a.block).map ([·]) else some []).bind fun evals =>
    (if a.kind = .withObject then (Finding.withStatement.at? a.block).map ([·])
      else some []).bind fun withs =>
    (if a.kind = .deadZone then s.deadZoneIssues? a else some []).bind fun zones =>
      some (evals ++ withs ++ zones) := by
  rw [scopeIssues?]
  split <;> split <;> split <;> rfl

/-- An issue of a scope as a whole. -/
theorem finding_of_whole {p : Prop} [Decidable p] {f : Finding} {n : Node}
    (h : (if p then (f.at? n).map ([·]) else some []) = some l) :
    ∀ issue ∈ l, issue.finding = f := by
  intro issue hi
  split at h
  · obtain ⟨found, hat, rfl⟩ := Option.map_eq_some_iff.1 h
    rw [List.mem_singleton.1 hi, (Finding.at?_eq_some hat).1]
  · cases h; cases hi

theorem finding_of_deadZoneIssues? (h : s.deadZoneIssues? a = some l) :
    ∀ issue ∈ l, issue.finding.isDeadZone = true := by
  intro issue hi
  obtain ⟨found, hf, h⟩ := Option.bind_eq_some_iff.1 h
  cases h
  obtain ⟨v, -, is, hv, hi⟩ := (mem_flatten_of_mapM hf).1 hi
  obtain ⟨ref, -, hr⟩ := exists_of_mapM hv hi
  rw [(Finding.at?_eq_some hr).1]
  rfl

/-- The parts of which the issues of a scope are put together: those of the scope as a whole, and
those of the names of a dead zone. -/
theorem scopeIssues?_parts (h : s.scopeIssues? a = some l) : ∃ whole zones,
    (∀ issue ∈ whole, issue.finding = .evalCall ∨ issue.finding = .withStatement) ∧
    (if a.kind = .deadZone then s.deadZoneIssues? a else some []) = some zones ∧
    (∀ issue ∈ zones, issue.finding.isDeadZone = true) ∧ l = whole ++ zones := by
  rw [scopeIssues?_eq] at h
  obtain ⟨evals, he, h⟩ := Option.bind_eq_some_iff.1 h
  obtain ⟨withs, hw, h⟩ := Option.bind_eq_some_iff.1 h
  obtain ⟨zones, hz, h⟩ := Option.bind_eq_some_iff.1 h
  cases h
  refine ⟨evals ++ withs, zones, fun issue hi => ?_, hz, fun issue hi => ?_, rfl⟩
  · exact (List.mem_append.1 hi).imp (finding_of_whole he issue) (finding_of_whole hw issue)
  · split at hz
    · exact finding_of_deadZoneIssues? hz issue hi
    · cases hz; cases hi

/-- What an issue of a scope can be. -/
theorem finding_of_scopeIssues? (h : s.scopeIssues? a = some l) : ∀ issue ∈ l,
    issue.finding.isImplicitGlobal = false ∧ issue.finding.isUndeclared = false := by
  obtain ⟨whole, zones, hwhole, -, hzones, rfl⟩ := scopeIssues?_parts h
  intro issue hi
  rcases List.mem_append.1 hi with hi | hi
  · rcases hwhole issue hi with hf | hf <;> rw [hf] <;> exact ⟨rfl, rfl⟩
  · exact Finding.others_of_isDeadZone (hzones issue hi)

/-- What is reported for the variables of a global scope that writes made. -/
theorem mem_implicitIssues? (h : s.implicitIssues? a = some l) {issue : Issue} : issue ∈ l ↔
    ∃ v var n, v ∈ a.implicit.entries ∧ s.variableAt? v = some var ∧ n ∈ var.identifiers ∧
      (Finding.implicitGlobal var.name).at? n = some issue := by
  obtain ⟨found, hf, h⟩ := Option.bind_eq_some_iff.1 h
  cases h
  rw [mem_flatten_of_mapM hf]
  constructor
  · rintro ⟨var, hvar, is, his, hi⟩
    obtain ⟨v, hv, hvar⟩ := List.mem_filterMap.1 hvar
    obtain ⟨n, hn, hat⟩ := exists_of_mapM his hi
    exact ⟨v, var, n, hv, hvar, hn, hat⟩
  · rintro ⟨v, var, n, hv, hvar, hn, hat⟩
    have hmem : var ∈ a.implicit.entries.filterMap s.variableAt? :=
      List.mem_filterMap.2 ⟨v, hv, hvar⟩
    obtain ⟨is, -, his⟩ := exists_of_forall₂ (forall₂_of_mapM hf).flip hmem
    exact ⟨var, hmem, is, his, (mem_of_mapM his).2 ⟨n, hn, hat⟩⟩

theorem undeclaredIssue?_eq (s : Store) (ref : Reference) : s.undeclaredIssue? ref =
    if ref.resolved.isSome then some [] else
      (Name.ofTree? ref.name).bind fun key => if s.isBoundFrom ref.scope key then some [] else
        ((Finding.undeclaredReference ref.name).at? ref.identifier).map ([·]) := by
  rw [undeclaredIssue?]
  split
  · rfl
  · refine Option.bind_congr fun key _ => ?_
    split
    · rfl
    · cases (Finding.undeclaredReference ref.name).at? ref.identifier <;> rfl

/-- What is reported for a reference. -/
theorem mem_undeclaredIssue? (h : s.undeclaredIssue? ref = some l) {issue : Issue} : issue ∈ l ↔
    ref.resolved = none ∧ ∃ key, Name.ofTree? ref.name = some key ∧
      s.isBoundFrom ref.scope key = false ∧
      (Finding.undeclaredReference ref.name).at? ref.identifier = some issue := by
  rw [undeclaredIssue?_eq] at h
  cases hres : ref.resolved with
  | some v => rw [hres] at h; cases h; simp
  | none =>
      rw [hres] at h
      obtain ⟨key, hk, h⟩ := Option.bind_eq_some_iff.1 h
      cases hb : s.isBoundFrom ref.scope key with
      | true => rw [hb] at h; cases h; simp [hk, hb]
      | false =>
          rw [hb] at h
          obtain ⟨i, hi, rfl⟩ := Option.map_eq_some_iff.1 h
          rw [hi, List.mem_singleton]
          constructor
          · rintro rfl
            exact ⟨rfl, key, hk, hb, rfl⟩
          · rintro ⟨-, -, -, -, hi⟩
            exact (Option.some.inj hi).symm

/-- What is reported for the references that left a global scope. -/
theorem mem_undeclaredIssues? (h : s.undeclaredIssues? a = some l) {issue : Issue} : issue ∈ l ↔
    ∃ r ref key, r ∈ a.through ∧ s.referenceAt? r = some ref ∧ ref.resolved = none ∧
      Name.ofTree? ref.name = some key ∧ s.isBoundFrom ref.scope key = false ∧
      (Finding.undeclaredReference ref.name).at? ref.identifier = some issue := by
  obtain ⟨found, hf, h⟩ := Option.bind_eq_some_iff.1 h
  cases h
  rw [mem_flatten_of_mapM hf]
  constructor
  · rintro ⟨ref, href, is, his, hi⟩
    obtain ⟨r, hr, href⟩ := List.mem_filterMap.1 href
    obtain ⟨hres, key, hrest⟩ := (mem_undeclaredIssue? his).1 hi
    exact ⟨r, ref, key, hr, href, hres, hrest⟩
  · rintro ⟨r, ref, key, hr, href, hres, hrest⟩
    have hmem : ref ∈ a.through.filterMap s.referenceAt? := List.mem_filterMap.2 ⟨r, hr, href⟩
    obtain ⟨is, -, his⟩ := exists_of_forall₂ (forall₂_of_mapM hf).flip hmem
    exact ⟨ref, hmem, is, his, (mem_undeclaredIssue? his).2 ⟨hres, key, hrest⟩⟩

theorem finding_of_implicitIssues? (h : s.implicitIssues? a = some l) :
    ∀ issue ∈ l, issue.finding.isImplicitGlobal = true := by
  intro issue hi
  obtain ⟨v, var, n, -, -, -, hat⟩ := (mem_implicitIssues? h).1 hi
  rw [(Finding.at?_eq_some hat).1]
  rfl

theorem finding_of_undeclaredIssues? (h : s.undeclaredIssues? a = some l) :
    ∀ issue ∈ l, issue.finding.isUndeclared = true := by
  intro issue hi
  obtain ⟨r, ref, key, -, -, -, -, -, hat⟩ := (mem_undeclaredIssues? h).1 hi
  rw [(Finding.at?_eq_some hat).1]
  rfl

theorem issues?_eq (hg : s.global.bind s.scopeAt? = some a) : s.issues? undeclared =
    (s.scopes.toList.mapM s.scopeIssues?).bind fun found =>
    (s.implicitIssues? a).bind fun implicit =>
    (if undeclared then s.undeclaredIssues? a else some []).bind fun unbound =>
      some (found.flatten ++ implicit ++ unbound) := by
  rw [issues?, hg]
  cases undeclared <;> rfl

theorem issues?_of_none (hg : s.global.bind s.scopeAt? = none) :
    s.issues? undeclared = (s.scopes.toList.mapM s.scopeIssues?).map List.flatten := by
  rw [issues?, hg]
  cases s.scopes.toList.mapM s.scopeIssues? <;> rfl

/-- The parts of which all issues are put together. -/
theorem issues?_parts (hg : s.global.bind s.scopeAt? = some a)
    (h : s.issues? undeclared = some issues) : ∃ found implicit unbound,
      s.scopes.toList.mapM s.scopeIssues? = some found ∧ s.implicitIssues? a = some implicit ∧
      (if undeclared then s.undeclaredIssues? a else some []) = some unbound ∧
      issues = found.flatten ++ implicit ++ unbound := by
  rw [issues?_eq hg] at h
  obtain ⟨found, hf, h⟩ := Option.bind_eq_some_iff.1 h
  obtain ⟨implicit, hi, h⟩ := Option.bind_eq_some_iff.1 h
  obtain ⟨unbound, hu, h⟩ := Option.bind_eq_some_iff.1 h
  cases h
  exact ⟨found, implicit, unbound, hf, hi, hu, rfl⟩

/-- The issues of writes that made variables are those of the global scope. -/
theorem issues?_implicit (hg : s.global.bind s.scopeAt? = some a)
    (h : s.issues? undeclared = some issues) :
    s.implicitIssues? a = some (issues.filter (·.finding.isImplicitGlobal)) := by
  obtain ⟨found, implicit, unbound, hf, hi, hu, rfl⟩ := issues?_parts hg h
  have hfound : ∀ issue ∈ found.flatten, ¬ issue.finding.isImplicitGlobal = true := by
    intro issue hin
    obtain ⟨b, -, is, hb, hin⟩ := (mem_flatten_of_mapM hf).1 hin
    rw [(finding_of_scopeIssues? hb issue hin).1]
    exact Bool.false_ne_true
  have hunbound : ∀ issue ∈ unbound, ¬ issue.finding.isImplicitGlobal = true := by
    intro issue hin
    split at hu
    · rw [(Finding.others_of_isUndeclared (finding_of_undeclaredIssues? hu issue hin)).1]
      exact Bool.false_ne_true
    · cases hu; cases hin
  rw [List.filter_append, List.filter_append, List.filter_eq_nil_iff.2 hfound,
    List.filter_eq_nil_iff.2 hunbound,
    List.filter_eq_self.2 (finding_of_implicitIssues? hi), List.nil_append, List.append_nil, hi]

/-- The issues of names that nothing binds are those of the global scope. -/
theorem issues?_undeclared (hg : s.global.bind s.scopeAt? = some a)
    (h : s.issues? true = some issues) :
    s.undeclaredIssues? a = some (issues.filter (·.finding.isUndeclared)) := by
  obtain ⟨found, implicit, unbound, hf, hi, hu, rfl⟩ := issues?_parts hg h
  have hfound : ∀ issue ∈ found.flatten, ¬ issue.finding.isUndeclared = true := by
    intro issue hin
    obtain ⟨b, -, is, hb, hin⟩ := (mem_flatten_of_mapM hf).1 hin
    rw [(finding_of_scopeIssues? hb issue hin).2]
    exact Bool.false_ne_true
  have himplicit : ∀ issue ∈ implicit, ¬ issue.finding.isUndeclared = true := by
    intro issue hin
    rw [(Finding.others_of_isImplicitGlobal (finding_of_implicitIssues? hi issue hin)).2]
    exact Bool.false_ne_true
  rw [if_pos rfl] at hu
  rw [List.filter_append, List.filter_append, List.filter_eq_nil_iff.2 hfound,
    List.filter_eq_nil_iff.2 himplicit,
    List.filter_eq_self.2 (finding_of_undeclaredIssues? hu), List.nil_append, List.nil_append, hu]

/-- The references to names of a dead zone are found in the issues of the scope. -/
theorem scopeIssues?_deadZone (h : s.scopeIssues? a = some l) :
    (if a.kind = .deadZone then s.deadZoneIssues? a else some []) =
      some (l.filter (·.finding.isDeadZone)) := by
  obtain ⟨whole, zones, hwhole, hz, hzones, rfl⟩ := scopeIssues?_parts h
  have hnone : ∀ issue ∈ whole, ¬ issue.finding.isDeadZone = true := by
    intro issue hi
    rcases hwhole issue hi with hf | hf <;> rw [hf] <;> exact Bool.false_ne_true
  rw [hz, List.filter_append, List.filter_eq_nil_iff.2 hnone, List.filter_eq_self.2 hzones,
    List.nil_append]

/-- The issues of references to names of dead zones are those of the dead zones, in order. -/
theorem issues?_deadZone (h : s.issues? undeclared = some issues) : ∃ found,
    List.Forall₂ (fun a is => (if a.kind = .deadZone then s.deadZoneIssues? a else some []) = some is)
      s.scopes.toList found ∧ issues.filter (·.finding.isDeadZone) = found.flatten := by
  obtain ⟨all, rest, hall, rfl, hrest⟩ : ∃ all rest,
      s.scopes.toList.mapM s.scopeIssues? = some all ∧ issues = all.flatten ++ rest ∧
      ∀ issue ∈ rest, issue.finding.isDeadZone = false := by
    cases hg : s.global.bind s.scopeAt? with
    | none =>
        rw [issues?, hg] at h
        obtain ⟨all, hall, h⟩ := Option.bind_eq_some_iff.1 h
        cases h
        exact ⟨all, [], hall, (List.append_nil _).symm, nofun⟩
    | some a =>
        obtain ⟨all, implicit, unbound, hall, hi, hu, rfl⟩ := issues?_parts hg h
        refine ⟨all, implicit ++ unbound, hall, List.append_assoc .., fun issue hissue => ?_⟩
        rcases List.mem_append.1 hissue with hissue | hissue
        · exact (Finding.others_of_isImplicitGlobal
            (finding_of_implicitIssues? hi issue hissue)).1
        · split at hu
          · exact (Finding.others_of_isUndeclared
              (finding_of_undeclaredIssues? hu issue hissue)).2
          · cases hu; cases hissue
  refine ⟨all.map (·.filter (·.finding.isDeadZone)), ?_, ?_⟩
  · rw [List.forall₂_map_right_iff]
    exact (forall₂_of_mapM hall).imp fun _ _ => scopeIssues?_deadZone
  · have hnone : ∀ issue ∈ rest, ¬ issue.finding.isDeadZone = true := by
      intro issue hi
      rw [hrest issue hi]
      exact Bool.false_ne_true
    rw [List.filter_append, List.filter_eq_nil_iff.2 hnone, List.append_nil, List.filter_flatten]

/-! ### When all issues can be listed -/

/-- The positions that issues need can be read, and every name is one. -/
structure Readable (s : Store) : Prop where
  block : ∀ i a, s.scopeAt? i = some a → a.block.position?.isSome = true
  reference : ∀ r ref, s.referenceAt? r = some ref →
    ref.identifier.position?.isSome = true ∧ (Name.ofTree? ref.name).isSome = true

theorem Readable.issuesOf? (h : s.Readable) (f : Finding) (rs : List ReferenceId) :
    (s.issuesOf? f rs).isSome = true := by
  refine mapM_isSome fun ref href => ?_
  obtain ⟨r, -, hr⟩ := List.mem_filterMap.1 href
  exact Finding.at?_isSome (h.reference r ref hr).1

theorem Readable.scopeIssues? (h : s.Readable) {i : ScopeId} (ha : s.scopeAt? i = some a) :
    (s.scopeIssues? a).isSome = true := by
  obtain ⟨p, hp⟩ := Option.isSome_iff_exists.1 (h.block i a ha)
  obtain ⟨zones, hz⟩ := Option.isSome_iff_exists.1 (mapM_isSome
    (l := a.table.entries.filterMap s.variableAt?)
    (f := fun v => s.issuesOf? (.deadZoneReference v.name) v.references)
    fun v _ => h.issuesOf? _ _)
  have hzone : s.deadZoneIssues? a = some zones.flatten := by
    rw [deadZoneIssues?, hz]
    rfl
  rw [scopeIssues?_eq, hzone, Finding.at?, Finding.at?, hp]
  split <;> split <;> split <;> rfl

/-- Where positions and names can be read, the issues can be listed. -/
theorem Readable.issues? (h : s.Readable)
    (hg : s.global.bind s.scopeAt? = some a) (hi : (s.implicitIssues? a).isSome = true) :
    (s.issues? undeclared).isSome = true := by
  obtain ⟨found, hf⟩ := Option.isSome_iff_exists.1 (mapM_isSome (l := s.scopes.toList)
    (f := s.scopeIssues?) fun b hb => by
      obtain ⟨i, hi, rfl⟩ := List.mem_iff_getElem.1 hb
      exact h.scopeIssues? (i := i) (by simp [scopeAt?]))
  obtain ⟨implicit, hi⟩ := Option.isSome_iff_exists.1 hi
  have hunbound : (s.undeclaredIssues? a).isSome = true := by
    obtain ⟨unbound, hu⟩ := Option.isSome_iff_exists.1 (mapM_isSome
      (l := a.through.filterMap s.referenceAt?) (f := s.undeclaredIssue?) fun ref href => by
        obtain ⟨r, -, hr⟩ := List.mem_filterMap.1 href
        obtain ⟨hp, hk⟩ := h.reference r ref hr
        obtain ⟨p, hp⟩ := Option.isSome_iff_exists.1 hp
        obtain ⟨key, hk⟩ := Option.isSome_iff_exists.1 hk
        rw [undeclaredIssue?, hk, Finding.at?, hp]
        split
        · rfl
        · show (if s.isBoundFrom ref.scope key = true then some [] else _).isSome = true
          split <;> rfl)
    rw [undeclaredIssues?, hu]
    rfl
  obtain ⟨unbound, hu⟩ := Option.isSome_iff_exists.1 hunbound
  rw [issues?_eq hg, hf, hi, hu]
  cases undeclared <;> rfl

end Store

end LexScope
