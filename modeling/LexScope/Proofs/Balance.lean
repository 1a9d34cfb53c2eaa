import LexScope.Proofs.Described
import LexScope.Proofs.Uses
import LexScope.Proofs.Undeclared

/-!
# Proofs — Balance — the report of a program balances

Every reference is listed with one scope, and if it is resolved it is noted with one variable of one
table.  So a report that shows all scopes, their variables and their references counts the same
references twice.  What leaves the first scope is what is resolved to nothing, and what leaves a
scope and stays in the one above is resolved there.

* `Sole.settled_perm`, `Sole.left_perm`: the references that tables note are those that are
  resolved, and those that leave the first scope are the others.
* `Sole.stays`: **what a scope passes up and the one above does not is bound by the one above.**
* `report_balances`: **the report of a program shows each scope once, in order, and balances.**
-/

namespace LexScope

open Store

namespace Tree

/-! ### What balances -/

/-- A whole number, zero for any other value. -/
def whole : Tree → Int
  | .int n => n
  | _ => 0

/-- What all entries of a document list in a member. -/
def all (doc : Tree) (key : String) : List Tree := doc.entries.flatMap fun t => t.listAt key

/-- A document counts the same references by variables and by scopes. -/
structure Balanced (doc : Tree) : Prop where
  /-- The variables have as many references as are resolved. -/
  resolved : ((doc.all "variables").map fun v => (v.get "references").whole).sum =
    (doc.all "references").countP fun r => r.get "resolved" = .bool true
  /-- The others leave the root. -/
  unresolved : (doc.all "references").countP (fun r => r.get "resolved" = .bool false) =
    (doc.listAt "through").length
  /-- A name that leaves an entry more often than the one above is that of a variable above. -/
  bound : ∀ p ∈ doc.entries, ∀ c ∈ p.listAt "children", ∀ name,
    (p.listAt "through").count name < (c.listAt "through").count name →
      ∃ v ∈ p.listAt "variables", v.get "name" = name

end Tree

namespace Store

variable {A : ScopeId → Prop} {s t : Store} {i j k : ScopeId} {a b : Scope} {r : ReferenceId}
  {ref : Reference} {v w : VariableId}

/-! ### The order in which references are listed -/

/-- Every scope lists its references as they were made. -/
def Chronological (s : Store) : Prop := ∀ i a, s.scopeAt? i = some a →
  a.references.Pairwise (· < ·) ∧ ∀ r ∈ a.references, r < s.references.size

/-- Where no reference is made, scopes keep what they list and new ones list nothing. -/
theorem Chronological.still (h : s.Chronological) (hsize : t.references.size = s.references.size)
    (hscope : ∀ i b, t.scopeAt? i = some b →
      (∃ a, s.scopeAt? i = some a ∧ b.references = a.references) ∨ b.references = []) :
    t.Chronological := by
  intro i b hb
  rw [hsize]
  rcases hscope i b hb with ⟨a, ha, he⟩ | he
  · rw [he]
    exact h i a ha
  · rw [he]
    exact ⟨.nil, nofun⟩

theorem Chronological.updateScope (h : s.Chronological) (i : ScopeId) {f : Scope → Scope}
    (hf : ∀ a, (f a).references = a.references) : (s.updateScope i f).Chronological := by
  refine h.still rfl fun j b hb => .inl ?_
  obtain ⟨-, a, ha, rfl⟩ | ⟨-, hb⟩ := scopeAt?_updateScope_cases hb
  · exact ⟨a, ha, hf a⟩
  · exact ⟨b, hb, rfl⟩

theorem Chronological.quiet (h : s.Chronological) (hq : Quiet A s t) : t.Chronological := by
  cases hq with
  | record entry => exact h.still rfl fun i b hb => .inl ⟨b, hb, rfl⟩
  | @addScope kind n upper strict hu =>
      have hsize : (s.addScope kind n upper strict).references.size = s.references.size := by
        unfold addScope
        cases upper <;> by_cases hk : kind = .global <;> simp only [hk, if_true, if_false] <;> rfl
      refine h.still hsize fun j b hb => ?_
      obtain ⟨-, rfl⟩ | ⟨a, l, ha, rfl⟩ := scopeAt?_addScope_cases (fun u h => (hu u h).2) hb
      · exact .inr rfl
      · exact .inl ⟨a, ha, rfl⟩
  | @bindNew i a key var hA ha hf hi hk hr =>
      have hpush : ({ s with vars := s.vars.push var } : Store).Chronological := h
      exact hpush.updateScope i fun _ => rfl
  | addDefinition d _ _ _ => exact h.still rfl fun i b hb => .inl ⟨b, hb, rfl⟩
  | reflag _ hf => exact h.updateScope _ fun a => (hf a).references
  | bindImplicit _ _ _ => exact h.updateScope _ fun _ => rfl

/-- A new reference is the last one of all. -/
theorem Chronological.addReference (h : s.Chronological) (i : ScopeId) (u : Use) :
    (s.addReference i u).Chronological := by
  intro j b hb
  have hsize : (s.addReference i u).references.size = s.references.size + 1 := by
    simp [Store.addReference, Store.updateScope]
  rw [hsize]
  have hkeep : ∀ a, s.scopeAt? j = some a → ∀ r ∈ a.references, r < s.references.size + 1 :=
    fun a ha r hr => Nat.lt_succ_of_lt ((h j a ha).2 r hr)
  obtain ⟨-, a, ha, rfl⟩ | ⟨-, hb⟩ := scopeAt?_addReference_cases hb
  · obtain ⟨hpairwise, hlt⟩ := h j a ha
    refine ⟨List.pairwise_append.2 ⟨hpairwise, List.pairwise_singleton _ _, fun q hq r hr => ?_⟩,
      fun r hr => ?_⟩
    · rw [List.mem_singleton.1 hr]
      exact hlt q hq
    · rcases List.mem_append.1 hr with hr | hr
      · exact hkeep a ha r hr
      · rw [List.mem_singleton.1 hr]
        exact Nat.lt_succ_self _
  · exact ⟨(h j b hb).1, hkeep b hb⟩

theorem Chronological.change (h : s.Chronological) (hc : Change A s t) : t.Chronological := by
  cases hc with
  | quiet hq => exact h.quiet hq
  | addReference u hi => exact h.addReference _ u
  | link r origin _ _ _ =>
      refine h.still ?_ fun i b hb => .inl ⟨b, hb, rfl⟩
      simp [Store.link, updateReference, updateVariable]
  | receive r _ => exact h.updateScope _ fun _ => rfl
  | pass r _ => exact h.updateScope _ fun _ => rfl
  | shut _ => exact h.updateScope _ fun _ => rfl

theorem Chronological.changes (h : s.Chronological) (hc : Changes A s t) : t.Chronological := by
  induction hc with
  | refl => exact h
  | tail _ hc ih => exact ih.change hc

/-! ### Which references a store lists and notes -/

/-- The references made in a scope. -/
def madeIn (s : Store) (i : ScopeId) : List ReferenceId :=
  ((s.scopeAt? i).map (·.references)).getD []

/-- The variables of a scope. -/
def boundIn (s : Store) (i : ScopeId) : List VariableId :=
  ((s.scopeAt? i).map (·.table.entries)).getD []

/-- Whether a reference is resolved. -/
def isResolved (s : Store) (r : ReferenceId) : Bool := (s.referenceAt? r).any (·.resolved.isSome)

/-- The references that the scopes list. -/
def made (s : Store) : List ReferenceId := (List.range s.scopes.size).flatMap s.madeIn

/-- The references that are noted with the variables of the scopes. -/
def settled (s : Store) : List ReferenceId :=
  (List.range s.scopes.size).flatMap fun i => (s.boundIn i).flatMap s.linksOf

theorem madeIn_eq (ha : s.scopeAt? i = some a) : s.madeIn i = a.references := by
  rw [madeIn, ha]
  rfl

theorem boundIn_eq (ha : s.scopeAt? i = some a) : s.boundIn i = a.table.entries := by
  rw [boundIn, ha]
  rfl

theorem Listed.mem_made (h : s.Listed) : r ∈ s.made ↔ ∃ ref, s.referenceAt? r = some ref := by
  rw [made, List.mem_flatMap]
  constructor
  · rintro ⟨i, hi, hr⟩
    obtain ⟨a, ha⟩ := scopeAt?_of_lt (List.mem_range.1 hi)
    rw [madeIn_eq ha, h.listed i a ha] at hr
    obtain ⟨ref, href, -⟩ := Option.map_eq_some_iff.1 hr
    exact ⟨ref, href⟩
  · rintro ⟨ref, href⟩
    have hhome : s.homeOf r = some ref.scope := by rw [homeOf, href]; rfl
    have hlt := h.home r ref.scope hhome
    obtain ⟨a, ha⟩ := scopeAt?_of_lt hlt
    exact ⟨ref.scope, List.mem_range.2 hlt, by rwa [madeIn_eq ha, h.listed _ a ha]⟩

/-- Every reference is listed once. -/
theorem Listed.nodup_made (h : s.Listed) (hc : s.Chronological) : s.made.Nodup := by
  rw [made, List.nodup_flatMap]
  refine ⟨fun i hi => ?_, List.nodup_range.imp_of_mem fun {i j} hi hj hne => ?_⟩
  · obtain ⟨a, ha⟩ := scopeAt?_of_lt (List.mem_range.1 hi)
    rw [madeIn_eq ha]
    exact (hc i a ha).1.imp Nat.ne_of_lt
  · obtain ⟨a, ha⟩ := scopeAt?_of_lt (List.mem_range.1 hi)
    obtain ⟨b, hb⟩ := scopeAt?_of_lt (List.mem_range.1 hj)
    intro r hr hr'
    rw [madeIn_eq ha, h.listed i a ha] at hr
    rw [madeIn_eq hb, h.listed j b hb] at hr'
    exact hne (Option.some.inj (hr.symm.trans hr'))

theorem of_mem_boundIn (hs : s.Sound) (hv : v ∈ s.boundIn i) : ∃ a var key, s.scopeAt? i = some a ∧
    (key, v) ∈ a.table ∧ s.variableAt? v = some var ∧ var.scope = i ∧
      Name.ofTree? var.name = some key := by
  cases ha : s.scopeAt? i with
  | none => rw [boundIn, ha] at hv; cases hv
  | some a =>
      rw [boundIn_eq ha] at hv
      obtain ⟨⟨key, w⟩, he, rfl⟩ := List.mem_map.1 hv
      obtain ⟨var, hvar, hscope, hname⟩ := hs.table i a key w ha he
      exact ⟨a, var, key, rfl, he, hvar, hscope, hname⟩

/-- No variable stands under two names of a scope. -/
theorem nodup_boundIn (hs : s.Sound) (hd : s.Distinct) (i : ScopeId) : (s.boundIn i).Nodup := by
  cases ha : s.scopeAt? i with
  | none => rw [boundIn, ha]; exact List.nodup_nil
  | some a =>
      rw [boundIn_eq ha]
      refine (List.pairwise_map.1 (hd i a ha)).imp_of_mem (R := fun e f => e.1 ≠ f.1)
        (fun {e f} he hf hne heq => hne ?_) |> List.pairwise_map.2
      -- Both entries have the name of the one variable.
      obtain ⟨var, hvar, -, hname⟩ := hs.table i a e.1 e.2 ha he
      obtain ⟨var', hvar', -, hname'⟩ := hs.table i a f.1 f.2 ha hf
      rw [← heq, hvar] at hvar'
      obtain rfl := Option.some.inj hvar'
      exact Option.some.inj (hname.symm.trans hname')

namespace Sole

/-- A reference that is resolved to a variable of a scope, in a finished store. -/
theorem of_resolved (h : s.Sole a) (href : s.referenceAt? r = some ref)
    (hv : ref.resolved = some v) : ∃ var, s.variableAt? v = some var ∧ v ∈ s.boundIn var.scope ∧
      var.scope < s.scopes.size ∧ Name.ofTree? ref.name = Name.ofTree? var.name ∧
      ∃ behind, s.chain ref.scope = behind ++ s.chain var.scope ∧
        ∀ j, (s.throughAt j).count r = behind.count j := by
  have hbooks := h.books
  have hw := hbooks.account_of_resolved href hv
  obtain ⟨-, i, -, b, key, -, -, -, hb, -, hkey, hf⟩ := (h.verdict r ref href).resolved v hv
  obtain ⟨var, hvar, rfl, hname⟩ := h.sound.of_find? hb hf
  refine ⟨var, hvar, ?_, scopeAt?_lt hb, hkey.trans hname.symm, ?_⟩
  · rw [boundIn_eq hb]
    exact List.mem_map.2 ⟨(key, v), Table.mem_of_find? hf, rfl⟩
  · obtain ⟨behind, hway, hcount⟩ := hw.way
    exact ⟨behind, by rw [hway, ahead, hvar, Option.elim_some], hcount⟩

theorem mem_settled (h : s.Sole a) :
    r ∈ s.settled ↔ ∃ ref v, s.referenceAt? r = some ref ∧ ref.resolved = some v := by
  simp only [settled, List.mem_flatMap, List.mem_range]
  constructor
  · rintro ⟨i, -, v, -, hr⟩
    obtain ⟨ref, href, hv⟩ := h.books.of_mem_linksOf hr
    exact ⟨ref, v, href, hv⟩
  · rintro ⟨ref, v, href, hv⟩
    obtain ⟨var, -, hbound, hlt, -⟩ := h.of_resolved href hv
    exact ⟨var.scope, hlt, v, hbound, (h.books.mem_linksOf_iff href).2 hv⟩

/-- Every reference is noted once. -/
theorem nodup_settled (h : s.Sole a) : s.settled.Nodup := by
  -- A reference is resolved to one variable, and a variable is bound in one scope.
  have honce : ∀ {r v w}, r ∈ s.linksOf v → r ∈ s.linksOf w → v = w := fun hv hw => by
    obtain ⟨ref, href, hv⟩ := h.books.of_mem_linksOf hv
    obtain ⟨ref', href', hw⟩ := h.books.of_mem_linksOf hw
    obtain rfl := Option.some.inj (href.symm.trans href')
    exact Option.some.inj (hv.symm.trans hw)
  rw [settled, List.nodup_flatMap]
  refine ⟨fun i _ => List.nodup_flatMap.2 ⟨fun v _ => h.books.nodup_linksOf v, ?_⟩,
    List.nodup_range.imp fun {i j} hne r hi hj => ?_⟩
  · exact (nodup_boundIn h.sound h.distinct i).imp fun {v w} hne r hv hw => hne (honce hv hw)
  · obtain ⟨v, hv, hrv⟩ := List.mem_flatMap.1 hi
    obtain ⟨w, hw, hrw⟩ := List.mem_flatMap.1 hj
    obtain rfl := honce hrv hrw
    obtain ⟨-, var, -, -, -, hvar, rfl, -⟩ := of_mem_boundIn h.sound hv
    obtain ⟨-, var', -, -, -, hvar', rfl, -⟩ := of_mem_boundIn h.sound hw
    obtain rfl := Option.some.inj (hvar.symm.trans hvar')
    exact hne rfl

/-- **The references that tables note are those that are resolved.** -/
theorem settled_perm (h : s.Sole a) (hl : s.Listed) (hc : s.Chronological) :
    s.settled.Perm (s.made.filter s.isResolved) := by
  refine (List.perm_ext_iff_of_nodup h.nodup_settled ((hl.nodup_made hc).filter _)).2 fun r => ?_
  rw [h.mem_settled, List.mem_filter, hl.mem_made, isResolved, Option.any_eq_true]
  simp only [Option.isSome_iff_exists]
  constructor
  · rintro ⟨ref, v, href, hv⟩
    exact ⟨⟨ref, href⟩, ref, href, v, hv⟩
  · rintro ⟨-, ref, href, v, hv⟩
    exact ⟨ref, v, href, hv⟩

/-- **The references that leave the first scope are those that are resolved to nothing.** -/
theorem left_perm (h : s.Sole a) (hl : s.Listed) (hc : s.Chronological) :
    a.through.Perm (s.made.filter fun r => !s.isResolved r) := by
  rw [← h.throughAt]
  refine (List.perm_ext_iff_of_nodup (h.nodup_throughAt 0) ((hl.nodup_made hc).filter _)).2
    fun r => ?_
  rw [List.mem_filter, hl.mem_made]
  cases href : s.referenceAt? r with
  | none =>
      refine iff_of_false (fun hr => ?_) fun ⟨⟨_, hnone⟩, _⟩ => nomatch hnone
      exact List.count_eq_zero.1 ((h.books.unused r href).2.1 0) hr
  | some ref =>
      have hhome : 0 ∈ s.chain ref.scope := h.below _ (h.books.home r ref href)
      cases hres : ref.resolved with
      | none =>
          have hcount := h.count_throughAt href hres 0
          refine iff_of_true (List.count_pos_iff.1 (hcount ▸ List.count_pos_iff.2 hhome))
            ⟨⟨ref, rfl⟩, ?_⟩
          simp [isResolved, href, hres]
      | some v =>
          -- A resolved reference stays below the scope of its variable, or in it.
          obtain ⟨var, -, -, hlt, -, behind, hway, hcount⟩ := h.of_resolved href hres
          have hnodup := nodup_chain h.sound.rooted ref.scope
          rw [hway] at hnodup
          refine iff_of_false (fun hr => ?_) (by simp [isResolved, href, hres])
          rw [← List.count_pos_iff, hcount 0, List.count_pos_iff] at hr
          exact (List.nodup_append'.1 hnodup).2.2 hr (h.below _ hlt)

/-- **What leaves a scope and not the one above is resolved to a variable of the one above.** -/
theorem stays (h : s.Sole a) (hup : s.upperOf i = some j) (hr : r ∈ s.throughAt i)
    (hnot : r ∉ s.throughAt j) : ∃ ref v var, s.referenceAt? r = some ref ∧ v ∈ s.boundIn j ∧
      s.variableAt? v = some var ∧ Name.ofTree? ref.name = Name.ofTree? var.name := by
  have hrooted := h.sound.rooted
  cases href : s.referenceAt? r with
  | none => exact absurd hr (List.count_eq_zero.1 ((h.books.unused r href).2.1 i))
  | some ref =>
      cases hres : ref.resolved with
      | none =>
          have hcount := h.count_throughAt href hres
          have hi : i ∈ s.chain ref.scope :=
            List.count_pos_iff.1 (hcount i ▸ List.count_pos_iff.2 hr)
          have hj := List.count_pos_iff.2 (upper_mem_chain hrooted hi hup)
          exact absurd (List.count_pos_iff.1 (hcount j ▸ hj)) hnot
      | some v =>
          obtain ⟨var, hvar, hbound, -, hname, behind, hway, hcount⟩ := h.of_resolved href hres
          have hnodup := nodup_chain hrooted ref.scope
          rw [hway] at hnodup
          have hapart := (List.nodup_append'.1 hnodup).2.2
          rw [← List.count_pos_iff, hcount i, List.count_pos_iff] at hr
          rw [← List.count_pos_iff, hcount j, List.count_pos_iff] at hnot
          have hi : i ∈ s.chain ref.scope := hway ▸ List.mem_append_left _ hr
          have hj : j ∈ s.chain var.scope := by
            have hj := upper_mem_chain hrooted hi hup
            rw [hway] at hj
            exact (List.mem_append.1 hj).resolve_left hnot
          have hvs : var.scope ∈ s.chain ref.scope :=
            hway ▸ List.mem_append_right _ (self_mem_chain s _)
          -- The scope of the variable is above the one that was left and not above the next.
          have hscope : var.scope = j := by
            rcases Nat.le_total i var.scope with hle | hle
            · exact absurd (mem_chain_of_le hrooted hvs hi hle) fun hi => hapart hr hi
            · have hin := mem_chain_of_le hrooted hi hvs hle
              rw [chain_step hrooted hup, List.mem_cons] at hin
              refine mem_chain_antisymm hrooted (hin.resolve_left ?_) hj |>.symm
              rintro rfl
              exact hapart hr (self_mem_chain s _)
          exact ⟨ref, v, var, rfl, hscope ▸ hbound, hvar, hname⟩

end Sole

end Store

/-! ### What a document says of references -/

theorem filterMap_map_of_some {α β γ : Type} {l : List α} {f : α → Option β} {g : β → γ} {h : α → γ}
    (hl : ∀ a ∈ l, (f a).map g = some (h a)) : (l.filterMap f).map g = l.map h := by
  induction l with
  | nil => rfl
  | cons a l ih =>
      obtain ⟨b, hb, hg⟩ := Option.map_eq_some_iff.1 (hl a List.mem_cons_self)
      rw [List.filterMap_cons_some hb, List.map_cons, List.map_cons, hg,
        ih fun c hc => hl c (List.mem_cons_of_mem a hc)]

namespace Report

variable {s : Store} {a : Scope} {i : ScopeId} {t : Tree} {vars made : List Tree}

/-- The name of a reference. -/
def nameOf (s : Store) (r : ReferenceId) : Tree :=
  ((s.referenceAt? r).map Reference.name).getD .null

/-- What an entry says of variables, references and names that leave. -/
theorem listAt_of_members? (h : members? s true a = some t.own) :
    (s.sortedVariables? a).bind (List.mapM variableEntry?) = some (t.listAt "variables") ∧
    (a.references.filterMap s.referenceAt?).mapM referenceEntry? = some (t.listAt "references") ∧
    t.listAt "through" = (a.through.filterMap s.referenceAt?).map Reference.name := by
  obtain ⟨position, vars, made, -, hvars, hmade, hown⟩ := members?_eq_some h
  have hget : ∀ {key u}, key ≠ "children" → (Tree.obj t.own).get key = u → t.get key = u :=
    fun hk hu => (Tree.get_own hk t).symm.trans hu
  have hv : t.get "variables" = .arr vars := hget (by decide) (by rw [hown]; rfl)
  have hr : t.get "references" = .arr made := hget (by decide) (by rw [hown]; rfl)
  have ht : t.get "through" = .arr ((a.through.filterMap s.referenceAt?).map Reference.name) :=
    hget (by decide) (by rw [hown]; rfl)
  rw [hvars, hmade rfl, Tree.listAt, Tree.listAt, Tree.listAt, hv, hr, ht]
  exact ⟨rfl, rfl, rfl⟩

/-- The variables of an entry have the references that are noted with those of the scope. -/
theorem sum_variables (hs : s.Sound) (ha : s.scopeAt? i = some a) (htext : a.table.IsText)
    (hvars : (s.sortedVariables? a).bind (List.mapM variableEntry?) = some vars) :
    (vars.map fun v => (v.get "references").whole).sum =
      ((s.boundIn i).flatMap s.linksOf).length := by
  obtain ⟨table, htable, hperm⟩ := Table.sorted?_total htext
  rw [sortedVariables?, htable, Option.map_some, Option.bind_some] at hvars
  have hentries : vars.map (fun v => (v.get "references").whole) =
      (table.entries.filterMap s.variableAt?).map fun var => (var.references.length : Int) := by
    refine map_eq_of_forall₂ (forall₂_of_mapM hvars) fun var v hv => ?_
    obtain ⟨defs, -, hv⟩ := Option.bind_eq_some_iff.1 hv
    rw [← Option.some.inj hv]
    rfl
  rw [hentries, filterMap_map_of_some (h := fun v => ((s.linksOf v).length : Int)) fun v hv => ?_,
    List.length_flatMap, boundIn_eq ha]
  · have hsum := ((hperm.map (·.2)).map fun v => ((s.linksOf v).length : Int)).sum_eq
    rw [Table.entries, Table.entries, hsum]
    simp [Function.comp_def]
  · obtain ⟨e, he, rfl⟩ := List.mem_map.1 hv
    obtain ⟨var, hvar, -⟩ := hs.table i a e.1 e.2 ha (hperm.subset he)
    simp [linksOf, hvar]

/-- The entries of references say which of them are resolved. -/
theorem countP_references (hknown : ∀ r ∈ a.references, ∃ ref, s.referenceAt? r = some ref)
    (hmade : (a.references.filterMap s.referenceAt?).mapM referenceEntry? = some made) (b : Bool) :
    made.countP (fun e => e.get "resolved" = .bool b) =
      a.references.countP fun r => s.isResolved r = b := by
  have hentries : made.map (fun e => e.get "resolved") =
      (a.references.filterMap s.referenceAt?).map fun ref => .bool ref.resolved.isSome := by
    refine map_eq_of_forall₂ (forall₂_of_mapM hmade) fun ref e he => ?_
    obtain ⟨position, -, he⟩ := Option.bind_eq_some_iff.1 he
    rw [← Option.some.inj he]
    rfl
  rw [filterMap_map_of_some (h := fun r => .bool (s.isResolved r)) fun r hr => ?_] at hentries
  · have hcount := congrArg (List.countP fun t => decide (t = .bool b)) hentries
    rw [List.countP_map, List.countP_map] at hcount
    simpa [Function.comp_def] using hcount
  · obtain ⟨ref, href⟩ := hknown r hr
    simp [isResolved, href]

/-! ### Documents balance -/

theorem sum_flatMap {α : Type} (l : List α) (f : α → List Tree) (g : Tree → Int) :
    ((l.flatMap f).map g).sum = (l.map fun a => ((f a).map g).sum).sum := by
  induction l with
  | nil => rfl
  | cons a l ih => rw [List.flatMap_cons, List.map_append, List.sum_append, ih, List.map_cons,
      List.sum_cons]

/-- The names that leave a scope, as an entry lists them. -/
theorem listAt_through {P : Tree → Prop} (h : s.Finished P) (ha : s.scopeAt? i = some a)
    (hm : members? s true a = some t.own) : t.listAt "through" = (s.throughAt i).map (nameOf s) := by
  rw [(listAt_of_members? hm).2.2, throughAt_eq ha]
  refine filterMap_map_of_some fun r hr => ?_
  cases href : s.referenceAt? r with
  | none =>
      exact absurd (throughAt_eq ha ▸ hr) (List.count_eq_zero.1 ((h.books.unused r href).2.1 i))
  | some ref => simp [nameOf, href]

/-- If a name leaves a scope more often than another one, some reference with that name leaves the
one and not the other. -/
theorem exists_not_through {P : Tree → Prop} {j : ScopeId} {name : Tree} (h : s.Finished P)
    (hlt : ((s.throughAt j).map (nameOf s)).count name <
      ((s.throughAt i).map (nameOf s)).count name) :
    ∃ r ∈ s.throughAt i, r ∉ s.throughAt j ∧ nameOf s r = name := by
  by_contra hnone
  push Not at hnone
  have hsub : (s.throughAt i).filter (fun r => nameOf s r = name) ⊆
      (s.throughAt j).filter fun r => nameOf s r = name := fun r hr => by
    rw [List.mem_filter, decide_eq_true_eq] at hr ⊢
    exact ⟨by_contra fun hj => hnone r hr.1 hj hr.2, hr.2⟩
  have hle := (((h.nodup_throughAt i).filter _).subperm hsub).length_le
  rw [← List.countP_eq_length_filter, ← List.countP_eq_length_filter] at hle
  rw [List.count_eq_countP, List.count_eq_countP, List.countP_map, List.countP_map] at hlt
  simp only [Function.comp_def, beq_eq_decide] at hlt
  omega

/-- A variable that is bound in a scope is listed under its name. -/
theorem exists_variableEntry {v : VariableId} {var : Variable} (ha : s.scopeAt? i = some a)
    (htext : a.table.IsText)
    (hvars : (s.sortedVariables? a).bind (List.mapM variableEntry?) = some vars)
    (hv : v ∈ s.boundIn i) (hvar : s.variableAt? v = some var) :
    ∃ e ∈ vars, e.get "name" = var.name := by
  obtain ⟨table, htable, hperm⟩ := Table.sorted?_total htext
  rw [sortedVariables?, htable, Option.map_some, Option.bind_some] at hvars
  rw [boundIn_eq ha] at hv
  have hsorted : var ∈ table.entries.filterMap s.variableAt? :=
    List.mem_filterMap.2 ⟨v, (hperm.map (·.2)).symm.subset hv, hvar⟩
  obtain ⟨e, he, hentry⟩ := exists_of_forall₂ (forall₂_of_mapM hvars).flip hsorted
  obtain ⟨defs, -, hentry⟩ := Option.bind_eq_some_iff.1 hentry
  exact ⟨e, he, by rw [← Option.some.inj hentry]; rfl⟩

/-- The entries of all references say which of those made are resolved. -/
theorem countP_made {doc : Tree} (h : s.Sole a) (hp : s.Preordered) (had : s.Adopted)
    (hl : s.Listed) (hdoc : document? s true 0 = some doc) (b : Bool) :
    (doc.all "references").countP (fun e => e.get "resolved" = .bool b) =
      s.made.countP fun r => s.isResolved r = b := by
  have hknown : ∀ i b, s.scopeAt? i = some b → ∀ r ∈ b.references,
      ∃ ref, s.referenceAt? r = some ref := fun i b hb r hr => by
    obtain ⟨ref, href, -⟩ := Option.map_eq_some_iff.1 ((hl.listed i b hb r).1 hr)
    exact ⟨ref, href⟩
  rw [Tree.all, made, List.countP_flatMap, List.countP_flatMap]
  refine congrArg List.sum (map_entries hp had (scopeAt?_lt h.scope) h.below hdoc
    fun i a t ha hm => ?_)
  show List.countP _ _ = List.countP _ _
  rw [countP_references (hknown i a ha) (listAt_of_members? hm).2.1, madeIn_eq ha]

/-- **The document of the first scope balances.** -/
theorem balanced {doc : Tree} (h : s.Sole a) (hp : s.Preordered) (had : s.Adopted) (hl : s.Listed)
    (hc : s.Chronological) (htable : ∀ i b, s.scopeAt? i = some b → b.table.IsText)
    (hname : ∀ r ref, s.referenceAt? r = some ref → ∃ text, ref.name = .str text)
    (hdoc : document? s true 0 = some doc) : doc.Balanced := by
  have hroot : 0 < s.scopes.size := scopeAt?_lt h.scope
  have hcount := countP_made h hp had hl hdoc
  refine ⟨?_, ?_, fun p hpe c hce name hlt => ?_⟩
  · rw [hcount true, Tree.all, sum_flatMap, map_entries (g := fun i =>
      (((s.boundIn i).flatMap s.linksOf).length : Int)) hp had hroot h.below hdoc
      fun i a t ha hm => sum_variables h.sound ha (htable i a ha) (listAt_of_members? hm).1]
    have hperm := (h.settled_perm hl hc).length_eq
    rw [settled, List.length_flatMap, ← List.countP_eq_length_filter] at hperm
    simp only [Bool.decide_eq_true, ← hperm]
    push_cast
    rw [List.map_map]
    rfl
  · obtain ⟨-, b, -, -, hb, hm, -⟩ := documentAt?_eq_some hdoc
    obtain rfl := Option.some.inj (h.scope.symm.trans hb)
    rw [hcount false, listAt_through h.toFinished hb hm, List.length_map, h.throughAt,
      (h.left_perm hl hc).length_eq, ← List.countP_eq_length_filter]
    simp
  · -- Both entries are of scopes, and the one is below the other.
    obtain ⟨depth, j, hj⟩ := documentAt?_of_mem hdoc hpe
    obtain ⟨depth', b, docs, -, hb, hm, hdocs, hchildren, -⟩ := documentAt?_eq_some hj
    rw [hchildren] at hce
    obtain ⟨k, hk, hck⟩ := exists_of_mapM hdocs hce
    obtain ⟨-, d, -, -, hd, hm', -⟩ := documentAt?_eq_some hck
    rw [← childrenAt_eq hb] at hk
    have hup := (had.mem_iff (had.lt hk)).1 hk
    rw [listAt_through h.toFinished hb hm, listAt_through h.toFinished hd hm'] at hlt
    obtain ⟨r, hr, hnot, rfl⟩ := exists_not_through h.toFinished hlt
    obtain ⟨ref, v, var, href, hv, hvar, hsame⟩ := h.stays hup hr hnot
    -- Names that are texts are the same as trees.
    obtain ⟨text, htext⟩ := hname r ref href
    rw [htext] at hsame
    have hvarname : var.name = .str text := Name.ofTree?_eq_text.1 hsame.symm
    obtain ⟨e, he, hentry⟩ :=
      exists_variableEntry hb (htable j b hb) (listAt_of_members? hm).1 hv hvar
    refine ⟨e, he, ?_⟩
    rw [hentry, nameOf, href, hvarname]
    exact htext.symm

end Report

/-! ### Reports of programs -/

namespace Walk

theorem kept_chronological : Kept Store.Chronological where
  record entry hI := hI.quiet (A := fun _ => True) (.record entry)
  operation hI hd ho hop := hI.changes (hd.changes ho hop)

end Walk

/-- A report as text is the outline of the global scope. -/
theorem Report.outline?_of_render {s : Store} {refs : Bool} {i : ScopeId} {text : String}
    (hglobal : s.global = some i) :
    render s { format := .str "text", includeReferences := refs } = .ok text ↔
      outline? s refs i = some text := by
  rw [render, hglobal]
  simp only [Format.ofTree?, Option.bind_some, body?]
  cases outline? s refs i with
  | none =>
      constructor
      · intro h
        cases h
      · intro h
        cases h
  | some outline =>
      constructor
      · exact fun h => congrArg some (Except.ok.inj h)
      · exact fun h => congrArg Except.ok (Option.some.inj h)

open Walk Report in
/-- **The report of a program is complete and balances.**  The global scope of a sole program is the
first scope.  The entries of its document, in preorder, describe the scopes in their order, one for
each; the report as text is a row of blocks that show the scopes in their order, one for each, which
start with the line that names the scope, two blanks in for every scope above.  Both can be made of
every program whose positions and keywords can be read.  The document counts the same references by
variables and by scopes: the variables have those that are resolved, the others leave the root, and
a name that leaves a scope more often than the one above is the name of a variable of the one
above. -/
theorem report_balances {o : Options} {tree : Tree} {s : Store} (h : tree.SoleProgram)
    (hn : tree.TextNames) (hs : analyze o tree = .ok s) : s.global = some 0 ∧
    (∀ refs doc, document? s refs 0 = some doc →
      List.Forall₂ (Describes s refs) s.scopes.toList doc.entries ∧
        doc.entries.length = s.scopes.size) ∧
    (∃ level : ScopeId → Nat, s.Levels level ∧ ∀ refs text,
      render s { format := .str "text", includeReferences := refs } = .ok text →
        ∃ blocks : List Block, text = String.join (blocks.map Block.text) ∧
          List.Forall₂ (fun m b => Shows s refs (level m.2) m.1 b) s.numbered blocks) ∧
    (∀ doc, document? s true 0 = some doc → doc.Balanced) ∧
    (tree.Presentable → ∀ refs, ∃ doc text, document? s refs 0 = some doc ∧
      render s { format := .str "text", includeReferences := refs } = .ok text) := by
  obtain ⟨a, ha⟩ := analyze_sole h hs
  have hroot : 0 < s.scopes.size := scopeAt?_lt ha.scope
  have hp : s.Preordered := kept_preordered.analyze (preordered_new o) hs
  have had : s.Adopted := kept_adopted.analyze (fun _ => rfl) hs
  have hc : s.Chronological := kept_chronological.analyze (fun _ _ hb => (nomatch hb)) hs
  have hnames := analyze_finished (Tree.hereditary_allObjects Tree.isNamedByText) hn hs
  have htext : ∀ i b, s.scopeAt? i = some b → b.table.IsText := fun i b hb => isText_table hn hs hb
  refine ⟨ha.global, fun refs doc hdoc => ?_, ⟨s.level, hp.rooted.levels, fun refs text hr => ?_⟩,
    fun doc hdoc => ?_, fun hshown refs => ?_⟩
  · have hall := document?_described hp had hroot ha.below ha.sound ha.distinct htext hdoc
    exact ⟨hall, hall.length_eq.symm.trans Array.length_toList⟩
  · exact outline?_shown hp had hroot ha.below ha.sound ha.distinct htext
      ((outline?_of_render ha.global).1 hr)
  · exact balanced ha hp had (analyze_listed hs) hc htext (fun r ref href => hnames.text href) hdoc
  · have hreport := Reportable.of_analyze hn hshown hs ⟨0, ha.global, hroot⟩
    obtain ⟨doc, hdoc⟩ := Option.isSome_iff_exists.1
      (hreport.documentAt?_isSome refs 0 hroot (Nat.le_add_left _ 0))
    obtain ⟨text, houtline⟩ := Option.isSome_iff_exists.1
      (hreport.outlineAt?_isSome refs 0 0 hroot (Nat.le_add_left _ 0))
    exact ⟨doc, text, hdoc, (outline?_of_render ha.global).2 houtline⟩

/-- `var f = function (x) { { x; y; } }; f;`, where the constructs with a scope start. -/
def closureProgram : Tree :=
  let start (column : Int) : String × Tree :=
    ("loc", .obj [("start", .obj [("line", .int 1), ("column", .int column)])])
  let name (text : String) : Tree := .obj [("type", .str "Identifier"), ("name", .str text)]
  let use (text : String) : Tree :=
    .obj [("type", .str "ExpressionStatement"), ("expression", name text)]
  let block (column : Int) (body : List Tree) : Tree :=
    .obj [("type", .str "BlockStatement"), start column, ("body", .arr body)]
  .obj [("type", .str "Program"), start 0, ("body", .arr [
    .obj [("type", .str "VariableDeclaration"), ("kind", .str "var"), ("declarations", .arr [
      .obj [("type", .str "VariableDeclarator"), ("id", name "f"), ("init",
        .obj [("type", .str "FunctionExpression"), start 8, ("id", .null),
          ("params", .arr [name "x"]), ("body", block 21 [block 23 [use "x", use "y"]])])]])],
    use "f"])]

/-- The outline of the sample. -/
def closureOutline : String :=
  "global scope (Program 1:0)\n" ++
    "  - f (var) refs=2\n" ++
    "  through: y\n" ++
    "  function scope (FunctionExpression 1:8)\n" ++
    "    - arguments (implicit) refs=0\n" ++
    "    - x (Parameter) refs=1\n" ++
    "    through: y\n" ++
    "    block scope (BlockStatement 1:23)\n" ++
    "      through: x, y\n"

/-- The sample has three scopes, one in the other, four references, and one of them leaves the
program. -/
theorem closureProgram_balances : ∃ s doc, analyze {} closureProgram = .ok s ∧
    s.scopes.size = 3 ∧ Report.document? s true 0 = some doc ∧ doc.entries.length = 3 ∧
    doc.Balanced ∧ (doc.all "references").length = 4 ∧ doc.listAt "through" = [.str "y"] ∧
    Report.render s {} = .ok closureOutline ∧
    ∃ level : ScopeId → Nat, level 0 = 0 ∧ level 1 = 1 ∧ level 2 = 2 ∧
      ∃ blocks : List Report.Block, closureOutline = String.join (blocks.map Report.Block.text) ∧
        List.Forall₂ (fun m b => Report.Shows s true (level m.2) m.1 b) s.numbered blocks := by
  have hview : (analyze {} closureProgram).map (fun s => ((s.scopes.size, s.upperOf 0, s.upperOf 1,
      s.upperOf 2), (Report.document? s true 0).map fun doc =>
        ((doc.all "references").length, doc.listAt "through"))) =
      .ok ((3, none, some 0, some 1), some (4, [.str "y"])) := by
    decide +kernel
  have hshown : (analyze {} closureProgram).toOption.map
      (fun s => (Report.render s {}).toOption) = some (some closureOutline) := by
    decide +kernel
  cases hs : analyze {} closureProgram with
  | error e => rw [hs] at hview; cases hview
  | ok s =>
      obtain ⟨-, hdocument, ⟨level, hlevels, houtline⟩, hbalanced, hmade⟩ := report_balances
        (by decide +kernel : closureProgram.SoleProgram) (by decide +kernel) hs
      obtain ⟨doc, text, hdoc, htext⟩ := hmade (by decide +kernel) true
      rw [hs] at hview hshown
      obtain ⟨hscopes, hview⟩ := Prod.mk.inj (Except.ok.inj hview)
      simp only [Prod.mk.injEq] at hscopes
      obtain ⟨hsize, hroot, hfirst, hsecond⟩ := hscopes
      rw [hdoc] at hview
      obtain ⟨hcount, hthrough⟩ := Prod.mk.inj (Option.some.inj hview)
      have hrender : Report.render s {} = .ok text := htext
      rw [Except.toOption, Option.map_some, hrender] at hshown
      obtain rfl : text = closureOutline := Option.some.inj (Option.some.inj hshown)
      have hlevel := hlevels.root 0 hroot
      have hlevel' := hlevels.step 1 0 hfirst
      have hlevel'' := hlevels.step 2 1 hsecond
      exact ⟨s, doc, rfl, hsize, hdoc, (hdocument true doc hdoc).2.trans hsize, hbalanced doc hdoc,
        hcount, hthrough, hrender, level, hlevel, by omega, by omega, houtline true _ htext⟩

end LexScope
