import LexScope.Proofs.SoleProgram
import LexScope.Proofs.Report
import LexScope.Report.Render

/-!
# Proofs — Rendering — when a report can be made

A report goes down from the global scope and shows scopes, variables and references.  It can be made
if there is a global scope, all names are texts, and the positions and keywords that are shown can be
read (`Store.Reportable`).  Names that are texts can always be sorted, and the way down ends because
a scope has a greater number than the one above it (`Store.Descending`).

* `Table.sorted?_total`, `Table.sorted?_increasing`: texts have an order, and are put in it.
* `Descending.apply`: every operation of a walk keeps scopes below one another.
* `Reportable.render_total`: **a report can be made in every format.**
-/

namespace LexScope

open Store LexScope.Action

/-! ### Names in order -/

namespace Table

variable {α : Type} {t t' : Table α} {e : Name × α}

/-- All names of a table are texts. -/
def IsText (t : Table α) : Prop := ∀ e ∈ t, ∃ text, e.1 = .text text

/-- Where all names are texts, an entry can be put in its place. -/
theorem insertSorted?_total (ht : t.IsText) (he : ∃ text, e.1 = .text text) :
    ∃ t', t.insertSorted? e = some t' ∧ t'.Perm (e :: t) := by
  induction t with
  | nil => exact ⟨[e], rfl, .refl _⟩
  | cons f t ih =>
      obtain ⟨a, ha⟩ := he
      obtain ⟨b, hb⟩ := ht f List.mem_cons_self
      obtain ⟨t', ht', hperm⟩ := ih (fun e he => ht e (List.mem_cons_of_mem _ he))
      have hle : e.1.le? f.1 = some !decide (b < a) := by rw [ha, hb, Name.le?]
      rw [insertSorted?, hle]
      cases !decide (b < a) with
      | true => exact ⟨e :: f :: t, rfl, .refl _⟩
      | false =>
          refine ⟨f :: t', ?_, (hperm.cons f).trans (.swap e f t)⟩
          show (Table.insertSorted? t e).bind _ = _
          rw [ht']
          rfl

/-- **Names that are texts have an order.** -/
theorem sorted?_total (ht : t.IsText) : ∃ t', t.sorted? = some t' ∧ t'.Perm t := by
  induction t with
  | nil => exact ⟨[], rfl, .refl _⟩
  | cons e t ih =>
      obtain ⟨t', ht', hperm⟩ := ih fun e he => ht e (List.mem_cons_of_mem _ he)
      have htext : t'.IsText := fun e he => ht e (List.mem_cons_of_mem _ (hperm.subset he))
      obtain ⟨u, hu, huperm⟩ := insertSorted?_total htext (ht e List.mem_cons_self)
      refine ⟨u, ?_, huperm.trans (hperm.cons e)⟩
      rw [sorted?, ht']
      exact hu

/-- The names of a table are texts, each of them before those that follow. -/
def Increasing (t : Table α) : Prop :=
  t.Pairwise fun e f => ∃ a b, e.1 = .text a ∧ f.1 = .text b ∧ a < b

/-- A new name goes to its place. -/
theorem insertSorted?_increasing (h : t.Increasing) (ht : t.IsText)
    (he : ∃ text, e.1 = .text text) (hnew : e.1 ∉ t.names) (hput : t.insertSorted? e = some t') :
    t'.Increasing := by
  induction t generalizing t' with
  | nil =>
      obtain rfl := Option.some.inj hput
      exact List.pairwise_singleton _ _
  | cons f t ih =>
      obtain ⟨hfirst, hrest⟩ := List.pairwise_cons.1 h
      obtain ⟨hother, hnew⟩ : e.1 ≠ f.1 ∧ e.1 ∉ names t :=
        not_or.1 fun hmem => hnew (List.mem_cons.2 hmem)
      have htext : IsText t := fun e he => ht e (List.mem_cons_of_mem _ he)
      obtain ⟨u, hu, hperm⟩ := insertSorted?_total htext he
      obtain ⟨a, ha⟩ := he
      obtain ⟨b, hb⟩ := ht f List.mem_cons_self
      have hle : e.1.le? f.1 = some !decide (b < a) := by rw [ha, hb, Name.le?]
      rw [insertSorted?, hle, hu] at hput
      by_cases hba : b < a
      · rw [decide_eq_true hba] at hput
        obtain rfl := Option.some.inj hput
        refine List.pairwise_cons.2 ⟨fun g hg => ?_, ih hrest htext hnew hu⟩
        rcases List.mem_cons.1 (hperm.subset hg) with rfl | hg
        · exact ⟨b, a, hb, ha, hba⟩
        · exact hfirst g hg
      · rw [decide_eq_false hba] at hput
        obtain rfl := Option.some.inj hput
        have hab : a < b := lt_of_le_of_ne (not_lt.1 hba) fun heq => hother (by rw [ha, hb, heq])
        refine List.pairwise_cons.2 ⟨fun g hg => ?_, h⟩
        rcases List.mem_cons.1 hg with rfl | hg
        · exact ⟨a, b, ha, hb, hab⟩
        · obtain ⟨c, d, hc, hd, hcd⟩ := hfirst g hg
          obtain rfl := Name.text.inj (hb.symm.trans hc)
          exact ⟨a, d, ha, hd, hab.trans hcd⟩

/-- **Different names that are texts are put in order.** -/
theorem sorted?_increasing (ht : t.IsText) (hn : t.names.Nodup) (h : t.sorted? = some t') :
    t'.Increasing := by
  induction t generalizing t' with
  | nil =>
      obtain rfl := Option.some.inj h
      exact List.Pairwise.nil
  | cons e t ih =>
      obtain ⟨hnew, hn⟩ := List.nodup_cons.1 hn
      have htext : IsText t := fun e he => ht e (List.mem_cons_of_mem _ he)
      obtain ⟨u, hu, hperm⟩ := sorted?_total htext
      rw [sorted?, hu] at h
      exact insertSorted?_increasing (ih htext hn hu) (fun e he => htext e (hperm.subset he))
        (ht e List.mem_cons_self) (fun hmem => hnew ((hperm.map _).subset hmem)) h

/-- Texts that are put into a table one after the other are its names. -/
theorem isText_ofTexts (texts : List String) {t : Table Unit} (ht : t.IsText) :
    IsText (texts.foldl (fun t text => t.put (.text text) ()) t) := by
  induction texts generalizing t with
  | nil => exact ht
  | cons text texts ih =>
      refine ih fun e he => ?_
      rcases mem_put he with rfl | he
      · exact ⟨text, rfl⟩
      · exact ht e he

theorem nodup_ofTexts (texts : List String) {t : Table Unit} (hn : t.names.Nodup) :
    (texts.foldl (fun t text => t.put (.text text) ()) t).names.Nodup := by
  induction texts generalizing t with
  | nil => exact hn
  | cons text texts ih => exact ih (nodup_put hn _ _)

theorem mem_names_ofTexts {texts : List String} {t : Table Unit} {key : Name} :
    key ∈ (texts.foldl (fun t text => t.put (.text text) ()) t).names ↔
      key ∈ t.names ∨ ∃ text ∈ texts, key = .text text := by
  induction texts generalizing t with
  | nil => simp
  | cons text texts ih =>
      have hput : key ∈ (t.put (.text text) ()).names ↔ key ∈ t.names ∨ key = .text text := by
        rw [names_put]
        split
        · rename_i hmem
          exact ⟨.inl, fun h => h.elim id fun heq => heq ▸ hmem⟩
        · simp
      rw [List.foldl_cons, ih, hput, or_assoc]
      simp

end Table

/-! ### Scopes below scopes -/

namespace Store

variable {s t : Store} {i j : ScopeId} {a : Scope}

/-- The scopes directly below a scope. -/
def childrenAt (s : Store) (i : ScopeId) : List ScopeId :=
  ((s.scopeAt? i).map (·.children)).getD []

theorem childrenAt_eq (h : s.scopeAt? i = some a) : s.childrenAt i = a.children := by
  rw [childrenAt, h]
  rfl

theorem childrenAt_updateScope {f : Scope → Scope} (hf : ∀ a, (f a).children = a.children)
    (i j : ScopeId) : (s.updateScope i f).childrenAt j = s.childrenAt j := by
  unfold childrenAt
  rw [scopeAt?_updateScope]
  split
  · cases s.scopeAt? j with
    | none => rfl
    | some a => exact hf a
  · rfl

theorem childrenAt_updateScopes {f : Scope → Scope} (hf : ∀ a, (f a).children = a.children)
    (l : List ScopeId) (j : ScopeId) : (s.updateScopes l f).childrenAt j = s.childrenAt j := by
  induction l generalizing s with
  | nil => rfl
  | cons i l ih => exact ih.trans (childrenAt_updateScope hf i j)

theorem childrenAt_bindNew (i : ScopeId) (key : Name) (var : Variable) (j : ScopeId) :
    (s.bindNew i key var).childrenAt j = s.childrenAt j := by
  rw [bindNew, childrenAt_updateScope]
  · rfl
  · exact fun _ => rfl

/-- A scope that is added is noted by the one above it, and has nothing below it. -/
theorem childrenAt_addScope (kind : ScopeKind) (n : Node) {upper : Option ScopeId} (strict : Bool)
    (hu : ∀ u, upper = some u → u < s.scopes.size) (j : ScopeId) :
    (s.addScope kind n upper strict).childrenAt j =
      if upper = some j then s.childrenAt j ++ [s.scopes.size] else s.childrenAt j := by
  unfold childrenAt
  rw [scopeAt?_addScope s kind n upper strict hu]
  split
  · rename_i hj
    rw [if_neg fun h => Nat.lt_irrefl _ (hj ▸ hu j h), scopeAt?_eq_none.2 hj.ge]
    rfl
  · split
    · rename_i h
      obtain ⟨a, ha⟩ := scopeAt?_of_lt (hu j h)
      rw [ha]
      rfl
    · cases s.scopeAt? j <;> rfl

/-- Every scope below another is there and has a greater number. -/
def Descending (s : Store) : Prop :=
  ∀ i j : Nat, j ∈ s.childrenAt i → i < j ∧ j < s.scopes.size

end Store

namespace Action

variable {s t : Store} {i : ScopeId} {n : Node}

/-- Nothing but entering a scope puts one below another. -/
theorem define_childrenAt {d : Definition} {w : Option VariableId}
    (h : (define i n d).outcome s = (.ok w, t)) (j : ScopeId) :
    t.childrenAt j = s.childrenAt j := by
  obtain ⟨-, -, rfl⟩ | ⟨-, key, a, -, -, ⟨v, -, -, rfl⟩ | ⟨-, -, rfl⟩⟩ := define_ok_iff.1 h
  · rfl
  · rfl
  · exact childrenAt_bindNew ..

theorem settle_childrenAt {r : ReferenceId} (h : (settle i r).outcome s = (.ok (), t))
    (j : ScopeId) : t.childrenAt j = s.childrenAt j := by
  obtain ⟨ref, key, a, -, -, -, ⟨v, -, rfl⟩ | ⟨-, hup⟩⟩ := settle_ok_iff.1 h
  · rfl
  · obtain ⟨a, -, ⟨-, rfl⟩ | ⟨w, above, -, -, -, rfl⟩⟩ := handUp_ok_iff.1 hup
    · rw [childrenAt_updateScope]
      exact fun _ => rfl
    · rw [childrenAt_updateScope, childrenAt_updateScope] <;> exact fun _ => rfl

theorem close_childrenAt {up : Option ScopeId} (h : (close i).outcome s = (.ok up, t))
    (j : ScopeId) : t.childrenAt j = s.childrenAt j := by
  obtain ⟨a, pending, u, v, last, -, -, himp, hset, -, -, -, rfl⟩ := close_ok_iff.1 h
  have hu : u.childrenAt j = s.childrenAt j := by
    refine bindImplicits_induction (P := fun u => u.childrenAt j = s.childrenAt j) himp rfl ?_
    intro c x y hx hm
    obtain ⟨w, z, key, hd, -, rfl⟩ := makeImplicit_ok_iff.1 hm
    rw [childrenAt_updateScope, define_childrenAt hd, hx]
    exact fun _ => rfl
  have hv : v.childrenAt j = s.childrenAt j := by
    refine settleAll_induction (P := fun _ u => u.childrenAt j = s.childrenAt j) hset hu ?_ ?_
    · intro r l x y hx hr
      exact (settle_childrenAt hr j).trans hx
    · intro r l x hx
      rw [childrenAt_updateScopes, hx]
      exact fun _ => rfl
  show ((v.updateScope i _).record _).childrenAt j = _
  rw [show ((v.updateScope i _).record _).childrenAt j = (v.updateScope i _).childrenAt j from rfl,
    childrenAt_updateScope, hv]
  exact fun _ => rfl

/-- What a scope is provided with is not below it. -/
theorem provide_childrenAt {kind : ScopeKind} (h : (provide kind n i).outcome s = (.ok (), t))
    (j : ScopeId) : t.childrenAt j = s.childrenAt j := by
  obtain rfl | ⟨v, hv⟩ | ⟨w, hw⟩ := provide_ok h
  · rfl
  · rw [(bindNew_ok_iff.1 hv).2]
    exact childrenAt_bindNew ..
  · exact define_childrenAt hw j

end Action

namespace Store

variable {A : ScopeId → Prop} {s t : Store} {current : Option ScopeId} {op : Operation}
  {out : Outcome}

/-- What an operation does to the scopes below others: a scope is added below the current one, or
all stays as it is. -/
theorem Disciplined.childrenAt (hd : s.Disciplined current) (ho : op.Orderly s current)
    (hop : op.applyTo s = (.ok out, t)) :
    (t.scopes.size = s.scopes.size ∧ ∀ j, t.childrenAt j = s.childrenAt j) ∨
      t.scopes.size = s.scopes.size + 1 ∧ t.upperOf s.scopes.size = current ∧
        (∀ u, current = some u → u < s.scopes.size) ∧ ∀ j, t.childrenAt j =
          if current = some j then s.childrenAt j ++ [s.scopes.size] else s.childrenAt j := by
  have happly : op.apply.outcome s = (.ok out, t) := hop
  have hsame : (∀ kind n u, op ≠ .enter kind n u) → t.scopes.size = s.scopes.size := fun hne => by
    rcases Disciplined.steady ho hop with ⟨hsteady, -⟩ | ⟨kind, n, upper, rfl⟩ | ⟨j, rfl⟩
    · exact hsteady.size
    · exact absurd rfl (hne kind n upper)
    · obtain ⟨up, -, hc⟩ := Operation.applyTo_close_ok.1 hop
      exact (close_isOpen_iff hd.sound hc j).1
  cases op with
  | enter kind n upper =>
      obtain rfl : upper = current := ho
      obtain ⟨hadded, hupper, -⟩ := hd.enter_isOpen_iff hop
      obtain ⟨i, -, he⟩ := bind_pure_ok_iff.1 happly
      obtain ⟨u, hopen, hp⟩ := enter_ok_iff.1 he
      obtain ⟨above, strict, habove, -, -, -, rfl⟩ := openScope_ok_iff.1 hopen
      have hlt := upper_lt_of_strictAt? habove
      exact .inr ⟨hadded, hupper, hlt, fun j => (provide_childrenAt hp j).trans
        (childrenAt_addScope kind n strict hlt j)⟩
  | define i n d =>
      obtain ⟨w, -, hw⟩ := bind_pure_ok_iff.1 happly
      exact .inl ⟨hsame (by rintro _ _ _ ⟨⟩), define_childrenAt hw⟩
  | refer i u =>
      refine .inl ⟨hsame (by rintro _ _ _ ⟨⟩), fun j => ?_⟩
      obtain ⟨w, -, hr⟩ := bind_pure_ok_iff.1 happly
      obtain ⟨-, -, rfl⟩ | ⟨-, -, rfl, -⟩ := refer_ok_iff.1 hr
      · rfl
      · show (updateScope _ i _).childrenAt j = _
        rw [childrenAt_updateScope]
        · rfl
        · exact fun _ => rfl
  | noteEval i =>
      refine .inl ⟨hsame (by rintro _ _ _ ⟨⟩), fun j => ?_⟩
      obtain ⟨w, -, hn⟩ := bind_pure_ok_iff.1 happly
      rw [(noteEval_ok_iff.1 hn).2, Store.noteEval, childrenAt_updateScopes,
        childrenAt_updateScope] <;> exact fun _ => rfl
  | noteThis i =>
      refine .inl ⟨hsame (by rintro _ _ _ ⟨⟩), fun j => ?_⟩
      obtain ⟨w, -, hn⟩ := bind_pure_ok_iff.1 happly
      rw [(noteThis_ok_iff.1 hn).2, Store.noteThis, childrenAt_updateScope]
      exact fun _ => rfl
  | close i =>
      obtain ⟨up, -, hc⟩ := bind_pure_ok_iff.1 happly
      exact .inl ⟨hsame (by rintro _ _ _ ⟨⟩), close_childrenAt hc⟩
  | nest _ _ _ => exact ho.elim
  | defineArguments _ => exact ho.elim
  | visit _ _ => exact ho.elim

/-- **Every operation of a walk keeps scopes below one another.** -/
theorem Descending.apply (h : s.Descending) (hd : s.Disciplined current)
    (ho : op.Orderly s current) (hop : op.applyTo s = (.ok out, t)) : t.Descending := by
  intro i j hj
  rcases hd.childrenAt ho hop with ⟨hsize, hchildren⟩ | ⟨hsize, -, hlt, hchildren⟩
  · rw [hchildren] at hj
    rw [hsize]
    exact h i j hj
  · rw [hchildren] at hj
    split at hj
    · rename_i hi
      rcases List.mem_append.1 hj with hj | hj
      · have := h i j hj
        omega
      · have hlt : i < s.scopes.size := hlt i hi
        rw [List.mem_singleton.1 hj]
        omega
    · have := h i j hj
      omega

/-- Below every scope are those that say so, in order. -/
def Adopted (s : Store) : Prop :=
  ∀ i, s.childrenAt i = (List.range s.scopes.size).filter fun j => decide (s.upperOf j = some i)

/-- **Every operation of a walk keeps scopes below those that they name.** -/
theorem Adopted.apply (h : s.Adopted) (hd : s.Disciplined current)
    (ho : op.Orderly s current) (hop : op.applyTo s = (.ok out, t)) : t.Adopted := by
  intro i
  have hE := (hd.changes ho hop).evolves hd.sound
  have hold : ((List.range s.scopes.size).filter fun j => decide (t.upperOf j = some i)) =
      s.childrenAt i := by
    rw [h i]
    refine List.filter_congr fun j hj => ?_
    rw [hE.upperOf (List.mem_range.1 hj)]
  rcases hd.childrenAt ho hop with ⟨hsize, hchildren⟩ | ⟨hsize, hupper, -, hchildren⟩
  · rw [hchildren, hsize, hold]
  · rw [hchildren, hsize, List.range_succ, List.filter_append, hold, List.filter_cons,
      List.filter_nil, hupper]
    by_cases hc : current = some i <;> simp [hc]

/-! ### The global scope -/

/-- The last global scope is known, if there is any. -/
def KnowsGlobal (s : Store) : Prop :=
  ∀ i a, s.scopeAt? i = some a → a.kind = .global → ∃ g, s.global = some g ∧ g < s.scopes.size

/-- A scope that was not there before is what has been entered. -/
theorem Disciplined.entered (hd : s.Disciplined current) (ho : op.Orderly s current)
    (hop : op.applyTo s = (.ok out, t)) {i : ScopeId} {b : Scope} (hb : t.scopeAt? i = some b)
    (hi : s.scopes.size ≤ i) : ∃ n, op = .enter b.kind n current := by
  have hlt : i < t.scopes.size := scopeAt?_lt hb
  rcases Disciplined.steady ho hop with ⟨hsteady, -⟩ | ⟨kind, n, upper, rfl⟩ | ⟨j, rfl⟩
  · exact absurd (hsteady.size ▸ hlt) (Nat.not_lt.2 hi)
  · obtain ⟨j, -, he⟩ := bind_pure_ok_iff.1 (show (Operation.enter kind n upper).apply.outcome s = _
      from hop)
    have hsize := (hd.enter_isOpen_iff (ho ▸ hop)).1
    obtain ⟨b', hb', hkind, -⟩ := enter_scopeAt? hd.sound he
    obtain rfl : i = s.scopes.size := Nat.le_antisymm (Nat.lt_succ_iff.1 (hlt.trans_eq hsize)) hi
    obtain rfl := Option.some.inj (hb.symm.trans hb')
    exact ⟨n, by rw [hkind, show upper = current from ho]⟩
  · obtain ⟨up, -, hc⟩ := Operation.applyTo_close_ok.1 hop
    rw [(close_isOpen_iff hd.sound hc i).1] at hlt
    exact absurd hlt (Nat.not_lt.2 hi)

theorem KnowsGlobal.apply (h : s.KnowsGlobal) (hd : s.Disciplined current)
    (ho : op.Orderly s current) (hop : op.applyTo s = (.ok out, t)) : t.KnowsGlobal := by
  have hE := (hd.changes ho hop).evolves hd.sound
  intro i b hb hk
  by_cases hglobal : ∃ n c, op = .enter .global n c
  · obtain ⟨n, c, rfl⟩ := hglobal
    obtain ⟨j, -, he⟩ := bind_pure_ok_iff.1 (show (Operation.enter .global n c).apply.outcome s = _
      from hop)
    have hsize := (hd.enter_isOpen_iff (ho ▸ hop)).1
    exact ⟨_, (enter_global he).trans (if_pos rfl), hsize ▸ Nat.lt_succ_self _⟩
  · have hsame : t.global = s.global := ho.global hop fun n c hc => hglobal ⟨n, c, hc⟩
    by_cases hi : i < s.scopes.size
    · obtain ⟨a, ha, hev⟩ := hE.scope_of_lt hi hb
      obtain ⟨g, hg, hlt⟩ := h i a ha ((Scope.kind_of_frame hev.frame).symm.trans hk)
      exact ⟨g, hsame.trans hg, hE.lt hlt⟩
    · obtain ⟨n, hentered⟩ := hd.entered ho hop hb (Nat.not_lt.1 hi)
      exact absurd ⟨n, current, hk ▸ hentered⟩ hglobal

/-! ### What can be shown -/

/-- What a report shows can be read: all names are texts, and so are the keywords of declarations;
positions are there; and there is a global scope to go down from. -/
structure Reportable (s : Store) : Prop where
  readable : s.Readable
  descending : s.Descending
  global : ∃ g, s.global = some g ∧ g < s.scopes.size
  block : ∀ i a, s.scopeAt? i = some a → a.block.isObj = true
  name : ∀ r ref, s.referenceAt? r = some ref → ∃ text, ref.name = .str text
  table : ∀ i a, s.scopeAt? i = some a → a.table.IsText
  definition : ∀ i a e var, s.scopeAt? i = some a → e ∈ a.table → s.variableAt? e.2 = some var →
    ∀ d ∈ var.defs, d.name.position?.isSome = true ∧
      (d.declarationKind = .null ∨ ∃ word, d.declarationKind = .str word)

namespace Reportable

open Report

variable {i : ScopeId} {a : Scope} {settings : Settings} {format : Format}

/-- The variables of a scope can be sorted. -/
theorem sortedVariables?_total (h : s.Reportable) (ha : s.scopeAt? i = some a) :
    ∃ vars, s.sortedVariables? a = some vars ∧ ∀ var ∈ vars, ∀ d ∈ var.defs,
      d.name.position?.isSome = true ∧
        (d.declarationKind = .null ∨ ∃ word, d.declarationKind = .str word) := by
  obtain ⟨t, ht, hperm⟩ := Table.sorted?_total (h.table i a ha)
  refine ⟨_, by rw [sortedVariables?, ht, Option.map_some], fun var hvar => ?_⟩
  obtain ⟨v, hv, hvar⟩ := List.mem_filterMap.1 hvar
  obtain ⟨e, he, rfl⟩ := List.mem_map.1 hv
  exact h.definition i a e var ha (hperm.subset he) hvar

/-- There is a result for each item of a list, if there is one for every item. -/
theorem mapM_total {α β : Type} {f : α → Option β} {l : List α}
    (h : ∀ a ∈ l, (f a).isSome = true) : ∃ l', l.mapM f = some l' :=
  Option.isSome_iff_exists.1 (mapM_isSome h)

/-! #### Documents -/

theorem variableEntry?_isSome {var : Variable}
    (h : ∀ d ∈ var.defs, d.name.position?.isSome = true) : ( variableEntry? var).isSome = true := by
  obtain ⟨defs, hdefs⟩ := mapM_total (f := definitionEntry?) fun d hd => by
    obtain ⟨p, hp⟩ := Option.isSome_iff_exists.1 (h d hd)
    rw [ definitionEntry?, hp]
    rfl
  rw [ variableEntry?, hdefs]
  rfl

/-- What is told of a scope itself can be read. -/
theorem members?_total (h : s.Reportable) (ha : s.scopeAt? i = some a) (refs : Bool) :
    ∃ members, members? s refs a = some members := by
  obtain ⟨p, hp⟩ := Option.isSome_iff_exists.1 (h.readable.block i a ha)
  obtain ⟨vars, hvars, hdefs⟩ := h.sortedVariables?_total ha
  obtain ⟨entries, hentries⟩ := mapM_total (l := vars) (f := variableEntry?) fun var hvar =>
    variableEntry?_isSome fun d hd => (hdefs var hvar d hd).1
  obtain ⟨made, hmade⟩ := mapM_total (l := a.references.filterMap s.referenceAt?)
    (f := referenceEntry?) fun ref href => by
      obtain ⟨r, -, hr⟩ := List.mem_filterMap.1 href
      obtain ⟨q, hq⟩ := Option.isSome_iff_exists.1 (h.readable.reference r ref hr).1
      rw [ referenceEntry?, hq]
      rfl
  refine Option.isSome_iff_exists.1 ?_
  rw [members?, hp, h.block i a ha, hvars]
  cases refs <;> simp [hentries, hmade]

/-- **The document of a scope can be made**, if the way down is not too long. -/
theorem documentAt?_isSome (h : s.Reportable) (refs : Bool) {depth : Nat} :
    ∀ i : Nat, i < s.scopes.size → s.scopes.size ≤ i + depth →
      (documentAt? s refs depth i).isSome = true := by
  induction depth with
  | zero => intro i hi hdepth; omega
  | succ depth ih =>
      intro i hi hdepth
      obtain ⟨a, ha⟩ := scopeAt?_of_lt hi
      obtain ⟨members, hmembers⟩ := h.members?_total ha refs
      obtain ⟨children, hchildren⟩ := mapM_total (l := a.children) (f := documentAt? s refs depth)
        fun j hj => by
          have hlt := h.descending i j (by rwa [childrenAt_eq ha])
          exact ih j hlt.2 (by omega)
      rw [documentAt?, ha]
      simp [hmembers, hchildren]

/-! #### Outlines -/

theorem definitionText?_isSome {d : Definition}
    (h : d.declarationKind = .null ∨ ∃ word, d.declarationKind = .str word) :
    (definitionText? d).isSome = true := by
  rw [definitionText?]
  rcases h with hnull | ⟨word, hword⟩
  · rw [hnull]
    rfl
  · rw [hword, Tree.orElse]
    split <;> rfl

theorem variableLine?_isSome {var : Variable} (depth : Nat) (h : ∀ d ∈ var.defs,
    d.declarationKind = .null ∨ ∃ word, d.declarationKind = .str word) :
    (variableLine? depth var).isSome = true := by
  obtain ⟨kinds, hkinds⟩ := mapM_total (f := definitionText?) fun d hd =>
    definitionText?_isSome (h d hd)
  rw [variableLine?, hkinds]
  rfl

/-- The different names of references can be sorted. -/
theorem throughNames?_isSome (h : s.Reportable) (a : Scope) :
    (throughNames? s a).isSome = true := by
  obtain ⟨names, hnames⟩ := mapM_total (l := a.through.filterMap s.referenceAt?)
    (f := fun ref => textOf? ref.name) fun ref href => by
      obtain ⟨r, -, hr⟩ := List.mem_filterMap.1 href
      obtain ⟨text, htext⟩ := h.name r ref hr
      rw [htext]
      rfl
  have htexts := Table.isText_ofTexts (t := []) names nofun
  obtain ⟨sorted, hsorted, hperm⟩ := Table.sorted?_total htexts
  rw [throughNames?, hnames]
  simp only [Option.bind_eq_bind, Option.bind_some]
  rw [hsorted, Option.bind_some]
  refine mapM_isSome fun key hkey => ?_
  obtain ⟨e, he, rfl⟩ := List.mem_map.1 hkey
  obtain ⟨text, htext⟩ := htexts e (hperm.subset he)
  rw [htext]
  rfl

theorem lines?_total (h : s.Reportable) (ha : s.scopeAt? i = some a) (refs : Bool) (depth : Nat) :
    ∃ lines, lines? s refs depth a = some lines := by
  obtain ⟨p, hp⟩ := Option.isSome_iff_exists.1 (h.readable.block i a ha)
  obtain ⟨vars, hvars, hdefs⟩ := h.sortedVariables?_total ha
  obtain ⟨shown, hshown⟩ := mapM_total (l := vars) (f := variableLine? depth) fun var hvar =>
    variableLine?_isSome depth fun d hd => (hdefs var hvar d hd).2
  obtain ⟨names, hnames⟩ := Option.isSome_iff_exists.1 (h.throughNames?_isSome a)
  refine Option.isSome_iff_exists.1 ?_
  rw [lines?, header?, hp, h.block i a ha, hvars]
  cases refs <;> cases hthrough : a.through.isEmpty <;>
    simp [hshown, throughLine?, hnames, hthrough]

/-- **The outline of a scope can be made**, if the way down is not too long. -/
theorem outlineAt?_isSome (h : s.Reportable) (refs : Bool) {fuel : Nat} :
    ∀ (depth : Nat) (i : Nat), i < s.scopes.size → s.scopes.size ≤ i + fuel →
      (outlineAt? s refs fuel depth i).isSome = true := by
  induction fuel with
  | zero => intro depth i hi hfuel; omega
  | succ fuel ih =>
      intro depth i hi hfuel
      obtain ⟨a, ha⟩ := scopeAt?_of_lt hi
      obtain ⟨own, hown⟩ := h.lines?_total ha refs depth
      obtain ⟨children, hchildren⟩ := mapM_total (l := a.children)
        (f := outlineAt? s refs fuel (depth + 1)) fun j hj => by
          have hlt := h.descending i j (by rwa [childrenAt_eq ha])
          exact ih (depth + 1) j hlt.2 (by omega)
      rw [outlineAt?, ha]
      simp [hown, hchildren]

/-- **A report can be made in every format.** -/
theorem render_total (h : s.Reportable) (hf : Format.ofTree? settings.format = some format) :
    ∃ text, render s settings = .ok text := by
  obtain ⟨g, hg, hlt⟩ := h.global
  have hbody : (body? s settings format g).isSome = true := by
    cases format with
    | text =>
        obtain ⟨text, ht⟩ := Option.isSome_iff_exists.1
          (h.outlineAt?_isSome settings.includeReferences 0 g hlt (Nat.le_add_left ..))
        simp [body?, outline?, ht]
    | json =>
        obtain ⟨tree, ht⟩ := Option.isSome_iff_exists.1
          (h.documentAt?_isSome settings.includeReferences g hlt (Nat.le_add_left ..))
        simp [body?, document?, ht]
  obtain ⟨text, ht⟩ := Option.isSome_iff_exists.1 hbody
  exact ⟨text, by rw [render, hf]; simp [hg, ht, wellFormed]⟩

end Reportable

end Store

end LexScope
