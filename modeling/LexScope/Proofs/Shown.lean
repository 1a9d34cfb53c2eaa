import LexScope.Proofs.Preorder

/-!
# Proofs — Shown — what a report shows, in order

The document of a scope has an entry for the scope and, under `children`, the documents of those
below it; the entries of a document are read in preorder (`Tree.entries`).  The outline of a scope
has the lines of the scope, then the outlines of those below.  Where scopes are numbered in preorder,
both show the scopes in the order of their numbers.

* `document?_eq`: **a document has one entry for each scope**, which tells what is told of the scope.
* `outline?_eq`: **an outline has the lines of each scope**, as far in as there are scopes above.
-/

namespace LexScope

/-! ### Entries of a document -/

namespace Tree

mutual

/-- An entry of a document and those below it, in preorder. -/
def entries : Tree → List Tree
  | .obj members => .obj members :: entriesIn members
  | _ => []

/-- The entries below an object with some members. -/
def entriesIn : List (String × Tree) → List Tree
  | [] => []
  | (key, t) :: rest => if key = "children" then entriesUnder t else entriesIn rest

/-- The entries of what is under `children`. -/
def entriesUnder : Tree → List Tree
  | .arr items => entriesOf items
  | _ => []

/-- The entries of documents. -/
def entriesOf : List Tree → List Tree
  | [] => []
  | t :: ts => t.entries ++ entriesOf ts

end

/-- What an entry tells of itself. -/
def own : Tree → List (String × Tree)
  | .obj members => members.filter fun m => m.1 ≠ "children"
  | _ => []

/-- What is listed in a member. -/
def listAt (t : Tree) (key : String) : List Tree :=
  match t.get key with
  | .arr items => items
  | _ => []

variable {members : List (String × Tree)} {docs : List Tree}

theorem entriesOf_eq (docs : List Tree) : entriesOf docs = docs.flatMap entries := by
  induction docs with
  | nil => rfl
  | cons t ts ih => rw [entriesOf, ih, List.flatMap_cons]

theorem entriesIn_append (h : ∀ m ∈ members, m.1 ≠ "children") :
    entriesIn (members ++ [("children", .arr docs)]) = docs.flatMap entries := by
  induction members with
  | nil =>
      rw [List.nil_append, entriesIn, if_pos rfl]
      exact entriesOf_eq docs
  | cons m ms ih =>
      rw [List.cons_append, entriesIn, if_neg (h m List.mem_cons_self)]
      exact ih fun m hm => h m (List.mem_cons_of_mem _ hm)

theorem entries_append (h : ∀ m ∈ members, m.1 ≠ "children") :
    (Tree.obj (members ++ [("children", .arr docs)])).entries =
      .obj (members ++ [("children", .arr docs)]) :: docs.flatMap entries := by
  rw [entries, entriesIn_append h]

theorem own_append (h : ∀ m ∈ members, m.1 ≠ "children") :
    (Tree.obj (members ++ [("children", .arr docs)])).own = members := by
  rw [own, List.filter_append, List.filter_eq_self.2 fun m hm => decide_eq_true (h m hm)]
  simp

theorem listAt_append (h : ∀ m ∈ members, m.1 ≠ "children") :
    (Tree.obj (members ++ [("children", .arr docs)])).listAt "children" = docs := by
  have hnone : members.lookup "children" = none :=
    List.lookup_eq_none_iff.2 fun m hm => by simpa using (h m hm).symm
  simp [listAt, get, List.lookup_append, hnone]

/-- What is not under `children` is told by the entry itself. -/
theorem get_own {key : String} (hk : key ≠ "children") (t : Tree) :
    (Tree.obj t.own).get key = t.get key := by
  cases t with
  | obj members =>
      have hlookup : (members.filter fun m => decide (m.1 ≠ "children")).lookup key =
          members.lookup key := by
        induction members with
        | nil => rfl
        | cons m ms ih =>
            by_cases hm : m.1 = "children"
            · have hne : (key == m.1) = false := by rw [hm]; exact beq_eq_false_iff_ne.2 hk
              rw [List.filter_cons_of_neg (by simp [hm]), ih, List.lookup_cons, hne]
            · rw [List.filter_cons_of_pos (by simp [hm]), List.lookup_cons, List.lookup_cons, ih]
      exact congrArg (Option.getD · .null) hlookup
  | _ => rfl

end Tree

/-! ### Results for lists -/

theorem mapM_flatMap {α β γ : Type} (l : List α) (p : α → List β) (f : β → Option γ) :
    (l.flatMap p).mapM f = (l.mapM fun a => (p a).mapM f).map List.flatten := by
  induction l with
  | nil => rfl
  | cons a l ih =>
      rw [List.flatMap_cons, List.mapM_append, List.mapM_cons, ih]
      cases (p a).mapM f with
      | none => rfl
      | some bs => cases l.mapM fun a => (p a).mapM f <;> rfl

theorem map_eq_of_forall₂ {α β γ : Type} {R : α → β → Prop} {l : List α} {l' : List β}
    {f : α → γ} {g : β → γ} (h : List.Forall₂ R l l') (hfg : ∀ a b, R a b → g b = f a) :
    l'.map g = l.map f := by
  induction h with
  | nil => rfl
  | cons hab _ ih => rw [List.map_cons, List.map_cons, hfg _ _ hab, ih]

theorem join_flatten (l : List (List String)) :
    String.join l.flatten = String.join (l.map String.join) := by
  induction l with
  | nil => rfl
  | cons a l ih => rw [List.flatten_cons, String.join_append, ih, List.map_cons, String.join_cons]

namespace Report

open Store

variable {s : Store} {refs : Bool} {a : Scope} {members : List (String × Tree)} {doc : Tree}
  {i : Nat} {fuel depth : Nat}

/-- What is told of a scope itself. -/
theorem members?_eq_some (h : members? s refs a = some members) : ∃ position vars made,
    a.block.position? = some position ∧
    (s.sortedVariables? a).bind (List.mapM variableEntry?) = some vars ∧
    (refs = true → (a.references.filterMap s.referenceAt?).mapM referenceEntry? = some made) ∧
    members = [("type", .str a.kind.text), ("block", a.block.type), ("line", position.line),
        ("column", position.column), ("strict", .bool a.strict), ("dynamic", .bool a.dynamic),
        ("variables", .arr vars),
        ("through", .arr ((a.through.filterMap s.referenceAt?).map Reference.name))] ++
      if refs then [("references", .arr made)] else [] := by
  obtain ⟨position, hposition, h⟩ := Option.bind_eq_some_iff.1 h
  obtain ⟨-, -, h⟩ := Option.bind_eq_some_iff.1 h
  obtain ⟨sorted, hsorted, h⟩ := Option.bind_eq_some_iff.1 h
  obtain ⟨vars, hvars, h⟩ := Option.bind_eq_some_iff.1 h
  have hvars : (s.sortedVariables? a).bind (List.mapM variableEntry?) = some vars := by
    rw [hsorted, Option.bind_some, hvars]
  cases refs with
  | false => exact ⟨position, vars, [], hposition, hvars, nofun, (Option.some.inj h).symm⟩
  | true =>
      obtain ⟨made, hmade, h⟩ := Option.bind_eq_some_iff.1 h
      exact ⟨position, vars, made, hposition, hvars, fun _ => hmade, (Option.some.inj h).symm⟩

theorem members?_keys (h : members? s refs a = some members) : ∀ m ∈ members, m.1 ≠ "children" := by
  obtain ⟨position, vars, made, -, -, -, rfl⟩ := members?_eq_some h
  cases refs <;> simp

/-! ### Documents -/

/-- The document of a scope, from those of the scopes below it. -/
theorem documentAt?_succ (ha : s.scopeAt? i = some a) : documentAt? s refs (fuel + 1) i =
    (members? s refs a).bind fun members =>
      (a.children.mapM (documentAt? s refs fuel)).map fun docs =>
        .obj (members ++ [("children", .arr docs)]) := by
  simp [documentAt?, ha, Option.map_eq_bind]

/-- What the document of a scope is made of. -/
theorem documentAt?_eq_some (h : documentAt? s refs fuel i = some doc) : ∃ depth a docs,
    fuel = depth + 1 ∧ s.scopeAt? i = some a ∧ members? s refs a = some doc.own ∧
      a.children.mapM (documentAt? s refs depth) = some docs ∧
      doc.listAt "children" = docs ∧ doc.entries = doc :: docs.flatMap Tree.entries := by
  cases fuel with
  | zero => cases h
  | succ depth =>
      cases ha : s.scopeAt? i with
      | none => rw [documentAt?, ha] at h; cases h
      | some a =>
          rw [documentAt?_succ ha] at h
          obtain ⟨members, hm, h⟩ := Option.bind_eq_some_iff.1 h
          obtain ⟨docs, hdocs, rfl⟩ := Option.map_eq_some_iff.1 h
          have hkeys := members?_keys hm
          exact ⟨depth, a, docs, rfl, rfl, by rw [hm, Tree.own_append hkeys], hdocs,
            Tree.listAt_append hkeys, Tree.entries_append hkeys⟩

/-- Every entry of a document is the document of a scope. -/
theorem documentAt?_of_mem {t : Tree} (h : documentAt? s refs fuel i = some doc)
    (ht : t ∈ doc.entries) : ∃ depth j, documentAt? s refs depth j = some t := by
  induction fuel generalizing i doc with
  | zero => cases h
  | succ fuel ih =>
      obtain ⟨depth, a, docs, hfuel, -, -, hdocs, -, hentries⟩ := documentAt?_eq_some h
      obtain rfl : fuel = depth := Nat.succ.inj hfuel
      rw [hentries, List.mem_cons, List.mem_flatMap] at ht
      rcases ht with rfl | ⟨d, hd, ht⟩
      · exact ⟨_, i, h⟩
      · obtain ⟨j, -, hj⟩ := exists_of_mapM hdocs hd
        exact ih hj ht

/-- **The entries of a document are those of the scopes that are met below.** -/
theorem documentAt?_eq (hp : s.Preordered) (ha : s.Adopted) (hi : i < s.scopes.size)
    (hf : s.scopes.size ≤ i + fuel) :
    (documentAt? s refs fuel i).map (fun doc => doc.entries.map Tree.own) =
      (s.preorderFrom fuel i).mapM fun j => (s.scopeAt? j).bind (members? s refs) := by
  induction fuel generalizing i with
  | zero => omega
  | succ fuel ih =>
      obtain ⟨a, hscope⟩ := scopeAt?_of_lt hi
      -- The documents below are those of scopes with greater numbers.
      have hbelow : a.children.mapM (fun c =>
          (documentAt? s refs fuel c).map fun doc => doc.entries.map Tree.own) =
          a.children.mapM fun c => (s.preorderFrom fuel c).mapM fun j =>
            (s.scopeAt? j).bind (members? s refs) :=
        mapM_congr_option fun c hc => by
          rw [← childrenAt_eq hscope] at hc
          have hlt := ha.lt hc
          have hic : i < c := hp.rooted c i ((ha.mem_iff hlt).1 hc)
          exact ih hlt (by omega)
      rw [mapM_map_option] at hbelow
      rw [documentAt?_succ hscope, preorderFrom, childrenAt_eq hscope, List.mapM_cons, hscope,
        Option.bind_some, mapM_flatMap, ← hbelow]
      cases hm : members? s refs a with
      | none => rfl
      | some members =>
          have hkeys := members?_keys hm
          cases a.children.mapM (documentAt? s refs fuel) with
          | none => rfl
          | some docs =>
              simp only [Option.bind_some, Option.map_some, Option.bind_eq_bind, Option.pure_def,
                Tree.entries_append hkeys, List.map_cons, Tree.own_append hkeys, List.flatMap,
                List.map_flatten, List.map_map]
              rfl

/-! ### Outlines -/

/-- The outline of a scope, from those of the scopes below it. -/
theorem outlineAt?_succ (ha : s.scopeAt? i = some a) : outlineAt? s refs (fuel + 1) depth i =
    (lines? s refs depth a).bind fun lines =>
      (a.children.mapM (outlineAt? s refs fuel (depth + 1))).map fun texts =>
        lines ++ String.join texts := by
  simp [outlineAt?, ha, Option.map_eq_bind]

end Report

namespace Store

/-- How many scopes are above a scope. -/
def level (s : Store) (i : ScopeId) : Nat := (s.above i).length

theorem level_of_upperOf {s : Store} {c i : ScopeId} (h : s.Rooted) (hc : s.upperOf c = some i) :
    s.level c = s.level i + 1 := by
  rw [level, above, hc, Option.elim_some, chain_cons h, List.length_cons]
  rfl

end Store

namespace Report

open Store

variable {s : Store} {refs : Bool} {i : Nat} {fuel : Nat}

/-- **The lines of an outline are those of the scopes that are met below.** -/
theorem outlineAt?_eq (hp : s.Preordered) (ha : s.Adopted) (hi : i < s.scopes.size)
    (hf : s.scopes.size ≤ i + fuel) :
    outlineAt? s refs fuel (s.level i) i =
      ((s.preorderFrom fuel i).mapM fun j =>
        (s.scopeAt? j).bind (lines? s refs (s.level j))).map String.join := by
  induction fuel generalizing i with
  | zero => omega
  | succ fuel ih =>
      obtain ⟨a, hscope⟩ := scopeAt?_of_lt hi
      have hbelow : a.children.mapM (outlineAt? s refs fuel (s.level i + 1)) =
          a.children.mapM fun c => ((s.preorderFrom fuel c).mapM fun j =>
            (s.scopeAt? j).bind (lines? s refs (s.level j))).map String.join :=
        mapM_congr_option fun c hc => by
          rw [← childrenAt_eq hscope] at hc
          have hlt := ha.lt hc
          have hup := (ha.mem_iff hlt).1 hc
          have hic : i < c := hp.rooted c i hup
          rw [← level_of_upperOf hp.rooted hup]
          exact ih hlt (by omega)
      rw [mapM_map_option] at hbelow
      rw [outlineAt?_succ hscope, hbelow, preorderFrom, childrenAt_eq hscope, List.mapM_cons,
        hscope, Option.bind_some, mapM_flatMap]
      cases lines? s refs (s.level i) a with
      | none => rfl
      | some lines =>
          cases a.children.mapM fun c => (s.preorderFrom fuel c).mapM fun j =>
              (s.scopeAt? j).bind (lines? s refs (s.level j)) with
          | none => rfl
          | some texts =>
              simp only [Option.bind_some, Option.map_some, Option.bind_eq_bind, Option.pure_def,
                String.join_cons, join_flatten]

/-! ### All scopes -/

/-- What is done for the number of every scope is done for every scope with its number. -/
theorem mapM_range {β : Type} (s : Store) (f : ScopeId → Scope → Option β) :
    ((List.range s.scopes.size).mapM fun j => (s.scopeAt? j).bind (f j)) =
      s.numbered.mapM fun (a, j) => f j a := by
  have hnumbers : List.range s.scopes.size = s.numbered.map Prod.snd := by
    rw [numbered, List.zipIdx_map_snd, List.range_eq_range', Array.length_toList]
  rw [hnumbers, List.mapM_map]
  refine mapM_congr_option fun m h => ?_
  have hscope : s.scopeAt? m.2 = some m.1 := by
    have hget := List.mem_zipIdx_iff_getElem?.1 h
    rwa [Array.getElem?_toList] at hget
  rw [Function.comp_apply, hscope, Option.bind_some]

variable (hp : s.Preordered) (ha : s.Adopted) (hroot : 0 < s.scopes.size)
  (hbelow : ∀ i, i < s.scopes.size → 0 ∈ s.chain i)

include hp ha hroot hbelow

/-- The entries of a document are those of the numbers of the scopes. -/
theorem document?_range (refs : Bool) :
    (document? s refs 0).map (fun doc => doc.entries.map Tree.own) =
      (List.range s.scopes.size).mapM fun j => (s.scopeAt? j).bind (members? s refs) := by
  rw [document?, documentAt?_eq hp ha hroot (Nat.le_add_left _ 0),
    hp.preorder_eq ha hroot hbelow]

/-- **A document has one entry for each scope**, in the order of the scopes. -/
theorem document?_eq (refs : Bool) :
    (document? s refs 0).map (fun doc => doc.entries.map Tree.own) =
      s.scopes.toList.mapM (members? s refs) := by
  rw [document?_range hp ha hroot hbelow, mapM_range s fun _ => members? s refs,
    show s.scopes.toList = s.numbered.map Prod.fst by rw [numbered, List.zipIdx_map_fst],
    List.mapM_map]
  rfl

/-- What holds of what an entry tells of a scope holds of all entries, scope by scope. -/
theorem map_entries {β : Type} {refs : Bool} {doc : Tree} (hdoc : document? s refs 0 = some doc)
    {f : Tree → β} {g : ScopeId → β} (h : ∀ i a t, s.scopeAt? i = some a →
      members? s refs a = some t.own → f t = g i) :
    doc.entries.map f = (List.range s.scopes.size).map g := by
  have hall := document?_range hp ha hroot hbelow refs
  rw [hdoc, Option.map_some] at hall
  have hentries := List.forall₂_map_right_iff.1 (forall₂_of_mapM hall.symm)
  refine map_eq_of_forall₂ hentries fun i t hi => ?_
  obtain ⟨a, ha, hm⟩ := Option.bind_eq_some_iff.1 hi
  exact h i a t ha hm

/-- **An outline has the lines of each scope**, in the order of the scopes. -/
theorem outline?_eq (refs : Bool) : outline? s refs 0 =
    (s.numbered.mapM fun (a, i) => lines? s refs (s.level i) a).map String.join := by
  have hlevel : s.level 0 = 0 := by
    cases hu : s.upperOf 0 with
    | none => rw [level, above, hu]; rfl
    | some u => exact absurd (hp.rooted 0 u hu) (Nat.not_lt_zero u)
  have hlines : outlineAt? s refs s.scopes.size (s.level 0) 0 = _ :=
    outlineAt?_eq hp ha hroot (Nat.le_add_left _ 0)
  rw [hlevel] at hlines
  rw [outline?, hlines, hp.preorder_eq ha hroot hbelow,
    mapM_range s fun i => lines? s refs (s.level i)]

end Report

end LexScope
