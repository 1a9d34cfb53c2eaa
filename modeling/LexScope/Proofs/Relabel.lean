import LexScope.Proofs.RewordAction
import LexScope.Proofs.Report

/-!
# Proofs — Relabel — names matter only up to equality

A program whose identifiers are called something else is analyzed like the program itself, as long
as different names stay different and `eval` and `arguments` stay what they are.  Nothing else about
a name counts: no name is compared with another one but for equality, and nothing is put in the
order of names.

* `Store.issues?_reword`: the issues are the same, with the other names.
* `analyze_relabel`: **so is everything else that an analysis returns.**
-/

namespace LexScope

open Store

variable (w : Wording)

/-! ### Issues -/

/-- A finding in other words. -/
def Finding.reword : Finding → Finding
  | .deadZoneReference name => .deadZoneReference (name.relabel w)
  | .implicitGlobal name => .implicitGlobal (name.relabel w)
  | .undeclaredReference name => .undeclaredReference (name.relabel w)
  | finding => finding

/-- An issue in other words. -/
def Issue.reword (i : Issue) : Issue := ⟨i.finding.reword w, i.position.reword w⟩

@[simp] theorem Issue.code_reword (i : Issue) :
    (i.reword w).finding.code = i.finding.code := by
  obtain ⟨finding, p⟩ := i
  cases finding <;> rfl

/-- An issue is where it was, unless there are nodes in its position and their names change. -/
theorem Issue.position_reword (i : Issue) (h : w.annotations = .keep ∨
    i.position.line.isScalar = true ∧ i.position.column.isScalar = true) :
    (i.reword w).position = i.position := by
  rcases h with hk | ⟨hl, hc⟩
  · exact Position.reword_of_keeps (decide_eq_true hk) i.position
  · exact Position.reword_of_scalar w hl hc

/-- What is done for each item of a list is done in other words. -/
theorem mapM_reword {α β γ δ : Type} {f : α → Option β} {f' : γ → Option δ} {g : α → γ} {h : β → δ}
    {l : List α} (hf : ∀ a ∈ l, f' (g a) = (f a).map h) :
    (l.map g).mapM f' = (l.mapM f).map (List.map h) := by
  rw [List.mapM_map, ← mapM_map_option]
  exact mapM_congr_option hf

/-- Three lists are put together in other words. -/
theorem append_reword {α : Type} (h : α → α) (x y z : Option (List α)) :
    ((x.map (List.map h)).bind fun a => (y.map (List.map h)).bind fun b =>
      (z.map (List.map h)).bind fun c => some (a ++ b ++ c)) =
    (x.bind fun a => y.bind fun b => z.bind fun c => some (a ++ b ++ c)).map (List.map h) := by
  cases x with
  | none => rfl
  | some a =>
      cases y with
      | none => rfl
      | some b =>
          cases z with
          | none => rfl
          | some c => simp

section Issues

variable {w} (hs : w.sheds = false)

include hs

theorem Finding.at?_reword (finding : Finding) (n : Node) :
    (finding.reword w).at? (n.reword w) = (finding.at? n).map (Issue.reword w) := by
  rw [Finding.at?, Finding.at?, n.position?_reword w hs, Option.map_map, Option.map_map]
  rfl

namespace Store

variable (s : Store)

omit hs in
theorem filterMap_referenceAt?_reword (rs : List ReferenceId) :
    rs.filterMap (s.reword w).referenceAt? =
      (rs.filterMap s.referenceAt?).map (Reference.reword w) := by
  rw [List.map_filterMap]
  exact List.filterMap_congr fun r _ => referenceAt?_reword w s r

omit hs in
theorem filterMap_variableAt?_reword (vs : List VariableId) :
    vs.filterMap (s.reword w).variableAt? =
      (vs.filterMap s.variableAt?).map (Variable.reword w) := by
  rw [List.map_filterMap]
  exact List.filterMap_congr fun v _ => variableAt?_reword w s v

theorem issuesOf?_reword (finding : Finding) (rs : List ReferenceId) :
    (s.reword w).issuesOf? (finding.reword w) rs =
      (s.issuesOf? finding rs).map (List.map (Issue.reword w)) := by
  rw [issuesOf?, issuesOf?, filterMap_referenceAt?_reword]
  exact mapM_reword fun ref _ => finding.at?_reword hs ref.identifier

omit hs in
/-- The lists found for several items, one after the other. -/
theorem flatten_reword (found : Option (List (List Issue))) :
    (do return (← found.map (List.map (List.map (Issue.reword w)))).flatten : Option (List Issue)) =
      (do return (← found).flatten : Option (List Issue)).map (List.map (Issue.reword w)) := by
  cases found with
  | none => rfl
  | some found => exact congrArg some List.map_flatten.symm

theorem deadZoneIssues?_reword (a : Scope) : (s.reword w).deadZoneIssues? (a.reword w) =
    (s.deadZoneIssues? a).map (List.map (Issue.reword w)) := by
  have hentries : (a.reword w).table.entries = a.table.entries := Table.entries_mapNames a.table
  rw [deadZoneIssues?, deadZoneIssues?, hentries, filterMap_variableAt?_reword,
    mapM_reword fun x _ => s.issuesOf?_reword hs (.deadZoneReference x.name) x.references]
  exact flatten_reword _

theorem implicitIssues?_reword (a : Scope) : (s.reword w).implicitIssues? (a.reword w) =
    (s.implicitIssues? a).map (List.map (Issue.reword w)) := by
  have hentries : (a.reword w).implicit.entries = a.implicit.entries :=
    Table.entries_mapNames a.implicit
  have hmade : ∀ x : Variable, (x.reword w).identifiers.mapM
      (Finding.implicitGlobal (x.reword w).name).at? =
      (x.identifiers.mapM (Finding.implicitGlobal x.name).at?).map (List.map (Issue.reword w)) := by
    intro x
    have hids : (x.reword w).identifiers = x.identifiers.map (Node.reword w) := by
      simp only [Variable.identifiers, Variable.reword, List.map_map]
      rfl
    rw [hids]
    exact mapM_reword fun n _ => (Finding.implicitGlobal x.name).at?_reword hs n
  rw [implicitIssues?, implicitIssues?, hentries, filterMap_variableAt?_reword,
    mapM_reword fun x _ => hmade x]
  exact flatten_reword _

theorem scopeIssues?_reword (a : Scope) : (s.reword w).scopeIssues? (a.reword w) =
    (s.scopeIssues? a).map (List.map (Issue.reword w)) := by
  have hblock : (a.reword w).block = a.block.reword w := rfl
  have hone : ∀ (c : Prop) [Decidable c] (finding : Finding), finding.reword w = finding →
      (if c then (finding.at? (a.reword w).block).map ([·]) else some []) =
        (if c then (finding.at? a.block).map ([·]) else some []).map
          (List.map (Issue.reword w)) := by
    intro c _ finding hfinding
    have hat := finding.at?_reword hs a.block
    rw [hfinding] at hat
    rw [hblock, hat]
    split
    · cases finding.at? a.block <;> rfl
    · rfl
  have hzones : (if (a.reword w).kind = .deadZone then (s.reword w).deadZoneIssues? (a.reword w)
      else some []) = (if a.kind = .deadZone then s.deadZoneIssues? a else some []).map
        (List.map (Issue.reword w)) := by
    show (if a.kind = .deadZone then _ else _) = _
    split
    · exact s.deadZoneIssues?_reword hs a
    · rfl
  rw [scopeIssues?_eq, scopeIssues?_eq, hzones, hone _ .evalCall rfl, hone _ .withStatement rfl]
  exact append_reword _ _ _ _

omit hs in
theorem isBoundFrom_reword (hw : w.Faithful) (i : ScopeId) (key : Name) :
    (s.reword w).isBoundFrom i (w.key key) = s.isBoundFrom i key := by
  rw [isBoundFrom, isBoundFrom, chain_reword]
  refine congrArg (List.any _) (funext fun j => ?_)
  rw [scopeAt?_reword, Option.any_map]
  refine congrArg (Option.any · _) (funext fun a => ?_)
  exact congrArg Option.isSome (Action.find?_reword hw a key)

theorem undeclaredIssue?_reword (hw : w.Faithful) {ref : Reference}
    (hid : ref.identifier.isIdentifier = true) : (s.reword w).undeclaredIssue? (ref.reword w) =
      (s.undeclaredIssue? ref).map (List.map (Issue.reword w)) := by
  have hat := (Finding.undeclaredReference ref.name).at?_reword hs ref.identifier
  have hresolved : (ref.reword w).resolved = ref.resolved := rfl
  have hscope : (ref.reword w).scope = ref.scope := rfl
  have hidentifier : (ref.reword w).identifier = ref.identifier.reword w := rfl
  rw [undeclaredIssue?, undeclaredIssue?, hresolved, hscope, hidentifier,
    Reference.name_reword w hid, Wording.ofTree?_relabel]
  split
  · rfl
  · cases Name.ofTree? ref.name with
    | none => rfl
    | some key =>
        simp only [Option.map_some, Option.bind_eq_bind, Option.bind_some, isBoundFrom_reword s hw]
        split
        · rfl
        · rw [show Finding.undeclaredReference (ref.name.relabel w) =
            (Finding.undeclaredReference ref.name).reword w from rfl, hat]
          cases (Finding.undeclaredReference ref.name).at? ref.identifier <;> rfl

theorem undeclaredIssues?_reword (hw : w.Faithful) (hid : s.Identified) (a : Scope) :
    (s.reword w).undeclaredIssues? (a.reword w) =
      (s.undeclaredIssues? a).map (List.map (Issue.reword w)) := by
  have hthrough : (a.reword w).through = a.through := rfl
  rw [undeclaredIssues?, undeclaredIssues?, hthrough, filterMap_referenceAt?_reword,
    mapM_reword (f := s.undeclaredIssue?) (h := List.map (Issue.reword w)) fun ref href => ?_]
  · exact flatten_reword _
  · obtain ⟨r, -, hr⟩ := List.mem_filterMap.1 href
    exact s.undeclaredIssue?_reword hs hw (hid r ref hr)

/-- **The issues are the same, in other words**, and in the same order. -/
theorem issues?_reword (hw : w.Faithful) (hid : s.Identified) (undeclared : Bool) :
    (s.reword w).issues? undeclared = (s.issues? undeclared).map (List.map (Issue.reword w)) := by
  have hscopes : (s.reword w).scopes.toList = s.scopes.toList.map (Scope.reword w) :=
    Array.toList_map
  have hglobal : (s.reword w).global.bind (s.reword w).scopeAt? =
      (s.global.bind s.scopeAt?).map (Scope.reword w) := by
    show s.global.bind _ = _
    cases s.global with
    | none => rfl
    | some g => exact scopeAt?_reword w s g
  have hfound : ((s.reword w).scopes.toList.mapM (s.reword w).scopeIssues?).map List.flatten =
      ((s.scopes.toList.mapM s.scopeIssues?).map List.flatten).map (List.map (Issue.reword w)) := by
    rw [hscopes, mapM_reword fun a _ => s.scopeIssues?_reword hs a, Option.map_map, Option.map_map]
    exact congrArg (Option.map · _) (funext fun found => List.map_flatten.symm)
  cases hg : s.global.bind s.scopeAt? with
  | none =>
      rw [hg] at hglobal
      rw [issues?_of_none hglobal, issues?_of_none hg, hfound]
  | some g =>
      rw [hg] at hglobal
      have hunbound : (if undeclared then (s.reword w).undeclaredIssues? (g.reword w)
          else some []) = (if undeclared then s.undeclaredIssues? g else some []).map
            (List.map (Issue.reword w)) := by
        split
        · exact s.undeclaredIssues?_reword hs hw hid g
        · rfl
      have happend := append_reword (Issue.reword w)
        ((s.scopes.toList.mapM s.scopeIssues?).map List.flatten) (s.implicitIssues? g)
        (if undeclared then s.undeclaredIssues? g else some [])
      rw [← hfound, ← hunbound, ← s.implicitIssues?_reword hs] at happend
      simp only [Option.bind_map] at happend
      rw [issues?_eq hglobal, issues?_eq hg]
      exact happend

end Store

end Issues

/-! ### Whole analyses -/

variable {w} in
/-- **Names matter only up to equality.**  Whatever the identifiers of a program are called instead,
as long as different names stay different and `eval` and `arguments` stay what they are: the
analysis succeeds exactly if it did, and returns the same scopes, definitions, references and
resolutions under the other names, and the same issues in the same places.  What looks like an
identifier in an annotation may be called something else, too, or may stay what it is; if it stays,
an analysis that fails does so with the same error. -/
theorem analyze_relabel (hinjective : w.name.Injective) (heval : w.name "eval" = "eval")
    (harguments : w.name "arguments" = "arguments") (hstay : w.annotations ≠ .shed)
    (o : Options) (tree : Tree) :
    (analyze o (tree.reword w)).isOk = (analyze o tree).isOk ∧
      (w.annotations = .keep →
        ∀ e, analyze o tree = .error e → analyze o (tree.reword w) = .error e) ∧
      ∀ s, analyze o tree = .ok s →
        analyze o (tree.reword w) = .ok (s.reword w) ∧
        (∀ r ref, s.referenceAt? r = some ref → (ref.reword w).name = ref.name.relabel w) ∧
        (∀ undeclared, (s.reword w).issues? undeclared =
          (s.issues? undeclared).map (List.map (Issue.reword w))) ∧
        ∀ issue : Issue, (issue.reword w).finding.code = issue.finding.code ∧
          (w.annotations = .keep ∨
            issue.position.line.isScalar = true ∧ issue.position.column.isScalar = true →
              (issue.reword w).position = issue.position) := by
  have hw : w.Faithful := ⟨hinjective, heval, harguments⟩
  have hs : w.sheds = false := decide_eq_false hstay
  obtain ⟨hok, herror⟩ := analyze_reword hw o tree
  refine ⟨?_, fun hkeep e he => ?_, fun s ha => ?_⟩
  · cases ha : analyze o tree with
    | ok s =>
        rw [(hok s ha).1]
        rfl
    | error e =>
        obtain ⟨e', -, he'⟩ := herror e ha
        rw [he']
        rfl
  · obtain ⟨e', hrestates, he'⟩ := herror e he
    rwa [hrestates.kept (decide_eq_true hkeep)] at he'
  · obtain ⟨hreword, hid⟩ := hok s ha
    exact ⟨hreword, fun r ref href => ref.name_reword w (hid r ref href),
      s.issues?_reword hs hw hid, fun issue => ⟨issue.code_reword w, issue.position_reword w⟩⟩

/-- `var y; x = y` -/
def twoNames : Tree :=
  let name (text : String) (line : Int) : Tree :=
    .obj [("type", .str "Identifier"), ("name", .str text),
      ("loc", .obj [("start", .obj [("line", .int line), ("column", .int 0)])])]
  .obj [("type", .str "Program"), ("body", .arr [
    .obj [("type", .str "VariableDeclaration"), ("kind", .str "var"),
      ("declarations", .arr [.obj [("type", .str "VariableDeclarator"), ("id", name "y" 1)]])],
    .obj [("type", .str "ExpressionStatement"), ("expression",
      .obj [("type", .str "AssignmentExpression"), ("operator", .str "="), ("left", name "x" 2),
        ("right", name "y" 2)])]])]

/-- `x` and `y` change their names. -/
def exchange : Wording := ⟨Equiv.swap "x" "y", .keep⟩

/-- The write to `x` makes a global variable; in the other words it is `y`, in the same place. -/
theorem twoNames_exchange : exchange.name.Injective ∧ exchange.name "eval" = "eval" ∧
    exchange.name "arguments" = "arguments" ∧ exchange.annotations ≠ .shed ∧
    ∃ s, analyze {} twoNames = .ok s ∧ analyze {} (twoNames.reword exchange) =
        .ok (s.reword exchange) ∧
      s.issues? false = some [⟨.implicitGlobal (.str "x"), ⟨.int 2, .int 0⟩⟩] ∧
      (s.reword exchange).issues? false =
        some [⟨.implicitGlobal (.str "y"), ⟨.int 2, .int 0⟩⟩] := by
  have hinjective : exchange.name.Injective := (Equiv.swap "x" "y").injective
  have heval : exchange.name "eval" = "eval" := by decide +kernel
  have harguments : exchange.name "arguments" = "arguments" := by decide +kernel
  have hstay : exchange.annotations ≠ .shed := nofun
  obtain ⟨-, -, h⟩ := analyze_relabel hinjective heval harguments hstay {} twoNames
  have hissues : (analyze {} twoNames).map (·.issues? false) =
      .ok (some [⟨.implicitGlobal (.str "x"), ⟨.int 2, .int 0⟩⟩]) := by decide +kernel
  cases ha : analyze {} twoNames with
  | error e =>
      rw [ha] at hissues
      cases hissues
  | ok s =>
      rw [ha] at hissues
      obtain ⟨hs, -, hreword, -⟩ := h s ha
      have hissues : s.issues? false = _ := Except.ok.inj hissues
      refine ⟨hinjective, heval, harguments, hstay, s, rfl, hs, hissues, ?_⟩
      rw [hreword, hissues]
      decide +kernel

end LexScope
