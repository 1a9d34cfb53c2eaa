import LexScope.Proofs.ModuleItems
import LexScope.Proofs.Rendering
import LexScope.Proofs.DeadZone

/-!
# Proofs — Success — the one way in which an analysis can fail

A program of the grammar names its identifiers by texts, and what its nodes say of their positions
and kinds can be read (`Tree.Presentable`).  Every definition that an analysis makes is for an
identifier of the program (`definition_source`), so all that a report shows can be read.  What only
a module may hold stops the analysis of a program that is none, and nothing else can stop it.

* `Good.keeps`: what every operation of a walk keeps is kept by the walk.
* `Conforms.reportable`: all that a report shows of a program can be read.
* `analyze_outcome`: **an analysis stops at the first thing that only a module may hold, or it
  returns a store of which a report can be made and the issues listed.**
-/

namespace LexScope

open Store

/-! ### What can be shown of a program -/

namespace Tree

/-- Whether the position of an object can be read, and its kind is a text if it has one. -/
def isPresentable (t : Tree) : Bool :=
  t.position?.isSome &&
    match t.get "kind" with
    | .null | .str _ => true
    | _ => false

/-- What all objects in a tree say of their positions and kinds can be read. -/
def Presentable (t : Tree) : Prop := t.allObjects isPresentable = true

instance (t : Tree) : Decidable t.Presentable := inferInstanceAs (Decidable (_ = _))

variable {test : Tree → Bool} {t : Tree} {p : Position}

theorem test_of_allObjects (h : t.allObjects test = true) (ho : t.isObj = true) :
    test t = true := by
  cases t with
  | obj members => exact (Bool.and_eq_true_iff.1 h).1
  | _ => cases ho

/-- The kind that is read from any value is a text, if there is one. -/
theorem Presentable.kind {n : Node} (h : n.value.Presentable) :
    (n.get "kind").value = .null ∨ ∃ word, (n.get "kind").value = .str word := by
  cases ho : n.value.isObj with
  | false =>
      refine .inl ?_
      show n.value.get "kind" = .null
      cases hv : n.value with
      | obj members => rw [hv] at ho; cases ho
      | _ => rfl
  | true =>
      have htest := test_of_allObjects h ho
      rw [isPresentable, Bool.and_eq_true] at htest
      have hkind := htest.2
      split at hkind
      · exact .inl ‹_›
      · exact .inr ⟨_, ‹_›⟩
      · cases hkind

/-- The position of an object can be read. -/
theorem Presentable.position? {n : Node} (h : n.value.Presentable) (ho : n.isObj = true) :
    n.value.position?.isSome = true :=
  (Bool.and_eq_true_iff.1 (test_of_allObjects h ho)).1

/-- The position of an object is where its `loc` starts. -/
theorem position?_eq (h : t.position? = some p) :
    p.line = ((t.get "loc").get "start").get "line" ∧
      p.column = ((t.get "loc").get "start").get "column" := by
  obtain ⟨loc, hloc, h⟩ := Option.bind_eq_some_iff.1 h
  obtain ⟨start, hstart, h⟩ := Option.bind_eq_some_iff.1 h
  cases h
  have hget : ∀ field, start.get field = ((t.get "loc").get "start").get field := fun field => by
    rw [get_of_objectAt? hstart, get_of_objectAt? hloc]
  exact ⟨hget _, hget _⟩

end Tree

/-- The position of a node is known if it can be read. -/
theorem Node.position?_isSome {n : Node} (h : n.value.Presentable) (ho : n.isObj = true) :
    n.position?.isSome = true := by
  rw [Node.position?]
  split
  · rfl
  · exact h.position? ho

/-! ### What definitions are of -/

theorem Tree.Hereditary.bound {P : Tree → Prop} {n p : Node} (hP : Tree.Hereditary P)
    (h : P n.value) (hp : p ∈ Pattern.bound n) : P p.value := by
  obtain ⟨item, hitem, hb⟩ := List.mem_filterMap.1 hp
  exact hP.items_pattern h item hitem p (by cases item <;> cases hb; rfl)

/-- A definition is for an identifier that has a property, and so does the declaration that it has
its keyword from. -/
structure Definition.FromSource (P : Tree → Prop) (d : Definition) : Prop where
  name : P d.name.value
  keyword : d.declarationKind = .null ∨
    ∃ m : Node, P m.value ∧ d.declarationKind = (m.get "kind").value

namespace Walk

open LexScope.Tree (Hereditary)

variable {P : Tree → Prop} {g : Gates} {n p : Node} {c c' : Around} {target : Target}
  {d : Definition}

/-- What a rule binds, it binds by a definition for it, and both are of the program. -/
theorem Declares.fromSource (hP : Hereditary P) (hn : P n.value)
    (h : Declares g n c c' target p d) : d.name = p ∧ d.FromSource P := by
  have hpass := passes_of_hereditary hP
  have hhead : ∀ {d}, declarator? (n.get "left") 0 = some d → P d.value := fun hd =>
    hpass.declarator (hP.get hn "left") hd
  cases h with
  | «variable» h hs hd ho hp =>
      have hdeclarator := hP.sequence (hP.get hn _) hs (List.mem_of_getElem? hd)
      exact ⟨rfl, hP.bound (hP.get hdeclarator _) hp, .inr ⟨n, hn, rfl⟩⟩
  | functionName => exact ⟨rfl, hP.get hn _, .inl rfl⟩
  | @parameter f _ _ _ _ _ _ h hk hs hi hp =>
      have hfunction : P f.value := by
        cases h with
        | function => exact hn
        | method => exact hP.get hn "value"
      have hparam := hP.sequence (hP.get hfunction _) hs (List.mem_of_getElem? hi)
      exact ⟨rfl, hP.bound hparam hp, .inl rfl⟩
  | className => exact ⟨rfl, hP.get hn _, .inl rfl⟩
  | innerName => exact ⟨rfl, hP.get hn _, .inl rfl⟩
  | caught h hk hp => exact ⟨rfl, hP.bound (hP.get hn _) hp, .inl rfl⟩
  | deadZone h hd hp =>
      exact ⟨rfl, hP.bound (hP.get (hhead hd) _) hp, .inr ⟨_, hP.get hn "left", rfl⟩⟩
  | turn h hk hd hp =>
      exact ⟨rfl, hP.bound (hP.get (hhead hd) _) hp, .inr ⟨_, hP.get hn "left", rfl⟩⟩
  | imported h hm hs hd ho =>
      exact ⟨rfl, hP.get (hP.sequence (hP.get hn _) hs hd) _, .inl rfl⟩

end Walk

namespace Store

open Walk
open LexScope.Tree (Hereditary)

variable {P : Tree → Prop} {o : Options} {tree : Tree} {s : Store} {i : ScopeId} {a : Scope}
  {key : Name} {v : VariableId} {var : Variable} {d : Definition}

/-- **Every definition is for an identifier of the program that has the name of its variable.** -/
theorem definition_source (hP : Hereditary P) (ht : P tree) (h : analyze o tree = .ok s)
    (ha : s.scopeAt? i = some a) (hf : a.table.find? key = some v)
    (hv : s.variableAt? v = some var) (hd : d ∈ var.defs) :
    d.FromSource P ∧ d.name.isIdentifier = true ∧
      Name.ofTree? (d.name.value.get "name") = some key := by
  have hfin := analyze_finished hP ht h
  rcases (analyze_attests h).origin hfin ha hf hv hd with
    ⟨j, target, n, -, -, hl, hid, hname⟩ | ⟨-, rfl, hid, hname⟩ |
      ⟨-, r, ref, c, href, hc, -, hname, rfl⟩
  · obtain ⟨k, hk, hl⟩ := mem_leaves_plan.1 hl
    have hvisited : P k.node.value := (passes_of_hereditary hP).visits (n := .root tree) ht k hk
    obtain ⟨rfl, hsource⟩ := (define_mem_own.1 hl).fromSource hP hvisited
    exact ⟨hsource, hid, hname⟩
  · exact ⟨⟨hP.get (hfin.sourced.scope i a ha).1 "id", .inl rfl⟩, hid, hname⟩
  · obtain ⟨hidentifier, hid, himputes⟩ := hfin.sourced.reference r ref href
    have hpattern : c.pattern = ref.identifier := (himputes c hc).1
    refine ⟨⟨?_, .inl rfl⟩, ?_, ?_⟩
    · exact (congrArg (fun n : Node => P n.value) hpattern).mpr hidentifier
    · exact (congrArg Node.isIdentifier hpattern).trans hid
    · exact (congrArg (fun n : Node => Name.ofTree? (n.value.get "name")) hpattern).trans hname

/-- Where all names are texts, the names of all variables are. -/
theorem isText_table (hn : tree.TextNames) (h : analyze o tree = .ok s)
    (ha : s.scopeAt? i = some a) : a.table.IsText := by
  have hfin := analyze_finished (Tree.hereditary_allObjects Tree.isNamedByText) hn h
  rintro ⟨key, v⟩ he
  have hf : a.table.find? key = some v := Table.find?_of_mem (hfin.distinct i a ha) he
  obtain ⟨var, hvar, -⟩ := hfin.sound.of_find? ha hf
  cases hdefs : var.defs with
  | cons d rest =>
      obtain ⟨hsource, hid, hname⟩ := definition_source
        (Tree.hereditary_allObjects Tree.isNamedByText) hn h ha hf hvar (hdefs ▸ List.mem_cons_self)
      obtain ⟨text, htext⟩ := Tree.TextNames.name hsource.name hid
      rw [htext] at hname
      exact ⟨text, (Option.some.inj hname).symm⟩
  | nil =>
      -- Only the arguments of a function are there without a definition.
      cases hi : a.implicit.find? key with
      | none =>
          obtain ⟨var', hvar', harguments, -⟩ :=
            (analyze_attests h).declared i a ha _ (mem_declared ha hf hi hvar)
          obtain rfl := Option.some.inj hvar'
          exact ⟨_, (harguments hdefs).2⟩
      | some w =>
          have hk : a.kind = .global := by
            by_contra hne
            rw [hfin.bare i a ha hne] at hi
            cases hi
          have hexplained := (hfin.globals i a ha hk).1 key
          obtain ⟨var', hvar', hmade⟩ := hexplained.defs w hi
          obtain rfl := Option.some.inj (hf.symm.trans (hexplained.bound w hi))
          obtain rfl := Option.some.inj (hvar.symm.trans hvar')
          rw [hdefs] at hmade
          exact absurd (filterMap_candidateOf?_eq_nil_iff.1 (List.map_eq_nil_iff.1 hmade.symm))
            (hexplained.arrived (by rw [hi]; rfl))

end Store

/-! ### What a walk keeps -/

namespace Walk

variable {m m' : Moment} {ops : List Operation} {I : Store → Prop} {o : Options} {tree : Tree}
  {s : Store}

/-- What every operation keeps, whatever is recorded. -/
structure Kept (I : Store → Prop) : Prop where
  record : ∀ {s : Store} entry, I s → I (s.record entry)
  operation : ∀ {s t : Store} {current : Option ScopeId} {op : Operation} {out : Outcome}, I s →
    s.Disciplined current → op.Orderly s current → op.applyTo s = (.ok out, t) → I t

/-- **What every operation of a walk keeps is kept by the walk.** -/
theorem Moment.Good.keeps (h : m.Good) (hk : Kept I) (hI : I m.store) (hs : Steps m ops m') :
    I m'.store := by
  induction hs with
  | refl => exact hI
  | @more _ _ _ op _ hs _ ih =>
      refine ih (h.step hs) ?_
      obtain ⟨o, out, -, ho, hop, -⟩ | ⟨-, -, heq | ⟨entry, heq⟩⟩ := h.step_cases hs
      · exact hk.operation hI h.disciplined ho hop
      · exact heq ▸ hI
      · exact heq ▸ hk.record entry hI

/-- What every operation keeps holds of what an analysis returns. -/
theorem Kept.analyze (hk : Kept I) (hI : I (.new o)) (h : analyze o tree = .ok s) : I s := by
  obtain ⟨ops, m, hsteps, -, -, rfl⟩ := analyze_ok h
  exact hk.record _ ((Moment.start_good o tree).keeps hk (hk.record _ hI) hsteps)

theorem kept_descending : Kept Store.Descending where
  record _ hI := hI
  operation hI := hI.apply

theorem kept_knowsGlobal : Kept Store.KnowsGlobal where
  record _ hI := hI
  operation hI := hI.apply

end Walk

/-! ### What an analysis returns can be shown -/

section

open Walk

variable {o : Options} {tree : Tree} {s : Store}

/-- **All that a report shows of an analysis can be read**, if there is a global scope. -/
theorem Store.Reportable.of_analyze (hn : tree.TextNames) (hp : tree.Presentable)
    (h : analyze o tree = .ok s) (hg : ∃ g, s.global = some g ∧ g < s.scopes.size) :
    s.Reportable := by
  have hnames := analyze_finished (Tree.hereditary_allObjects Tree.isNamedByText) hn h
  have hshown := analyze_finished (Tree.hereditary_allObjects Tree.isPresentable) hp h
  have hblock : ∀ i a, s.scopeAt? i = some a → a.block.isObj = true := fun i a ha =>
    (hshown.sourced.scope i a ha).2.1
  refine ⟨⟨fun i a ha => ?_, fun r ref href => ⟨?_, ?_⟩⟩,
    kept_descending.analyze (fun _ _ hj => nomatch hj) h, hg, hblock,
    fun r ref href => hnames.text href, fun i a ha => isText_table hn h ha, ?_⟩
  · exact Node.position?_isSome (hshown.sourced.scope i a ha).1 (hblock i a ha)
  · obtain ⟨hpresent, hid, -⟩ := hshown.sourced.reference r ref href
    exact Node.position?_isSome hpresent (isObj_of_hasType hid)
  · obtain ⟨text, htext⟩ := hnames.text href
    rw [htext]
    rfl
  · rintro i a ⟨key, v⟩ var ha he hvar d hd
    have hf : a.table.find? key = some v := Table.find?_of_mem (hnames.distinct i a ha) he
    obtain ⟨hsource, hid, -⟩ := definition_source
      (Tree.hereditary_allObjects Tree.isPresentable) hp h ha hf hvar hd
    refine ⟨Node.position?_isSome hsource.name (isObj_of_hasType hid), ?_⟩
    rcases hsource.keyword with hnull | ⟨m, hm, hkind⟩
    · exact .inl hnull
    · rw [hkind]
      exact Tree.Presentable.kind hm

end

namespace Grammar

open Walk

variable {o : Options} {tree : Tree} {s : Store}

/-- There is a scope for the program, and it is known. -/
theorem Conforms.global (hc : Conforms tree) (h : analyze o tree = .ok s) :
    ∃ g, s.global = some g ∧ g < s.scopes.size := by
  have hopened : [(.global, .root tree)] ∈
      (sitesOf [] (plan (.ofOptions o) (.root tree))).filterMap Site.opened? := by
    rw [sitesOf_eq, hc.leaves]
    exact List.mem_cons_self
  rw [← (analyze_records h).opens] at hopened
  obtain ⟨i, hi, haround⟩ := List.mem_map.1 hopened
  have hs := (analyze_finished Tree.hereditary_true trivial h).sound
  obtain ⟨a, ha, hk, -⟩ := scope_of_around hs.rooted (List.mem_range.1 hi) haround
  have hknown : s.KnowsGlobal := kept_knowsGlobal.analyze (fun _ _ ha => nomatch ha) h
  exact hknown i a ha hk

/-- All that a report shows of a program can be read. -/
theorem Conforms.reportable (hc : Conforms tree) (hn : tree.TextNames) (hp : tree.Presentable)
    (h : analyze o tree = .ok s) : s.Reportable :=
  .of_analyze hn hp h (hc.global h)

/-! ### The one fault -/

/-- What stops the analysis of a program: the first thing in it that only a module may hold, unless
it is analyzed as a module. -/
def misplaced? (o : Options) (tree : Tree) : Option Node :=
  if o.isEs6 && o.isModule then none
  else ((Node.root tree).get "body").items.find? isModuleItem

/-- The first fault of a program is at what stands in it misplaced. -/
theorem Conforms.head?_faults (hc : Conforms tree) (o : Options) :
    (faults (plan (.ofOptions o) (.root tree))).head? =
      (misplaced? o tree).map fun m => (Fault.outsideModule (m.typeName?.getD "")).on m := by
  rw [faults_plan hc, List.head?_map, List.head?_filter, misplaced?]
  show Option.map _ (List.find? (fun m => !(o.isEs6 && o.isModule) && isModuleItem m) _) = _
  cases o.isEs6 && o.isModule with
  | true => simp
  | false => simp

/-- What is misplaced stands in the program, and it is of a type that only a module may hold. -/
theorem Conforms.misplaced (hc : Conforms tree) {m : Node} (hm : misplaced? o tree = some m) :
    m ∈ ((Node.root tree).get "body").items ∧ m.isObj = true ∧
      ∃ type ∈ moduleItems, m.typeName? = some type := by
  rw [misplaced?] at hm
  split at hm
  · cases hm
  · have hmem := List.mem_of_find?_eq_some hm
    have hitem := List.find?_some hm
    rw [isModuleItem, Option.any_eq_true] at hitem
    obtain ⟨type, ht, hmodular⟩ := hitem
    exact ⟨hmem, (leaves_of_mem_body (g := .ofOptions o) hc hmem).1.isObj, type,
      List.contains_iff_mem.1 hmodular, ht⟩

end Grammar

/-- Where a node starts, as the end of a message: nothing unless both a line and a column are
given. -/
def Node.startSuffix (n : Node) : String :=
  let start := (n.get "loc").get "start"
  let line := (start.get "line").value
  let column := (start.get "column").value
  if line = .null ∨ column = .null then ""
  else " (line " ++ line.text ++ ", column " ++ column.text ++ ")"

/-- The fault of an object in a program has a position, and its message says where it is. -/
theorem Fault.on_eq {n : Node} (hp : n.value.Presentable) (ho : n.isObj = true) (fault : Fault) :
    ∃ p, fault.on n = .analysis fault p ∧ p.suffix = n.startSuffix := by
  rw [Fault.on, Node.site?]
  split
  · rename_i p hsite
    refine ⟨p, rfl, ?_⟩
    split at hsite
    · obtain ⟨hline, hcolumn⟩ := Tree.position?_eq hsite
      rw [Position.suffix, hline, hcolumn]
      rfl
    · rename_i hfalsy
      cases hsite
      have hnone : n.value.get "loc" = .null :=
        Tree.get_of_falsy (by simpa [ho, Node.truthy] using hfalsy) _
      have hline : (((n.get "loc").get "start").get "line").value = .null := by
        show ((n.value.get "loc").get "start").get "line" = .null
        rw [hnone]
        rfl
      exact (if_pos (.inl hline)).symm
  · rename_i hsite
    split at hsite
    · have hposition := hp.position? ho
      rw [hsite] at hposition
      cases hposition
    · cases hsite

open Walk Grammar in
/-- **Nothing but what belongs in a module can stop the analysis of a program.**  An analysis of a
program of the grammar stops at the first thing in it that only a module may hold, and says what it
is and where, unless the program is analyzed as a module.  If there is no such thing it returns, and
then a report can be made in every format and the issues can be listed. -/
theorem analyze_outcome {tree : Tree} (hc : Conforms tree) (hn : tree.TextNames)
    (hp : tree.Presentable) (o : Options) :
    match misplaced? o tree with
    | none => ∃ s, analyze o tree = .ok s ∧
        (∀ settings format, Report.Format.ofTree? settings.format = some format →
          ∃ text, Report.render s settings = .ok text) ∧
        ∀ undeclared, (s.issues? undeclared).isSome = true
    | some m => ∃ type p, m.typeName? = some type ∧
        analyze o tree = .error (.analysis (.outsideModule type) p) ∧
        (Error.analysis (.outsideModule type) p).message =
          type ++ " should appear only in an ES6 module context." ++ m.startSuffix := by
  have hfaults := hc.head?_faults o
  have hobject : tree.isObj = true := hc.walked.holds.isObj
  have hrun := analyze_of_faults hobject hn (canHappen_plan hc (.ofOptions o))
  cases hm : misplaced? o tree with
  | none =>
      rw [hm, Option.map_none, List.head?_eq_none_iff] at hfaults
      rw [hfaults] at hrun
      obtain ⟨s, hs⟩ := hrun
      have hshown := hc.reportable hn hp hs
      exact ⟨s, hs, fun settings format hf => hshown.render_total hf,
        fun undeclared => (analyze_finished Tree.hereditary_true trivial hs).listed hshown.readable⟩
  | some m =>
      obtain ⟨hmem, ho, type, -, htype⟩ := hc.misplaced hm
      have hplain : m.value.Presentable :=
        (Tree.hereditary_allObjects Tree.isPresentable).items
          ((Tree.hereditary_allObjects Tree.isPresentable).get (n := .root tree) hp "body") hmem
      obtain ⟨p, hon, hsuffix⟩ := Fault.on_eq hplain ho (.outsideModule type)
      rw [hm, Option.map_some, htype, Option.getD_some, hon] at hfaults
      obtain ⟨rest, hrest⟩ := List.head?_eq_some_iff.1 hfaults
      rw [hrest] at hrun
      exact ⟨type, p, htype, hrun, by rw [← hsuffix]; rfl⟩

/-- `import x from "m"; x`, at the start of the source. -/
def importProgram : Tree :=
  let x : Tree := .obj [("type", .str "Identifier"), ("name", .str "x")]
  .obj [("type", .str "Program"), ("body", .arr [
    .obj [("type", .str "ImportDeclaration"),
      ("specifiers", .arr [.obj [("type", .str "ImportDefaultSpecifier"), ("local", x)]]),
      ("source", .obj [("type", .str "Literal"), ("value", .str "m")]),
      ("loc", .obj [("start", .obj [("line", .int 1), ("column", .int 0)])])],
    .obj [("type", .str "ExpressionStatement"), ("expression", x)]])]

/-- The sample is refused as a script and accepted as a module. -/
theorem importProgram_outcome : Grammar.Conforms importProgram ∧ importProgram.TextNames ∧
    importProgram.Presentable ∧
    (∃ e, analyze {} importProgram = .error e ∧ e.message =
      "ImportDeclaration should appear only in an ES6 module context. (line 1, column 0)") ∧
    ∃ s, analyze { sourceType := .moduleCode } importProgram = .ok s ∧
      (∃ text, Report.render s { format := .str "json" } = .ok text) ∧
      (s.issues? true).isSome = true := by
  have hc : Grammar.Conforms importProgram := by decide +kernel
  have hn : importProgram.TextNames := by decide +kernel
  have hp : importProgram.Presentable := by decide +kernel
  refine ⟨hc, hn, hp, ?_, ?_⟩
  · have houtcome := analyze_outcome hc hn hp {}
    cases hm : Grammar.misplaced? {} importProgram with
    | none => exact absurd hm (by decide +kernel)
    | some m =>
        rw [hm] at houtcome
        obtain ⟨type, p, htype, hrun, hmessage⟩ := houtcome
        have hview :
            (Grammar.misplaced? {} importProgram).map (fun m => (m.typeName?, m.startSuffix)) =
              some (some "ImportDeclaration", " (line 1, column 0)") := by decide +kernel
        rw [hm] at hview
        obtain ⟨hname, hsuffix⟩ := Prod.mk.inj (Option.some.inj hview)
        obtain rfl := Option.some.inj (htype.symm.trans hname)
        exact ⟨_, hrun, by rw [hmessage, hsuffix]; rfl⟩
  · have hnone : Grammar.misplaced? { sourceType := .moduleCode } importProgram = none := by
      decide +kernel
    have houtcome := analyze_outcome hc hn hp { sourceType := .moduleCode }
    rw [hnone] at houtcome
    obtain ⟨s, hs, hrender, hissues⟩ := houtcome
    exact ⟨s, hs, hrender _ .json rfl, hissues true⟩

end LexScope
