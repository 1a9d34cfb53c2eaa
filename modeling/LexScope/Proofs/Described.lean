import LexScope.Proofs.Shown

/-!
# Proofs — Described — what a report says of each scope

A document has an entry and an outline has a block of lines for each scope.  What stands in them is
said here without a look at how a report is made: the members of an entry (`Describes`), and the
line that names a scope with the lines of what it holds (`Shows`).  Names stand in their order, each
of them once (`Store.ListsVariables`, `Store.ListsNames`).

* `members?_describes`, `lines?_shows`: what is told of one scope is what is said of it here.
* `document?_described`: **the entries of a document describe the scopes, one each, in order.**
* `outline?_shown`: **an outline is a row of blocks, one for each scope, in order**, two blanks
  further in for every scope above.
-/

namespace LexScope

/-! ### How values read -/

/-- How a value reads in a line: texts as they are, numbers in decimal digits. -/
inductive Tree.Reads : Tree → String → Prop where
  | text (s : String) : Reads (.str s) s
  | number (n : Int) : Reads (.int n) (toString n)
  | absent : Reads .null "None"
  | other (t : Tree) (hs : ∀ s, t ≠ .str s) (hn : ∀ n, t ≠ .int n) (ha : t ≠ .null) :
      Reads t t.text

theorem Tree.reads_iff {t : Tree} {text : String} : t.Reads text ↔ text = t.text := by
  constructor
  · rintro ⟨⟩ <;> rfl
  · rintro rfl
    cases t with
    | str s => exact .text s
    | int n => exact .number n
    | null => exact .absent
    | _ =>
        refine .other _ (fun s h => ?_) (fun n h => ?_) fun h => ?_
        all_goals cases h

/-! ### Levels -/

/-- A number for every scope: none above the outermost, and one more from each scope to those below
it. -/
structure Store.Levels (s : Store) (level : ScopeId → Nat) : Prop where
  root : ∀ i, s.upperOf i = none → level i = 0
  step : ∀ c i, s.upperOf c = some i → level c = level i + 1

theorem Store.Rooted.levels {s : Store} (h : s.Rooted) : s.Levels s.level where
  root i hi := by rw [level, above, hi]; rfl
  step c i hc := level_of_upperOf h hc

/-! ### Names in order -/

/-- Of two texts, the one comes before the other. -/
inductive Tree.Precedes : Tree → Tree → Prop where
  | text {a b : String} (h : a < b) : Precedes (.str a) (.str b)

/-- The variables of a scope in the order of their names, each of them once. -/
structure Store.ListsVariables (s : Store) (a : Scope) (vars : List Variable) : Prop where
  perm : vars.Perm (a.table.entries.filterMap s.variableAt?)
  ordered : vars.Pairwise fun v w => v.name.Precedes w.name

/-- The names of the references that leave a scope, in order, each of them once. -/
structure Store.ListsNames (s : Store) (a : Scope) (names : List String) : Prop where
  mem_iff : ∀ name, name ∈ names ↔
    ∃ r ∈ a.through, ∃ ref, s.referenceAt? r = some ref ∧ ref.name = .str name
  ordered : names.Pairwise (· < ·)

namespace Report

/-! ### Blocks of an outline -/

/-- What an outline has for a scope: the line that names it, and the lines of what it holds. -/
structure Block where
  header : String
  details : List String

/-- The lines of a block. -/
def Block.text (b : Block) : String := b.header ++ String.join b.details

/-- A row of blanks. -/
def blanks (n : Nat) : String := String.ofList (List.replicate n ' ')

/-- What is said of a scope that is strict, has a direct call of `eval`, or uses `this`. -/
def markText (a : Scope) : String :=
  match a.strict, a.callsEval, a.usesThis with
  | false, false, false => ""
  | false, false, true => " [this]"
  | false, true, false => " [eval]"
  | false, true, true => " [eval, this]"
  | true, false, false => " [strict]"
  | true, false, true => " [strict, this]"
  | true, true, false => " [strict, eval]"
  | true, true, true => " [strict, eval, this]"

/-- The line that names a scope at a level. -/
inductive HeaderLine (level : Nat) (a : Scope) : String → Prop where
  | mk {type line column : String} {p : Position} (named : a.block.type.Reads type)
      (placed : a.block.position? = some p) (onLine : p.line.Reads line)
      (inColumn : p.column.Reads column) :
      HeaderLine level a (blanks (2 * level) ++ a.kind.text ++ " scope (" ++ type ++ " " ++ line
        ++ ":" ++ column ++ ")" ++ markText a ++ "\n")

/-- How a definition is told: by the keyword of its declaration, or else by its kind. -/
inductive KindText (d : Definition) : String → Prop where
  | keyword {word : String} (h : d.declarationKind = .str word) (hne : word ≠ "") : KindText d word
  | kind (h : d.declarationKind.truthy = false) : KindText d d.kind.text

/-- The line of a variable at a level, two blanks further in. -/
inductive VariableLine (level : Nat) (v : Variable) : String → Prop where
  | implicit {name : String} (named : v.name.Reads name) (hnone : v.defs = []) :
      VariableLine level v (blanks (2 * level + 2) ++ "- " ++ name ++ " (" ++ "implicit"
        ++ ") refs=" ++ toString v.references.length ++ "\n")
  | defined {name : String} {kinds : List String} (named : v.name.Reads name) (hsome : v.defs ≠ [])
      (told : List.Forall₂ KindText v.defs kinds) :
      VariableLine level v (blanks (2 * level + 2) ++ "- " ++ name ++ " ("
        ++ String.intercalate ", " kinds ++ ") refs=" ++ toString v.references.length ++ "\n")

/-- The line of the names that leave a scope at a level, two blanks further in. -/
inductive ThroughLine (s : Store) (level : Nat) (a : Scope) : String → Prop where
  | mk {names : List String} (h : s.ListsNames a names) :
      ThroughLine s level a (blanks (2 * level + 2) ++ "through: " ++ String.intercalate ", " names
        ++ "\n")

/-- What a block shows: a scope at a level, each of its variables, and the names that leave it, if
there are any and they are not left out. -/
structure Shows (s : Store) (refs : Bool) (level : Nat) (a : Scope) (b : Block) : Prop where
  header : HeaderLine level a b.header
  details : ∃ vars lines through, s.ListsVariables a vars ∧
    List.Forall₂ (VariableLine level) vars lines ∧
    (if refs = true ∧ a.through ≠ [] then ∃ line, ThroughLine s level a line ∧ through = [line]
      else through = []) ∧ b.details = lines ++ through

/-! ### Entries of a document -/

/-- What an entry says of a definition. -/
structure TellsDefinition (d : Definition) (e : Tree) : Prop where
  kind : e.get "kind" = .str d.kind.text
  keyword : e.get "declarationKind" = d.declarationKind
  place : ∃ p, d.name.position? = some p ∧ e.get "line" = p.line

/-- What an entry says of a variable. -/
structure TellsVariable (v : Variable) (e : Tree) : Prop where
  name : e.get "name" = v.name
  defs : List.Forall₂ TellsDefinition v.defs (e.listAt "defs")
  references : e.get "references" = .int v.references.length

/-- What an entry says of a reference. -/
structure TellsReference (ref : Reference) (e : Tree) : Prop where
  name : e.get "name" = ref.name
  flag : e.get "flag" = .str (match ref.access with
    | .read => "read"
    | .write => "write"
    | .readWrite => "read-write")
  resolved : e.get "resolved" = .bool ref.resolved.isSome
  place : ∃ p, ref.identifier.position? = some p ∧ e.get "line" = p.line ∧ e.get "column" = p.column

/-- What an entry says of a scope. -/
structure Describes (s : Store) (refs : Bool) (a : Scope) (e : Tree) : Prop where
  type : e.get "type" = .str a.kind.text
  block : e.get "block" = a.block.type
  place : ∃ p, a.block.position? = some p ∧ e.get "line" = p.line ∧ e.get "column" = p.column
  strict : e.get "strict" = .bool a.strict
  dynamic : e.get "dynamic" = .bool a.dynamic
  bound : ∃ vars, s.ListsVariables a vars ∧
    List.Forall₂ TellsVariable vars (e.listAt "variables")
  through : e.listAt "through" = (a.through.filterMap s.referenceAt?).map Reference.name
  references : if refs then
      List.Forall₂ TellsReference (a.references.filterMap s.referenceAt?) (e.listAt "references")
    else e.get "references" = .null

/-! ### One scope -/

variable {s : Store} {refs : Bool} {i : ScopeId} {a : Scope} {v : Variable} {ref : Reference}
  {d : Definition} {level : Nat} {e t : Tree} {line text : String} {vars : List Variable}

/-- The variables of a scope whose names are texts are listed. -/
theorem sortedVariables?_lists (hs : s.Sound) (hd : s.Distinct) (ha : s.scopeAt? i = some a)
    (htext : a.table.IsText) (h : s.sortedVariables? a = some vars) : s.ListsVariables a vars := by
  obtain ⟨table, htable, hperm⟩ := Table.sorted?_total htext
  rw [Store.sortedVariables?, htable] at h
  obtain rfl := Option.some.inj h
  refine ⟨(hperm.map (·.2)).filterMap _, ?_⟩
  have hname : ∀ {e text var}, e ∈ table → e.1 = .text text → s.variableAt? e.2 = some var →
      var.name = .str text := fun {e text var} he htext hvar => by
    obtain ⟨var', hvar', -, hname⟩ := hs.table i a e.1 e.2 ha (hperm.subset he)
    obtain rfl := Option.some.inj (hvar.symm.trans hvar')
    exact Name.ofTree?_eq_text.1 (htext ▸ hname)
  refine List.pairwise_filterMap.2 (List.pairwise_map.2 ?_)
  refine (Table.sorted?_increasing htext (hd i a ha) htable).imp_of_mem ?_
  rintro e f he hf ⟨x, y, hx, hy, hlt⟩ v hv w hw
  rw [hname he hx hv, hname hf hy hw]
  exact .text hlt

theorem definitionEntry?_tells (h : definitionEntry? d = some e) : TellsDefinition d e := by
  obtain ⟨p, hp, h⟩ := Option.bind_eq_some_iff.1 h
  obtain rfl := Option.some.inj h
  exact ⟨rfl, rfl, p, hp, rfl⟩

theorem variableEntry?_tells (h : variableEntry? v = some e) : TellsVariable v e := by
  obtain ⟨defs, hdefs, h⟩ := Option.bind_eq_some_iff.1 h
  obtain rfl := Option.some.inj h
  exact ⟨rfl, (forall₂_of_mapM hdefs).imp fun d e => definitionEntry?_tells, rfl⟩

theorem referenceEntry?_tells (h : referenceEntry? ref = some e) : TellsReference ref e := by
  obtain ⟨p, hp, h⟩ := Option.bind_eq_some_iff.1 h
  obtain rfl := Option.some.inj h
  refine ⟨rfl, ?_, rfl, p, hp, rfl, rfl⟩
  show Tree.str (accessText ref.access) = _
  cases ref.access <;> rfl

/-- **What is told of a scope in a document describes it.** -/
theorem members?_describes (hs : s.Sound) (hd : s.Distinct) (ha : s.scopeAt? i = some a)
    (htext : a.table.IsText) (h : members? s refs a = some t.own) : Describes s refs a t := by
  obtain ⟨p, vars, made, hp, hvars, hmade, hown⟩ := members?_eq_some h
  obtain ⟨sorted, hsorted, hvars⟩ := Option.bind_eq_some_iff.1 hvars
  have hget : ∀ {key u}, key ≠ "children" → (Tree.obj t.own).get key = u → t.get key = u :=
    fun hk hu => (Tree.get_own hk t).symm.trans hu
  have hlist : ∀ {key us}, t.get key = .arr us → t.listAt key = us := fun hu => by
    rw [Tree.listAt, hu]
  rw [hown] at hget
  refine ⟨hget (by decide) rfl, hget (by decide) rfl,
    ⟨p, hp, hget (by decide) rfl, hget (by decide) rfl⟩, hget (by decide) rfl,
    hget (by decide) rfl, ⟨sorted, sortedVariables?_lists hs hd ha htext hsorted, ?_⟩,
    hlist (hget (by decide) rfl), ?_⟩
  · have hentries : t.listAt "variables" = vars := hlist (hget (by decide) rfl)
    rw [hentries]
    exact (forall₂_of_mapM hvars).imp fun v e => variableEntry?_tells
  · cases refs with
    | false => exact hget (by decide) rfl
    | true =>
        have hentries : t.listAt "references" = made := hlist (hget (by decide) rfl)
        rw [if_pos rfl, hentries]
        exact (forall₂_of_mapM (hmade rfl)).imp fun ref e => referenceEntry?_tells

theorem header?_line (h : header? level a = some line) : HeaderLine level a line := by
  obtain ⟨p, hp, h⟩ := Option.bind_eq_some_iff.1 h
  obtain ⟨-, -, h⟩ := Option.bind_eq_some_iff.1 h
  obtain rfl := Option.some.inj h
  have hmarks : (if (marks a).isEmpty then ""
      else " [" ++ String.intercalate ", " (marks a) ++ "]") = markText a := by
    rw [marks, markText]
    cases a.strict <;> cases a.callsEval <;> cases a.usesThis <;> decide
  rw [hmarks]
  exact .mk (Tree.reads_iff.2 rfl) hp (Tree.reads_iff.2 rfl) (Tree.reads_iff.2 rfl)

theorem blanks_further (level : Nat) (rest : String) :
    blanks (2 * level + 2) ++ rest = indent level ++ ("  " ++ rest) := by
  have htwo : blanks (2 * level + 2) = indent level ++ "  " := by
    rw [blanks, indent, List.replicate_add, String.ofList_append]
    rfl
  rw [htwo, String.append_assoc]

theorem kind_text_ne (k : DefinitionKind) : k.text ≠ "" := by
  cases k <;> decide

theorem definitionText?_kind (h : definitionText? d = some text) : KindText d text ∧ text ≠ "" := by
  rw [definitionText?, Tree.orElse] at h
  split at h
  · rename_i htruthy
    cases hkind : d.declarationKind with
    | str word =>
        rw [hkind] at h htruthy
        obtain rfl := Option.some.inj h
        have hne : word ≠ "" := by
          rintro rfl
          cases htruthy
        exact ⟨.keyword hkind hne, hne⟩
    | _ => rw [hkind] at h; cases h
  · rename_i hfalse
    obtain rfl := Option.some.inj h
    exact ⟨.kind (by simpa using hfalse), kind_text_ne _⟩

/-- Words that are not empty make no empty list. -/
theorem intercalate_ne_empty {words : List String} (hne : words ≠ [])
    (h : ∀ w ∈ words, w ≠ "") : String.intercalate ", " words ≠ "" := by
  cases words with
  | nil => exact absurd rfl hne
  | cons w words =>
      have hw := h w List.mem_cons_self
      intro hempty
      cases words with
      | nil => exact hw hempty
      | cons w' words =>
          rw [String.intercalate_cons_cons] at hempty
          simp at hempty

theorem variableLine?_line (h : variableLine? level v = some line) : VariableLine level v line := by
  obtain ⟨kinds, hkinds, h⟩ := Option.bind_eq_some_iff.1 h
  obtain rfl := Option.some.inj h
  have htold := forall₂_of_mapM hkinds
  have hstart : indent level ++ "  - " = blanks (2 * level + 2) ++ "- " :=
    (blanks_further level "- ").symm
  rw [hstart]
  by_cases hnone : v.defs = []
  · obtain rfl : kinds = [] := by
      rw [hnone] at htold
      exact List.forall₂_nil_left_iff.1 htold
    exact .implicit (Tree.reads_iff.2 rfl) hnone
  · have hwords : ∀ w ∈ kinds, w ≠ "" := fun w hw => by
      obtain ⟨d, -, hd⟩ := exists_of_forall₂ htold hw
      exact (definitionText?_kind hd).2
    have hsome : kinds ≠ [] := by
      rintro rfl
      exact hnone (List.forall₂_nil_right_iff.1 htold)
    rw [if_neg (intercalate_ne_empty hsome hwords)]
    exact .defined (Tree.reads_iff.2 rfl) hnone
      (htold.imp fun d w hd => (definitionText?_kind hd).1)

theorem textOf?_eq_some : textOf? t = some text ↔ t = .str text := by
  cases t <;> simp [textOf?]

/-- The different names of the references that leave a scope are listed. -/
theorem throughNames?_lists {names : List String} (h : throughNames? s a = some names) :
    s.ListsNames a names := by
  obtain ⟨texts, htexts, h⟩ := Option.bind_eq_some_iff.1 h
  obtain ⟨table, htable, h⟩ := Option.bind_eq_some_iff.1 h
  have hall := Table.isText_ofTexts (t := []) texts nofun
  obtain ⟨table', htable', hperm⟩ := Table.sorted?_total hall
  obtain rfl := Option.some.inj (htable.symm.trans htable')
  have hincreasing := Table.sorted?_increasing hall (Table.nodup_ofTexts texts List.nodup_nil) htable
  have hkeys : names.map Name.text = table.names := by
    refine (map_eq_of_forall₂ (f := id) (forall₂_of_mapM h) fun key name hkey => ?_).trans
      (List.map_id _)
    split at hkey
    · exact congrArg Name.text (Option.some.inj hkey).symm
    · cases hkey
  refine ⟨fun name => ?_, ?_⟩
  · -- The table has the names that were put into it.
    have hput : name ∈ names ↔ name ∈ texts := by
      rw [← List.mem_map_of_injective fun _ _ => Name.text.inj, hkeys, Table.names,
        (hperm.map (·.1)).mem_iff]
      refine Table.mem_names_ofTexts.trans ?_
      simp [Table.names]
    rw [hput, mem_of_mapM htexts]
    constructor
    · rintro ⟨ref, href, hname⟩
      obtain ⟨r, hr, href⟩ := List.mem_filterMap.1 href
      exact ⟨r, hr, ref, href, textOf?_eq_some.1 hname⟩
    · rintro ⟨r, hr, ref, href, hname⟩
      exact ⟨ref, List.mem_filterMap.2 ⟨r, hr, href⟩, textOf?_eq_some.2 hname⟩
  · have hordered : (names.map Name.text).Pairwise
        fun m n => ∃ a b, m = .text a ∧ n = .text b ∧ a < b :=
      hkeys.symm ▸ List.pairwise_map.2 hincreasing
    refine (List.pairwise_map.1 hordered).imp ?_
    rintro _ _ ⟨a, b, ⟨⟩, ⟨⟩, hlt⟩
    exact hlt

theorem throughLine?_line (hsome : a.through ≠ []) (h : throughLine? s level a = some line) :
    ThroughLine s level a line := by
  have hfew : a.through.isEmpty = false := List.isEmpty_eq_false_iff.2 hsome
  rw [throughLine?, hfew] at h
  obtain ⟨names, hnames, h⟩ := Option.bind_eq_some_iff.1 h
  obtain rfl := Option.some.inj h
  have hstart : indent level ++ "  through: " = blanks (2 * level + 2) ++ "through: " :=
    (blanks_further level "through: ").symm
  rw [hstart]
  exact .mk (throughNames?_lists hnames)

/-- **What is told of a scope in an outline shows it.** -/
theorem lines?_shows (hs : s.Sound) (hd : s.Distinct) (ha : s.scopeAt? i = some a)
    (htext : a.table.IsText) (h : lines? s refs level a = some text) :
    ∃ b, Shows s refs level a b ∧ b.text = text := by
  obtain ⟨header, hheader, h⟩ := Option.bind_eq_some_iff.1 h
  obtain ⟨vars, hvars, h⟩ := Option.bind_eq_some_iff.1 h
  obtain ⟨lines, hlines, h⟩ := Option.bind_eq_some_iff.1 h
  obtain ⟨through, hthrough, rfl⟩ : ∃ through,
      (if refs then throughLine? s level a else some "") = some through ∧
        header ++ String.join lines ++ through = text := by
    cases refs with
    | false => exact ⟨"", rfl, Option.some.inj h⟩
    | true =>
        have hbind : (throughLine? s level a).bind
            (fun through => some (header ++ String.join lines ++ through)) = some text := h
        obtain ⟨through, hthrough, htext⟩ := Option.bind_eq_some_iff.1 hbind
        exact ⟨through, hthrough, Option.some.inj htext⟩
  have hshown : List.Forall₂ (VariableLine level) vars lines :=
    (forall₂_of_mapM hlines).imp fun v line => variableLine?_line
  by_cases hleave : refs = true ∧ a.through ≠ []
  · obtain ⟨rfl, hsome⟩ := hleave
    refine ⟨⟨header, lines ++ [through]⟩, ⟨header?_line hheader, vars, lines, [through],
      sortedVariables?_lists hs hd ha htext hvars, hshown, ?_, rfl⟩, ?_⟩
    · rw [if_pos ⟨rfl, hsome⟩]
      exact ⟨through, throughLine?_line hsome hthrough, rfl⟩
    · simp [Block.text, String.append_assoc]
  · have hnothing : through = "" := by
      cases refs with
      | false => exact (Option.some.inj hthrough).symm
      | true =>
          have hnone : a.through = [] := by simpa using hleave
          simp only [if_true, throughLine?, hnone] at hthrough
          exact (Option.some.inj hthrough).symm
    refine ⟨⟨header, lines ++ []⟩, ⟨header?_line hheader, vars, lines, [],
      sortedVariables?_lists hs hd ha htext hvars, hshown, ?_, rfl⟩, ?_⟩
    · rw [if_neg hleave]
    · simp [Block.text, hnothing]

/-! ### All scopes -/

variable (hp : s.Preordered) (ha : s.Adopted) (hroot : 0 < s.scopes.size)
  (hbelow : ∀ i, i < s.scopes.size → 0 ∈ s.chain i) (hs : s.Sound) (hd : s.Distinct)
  (htext : ∀ i a, s.scopeAt? i = some a → a.table.IsText)

include hp ha hroot hbelow hs hd htext

/-- **The entries of a document describe the scopes**, one each, in the order of the scopes. -/
theorem document?_described {doc : Tree} (hdoc : document? s refs 0 = some doc) :
    List.Forall₂ (Describes s refs) s.scopes.toList doc.entries := by
  have hall := document?_eq hp ha hroot hbelow refs
  rw [hdoc, Option.map_some] at hall
  have hentries := List.forall₂_map_right_iff.1 (forall₂_of_mapM hall.symm)
  have hscopes : ∀ a ∈ s.scopes.toList, ∃ i, s.scopeAt? i = some a := fun a ha => by
    obtain ⟨i, hi⟩ := List.mem_iff_getElem?.1 ha
    rw [Array.getElem?_toList] at hi
    exact ⟨i, hi⟩
  refine ((List.forall₂_and_left _ _).2 ⟨hscopes, hentries⟩).imp ?_
  rintro a t ⟨⟨i, hi⟩, hmembers⟩
  exact members?_describes hs hd hi (htext i a hi) hmembers

/-- **An outline is a row of blocks**, one for each scope, in the order of the scopes. -/
theorem outline?_shown (houtline : outline? s refs 0 = some text) :
    ∃ blocks : List Block, text = String.join (blocks.map Block.text) ∧
      List.Forall₂ (fun m b => Shows s refs (s.level m.2) m.1 b) s.numbered blocks := by
  rw [outline?_eq hp ha hroot hbelow] at houtline
  obtain ⟨texts, htexts, rfl⟩ := Option.map_eq_some_iff.1 houtline
  have hscopes : ∀ m ∈ s.numbered, s.scopeAt? m.2 = some m.1 := fun m hm => by
    have hget := List.mem_zipIdx_iff_getElem?.1 hm
    rw [Array.getElem?_toList] at hget
    exact hget
  have hblocks : List.Forall₂
      (fun m text => ∃ b, Shows s refs (s.level m.2) m.1 b ∧ b.text = text) s.numbered texts :=
    ((List.forall₂_and_left _ _).2 ⟨hscopes, forall₂_of_mapM htexts⟩).imp fun m text h =>
      lines?_shows hs hd h.1 (htext m.2 m.1 h.1) h.2
  -- The texts are those of blocks, one after the other.
  generalize s.numbered = scopes at hblocks
  clear htexts hscopes houtline
  induction hblocks with
  | nil => exact ⟨[], rfl, .nil⟩
  | cons hb _ ih =>
      obtain ⟨b, hshows, rfl⟩ := hb
      obtain ⟨blocks, hjoin, hall⟩ := ih
      exact ⟨b :: blocks, by simp [hjoin], .cons hshows hall⟩

end Report

end LexScope
