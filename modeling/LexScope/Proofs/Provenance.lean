import LexScope.Proofs.Bindings
import LexScope.Proofs.Partition

/-!
# Proofs — Provenance — where every write comes from

A reference tells more than which name is used: what is written, whether all of it or a part,
whether that initialises a variable, and what the write makes of a name that nothing binds.  All of
this is fixed when the reference is made, by the place in the program that writes.  `Walk.Writes`
has a line for every such place, with the pattern written to and the value.

* `makes_of_mem`: a use that a rule makes reads a name, changes one, or is a write of the table.
* `Walk.Writes.declared`: what a declaration writes to, a declaration binds.
* `Moment.Known.cited_step`: every step keeps a use behind every reference, among all that there is
  to happen.
* `analyze_provenance`: **every reference tells the truth about its write.**
-/

namespace LexScope

open Node Store

open Grammar (inside)

namespace Walk

variable {g : Gates} {n p pattern value : Node} {c c' : Around} {l : Leaf} {family : Family}
  {u : Use} {k : Call} {tree : Tree}

/-! ### The table of writes -/

/-- What makes a write. -/
inductive WriteKind where
  /-- A declaration, or the declaration that heads an iteration. -/
  | declaration
  /-- An assignment, or the head of an iteration that declares nothing. -/
  | assignment
  deriving Repr, DecidableEq

/-- An iteration whose head is a declaration, or is taken for one. -/
def HeadDeclares (n : Node) : Prop :=
  Family.lexicalIteration.Covers n ∨
    Family.iteration.Covers n ∧ (n.get "left").hasType "VariableDeclaration" = true

theorem IteratesLexically.headDeclares (h : IteratesLexically g n) : HeadDeclares n :=
  h.imp_right fun ⟨hf, _, hlexical⟩ => ⟨hf, (Bool.and_eq_true_iff.1 hlexical).1⟩

/-- The writes that a rule makes itself: what makes each of them, the pattern written to and the
value.  A declared head writes twice if it has an initializer. -/
inductive Writes (g : Gates) (n : Node) : WriteKind → Node → Node → Prop
  | initializer {ds : List Node} {i : Nat} {d : Node} (h : Family.declaration.Covers n)
      (hs : (n.get "declarations").sequence? = some ds) (hd : ds[i]? = some d)
      (ho : d.isObj = true) (hi : (d.get "init").isNull = false) :
      Writes g n .declaration (d.get "id") (d.get "init")
  | headInitializer {d : Node} (h : IteratesLexically g n)
      (hd : declarator? (n.get "left") 0 = some d) (hi : (d.get "init").isNull = false) :
      Writes g n .declaration (d.get "id") (d.get "init")
  | head {d : Node} (h : HeadDeclares n) (hd : declarator? (n.get "left") 0 = some d) :
      Writes g n .declaration (d.get "id") (n.get "right")
  | assignment (h : Family.assignment.Covers n) (ho : (n.get "operator").value = .str "=")
      (hp : Pattern.isPattern? (n.get "left") = some true) :
      Writes g n .assignment (n.get "left") (n.get "right")
  | target (h : Family.iteration.Covers n)
      (hv : ¬ (n.get "left").hasType "VariableDeclaration" = true)
      (hp : Pattern.isPattern? (n.get "left") = some true) :
      Writes g n .assignment (n.get "left") (n.get "right")

/-- The use that writes a value to an identifier of a pattern. -/
def WriteKind.use (n pattern value p : Node) : WriteKind → Use
  | .declaration =>
      { identifier := p, access := .write, writeExpr := value,
        isPartial := .bool !Pattern.isWhole pattern, isInit := .bool (Pattern.isWhole pattern) }
  | .assignment =>
      { identifier := p, access := .write, writeExpr := value, candidate := some ⟨p, n⟩,
        isPartial := .bool !Pattern.isWhole pattern }

/-- The uses that a rule makes itself. -/
inductive Makes (g : Gates) (n : Node) : Use → Prop
  | read (h : Family.identifier.Covers n) : Makes g n { identifier := n }
  | stepped (h : Family.update.Covers n) :
      Makes g n { identifier := n.get "argument", access := .readWrite }
  | amended (h : Family.assignment.Covers n) (ho : (n.get "operator").value ≠ .str "=") :
      Makes g n { identifier := n.get "left", access := .readWrite, writeExpr := n.get "right" }
  | written {kind : WriteKind} {pattern value p : Node} (h : Writes g n kind pattern value)
      (hp : p ∈ Pattern.bound pattern) : Makes g n (kind.use n pattern value p)

/-! ### The uses of a rule are in the tables -/

/-- A node has one family. -/
theorem mem_own_of_covers (hf : family.Covers n) :
    l ∈ leavesOf c (own g n) ↔ l ∈ leavesOf c (rule g (fun _ => []) n family) := by
  rw [mem_own]
  constructor
  · rintro ⟨family', hf', hl⟩
    obtain rfl := Option.some.inj (hf.symm.trans hf')
    exact hl
  · exact fun hl => ⟨family, hf, hl⟩

theorem mem_own_of_iteratesLexically (h : IteratesLexically g n) :
    l ∈ leavesOf c (own g n) ↔ l ∈ leavesOf c (lexicalIteration (fun _ => []) n) := by
  rcases h with h | ⟨h, hes, hlexical⟩
  · exact mem_own_of_covers h
  · rw [mem_own_of_covers h, rule, iteration, if_pos (Bool.and_eq_true_iff.2 ⟨hes, hlexical⟩)]

theorem refer_mem_assignTo (h : .refer u ∈ assignTo pattern value n) :
    ∃ p ∈ Pattern.bound pattern, u = WriteKind.assignment.use n pattern value p := by
  obtain ⟨p, hp, hm⟩ := (mem_forBound_of_deed rfl).1 h
  exact ⟨p, hp, Event.refer.inj (List.mem_singleton.1 hm)⟩

/-- A declarator is written to only if it has an initializer. -/
theorem makes_of_mem_bindDeclarator {target : Target} {kind : DefinitionKind} {m x : Node} {i : Nat}
    (h : .refer u ∈ bindDeclarator target kind m i x)
    (hw : (x.get "init").isNull = false → Writes g n .declaration (x.get "id") (x.get "init")) :
    Makes g n u := by
  obtain ⟨hi, p, hp, he⟩ := refer_mem_bindDeclarator h
  cases he
  exact .written (hw hi) hp

theorem makes_of_declaration (h : Family.declaration.Covers n)
    (hm : (⟨c', .refer u⟩ : Leaf) ∈ leavesOf c (own g n)) : Makes g n u := by
  obtain ⟨-, ds, i, d, hs, hd, ho, hb⟩ := (deed_declare rfl).1 ((mem_own_of_covers h).1 hm)
  exact makes_of_mem_bindDeclarator hb fun hi => .initializer h hs hd ho hi

theorem makes_of_iteratesLexically (h : IteratesLexically g n)
    (hm : (⟨c', .refer u⟩ : Leaf) ∈ leavesOf c (own g n)) : Makes g n u := by
  have hbound : ∀ {kind}, .refer u ∈ bindHead kind (n.get "left") → Makes g n u := fun hb => by
    obtain ⟨d, hd, hb⟩ := (deed_bindHead rfl).1 hb
    exact makes_of_mem_bindDeclarator hb fun hi => .headInitializer h hd hi
  rcases (deed_lexicalIteration rfl).1 ((mem_own_of_iteratesLexically h).1 hm) with
    ⟨-, hb⟩ | ⟨kinds, -, -, hb | hb⟩
  · exact hbound hb
  · exact hbound hb
  · obtain ⟨d, hd, p, hp, he⟩ := (deed_writeHead rfl).1 hb
    cases he
    exact .written (.head h.headDeclares hd) hp

/-- **A use that a rule makes reads a name, changes one, or is a write of the table.** -/
theorem makes_of_mem (hm : (⟨c', .refer u⟩ : Leaf) ∈ leavesOf c (own g n)) : Makes g n u := by
  have hr := refers_of_mem hm
  generalize he : Event.refer u = e at hr
  cases hr with
  | name h =>
      cases he
      exact .read h
  | step h hid =>
      cases he
      exact .stepped h
  | amended h hp ho =>
      cases he
      exact .amended h ho
  | assigned h hp ho hb =>
      subst he
      obtain ⟨p, hp', rfl⟩ := refer_mem_assignTo hb
      exact .written (.assignment h ho hp) hp'
  | target h hl hv hp hb =>
      subst he
      obtain ⟨p, hp', rfl⟩ := refer_mem_assignTo hb
      exact .written (.target h hv hp) hp'
  | head h hl hv hd hp =>
      cases he
      exact .written (.head (.inr ⟨h, hv⟩) hd) hp
  -- The table of uses does not tell that there is an initializer, or which value a turn writes.
  | initialized h hs hd ho hp => exact makes_of_declaration h hm
  | deadZone h hd hi hp => exact makes_of_iteratesLexically h hm
  | turn h hk hd hp => exact makes_of_iteratesLexically h hm

/-! ### What a declaration writes to is bound -/

/-- The head of an iteration that is no lexical declaration is visited. -/
theorem left_mem_visits (hk : k ∈ visits g (.root tree)) (h : Family.iteration.Covers k.node)
    (hl : ¬ (g.es6 && isLexical (k.node.get "left")) = true)
    (hv : (k.node.get "left").hasType "VariableDeclaration" = true) :
    ⟨k.around, k.node.get "left"⟩ ∈ visits g (.root tree) := by
  have hcall : ⟨[], k.node.get "left"⟩ ∈ calls g k.node := by
    rw [calls_of_family h, ruleCalls, iterationCalls, if_neg hl, targetNodes, if_pos hv]
    exact List.mem_map.2 ⟨_, List.mem_append_left _ List.mem_cons_self, rfl⟩
  exact mem_visits_of_mem_calls hk hcall

/-- **What a declaration writes to, a declaration binds**, by a declarator for the same pattern.
The names of a lexical head are bound in the dead zone already. -/
theorem Writes.declared (h : Writes g k.node .declaration pattern value)
    (hk : k ∈ visits g (.root tree)) (hp : p ∈ Pattern.bound pattern) :
    ∃ k' ∈ visits g (.root tree), ∃ c target d, Declares g k'.node k'.around c target p d ∧
      d.name = p ∧ d.node.get "id" = pattern ∧ (d.kind = .variable ∨ d.kind = .deadZone) := by
  cases h with
  | initializer h hs hd ho hi =>
      exact ⟨k, hk, _, _, _, .variable h hs hd ho hp, rfl, rfl, .inl rfl⟩
  | headInitializer h hd hi => exact ⟨k, hk, _, _, _, .deadZone h hd hp, rfl, rfl, .inr rfl⟩
  | head h hd =>
      by_cases hl : IteratesLexically g k.node
      · exact ⟨k, hk, _, _, _, .deadZone hl hd hp, rfl, rfl, .inr rfl⟩
      · obtain ⟨hf, hv⟩ := h.resolve_left fun h => hl (.inl h)
        obtain ⟨ds, hs, hd'⟩ := sequence_of_declarator hd
        have hleft := left_mem_visits hk hf (fun h' => hl (.inr ⟨hf, Bool.and_eq_true_iff.1 h'⟩)) hv
        have ho : _ = true := (Option.filter_eq_some_iff.1 hd).2
        exact ⟨_, hleft, _, _, _, .variable (covers_of_hasType hv) hs hd' ho hp, rfl, rfl, .inl rfl⟩

end Walk

open Walk

/-! ### The use behind a reference -/

/-- A reference is what a use among some leaves makes of the scope around it.  In a strict scope no
write makes a variable. -/
def Store.Cites (s : Store) (leaves : List Leaf) (ref : Reference) : Prop :=
  ∃ u a, s.scopeAt? ref.scope = some a ∧ ⟨s.around ref.scope, .refer u⟩ ∈ leaves ∧
    u.identifier.isIdentifier = true ∧
    ref.toUse = if a.strict then { u with candidate := none } else u

/-- Behind every reference there is a use among some leaves. -/
def Store.Cited (s : Store) (leaves : List Leaf) : Prop :=
  ∀ r ref, s.referenceAt? r = some ref → s.Cites leaves ref

namespace Walk

variable {m m' : Moment} {op : Option Operation} {ops : List Operation} {P : Tree → Prop}
  {leaves : List Leaf} {A : ScopeId → Prop} {s t : Store} {ref ref' : Reference}

/-- The use behind a reference stays. -/
theorem cites_evolves (h : s.Cites leaves ref) (hE : Evolves A s t) (hs : s.Sound) (ht : t.Sound)
    (huse : ref'.toUse = ref.toUse) (hscope : ref'.scope = ref.scope) : t.Cites leaves ref' := by
  obtain ⟨u, a, ha, hl, hid, hu⟩ := h
  obtain ⟨b, hb, hev, -⟩ := hE.scope _ a ha
  refine ⟨u, b, hscope ▸ hb, ?_, hid, ?_⟩
  · rw [hscope, hE.around hs ht (scopeAt?_lt ha)]
    exact hl
  · rw [huse, Scope.strict_of_frame hev.frame, hu]

/-- Every step keeps a use behind every reference. -/
theorem Moment.Known.cited_step (h : m.Known P) (hacc : m.Accounts leaves) (hs : Step m op m')
    (hcited : m.store.Cited leaves) : m'.store.Cited leaves := by
  intro r ref href
  have hsound := h.good.disciplined.sound
  have hE := (h.good.changes hs).evolves hsound
  have hsound' := (h.good.step hs).disciplined.sound
  cases hr : m.store.referenceAt? r with
  | some ref₀ =>
      obtain ⟨ref', href', huse, hscope⟩ := hE.reference r ref₀ hr
      obtain rfl := Option.some.inj (href.symm.trans href')
      exact cites_evolves (hcited r ref₀ hr) hE hsound hsound' huse hscope
  | none =>
      -- What is made is the use that was next to happen.
      obtain ⟨c, u, todo, rest, a, hf, ha, hid, rfl⟩ := h.good.made_step hs hr href
      obtain ⟨done, hleaves, -⟩ := hacc
      have hnew : m.store.Cites leaves
          { toUse := if a.strict then { u with candidate := none } else u, scope := c } := by
        refine ⟨u, a, ha, ?_, hid, rfl⟩
        rw [hleaves, Moment.leavesAhead, hf]
        exact List.mem_append_right done List.mem_cons_self
      exact cites_evolves hnew hE hsound hsound' rfl rfl

theorem Moment.Known.cited (h : m.Known P) (hacc : m.Accounts leaves) (hs : Steps m ops m')
    (hcited : m.store.Cited leaves) : m'.store.Cited leaves := by
  induction hs with
  | refl => exact hcited
  | more hs _ ih =>
      have hknown := h.steps (.more hs (.refl _))
      exact ih hknown (h.accounts_step hacc hs) (h.cited_step hacc hs hcited)

end Walk

variable {o : Options} {tree : Tree} {s : Store} {p : Node}
  {k : Call} {c : Around} {target : Target} {d : Definition}

/-- **Behind every reference of an analysis there is a use of the plan.** -/
theorem analyze_cited (h : analyze o tree = .ok s) :
    s.Cited (leavesOf [] (plan (.ofOptions o) (.root tree))) := by
  obtain ⟨ops, m, hsteps, -, -, rfl⟩ := analyze_ok h
  have hknown : (Moment.start o tree).Known fun _ => True :=
    Moment.start_known Tree.hereditary_true o trivial
  have hcited := hknown.cited (Moment.start_accounts o tree) hsteps fun r ref hr => by
    rw [show (Moment.start o tree).store.referenceAt? r = none from rfl] at hr
    cases hr
  have hs := (hknown.steps hsteps).good.disciplined.sound
  have hq : Quiets (fun _ => True) m.store (m.store.record (.analyzed m.store.scopes.size)) :=
    .single (.record _)
  exact fun r ref href =>
    cites_evolves (hcited r ref href) (hq.changes.evolves hs) hs (hq.changes.sound hs) rfl rfl

/-! ### What a reference tells -/

/-- Nothing is told of a write that makes or initialises a variable, or of a part of a value. -/
structure Use.Unmarked (u : Use) : Prop where
  candidate : u.candidate = none
  isPartial : u.isPartial = .bool false
  isInit : u.isInit = .bool false

/-- A name of a declaration is the name of a definition in the store. -/
def Store.IsDeclared (s : Store) (p pattern : Node) : Prop :=
  ∃ i a d, s.scopeAt? i = some a ∧ s.HasDefinition a p d ∧ d.name = p ∧
    d.node.get "id" = pattern ∧ (d.kind = .variable ∨ d.kind = .deadZone)

/-- What a reference tells is true of a write that a node makes. -/
structure Store.Tells (s : Store) (g : Gates) (n : Node) (kind : WriteKind) (pattern : Node)
    (ref : Reference) : Prop where
  writes : Writes g n kind pattern ref.writeExpr
  bound : ref.identifier ∈ Pattern.bound pattern
  isPartial : ref.isPartial = .bool (pattern ≠ ref.identifier)
  isInit : ref.isInit = .bool (pattern = ref.identifier ∧ kind = .declaration)
  /-- Only an assignment makes a variable, and in no strict scope. -/
  candidate : ∃ a, s.scopeAt? ref.scope = some a ∧ ref.candidate =
    if kind = .assignment ∧ a.strict = false then some ⟨ref.identifier, n⟩ else none
  isDeclared : kind = .declaration → s.IsDeclared ref.identifier pattern

/-- Where the write of a reference comes from, if it writes. -/
def Store.Traces (s : Store) (g : Gates) (tree : Tree) (ref : Reference) : Prop :=
  ∃ k ∈ visits g (.root tree),
    match ref.access with
    | .read => ref.identifier = k.node ∧ ref.writeExpr = .absent ∧ ref.Unmarked
    | .readWrite => ref.Unmarked ∧
        (Family.assignment.Covers k.node ∧ (k.node.get "operator").value ≠ .str "=" ∧
            ref.identifier = k.node.get "left" ∧ ref.writeExpr = k.node.get "right" ∨
          Family.update.Covers k.node ∧ ref.identifier = k.node.get "argument" ∧
            ref.writeExpr = .absent)
    | .write => ∃ kind pattern, s.Tells g k.node kind pattern ref

theorem hasDefinition_of_declares (h : analyze o tree = .ok s)
    (hk : k ∈ visits (.ofOptions o) (.root tree))
    (hd : Declares (.ofOptions o) k.node k.around c target p d) (hid : p.isIdentifier = true) :
    ∃ i a, s.scopeAt? i = some a ∧ s.HasDefinition a p d := by
  have hfin := analyze_finished Tree.hereditary_true trivial h
  obtain ⟨-, i, key, var, -, -, -, hkey, hdeclared, hmem⟩ := (analyze_attests h).bound c target p d
    (mem_leaves_plan.2 ⟨k, hk, define_mem_own.2 hd⟩) hid
  cases ha : s.scopeAt? i with
  | none =>
      rw [declared, ha] at hdeclared
      cases hdeclared
  | some a =>
      obtain ⟨v, var', hf, -, hv, hdefs⟩ := find?_of_mem_declared hfin.distinct ha hdeclared
      exact ⟨i, a, ha, key, v, var', hkey, hf, hv, hdefs ▸ hmem⟩

/-- A pattern is whole if it is the identifier that it binds. -/
theorem isWhole_eq {pattern : Node} (hp : p ∈ Pattern.bound pattern) (hid : p.isIdentifier = true) :
    Pattern.isWhole pattern = decide (pattern = p) := by
  rw [Pattern.isWhole]
  cases hw : pattern.isIdentifier with
  | true =>
      rw [Pattern.bound_whole hw, List.mem_singleton] at hp
      simp [hp]
  | false =>
      symm
      rw [decide_eq_false_iff_not]
      rintro rfl
      rw [hw] at hid
      cases hid

/-- What a declaration writes to is the name of a definition in the end. -/
theorem isDeclared_of_writes {pattern value : Node} (h : analyze o tree = .ok s)
    (hw : Writes (.ofOptions o) k.node .declaration pattern value)
    (hk : k ∈ visits (.ofOptions o) (.root tree)) (hp : p ∈ Pattern.bound pattern)
    (hid : p.isIdentifier = true) : s.IsDeclared p pattern := by
  obtain ⟨k', hk', c, target, d, hd, hname, hdecl, hkind⟩ := hw.declared hk hp
  obtain ⟨i, a, ha, hdef⟩ := hasDefinition_of_declares h hk' hd hid
  exact ⟨i, a, d, ha, hdef, hname, hdecl, hkind⟩

/-- A reference that a write of the table makes tells the truth about it. -/
theorem tells_of_writes {g : Gates} {n pattern value : Node} {kind : WriteKind} {i : ScopeId}
    {a : Scope} {v : Option VariableId} (hw : Writes g n kind pattern value)
    (hp : p ∈ Pattern.bound pattern) (hid : p.isIdentifier = true) (ha : s.scopeAt? i = some a)
    (hdeclared : kind = .declaration → s.IsDeclared p pattern) :
    s.Tells g n kind pattern
      ⟨if a.strict then { kind.use n pattern value p with candidate := none }
        else kind.use n pattern value p, i, v⟩ := by
  have hwhole := isWhole_eq hp hid
  cases kind with
  | declaration =>
      simp only [WriteKind.use, hwhole, ite_self]
      exact ⟨hw, hp, by simp, by simp, ⟨a, ha, by simp⟩, hdeclared⟩
  | assignment =>
      simp only [WriteKind.use, hwhole]
      cases hs : a.strict
      all_goals exact ⟨hw, hp, by simp, by simp, ⟨a, ha, by simp [hs]⟩, nofun⟩

/-- **Every reference tells the truth about its write**: what is written, to which part of a
pattern, whether a declaration initialises its variable so, and what the write makes where nothing
binds the name. -/
theorem analyze_provenance (h : analyze o tree = .ok s) :
    ∀ r ref, s.referenceAt? r = some ref → s.Traces (.ofOptions o) tree ref := by
  intro r ref href
  obtain ⟨u, a, ha, hl, hid, huse⟩ := analyze_cited h r ref href
  obtain ⟨k, hk, hl⟩ := mem_leaves_plan.1 hl
  refine ⟨k, hk, ?_⟩
  obtain ⟨use, scope, resolved⟩ := ref
  obtain rfl : use = _ := huse
  cases makes_of_mem hl with
  | read h => cases a.strict <;> exact ⟨rfl, rfl, rfl, rfl, rfl⟩
  | stepped h => cases a.strict <;> exact ⟨⟨rfl, rfl, rfl⟩, .inr ⟨h, rfl, rfl⟩⟩
  | amended h ho => cases a.strict <;> exact ⟨⟨rfl, rfl, rfl⟩, .inl ⟨h, ho, rfl, rfl⟩⟩
  | @written kind pattern value p hw hp =>
      have hid : p.isIdentifier = true := by cases kind <;> exact hid
      have htells := tells_of_writes (v := resolved) hw hp hid ha fun hkind =>
        isDeclared_of_writes h (hkind ▸ hw) hk hp hid
      cases kind <;> cases hs : a.strict <;> rw [hs] at htells <;> exact ⟨_, pattern, htells⟩

/-- `var [x] = y; z = 1; w += 2; for (v in u) ;` -/
def writingProgram : Tree :=
  let name (text : String) : Tree := .obj [("type", .str "Identifier"), ("name", .str text)]
  let literal (n : Int) : Tree := .obj [("type", .str "Literal"), ("value", .int n)]
  let assign (operator : String) (left right : Tree) : Tree :=
    .obj [("type", .str "ExpressionStatement"), ("expression",
      .obj [("type", .str "AssignmentExpression"), ("operator", .str operator), ("left", left),
        ("right", right)])]
  let declarator : Tree :=
    .obj [("type", .str "VariableDeclarator"),
      ("id", .obj [("type", .str "ArrayPattern"), ("elements", .arr [name "x"])]),
      ("init", name "y")]
  .obj [("type", .str "Program"), ("body", .arr [
    .obj [("type", .str "VariableDeclaration"), ("kind", .str "var"),
      ("declarations", .arr [declarator])],
    assign "=" (name "z") (literal 1), assign "+=" (name "w") (literal 2),
    .obj [("type", .str "ForInStatement"), ("left", name "v"), ("right", name "u"),
      ("body", .obj [("type", .str "EmptyStatement")])]])]

/-- Only the name in the pattern is written a part, and only the names that nothing declares may
make a variable. -/
theorem writingProgram_provenance : ∃ s, analyze {} writingProgram = .ok s ∧
    (∀ r ref, s.referenceAt? r = some ref → s.Traces (.ofOptions {}) writingProgram ref) ∧
    s.references.toList.map
        (fun ref => (ref.name, ref.access, ref.isPartial, ref.isInit, ref.candidate.isSome)) =
      [(.str "x", .write, .bool true, .bool false, false),
        (.str "y", .read, .bool false, .bool false, false),
        (.str "z", .write, .bool false, .bool false, true),
        (.str "w", .readWrite, .bool false, .bool false, false),
        (.str "v", .write, .bool false, .bool false, true),
        (.str "u", .read, .bool false, .bool false, false)] := by
  have hview : (analyze {} writingProgram).toOption.map (fun s => s.references.toList.map
      fun ref => (ref.name, ref.access, ref.isPartial, ref.isInit, ref.candidate.isSome)) =
        some [(.str "x", .write, .bool true, .bool false, false),
          (.str "y", .read, .bool false, .bool false, false),
          (.str "z", .write, .bool false, .bool false, true),
          (.str "w", .readWrite, .bool false, .bool false, false),
          (.str "v", .write, .bool false, .bool false, true),
          (.str "u", .read, .bool false, .bool false, false)] := by
    decide +kernel
  cases hs : analyze {} writingProgram with
  | error e =>
      rw [hs] at hview
      cases hview
  | ok s =>
      rw [hs] at hview
      exact ⟨s, rfl, analyze_provenance hs, Option.some.inj hview⟩

end LexScope
