import LexScope.Proofs.Iterations
import LexScope.Proofs.Optimism

/-!
# Proofs — DeadZone — names that cannot be used yet

An iteration with a lexical head has two scopes beside each other: a dead zone, which what it
iterates over is evaluated in, and a block for its head and its body (`Grammar.Zoned`).  Both bind
the names of the head.  Whatever stands in one of the two has it on its way up and not the other, as
two scopes on one way up are never of one depth; so nothing is resolved from the one to the other
(`Zoned.apart`).

A reference to a name of a dead zone is told in two ways: by the program, as one that stands in what
an iteration iterates over and whose name gets to the dead zone (`Store.IsPremature`), and by the
store, as one that is resolved to a variable of a dead zone (`Store.IsForbidden`).

* `Iterates.zoned`: which two scopes an iteration owns, in the order in which they are made.
* `Zoned.only`: a dead zone binds the names of its iteration and nothing else.
* `isPremature_iff`: **what is premature is what is forbidden.**
* `Finished.warns`: **what is forbidden is what is reported**, once each.
-/

namespace LexScope

open Walk

namespace Store

variable {s : Store} {i j : ScopeId} {a b : Scope} {n : Node} {d : Definition} {key : Name}
  {P : Tree → Prop} {r : ReferenceId} {ref : Reference} {v : VariableId} {var : Variable}

/-- Whether the variable of a name in a scope has a definition. -/
def Defines (s : Store) (i : ScopeId) (n : Node) (d : Definition) : Prop :=
  ∃ a key v var, s.scopeAt? i = some a ∧ Name.ofTree? (n.value.get "name") = some key ∧
    a.table.find? key = some v ∧ s.variableAt? v = some var ∧ d ∈ var.defs

/-- What is declared in a scope is in its table. -/
theorem Finished.find?_of_declared (h : s.Finished P) (ha : s.scopeAt? i = some a) {x : Variable}
    (he : (key, some x) ∈ s.declared i) :
    ∃ v var, a.table.find? key = some v ∧ s.variableAt? v = some var ∧ var.unused = x := by
  rw [declared_eq ha] at he
  obtain ⟨e, hmem, heq⟩ := List.mem_map.1 he
  obtain ⟨rfl, hunused⟩ := Prod.mk.inj heq
  obtain ⟨var, hvar, rfl⟩ := Option.map_eq_some_iff.1 hunused
  exact ⟨e.2, var, Table.find?_of_mem (h.distinct i a ha) (mem_declarations hmem).1, hvar, rfl⟩

/-- Where no variable is made for writes, what is in the table of a scope was declared. -/
theorem Finished.declared_of_find? (h : s.Finished P) (ha : s.scopeAt? i = some a)
    (hk : a.kind ≠ .global) (hf : a.table.find? key = some v) (hv : s.variableAt? v = some var) :
    (key, some var.unused) ∈ s.declared i := by
  rw [declared_eq ha, declarations_eq (h.bare i a ha hk)]
  exact List.mem_map.2 ⟨(key, v), Table.mem_of_find? hf, by rw [hv]; rfl⟩

/-- What a reference is resolved to is a variable of a scope on its way up. -/
theorem Finished.scope_mem_chain (h : s.Finished P) (href : s.referenceAt? r = some ref)
    (hv : ref.resolved = some v) (hvar : s.variableAt? v = some var) :
    var.scope ∈ s.chain ref.scope := by
  obtain ⟨l, i, rest, a, key, hl, -, -, ha, -, -, hf⟩ := (h.verdict r ref href).resolved v hv
  obtain ⟨rfl, -⟩ := h.sound.home ha hf hvar
  rw [hl]
  simp

end Store

namespace Grammar

open Store

variable {o : Options} {tree : Tree} {s : Store} {i j : ScopeId} {a b : Scope} {p q m : Part}
  {n k : Node} {d : Definition} {type : String} {r : ReferenceId} {ref : Reference}

/-- **What is bound at a part is bound in the scope** with those around it that the part says. -/
theorem defines_of_own (hc : Conforms tree) (h : analyze o tree = .ok s)
    (hp : p ∈ (program tree).parts) (hi : i < s.scopes.size)
    (hx : ⟨s.around i, .binds n d⟩ ∈ p.own (.ofOptions o)) (hn : n.isIdentifier = true) :
    s.Defines i n d := by
  have hfin := analyze_finished Tree.hereditary_true trivial h
  have hrec := analyze_records h
  obtain ⟨i', key, x, hi', haround, hkey, hdeclared, hd⟩ :=
    hrec.binds _ _ _ ((mem_sitesOf_iff hc hrec.fails).2 ⟨p, hp, hx⟩) hn
  obtain rfl := around_injective hc h hi' hi haround
  obtain ⟨a, ha⟩ := scopeAt?_of_lt hi
  obtain ⟨v, var, hf, hvar, rfl⟩ := hfin.find?_of_declared ha hdeclared
  exact ⟨a, key, v, var, ha, hkey, hf, hvar, hd⟩

/-- What stands at or below a part is used in the scope around the part or further in. -/
theorem mem_chain_of_part (hc : Conforms tree) (h : analyze o tree = .ok s)
    (hm : m ∈ (program tree).parts) (hi : i < s.scopes.size)
    (haround : s.around i = m.around (.ofOptions o)) (hr : s.referenceAt? r = some ref)
    (hbelow : m.node.AtOrBelow ref.identifier) : i ∈ s.chain ref.scope := by
  have hfin := analyze_finished Tree.hereditary_true trivial h
  have hs := hfin.sound
  obtain ⟨q, hq, hnode, hscope⟩ := reference_part hc h hr
  obtain ⟨path, hpath⟩ := hbelow
  have hqm : q ∈ m.parts := Part.mem_parts_of_prefix hq hm ⟨path, by rw [hnode, hpath]⟩
  obtain ⟨a, ha⟩ := scopeAt?_of_lt hi
  obtain ⟨c, hc'⟩ := around_head hs.rooted ha
  have hsuffix : ((a.kind, a.block) :: c) <:+ s.around ref.scope := by
    rw [← hc', haround, hscope]
    exact Part.around_suffix hqm
  have hhome : ref.scope < s.scopes.size := hfin.books.home r ref hr
  obtain ⟨i', hi', he⟩ := mem_chain_of_around hs.rooted hhome hsuffix
  obtain rfl := around_injective hc h ((le_of_mem_chain hs.rooted hi').trans_lt hhome) hi
    (he.trans hc'.symm)
  exact hi'

/-! ### The two scopes of an iteration -/

/-- An iteration with a lexical head and its scopes: what is iterated over is evaluated in the dead
zone, the rest in the turn, and both bind the names of the declarator of the head. -/
structure Zoned (g : Gates) (s : Store) (p : Part) (k : Node) (i j : ScopeId) : Prop where
  owned : s.owned p.node = [i, j]
  zone : s.around i = (.deadZone, p.node) :: p.around g
  turn : s.around j = (.block, p.node) :: p.around g
  pattern : ∃ ρ, Holds (.pattern ρ) (k.get "id")
  own : p.own g =
    ⟨p.around g, .opens .deadZone p.node⟩ ::
      binds (s.around i) (k.get "id") (declaratorDefinition .deadZone (p.node.get "left") (k, 0)) ++
    ⟨p.around g, .opens .block p.node⟩ ::
      binds (s.around j) (k.get "id") (declaratorDefinition .variable (p.node.get "left") (k, 0))

/-- The head of an iteration declares a pattern. -/
theorem Iterates.head (hit : Iterates p type) (hc : Conforms tree) (hp : p ∈ (program tree).parts)
    (hlex : isLexical (p.node.get "left") = true) :
    ∃ d ρ, ((p.node.get "left").get "declarations").items = [d] ∧
      Holds (.pattern ρ) (d.get "id") := by
  obtain ⟨hdecl, hkind⟩ := Bool.and_eq_true_iff.1 hlex
  obtain ⟨slots, hs, -⟩ := Part.isFormed_iff.1 (hc p hp)
  have hholds : Holds p.phrase p.node := ⟨p.above, Part.Conforms.of_mem hc hp⟩
  have hleft : Holds .head (p.node.get "left") := by
    have hslots := (Part.slots_eq hs).symm.trans hit.slots
    rw [hdecl, if_pos rfl] at hslots
    exact hholds.get hs (hslots ▸ List.mem_cons_self)
  obtain ⟨-, -, d, hd, hhead, -⟩ := hleft.head
  exact ⟨d, _, hd, hhead.headDeclarator⟩

/-- **An iteration with a lexical head owns two scopes**: its dead zone, and then its block. -/
theorem Iterates.zoned (hit : Iterates p type) (hc : Conforms tree) (h : analyze o tree = .ok s)
    (hp : p ∈ (program tree).parts) (hlex : isLexicalIteration (.ofOptions o) p.node = true) :
    ∃ i j k, ((p.node.get "left").get "declarations").items = [k] ∧
      Zoned (.ofOptions o) s p k i j := by
  have hrec := analyze_records h
  have hs := (analyze_finished Tree.hereditary_true trivial h).sound
  have hown := hit.own hlex
  have hperm := owned_perm hc h hp
  rw [hown, openings_lexicalIterationSites] at hperm
  have hsub : (openings (p.own (.ofOptions o))).Sublist ((s.owned p.node).map s.around) := by
    rw [map_around_owned hs.rooted, hrec.opens, hown, openings_lexicalIterationSites]
    have hopen : ⟨p.around (.ofOptions o), .opens .deadZone p.node⟩ ∈
        sitesOf [] (plan (.ofOptions o) (.root tree)) := by
      rw [mem_sitesOf_iff hc hrec.fails]
      exact ⟨p, hp, by rw [hown]; exact List.mem_cons_self⟩
    have hpair := (paired_plan (.ofOptions o) (.root tree)).later [] _ _ hit.isIteration hopen
    have hself : p.node.same p.node = true := decide_eq_true rfl
    simpa [Site.opened?, hself] using
      (hpair.filterMap Site.opened?).filter fun c => c.head?.any (·.2.same p.node)
  rw [hown, openings_lexicalIterationSites] at hsub
  obtain ⟨i, l, howned, hi, hl⟩ :=
    List.map_eq_cons_iff.1 (hsub.eq_of_length hperm.length_eq.symm).symm
  obtain ⟨j, l, rfl, hj, hl⟩ := List.map_eq_cons_iff.1 hl
  obtain rfl := List.map_eq_nil_iff.1 hl
  obtain ⟨k, ρ, hk, hpattern⟩ := hit.head hc hp (Bool.and_eq_true_iff.1 hlex).2
  refine ⟨i, j, k, hk, howned, hi, hj, ⟨ρ, hpattern⟩, ?_⟩
  rw [hown, lexicalIterationSites, declares, declares, hk, hi, hj]
  simp

/-- An iteration is not the whole program. -/
theorem Iterates.around_ne_nil (hit : Iterates p type) (hc : Conforms tree)
    (hp : p ∈ (program tree).parts) (g : Gates) : p.around g ≠ [] := by
  obtain ⟨t, ht, hmem, -⟩ := Holds.typeName? (φ := (program tree).phrase)
    (n := (program tree).node) ⟨[], hc⟩
  obtain rfl := List.mem_singleton.1 hmem
  rcases Part.mem_parts.1 hp with rfl | ⟨m, hm, hpm⟩
  · have hfamily := hit.family
    rw [← Option.some.inj (ht.symm.trans hit.typeName)] at hfamily
    cases hfamily
  · obtain ⟨slot, -, hst⟩ := Part.mem_below.1 hm
    have hscopes : scopes g (program tree).phrase (program tree).node slot.key ≠ [] := by
      show scopes g (.walked ["Program"]) (program tree).node slot.key ≠ []
      rw [scopes, ht, Option.map_some, Option.getD_some]
      show (if g.isModule then [ScopeKind.global, .moduleTop] else [.global]) ≠ []
      split <;> exact List.cons_ne_nil _ _
    intro hnil
    have hsuffix := Part.around_suffix (g := g) hpm
    rw [hnil, Part.around_standing hst] at hsuffix
    have hnone := List.suffix_nil.1 hsuffix
    simp only [inside, List.append_eq_nil_iff, List.map_eq_nil_iff, List.reverse_eq_nil_iff] at hnone
    exact hscopes hnone.1

namespace Zoned

variable {k : Node} (hz : Zoned (.ofOptions o) s p k i j)
include hz

theorem lt : i < s.scopes.size ∧ j < s.scopes.size := by
  have hlt : ∀ l ∈ s.owned p.node, l < s.scopes.size := fun l hl =>
    let ⟨_, ha, _⟩ := mem_owned_iff.1 hl
    scopeAt?_lt ha
  rw [hz.owned] at hlt
  exact ⟨hlt i (by simp), hlt j (by simp)⟩

variable (hc : Conforms tree) (h : analyze o tree = .ok s)
include hc h

/-- The two scopes of an iteration are beside each other. -/
theorem beside : ∃ a b, s.scopeAt? i = some a ∧ s.scopeAt? j = some b ∧
    a.kind = .deadZone ∧ b.kind = .block ∧ b.upper = a.upper := by
  have hs := (analyze_finished Tree.hereditary_true trivial h).sound
  obtain ⟨a, ha, hkind, -, hup⟩ := scope_of_around hs.rooted hz.lt.1 hz.zone
  obtain ⟨b, hb, hkind', -, hup'⟩ := scope_of_around hs.rooted hz.lt.2 hz.turn
  refine ⟨a, b, ha, hb, hkind, hkind', ?_⟩
  have hupper : ∀ {k e}, s.scopeAt? k = some e → ∀ u, e.upper = some u → u < s.scopes.size :=
    fun he u hu => (hs.rooted _ u ((upperOf_eq he).trans hu)).trans (scopeAt?_lt he)
  exact aroundOf_injective hc h (hupper hb) (hupper ha) (hup'.trans hup.symm)

/-- What stands in one of the two scopes of an iteration is used there, and is never resolved to a
variable of the other. -/
theorem apart (hm : m ∈ (program tree).parts) {l l' : ScopeId}
    (hl : l = i ∧ l' = j ∨ l = j ∧ l' = i) (haround : m.around (.ofOptions o) = s.around l)
    (hr : s.referenceAt? r = some ref) (hbelow : m.node.AtOrBelow ref.identifier) :
    l ∈ s.chain ref.scope ∧ ∀ v var, ref.resolved = some v → s.variableAt? v = some var →
      var.scope ≠ l' := by
  have hfin := analyze_finished Tree.hereditary_true trivial h
  have hs := hfin.sound.rooted
  have hlt : l < s.scopes.size ∧ l' < s.scopes.size := by
    rcases hl with ⟨rfl, rfl⟩ | ⟨rfl, rfl⟩
    · exact hz.lt
    · exact hz.lt.symm
  have hchain := mem_chain_of_part hc h hm hlt.1 haround.symm hr hbelow
  refine ⟨hchain, fun v var hv hvar hscope => ?_⟩
  -- Two scopes on one way up that are beside each other are one; but these are of two kinds.
  have hlength : (s.chain l).length = (s.chain l').length := by
    rw [← length_around hs hlt.1, ← length_around hs hlt.2]
    rcases hl with ⟨rfl, rfl⟩ | ⟨rfl, rfl⟩ <;> rw [hz.zone, hz.turn] <;> rfl
  have heq := eq_of_length hs hchain (hscope ▸ hfin.scope_mem_chain hr hv hvar) hlength
  have hzone := hz.zone
  rcases hl with ⟨rfl, rfl⟩ | ⟨rfl, rfl⟩
  · rw [heq, hz.turn] at hzone
    cases hzone
  · rw [← heq, hz.turn] at hzone
    cases hzone

variable (hp : p ∈ (program tree).parts)
include hp

/-- Both scopes of an iteration bind the names of its head. -/
theorem defines (hn : n ∈ Pattern.bound (k.get "id")) :
    s.Defines i n (declaratorDefinition .deadZone (p.node.get "left") (k, 0) n) ∧
      s.Defines j n (declaratorDefinition .variable (p.node.get "left") (k, 0) n) := by
  obtain ⟨ρ, hpattern⟩ := hz.pattern
  have hid := isIdentifier_of_bound hpattern hn
  refine ⟨defines_of_own hc h hp hz.lt.1 ?_ hid, defines_of_own hc h hp hz.lt.2 ?_ hid⟩
  · rw [hz.own]
    exact List.mem_append_left _ (List.mem_cons_of_mem _ (List.mem_map_of_mem hn))
  · rw [hz.own]
    exact List.mem_append_right _ (List.mem_cons_of_mem _ (List.mem_map_of_mem hn))

/-- The dead zone of an iteration binds nothing but the names of its head. -/
theorem only (hit : Iterates p type) {key : Name} {v : VariableId} {var : Variable}
    (ha : s.scopeAt? i = some a) (hf : a.table.find? key = some v)
    (hvar : s.variableAt? v = some var) :
    var.defs ≠ [] ∧ ∀ d ∈ var.defs, ∃ n ∈ Pattern.bound (k.get "id"),
      d = declaratorDefinition .deadZone (p.node.get "left") (k, 0) n ∧
        Name.ofTree? (n.value.get "name") = some key := by
  have hfin := analyze_finished Tree.hereditary_true trivial h
  have hrec := analyze_records h
  obtain ⟨a', ha', hkind, -, hup⟩ := scope_of_around hfin.sound.rooted hz.lt.1 hz.zone
  obtain rfl := Option.some.inj (ha.symm.trans ha')
  have hplain : Scope.IsPlain i a := by
    refine ⟨hrec.hoisting.lent i a ha (by rw [hkind]; rfl) ?_, by rw [hkind]; nofun⟩
    cases hu : a.upper with
    | some u => rfl
    | none =>
        rw [hu] at hup
        exact absurd hup.symm (hit.around_ne_nil hc hp _)
  obtain ⟨x, hx, hne, hdefs⟩ := hrec.declared i a ha hplain _
    (hfin.declared_of_find? ha (by rw [hkind]; nofun) hf hvar)
  cases hx
  refine ⟨hne, fun d hd => ?_⟩
  obtain ⟨n, hsite, -, hname⟩ := hdefs d hd
  obtain ⟨q, hq, hown⟩ := (mem_sitesOf_iff hc hrec.fails).1 hsite
  obtain rfl : p = q := (hc.binds_deadZone hp hq (hz.zone ▸ hown)).symm
  rw [hz.own] at hown
  rcases List.mem_append.1 hown with hown | hown <;> rcases List.mem_cons.1 hown with he | hown
  · cases congrArg Site.deed he
  · obtain ⟨m, hm, he⟩ := List.mem_map.1 hown
    obtain ⟨rfl, rfl⟩ := Deed.binds.inj (congrArg Site.deed he)
    exact ⟨m, hm, rfl, hname⟩
  · cases congrArg Site.deed he
  · obtain ⟨m, -, he⟩ := List.mem_map.1 hown
    have haround : s.around j = s.around i := congrArg Site.around he
    rw [hz.zone, hz.turn] at haround
    cases haround

end Zoned

end Grammar

/-! ### References to names that cannot be used yet -/

open Grammar

/-- Whether a node of a program is an iteration with a lexical head. -/
structure Tree.IsLexicalIteration (tree : Tree) (n : Node) : Prop where
  reached : Relation.ReflTransGen (fun a b : Node => b ∈ a.children) (.root tree) n
  isIteration : isIteration n = true
  isLexical : isLexical (n.get "left") = true

namespace Store

variable {o : Options} {tree : Tree} {s : Store} {i : ScopeId} {a : Scope} {r : ReferenceId}
  {ref : Reference} {v : VariableId} {var : Variable}

/-- Whether a reference is to a name of an iteration that it is part of what is iterated over of:
looking the name up gets to the dead zone, which binds it. -/
def IsPremature (tree : Tree) (s : Store) (r : ReferenceId) : Prop :=
  ∃ n i a ref key, tree.IsLexicalIteration n ∧ (s.owned n).head? = some i ∧
    s.scopeAt? i = some a ∧ a.isBarrier s.options = false ∧ key ∈ a.table.names ∧
    s.referenceAt? r = some ref ∧ (n.get "right").AtOrBelow ref.identifier ∧
    Name.ofTree? ref.name = some key ∧ s.reaches i key ref.scope = true

/-- Whether a reference is resolved to a variable of a dead zone. -/
def IsForbidden (s : Store) (r : ReferenceId) : Prop :=
  ∃ ref v var a, s.referenceAt? r = some ref ∧ ref.resolved = some v ∧
    s.variableAt? v = some var ∧ s.scopeAt? var.scope = some a ∧ a.kind = .deadZone

/-- Whether an issue reports that a reference is to a name that cannot be used yet. -/
def Warns (s : Store) (r : ReferenceId) (issue : Issue) : Prop :=
  ∃ ref name, s.referenceAt? r = some ref ∧ issue.finding = .deadZoneReference name ∧
    Name.ofTree? name = Name.ofTree? ref.name ∧ ref.identifier.position? = some issue.position

/-- The references to variables of dead zones, in the order in which they are reported. -/
def forbidden (s : Store) : List ReferenceId :=
  s.scopes.toList.flatMap fun a =>
    if a.kind = .deadZone then a.table.entries.flatMap s.linksOf else []

variable {P : Tree → Prop} {issues : List Issue} {undeclared : Bool}

theorem Finished.mem_forbidden_iff (h : s.Finished P) : r ∈ s.forbidden ↔ s.IsForbidden r := by
  rw [forbidden, List.mem_flatMap]
  constructor
  · rintro ⟨a, ha, hr⟩
    split at hr
    · obtain ⟨v, hv, hlink⟩ := List.mem_flatMap.1 hr
      obtain ⟨e, he, rfl⟩ := List.mem_map.1 hv
      obtain ⟨i, hi, rfl⟩ := List.mem_iff_getElem.1 ha
      have hscope : s.scopeAt? i = some s.scopes.toList[i] := by simp [scopeAt?]
      obtain ⟨ref, href, hresolved⟩ := h.books.of_mem_linksOf hlink
      obtain ⟨var, hvar, rfl, -⟩ := h.sound.table i _ e.1 e.2 hscope he
      exact ⟨ref, e.2, var, _, href, hresolved, hvar, hscope, ‹_›⟩
    · cases hr
  · rintro ⟨ref, v, var, a, hr, hv, hvar, ha, hkind⟩
    obtain ⟨l, i, rest, b, key, -, -, -, hb, -, -, hf⟩ := (h.verdict r ref hr).resolved v hv
    obtain ⟨rfl, -⟩ := h.sound.home hb hf hvar
    obtain rfl := Option.some.inj (ha.symm.trans hb)
    refine ⟨a, Array.mem_toList_iff.2 (Array.mem_of_getElem? ha), ?_⟩
    rw [if_pos hkind]
    exact List.mem_flatMap.2 ⟨v, List.mem_map.2 ⟨_, Table.mem_of_find? hf, rfl⟩,
      (h.books.mem_linksOf_iff hr).2 hv⟩

/-- A reference is resolved to one variable. -/
theorem Finished.disjoint_linksOf (h : s.Finished P) {v w : VariableId} (hne : v ≠ w) :
    List.Disjoint (s.linksOf v) (s.linksOf w) := fun r hv hw => by
  obtain ⟨ref, href, hresolved⟩ := h.books.of_mem_linksOf hv
  exact hne (Option.some.inj (hresolved.symm.trans ((h.books.mem_linksOf_iff href).1 hw)))

/-- No reference is resolved to two variables of a scope. -/
theorem Finished.nodup_links (h : s.Finished P) (ha : s.scopeAt? i = some a) :
    (a.table.entries.flatMap s.linksOf).Nodup := by
  refine List.nodup_flatMap.2 ⟨fun v _ => h.books.nodup_linksOf v, ?_⟩
  have hentries : a.table.Pairwise fun e e' => e.2 ≠ e'.2 := by
    refine List.Pairwise.imp_of_mem (fun {e e'} he he' hne heq => ?_)
      (List.pairwise_map.1 (h.distinct i a ha))
    obtain ⟨x, hx, -, hname⟩ := h.sound.table i a e.1 e.2 ha he
    obtain ⟨y, hy, -, hname'⟩ := h.sound.table i a e'.1 e'.2 ha he'
    rw [heq, hy] at hx
    rw [← Option.some.inj hx, hname'] at hname
    exact hne (Option.some.inj hname).symm
  exact List.pairwise_map.2 (hentries.imp h.disjoint_linksOf)

theorem Finished.nodup_forbidden (h : s.Finished P) : s.forbidden.Nodup := by
  have hscope : ∀ i (hi : i < s.scopes.toList.length), s.scopeAt? i = some s.scopes.toList[i] :=
    fun i hi => by simp [scopeAt?]
  refine List.nodup_flatMap.2 ⟨fun a ha => ?_,
    List.pairwise_iff_getElem.2 fun i j hi hj hij r hr hr' => ?_⟩
  · obtain ⟨i, hi, rfl⟩ := List.mem_iff_getElem.1 ha
    split
    · exact h.nodup_links (hscope i hi)
    · exact List.nodup_nil
  · -- What a reference is resolved to is in one scope.
    have hhome : ∀ {k} (hk : k < s.scopes.toList.length),
        r ∈ (if s.scopes.toList[k].kind = .deadZone then
          s.scopes.toList[k].table.entries.flatMap s.linksOf else []) →
        ∃ ref v var, s.referenceAt? r = some ref ∧ ref.resolved = some v ∧
          s.variableAt? v = some var ∧ var.scope = k := fun {k} hk hr => by
      split at hr
      · obtain ⟨v, hv, hlink⟩ := List.mem_flatMap.1 hr
        obtain ⟨e, he, rfl⟩ := List.mem_map.1 hv
        obtain ⟨ref, href, hresolved⟩ := h.books.of_mem_linksOf hlink
        obtain ⟨var, hvar, hvs, -⟩ := h.sound.table k _ e.1 e.2 (hscope k hk) he
        exact ⟨ref, e.2, var, href, hresolved, hvar, hvs⟩
      · cases hr
    obtain ⟨ref, v, var, href, hv, hvar, rfl⟩ := hhome hi hr
    obtain ⟨ref', v', var', href', hv', hvar', rfl⟩ := hhome hj hr'
    obtain rfl := Option.some.inj (href.symm.trans href')
    obtain rfl := Option.some.inj (hv.symm.trans hv')
    obtain rfl := Option.some.inj (hvar.symm.trans hvar')
    exact Nat.lt_irrefl _ hij

/-- What is reported for a variable of a dead zone. -/
theorem Finished.warns_variable (h : s.Finished P) (hvar : s.variableAt? v = some var)
    (hi : s.issuesOf? (.deadZoneReference var.name) var.references = some issues) :
    List.Forall₂ s.Warns (s.linksOf v) issues := by
  have hname : ∀ r ∈ s.linksOf v, ∃ ref, s.referenceAt? r = some ref ∧
      Name.ofTree? var.name = Name.ofTree? ref.name := fun r hr => by
    obtain ⟨ref, href, hresolved⟩ := h.books.of_mem_linksOf hr
    obtain ⟨var', hvar', -, key, hkey, hkey'⟩ :=
      (h.books.account_of_resolved href hresolved).bound v rfl
    rw [← Option.some.inj (hvar.symm.trans hvar')] at hkey
    exact ⟨ref, href, hkey.trans hkey'.symm⟩
  rw [show s.linksOf v = var.references by rw [linksOf, hvar]; rfl] at hname ⊢
  replace hi := forall₂_of_mapM hi
  generalize var.references = rs at hname hi
  induction rs generalizing issues with
  | nil =>
      rw [List.forall₂_nil_left_iff.1 hi]
      exact .nil
  | cons r rs ih =>
      obtain ⟨ref, href, hkey⟩ := hname r List.mem_cons_self
      rw [List.filterMap_cons_some href] at hi
      obtain ⟨issue, rest, hat, hrest, rfl⟩ := List.forall₂_cons_left_iff.1 hi
      obtain ⟨hfinding, hposition⟩ := Finding.at?_eq_some hat
      exact .cons ⟨ref, var.name, href, hfinding, hkey, hposition⟩
        (ih (fun r' hr' => hname r' (List.mem_cons_of_mem r hr')) hrest)

/-- What is reported for a dead zone. -/
theorem Finished.warns_zone (h : s.Finished P) (ha : s.scopeAt? i = some a)
    (hi : s.deadZoneIssues? a = some issues) :
    List.Forall₂ s.Warns (a.table.entries.flatMap s.linksOf) issues := by
  obtain ⟨found, hf, hfound⟩ := Option.bind_eq_some_iff.1 hi
  obtain rfl : found.flatten = issues := Option.some.inj hfound
  rw [List.flatMap_def]
  refine List.rel_flatten ?_
  rw [List.forall₂_map_left_iff]
  have hentries : ∀ v ∈ a.table.entries, ∃ var, s.variableAt? v = some var := fun v hv => by
    obtain ⟨e, he, rfl⟩ := List.mem_map.1 hv
    obtain ⟨var, hvar, -⟩ := h.sound.table i a e.1 e.2 ha he
    exact ⟨var, hvar⟩
  replace hf := forall₂_of_mapM hf
  generalize a.table.entries = vs at hentries hf
  clear hi hfound
  induction vs generalizing found with
  | nil =>
      rw [List.forall₂_nil_left_iff.1 hf]
      exact .nil
  | cons v vs ih =>
      obtain ⟨var, hvar⟩ := hentries v List.mem_cons_self
      rw [List.filterMap_cons_some hvar] at hf
      obtain ⟨is, rest, his, hrest, rfl⟩ := List.forall₂_cons_left_iff.1 hf
      exact .cons (h.warns_variable hvar his)
        (ih rest (fun w hw => hentries w (List.mem_cons_of_mem v hw)) hrest)

/-- **The references that are reported are those to variables of dead zones**, in order. -/
theorem Finished.warns (h : s.Finished P) (hi : s.issues? undeclared = some issues) :
    List.Forall₂ s.Warns s.forbidden (issues.filter (·.finding.isDeadZone)) := by
  obtain ⟨found, hfound, hissues⟩ := issues?_deadZone hi
  rw [hissues, forbidden, List.flatMap_def]
  refine List.rel_flatten ?_
  rw [List.forall₂_map_left_iff]
  have hscopes : ∀ a ∈ s.scopes.toList, ∃ i, s.scopeAt? i = some a := fun a ha => by
    obtain ⟨i, hi, rfl⟩ := List.mem_iff_getElem.1 ha
    exact ⟨i, by simp [scopeAt?]⟩
  clear hissues
  generalize s.scopes.toList = scopes at hfound hscopes
  induction hfound with
  | nil => exact .nil
  | @cons a is scopes found his _ ih =>
      refine .cons ?_ (ih fun b hb => hscopes b (List.mem_cons_of_mem a hb))
      obtain ⟨i, ha⟩ := hscopes a List.mem_cons_self
      by_cases hk : a.kind = .deadZone
      · rw [if_pos hk] at his ⊢
        exact h.warns_zone ha his
      · rw [if_neg hk] at his ⊢
        cases his
        exact .nil

/-- Where positions can be read, the identifiers that variables were made for can be listed. -/
theorem Finished.implicitIssues? (h : s.Finished P) (hr : s.Readable) (ha : s.scopeAt? i = some a) :
    (s.implicitIssues? a).isSome = true := by
  obtain ⟨found, hf⟩ := Option.isSome_iff_exists.1 (mapM_isSome
    (l := a.implicit.entries.filterMap s.variableAt?)
    (f := fun v => v.identifiers.mapM (Finding.implicitGlobal v.name).at?) fun var hvar => by
      obtain ⟨v, hv, hvar⟩ := List.mem_filterMap.1 hvar
      obtain ⟨e, he, rfl⟩ := List.mem_map.1 hv
      have hk : a.kind = .global := by
        by_contra hk
        rw [h.bare i a ha hk] at he
        cases he
      have hnodup := (h.globals i a ha hk).2.1
      obtain ⟨var', hvar', -, hmade⟩ := h.identifiers ⟨a, ha, hk, Table.find?_of_mem hnodup he⟩
      obtain rfl := Option.some.inj (hvar.symm.trans hvar')
      refine mapM_isSome fun n hn => Finding.at?_isSome ?_
      obtain ⟨r, -, c, hc, rfl⟩ := (hmade n).1 hn
      obtain ⟨ref, href, hc⟩ := Option.bind_eq_some_iff.1 hc
      rw [((h.sourced.reference r ref href).2.2 c hc).1]
      exact (hr.reference r ref href).1)
  rw [Store.implicitIssues?, hf]
  rfl

/-- Where positions and names can be read, the issues of a finished store can be listed. -/
theorem Finished.listed (h : s.Finished P) (hr : s.Readable) :
    (s.issues? undeclared).isSome = true := by
  cases hg : s.global.bind s.scopeAt? with
  | none =>
      have hfound : (s.scopes.toList.mapM s.scopeIssues?).isSome = true :=
        mapM_isSome fun b hb => by
          obtain ⟨i, hi, rfl⟩ := List.mem_iff_getElem.1 hb
          exact hr.scopeIssues? (i := i) (by simp [scopeAt?])
      obtain ⟨found, hfound⟩ := Option.isSome_iff_exists.1 hfound
      rw [issues?, hg, hfound]
      rfl
  | some a =>
      obtain ⟨i, -, ha⟩ := Option.bind_eq_some_iff.1 hg
      exact hr.issues? hg (h.implicitIssues? hr ha)

end Store

namespace Grammar

open Store

variable {o : Options} {tree : Tree} {s : Store} {n : Node} {r : ReferenceId}

/-- An iteration with a lexical head is a part of the program. -/
theorem Conforms.lexicalIteration (hc : Conforms tree) (hv : 6 ≤ o.ecmaVersion)
    (hn : tree.IsLexicalIteration n) : ∃ p ∈ (program tree).parts, ∃ type, p.node = n ∧
      Iterates p type ∧ isLexicalIteration (.ofOptions o) p.node = true := by
  obtain ⟨p, hp, rfl⟩ := Part.Conforms.covers hc hn.reached
  obtain ⟨type, hit⟩ := hc.iterates hp hn.isIteration
  refine ⟨p, hp, type, rfl, hit, Bool.and_eq_true_iff.2 ⟨?_, hn.isLexical⟩⟩
  exact decide_eq_true hv

/-- **A reference is resolved to a name of a dead zone exactly if it is premature.** -/
theorem isPremature_iff (hc : Conforms tree) (hv : 6 ≤ o.ecmaVersion) (h : analyze o tree = .ok s) :
    s.IsPremature tree r ↔ s.IsForbidden r := by
  have hfin := analyze_finished Tree.hereditary_true trivial h
  have hs := hfin.sound.rooted
  constructor
  · rintro ⟨n, i, a, ref, key, hn, hi, ha, hbar, hkey, hr, -, hname, hreach⟩
    obtain ⟨p, hp, type, rfl, hit, hlex⟩ := hc.lexicalIteration hv hn
    obtain ⟨i', j, k, -, hz⟩ := hit.zoned hc h hp hlex
    obtain rfl : i' = i := by rw [hz.owned] at hi; exact Option.some.inj hi
    obtain ⟨a', ha', hkind, -⟩ := scope_of_around hs hz.lt.1 hz.zone
    obtain rfl := Option.some.inj (ha.symm.trans ha')
    obtain ⟨v, hf⟩ := Table.mem_names_iff.1 hkey
    obtain ⟨var, hvar, hscope, -⟩ := hfin.sound.of_find? ha hf
    obtain ⟨l, hl, hclear⟩ := (reaches_iff hs).1 hreach
    have hsplit : s.chain ref.scope = l ++ i' :: s.above i' := by rw [hl, chain_cons hs i']
    exact ⟨ref, v, var, a, hr, hfin.resolved hr hname hsplit hclear ha hbar hf, hvar,
      hscope ▸ ha, hkind⟩
  · rintro ⟨ref, v, var, a, hr, hresolved, hvar, ha, hkind⟩
    obtain ⟨l, i, rest, a', key, hl, hclear, -, ha', hbar, hname, hf⟩ :=
      (hfin.verdict r ref hr).resolved v hresolved
    obtain ⟨rfl, -⟩ := hfin.sound.home ha' hf hvar
    obtain rfl := Option.some.inj (ha.symm.trans ha')
    -- The part that the reference is the use of is in the dead zone.
    obtain ⟨q, hq, hnode, haround⟩ := reference_part hc h hr
    obtain ⟨c, hzone⟩ := around_head hs ha
    have hchain : var.scope ∈ s.chain ref.scope := by rw [hl]; simp
    have hmem : (.deadZone, a.block) ∈ q.around (.ofOptions o) := by
      rw [← haround, ← hkind]
      exact (around_suffix hs hchain).subset (hzone ▸ List.mem_cons_self)
    obtain ⟨p, hp, type, hblock, hit, hlex, hqm⟩ := hc.of_deadZone hq hmem
    obtain ⟨i, j, k, -, hz⟩ := hit.zoned hc h hp hlex
    -- Of the two scopes of the iteration, this is the dead zone.
    have howned : var.scope ∈ s.owned p.node :=
      mem_owned_iff.2 ⟨a, ha, by rw [hblock]; exact decide_eq_true rfl⟩
    obtain rfl : var.scope = i := by
      rw [hz.owned] at howned
      rcases List.mem_pair.1 howned with he | he
      · exact he
      · obtain ⟨b, hb, hkind', -⟩ := scope_of_around hs hz.lt.2 hz.turn
        rw [he, hb] at ha
        rw [← Option.some.inj ha, hkind'] at hkind
        cases hkind
    refine ⟨p.node, var.scope, a, ref, key, ?_, by rw [hz.owned]; rfl, ha, hbar,
      Table.mem_names_iff.2 ⟨v, hf⟩, hr, ?_, hname, (reaches_iff hs).2 ⟨l, ?_, ?_⟩⟩
    · exact ⟨Part.Conforms.reaches hc hp, hit.isIteration, (Bool.and_eq_true_iff.1 hlex).2⟩
    · obtain ⟨path, hpath⟩ := Part.prefix_of_mem_parts hqm
      exact ⟨path, by rw [← hnode]; exact hpath.symm⟩
    · rw [hl, chain_of_split hs hl]
    · exact hname ▸ hclear.mono fun _ _ => trivial

end Grammar

namespace Store

/-- Whether what stands at or below a node is used in one scope or further in, and never resolved to
a variable of another. -/
def Keeps (s : Store) (n : Node) (i j : ScopeId) : Prop :=
  ∀ r ref, s.referenceAt? r = some ref → n.AtOrBelow ref.identifier →
    i ∈ s.chain ref.scope ∧
      ∀ v var, ref.resolved = some v → s.variableAt? v = some var → var.scope ≠ j

/-- Whether an iteration with a lexical head that declares a pattern has two scopes beside each
other: a dead zone, in which it finds what it iterates over and which binds the names of the pattern
and nothing else, and a block for its head and its body, which binds them, too. -/
structure Isolates (s : Store) (n pattern : Node) (i j : ScopeId) : Prop where
  owned : s.owned n = [i, j]
  beside : ∃ a b, s.scopeAt? i = some a ∧ s.scopeAt? j = some b ∧
    a.kind = .deadZone ∧ b.kind = .block ∧ b.upper = a.upper
  names : ∀ a, s.scopeAt? i = some a → ∀ key, key ∈ a.table.names ↔
    ∃ m ∈ Pattern.bound pattern, Name.ofTree? (m.value.get "name") = some key
  zone : ∀ m ∈ Pattern.bound pattern, ∃ d, s.Defines i m d ∧ d.kind = .deadZone ∧ d.name = m
  only : ∀ a key v var, s.scopeAt? i = some a → a.table.find? key = some v →
    s.variableAt? v = some var → var.defs ≠ [] ∧
      ∀ d ∈ var.defs, d.kind = .deadZone ∧ d.name ∈ Pattern.bound pattern
  turn : ∀ m ∈ Pattern.bound pattern, ∃ d, s.Defines j m d ∧ d.kind = .variable ∧ d.name = m
  iterated : s.Keeps (n.get "right") i j
  head : s.Keeps (n.get "left") j i
  body : s.Keeps (n.get "body") j i

end Store

namespace Grammar

open Store

variable {o : Options} {tree : Tree} {s : Store} {i j : ScopeId} {p : Part} {k : Node}
  {type : String}

/-- The two scopes of an iteration with a lexical head are kept apart. -/
theorem Zoned.isolates (hz : Zoned (.ofOptions o) s p k i j) (hit : Iterates p type)
    (hlex : isLexicalIteration (.ofOptions o) p.node = true) (hc : Conforms tree)
    (h : analyze o tree = .ok s) (hp : p ∈ (program tree).parts) :
    s.Isolates p.node (k.get "id") i j := by
  have hfin := analyze_finished Tree.hereditary_true trivial h
  have hkeeps : ∀ {m : Part} {l l' : ScopeId}, m ∈ p.parts → (l = i ∧ l' = j ∨ l = j ∧ l' = i) →
      m.around (.ofOptions o) = s.around l → s.Keeps m.node l l' :=
    fun hm hl haround r ref hr hbelow =>
      hz.apart hc h (Part.parts_trans hp hm) hl haround hr hbelow
  refine
    { owned := hz.owned
      beside := hz.beside hc h
      names := fun a ha key => ⟨fun hkey => ?_, ?_⟩
      zone := fun m hm => ⟨_, (hz.defines hc h hp hm).1, rfl, rfl⟩
      only := fun a key v var ha hf hvar => ?_
      turn := fun m hm => ⟨_, (hz.defines hc h hp hm).2, rfl, rfl⟩
      iterated := ?_
      head := ?_
      body := ?_ }
  · obtain ⟨v, hf⟩ := Table.mem_names_iff.1 hkey
    obtain ⟨var, hvar, -⟩ := hfin.sound.of_find? ha hf
    obtain ⟨hne, honly⟩ := hz.only hc h hp hit ha hf hvar
    obtain ⟨d, hd⟩ := List.exists_mem_of_ne_nil _ hne
    obtain ⟨m, hm, -, hname⟩ := honly d hd
    exact ⟨m, hm, hname⟩
  · rintro ⟨m, hm, hname⟩
    obtain ⟨a', key', v, -, ha', hname', hf, -⟩ := (hz.defines hc h hp hm).1
    obtain rfl := Option.some.inj (ha.symm.trans ha')
    obtain rfl := Option.some.inj (hname.symm.trans hname')
    exact Table.mem_names_iff.2 ⟨v, hf⟩
  · obtain ⟨hne, honly⟩ := hz.only hc h hp hit ha hf hvar
    refine ⟨hne, fun d hd => ?_⟩
    obtain ⟨m, hm, rfl, -⟩ := honly d hd
    exact ⟨rfl, hm⟩
  · exact hkeeps (Part.member_mem_parts hit.right_mem_slots) (.inl ⟨rfl, rfl⟩)
      ((hit.around_member hlex _ _).trans hz.zone.symm)
  · obtain ⟨m, hm, hnode, haround⟩ := hit.turn hlex (.inl rfl)
    exact hnode ▸ hkeeps hm (.inr ⟨rfl, rfl⟩) (haround.trans hz.turn.symm)
  · obtain ⟨m, hm, hnode, haround⟩ := hit.turn hlex (.inr rfl)
    exact hnode ▸ hkeeps hm (.inr ⟨rfl, rfl⟩) (haround.trans hz.turn.symm)

end Grammar

/-- **A name in the head of an iteration cannot be used in what is iterated over.**  In the store
that an analysis of a conforming tree returns, from the sixth edition on, every iteration with a
lexical head has two scopes of its own that are kept apart (`Store.Isolates`).  What is reported as
a use of a name of a dead zone is each reference in what an iteration iterates over that is to a
name of its head, once, and these are the references that are resolved to variables of dead
zones. -/
theorem analyze_deadZone {o : Options} {tree : Tree} {s : Store} (hc : Grammar.Conforms tree)
    (hv : 6 ≤ o.ecmaVersion) (h : analyze o tree = .ok s) :
    (∀ n, tree.IsLexicalIteration n → ∃ k, ((n.get "left").get "declarations").items = [k] ∧
      ∃ i j, s.Isolates n (k.get "id") i j) ∧
    (∀ undeclared issues, s.issues? undeclared = some issues → ∃ rs : List ReferenceId,
      rs.Nodup ∧ (∀ r, r ∈ rs ↔ s.IsPremature tree r) ∧
      List.Forall₂ s.Warns rs (issues.filter (·.finding.isDeadZone))) ∧
    (∀ r, s.IsPremature tree r ↔ s.IsForbidden r) ∧
    (s.Readable → ∀ undeclared, (s.issues? undeclared).isSome = true) := by
  have hfin := analyze_finished Tree.hereditary_true trivial h
  refine ⟨fun n hn => ?_, fun undeclared issues hi => ?_, fun r => Grammar.isPremature_iff hc hv h,
    fun hr undeclared => hfin.listed hr⟩
  · obtain ⟨p, hp, type, rfl, hit, hlex⟩ := hc.lexicalIteration hv hn
    obtain ⟨i, j, k, hk, hz⟩ := hit.zoned hc h hp hlex
    exact ⟨k, hk, i, j, hz.isolates hit hlex hc h hp⟩
  · exact ⟨s.forbidden, hfin.nodup_forbidden,
      fun r => hfin.mem_forbidden_iff.trans (Grammar.isPremature_iff hc hv h).symm, hfin.warns hi⟩

/-- `for (let x of x) x`. -/
def prematureProgram : Tree :=
  let x : Tree := .obj [("type", .str "Identifier"), ("name", .str "x")]
  .obj [("type", .str "Program"), ("body", .arr [
    .obj [("type", .str "ForOfStatement"),
      ("left", .obj [("type", .str "VariableDeclaration"), ("kind", .str "let"),
        ("declarations", .arr [
          .obj [("type", .str "VariableDeclarator"), ("id", x), ("init", .null)]])]),
      ("right", x),
      ("body", .obj [("type", .str "ExpressionStatement"), ("expression", x)])]])]

/-- The sample has one statement, an iteration that is kept apart, and of its references only the
first, in what is iterated over, is premature; that is what is reported. -/
theorem prematureProgram_deadZone : Grammar.Conforms prematureProgram ∧
    (6 : Int) ≤ ({} : Options).ecmaVersion ∧ ∃ n s i j pattern issues,
      (Node.root prematureProgram).children = [n] ∧ prematureProgram.IsLexicalIteration n ∧
      analyze {} prematureProgram = .ok s ∧ s.references.size = 3 ∧ s.Isolates n pattern i j ∧
      s.issues? false = some issues ∧
      (∀ r, s.IsPremature prematureProgram r ↔ r = 0) ∧
      List.Forall₂ s.Warns [0] (issues.filter (·.finding.isDeadZone)) := by
  have hconforms : Grammar.Conforms prematureProgram := by decide +kernel
  have hversion : (6 : Int) ≤ ({} : Options).ecmaVersion := by decide
  obtain ⟨n, hn⟩ : ∃ n, (Node.root prematureProgram).children = [n] := ⟨_, rfl⟩
  have hiteration : prematureProgram.IsLexicalIteration n := by
    refine ⟨.single (hn ▸ List.mem_cons_self), ?_, ?_⟩ <;> cases hn <;> decide +kernel
  have hview : (analyze {} prematureProgram).toOption.map (fun s =>
      (s.references.size, s.forbidden, (s.issues? false).isSome)) = some (3, [0], true) := by
    decide +kernel
  cases hs : analyze {} prematureProgram with
  | error e => rw [hs] at hview; cases hview
  | ok s =>
      rw [hs] at hview
      obtain ⟨hsize, hview⟩ := Prod.mk.inj (Option.some.inj hview)
      obtain ⟨hforbidden, hlisted⟩ := Prod.mk.inj hview
      obtain ⟨issues, hissues⟩ := Option.isSome_iff_exists.1 hlisted
      obtain ⟨hisolates, -, hpremature, -⟩ := analyze_deadZone hconforms hversion hs
      obtain ⟨k, -, i, j, hkept⟩ := hisolates n hiteration
      have hfin := analyze_finished Tree.hereditary_true trivial hs
      refine ⟨hconforms, hversion, n, s, i, j, k.get "id", issues, hn, hiteration, rfl, hsize, hkept,
        hissues, fun r => ?_, hforbidden ▸ hfin.warns hissues⟩
      rw [hpremature, ← hfin.mem_forbidden_iff, hforbidden, List.mem_singleton]

end LexScope
