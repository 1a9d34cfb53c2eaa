import LexScope.Proofs.RenamePlan
import LexScope.Proofs.Reword

/-!
# Proofs — RewordPlan — the walk over a reworded tree

The events of a reworded node are the events of the node, reworded (`plan_reword`).  A rule asks for
one name only, which is `eval`, so a wording may be any that leaves this name alone and gives it to
nothing else.

Where a walk stops, less has to agree: the position in the message may be gone, and the events that
would have come afterwards, had the walk gone on, may be others.  The relation `Retold` says so; it
has a constructor for each kind of event, and the one for `fail` forgets the rest.

* `Pattern.items_reword`: the same for the items of a pattern.
* `isStrict?_reword`, `scopeKinds?_reword`: scopes of the same kinds, as strict as before.
-/

namespace LexScope

open Node

variable (w : Wording)

/-! ### Patterns -/

namespace Pattern

/-- An item of a pattern in other words. -/
def Item.reword : Item → Item
  | .bound n => .bound (n.reword w)
  | .embedded n => .embedded (n.reword w)
  | .broken => .broken

/-- The items of a pattern in other words.  What cannot be read can take up more items, or fewer. -/
inductive Retold : List Item → List Item → Prop
  | nil : Retold [] []
  | item (i : Item) {l l' : List Item} (h : Retold l l') : Retold (i :: l) (i.reword w :: l')
  | broken (k k' : Nat) {l l' : List Item} (h : Retold l l') :
      Retold (List.replicate (k + 1) .broken ++ l) (List.replicate (k' + 1) .broken ++ l')

variable {w} {l l' m m' : List Item}

theorem Retold.append (h : Retold w l l') (hm : Retold w m m') : Retold w (l ++ m) (l' ++ m') := by
  induction h with
  | nil => exact hm
  | item i _ ih => exact .item i ih
  | broken k k' _ ih =>
      rw [List.append_assoc, List.append_assoc]
      exact .broken k k' ih

theorem Retold.flatMap {f f' : Node → List Item} (h : ∀ n, Retold w (f n) (f' (n.reword w)))
    (ns : List Node) : Retold w (ns.flatMap f) ((ns.map (Node.reword w)).flatMap f') := by
  induction ns with
  | nil => exact .nil
  | cons n ns ih => exact (h n).append ih

/-- The embedded expressions are the same in other words. -/
theorem Retold.embedded (h : Retold w l l') : l'.filterMap Item.embedded? =
    (l.filterMap Item.embedded?).map (Node.reword w) := by
  have hbroken : ∀ k, (List.replicate k Item.broken).filterMap Item.embedded? = [] := by
    intro k
    rw [List.filterMap_replicate_of_none rfl]
  induction h with
  | nil => rfl
  | item i _ ih => cases i <;> simp [List.filterMap_cons, Item.reword, Item.embedded?, ih]
  | broken k k' _ ih =>
      rw [List.filterMap_append, List.filterMap_append, hbroken, hbroken, ih]
      rfl

variable (w)

@[simp] theorem isPattern?_reword (n : Node) : isPattern? (n.reword w) = isPattern? n := by
  simp [isPattern?]

@[simp] theorem isWhole_reword (n : Node) : isWhole (n.reword w) = isWhole n :=
  isIdentifier_reword w n

/-- A way to read patterns that reads reworded ones alike, and finds nothing in a text. -/
structure Retells (walk : Node → List Item) : Prop where
  node : ∀ n, Retold w (walk n) (walk (n.reword w))
  text : ∀ n s, n.value = .str s → walk n = []

variable {w} {walk : Node → List Item}

/-- The parts of a list are the same in other words; the keys of an object, if they are no parts,
can be more or fewer. -/
theorem parts_reword {each : Node → List Item} (h : ∀ n, Retold w (each n) (each (n.reword w)))
    (htext : (∀ n s, n.value = .str s → each n = []) ∨
      ∀ n s, n.value = .str s → each n = [.broken]) (n : Node) :
    Retold w (parts n each) (parts (n.reword w) each) := by
  unfold Pattern.parts
  rcases sequence?_reword w n with hseq | ⟨ns, ns', hns, hns', hk, hk'⟩
  · rw [hseq]
    cases n.sequence? with
    | none => exact .broken 0 0 .nil
    | some ns => exact .flatMap h ns
  · rw [hns, hns']
    rcases htext with htext | htext
    · have hnone : ∀ {ns}, AreKeys ns → ns.flatMap each = [] := by
        intro ns hk
        refine List.flatMap_eq_nil_iff.2 fun c hc => ?_
        obtain ⟨s, hs⟩ := hk.text c hc
        exact htext c s hs
      simp only [hnone hk, hnone hk']
      exact .nil
    · have hbroken : ∀ {ns}, AreKeys ns →
          ∃ k, ns.flatMap each = List.replicate (k + 1) .broken ++ [] := by
        intro ns hk
        have heach : ns.flatMap each = List.replicate ns.length .broken := by
          rw [← List.map_const', List.map_eq_flatMap]
          exact List.flatMap_congr fun c hc => (hk.text c hc).elim fun s hs => htext c s hs
        refine ⟨ns.length - 1, ?_⟩
        rw [heach, List.append_nil, Nat.sub_add_cancel (List.length_pos_iff.2 hk.given)]
      obtain ⟨k, hk⟩ := hbroken hk
      obtain ⟨k', hk'⟩ := hbroken hk'
      simp only [hk, hk']
      exact .broken k k' .nil

theorem Retells.target (h : Retells w walk) (p : Node) :
    Retold w (target walk p) (target walk (p.reword w)) := by
  unfold Pattern.target
  simp (disch := decide) only [get_reword, truthy_reword, isObj_reword, hasType_reword]
  split
  · split
    · exact .broken 0 0 .nil
    · split
      · exact h.node _
      · exact .item (.bound _) .nil
  · exact h.node _

theorem Retells.property (h : Retells w walk) (p : Node) :
    Retold w (property walk p) (property walk (p.reword w)) := by
  unfold Pattern.property
  simp (disch := decide) only [get_reword, truthy_reword, isObj_reword, hasType_reword]
  split
  · exact .broken 0 0 .nil
  · split
    · exact h.node p
    · refine .append ?_ (h.target p)
      split
      · exact .item (.embedded _) .nil
      · exact .nil

theorem property_text (walk : Node → List Item) (n : Node) (s : String) (h : n.value = .str s) :
    property walk n = [.broken] := by
  rw [Pattern.property, Node.isObj, h]
  rfl

theorem Retells.step (h : Retells w walk) : Retells w (step walk) := by
  refine ⟨fun n => ?_, fun n s hs => ?_⟩
  · unfold Pattern.step
    simp (disch := decide) only [get_reword, isObj_reword, typeName?_reword, isNull_reword]
    split
    · exact .nil
    · split
      · exact .item (.bound n) .nil
      · exact parts_reword h.property (.inr (property_text walk)) _
      · exact parts_reword h.node (.inl h.text) _
      · exact h.node _
      · exact h.node _
      · refine .append (h.node _) ?_
        split
        · exact .nil
        · exact .item (.embedded _) .nil
      · exact .item (.embedded n) .nil
  · rw [Pattern.step, Node.isObj, hs]
    rfl

/-- **The items of a pattern in other words.** -/
theorem items_reword (n : Node) : Retold w (items n) (items (n.reword w)) := by
  have hall : ∀ depth, Retells w (itemsAt depth) := by
    intro depth
    induction depth with
    | zero => exact ⟨fun _ => .nil, fun _ _ _ => rfl⟩
    | succ depth ih => exact ih.step
  -- A depth that is enough for the pattern is enough for it in other words.
  have henough := descends.enough (height_reword w n)
  rw [items, items, ← henough]
  exact (hall n.height).node n

theorem items_text {n : Node} {s : String} (h : n.value = .str s) : items n = [] := by
  rw [items, Node.height, h]
  rfl

theorem embedded_reword (n : Node) : embedded (n.reword w) = (embedded n).map (Node.reword w) :=
  (items_reword n).embedded

end Pattern

/-! ### Kinds and strictness of scopes -/

@[simp] theorem isArrow_reword (n : Node) : (n.reword w).isArrow = n.isArrow := hasType_reword w n _

@[simp] theorem namesItself_reword (n : Node) : (n.reword w).namesItself = n.namesItself := by
  simp (disch := decide) only [Node.namesItself, hasType_reword, get_reword, truthy_reword]

theorem ScopeKind.ofType_reword (t : Tree) : ofType (t.reword w) = ofType t := by
  cases t <;> rfl

@[simp] theorem scopeKinds?_reword (n : Node) (isMethod : Bool) :
    scopeKinds? (n.reword w) isMethod = scopeKinds? n isMethod := by
  simp only [scopeKinds?, ScopeKind.ofNode?, isObj_reword, type_reword, Tree.isScalar_reword,
    ScopeKind.ofType_reword, namesItself_reword]

namespace Directive

theorem ofLiteral_reword (t : Tree) : ofLiteral (t.reword w) = ofLiteral t := by
  have hvalue : (t.reword w).get "value" = (t.get "value").reword w :=
    Tree.get_reword_part w (by decide) t
  have hraw : (t.reword w).get "raw" = (t.get "raw").reword w :=
    Tree.get_reword_part w (by decide) t
  by_cases hstr : ∃ s, t.get "value" = .str s
  · obtain ⟨s, hs⟩ := hstr
    unfold ofLiteral
    rw [hvalue, hs, Tree.get_reword_type, hraw]
    simp only [Tree.reword_str, Tree.reword_eq_null, Tree.reword_eq_str]
    cases t.get "type" <;> rfl
  · have hne : ∀ s, t.get "value" ≠ .str s := fun s hs => hstr ⟨s, hs⟩
    rw [ofLiteral_of_ne hne, ofLiteral_of_ne fun s => ?_]
    rw [hvalue, Ne, Tree.reword_eq_str]
    exact hne s

theorem ofStatement?_reword (byField : Bool) (n : Node) :
    ofStatement? byField (n.reword w) = ofStatement? byField n := by
  have hfield : ofField (n.reword w) = ofField n := by
    simp (disch := decide) only [ofField, get_reword, value_reword, Tree.reword_eq_null,
      Tree.reword_eq_str]
  have hliteral : ((n.reword w).value.objectAt? "expression").map ofLiteral =
      (n.value.objectAt? "expression").map ofLiteral := by
    rw [value_reword, Tree.objectAt?_reword w (by decide), Option.map_map]
    exact congrArg (Option.map · _) (funext fun t => ofLiteral_reword w t)
  unfold ofStatement?
  simp only [isObj_reword, hasType_reword, hfield, hliteral]

theorem prologue?_reword (byField : Bool) (ns : List Node) :
    prologue? byField (ns.map (Node.reword w)) = prologue? byField ns := by
  induction ns with
  | nil => rfl
  | cons n ns ih => rw [List.map_cons, prologue?, prologue?, ofStatement?_reword, ih]

/-- Texts are no statements. -/
theorem prologue?_keys (byField : Bool) {ns : List Node} (h : AreKeys ns) :
    prologue? byField ns = Option.none := by
  obtain ⟨n, ns, s, rfl, hs⟩ := h.cons
  rw [prologue?, ofStatement?, Node.isObj, hs]
  rfl

theorem prologue?_sequence (byField : Bool) (n : Node) :
    (n.reword w).sequence?.bind (prologue? byField) = n.sequence?.bind (prologue? byField) := by
  rcases sequence?_reword w n with hseq | ⟨ns, ns', hns, hns', hk, hk'⟩
  · rw [hseq, Option.bind_map]
    exact congrArg (Option.bind _) (funext fun ns => prologue?_reword w byField ns)
  · rw [hns, hns', Option.bind_some, Option.bind_some, prologue?_keys _ hk, prologue?_keys _ hk']

end Directive

/-- A scope of a reworded node is as strict as before. -/
@[simp] theorem isStrict?_reword (o : Options) (kind : ScopeKind) (n : Node) (upperStrict : Bool) :
    isStrict? o kind (n.reword w) upperStrict = isStrict? o kind n upperStrict := by
  have hprologue : ∀ byField, (prologueOf? kind (n.reword w)).bind (Directive.prologue? byField) =
      (prologueOf? kind n).bind (Directive.prologue? byField) := by
    intro byField
    cases kind with
    | global =>
        simp (disch := decide) only [prologueOf?, get_reword]
        exact Directive.prologue?_sequence w byField _
    | function =>
        simp (disch := decide) only [prologueOf?, get_reword, truthy_reword, isObj_reword,
          hasType_reword]
        split
        · rfl
        · split
          · rfl
          · exact Directive.prologue?_sequence w byField _
    | _ => rfl
  rw [isStrict?, isStrict?, hprologue]

/-! ### Events -/

/-- An error in other words.  Where annotations are kept it is the same; where they are not, a fault
is still that fault, wherever it is said to be. -/
structure Wording.Restates (e e' : Error) : Prop where
  kept : w.keeps = true → e' = e
  fault : ∀ f p, e = .analysis f p → ∃ p', e' = .analysis f p'

theorem Wording.Restates.refl (e : Error) : w.Restates e e := ⟨fun _ => rfl, fun _ p h => ⟨p, h⟩⟩

theorem Fault.on_reword (f : Fault) (n : Node) : w.Restates (f.on n) (f.on (n.reword w)) := by
  refine ⟨fun hk => ?_, fun g p h => ?_⟩
  · have hs : w.sheds = false := by
      cases hs : w.sheds with
      | false => rfl
      | true => exact absurd hk (by simp [Wording.keeps_of_sheds hs])
    rw [Fault.on, Fault.on, site?_reword w n hs, funext (Position.reword_of_keeps hk),
      Option.map_id']
  · rw [Fault.on] at h
    split at h
    · rename_i q hq
      obtain ⟨p', hp'⟩ := Option.isSome_iff_exists.1
        (site?_isSome_reword w n (Option.isSome_iff_exists.2 ⟨q, hq⟩))
      cases h
      exact ⟨p', by rw [Fault.on, hp']⟩
    · cases h

/-- A definition in other words. -/
def Definition.reword (d : Definition) : Definition :=
  { d with
    name := d.name.reword w
    node := d.node.reword w
    parent := d.parent.reword w
    declarationKind := d.declarationKind.reword w }

/-- A candidate in other words. -/
def Candidate.reword (c : Candidate) : Candidate := ⟨c.pattern.reword w, c.node.reword w⟩

/-- A use in other words. -/
def Use.reword (u : Use) : Use :=
  { u with
    identifier := u.identifier.reword w
    writeExpr := u.writeExpr.reword w
    candidate := u.candidate.map (Candidate.reword w) }

namespace Walk

/-- Events in other words. -/
inductive Retold : List Event → List Event → Prop
  | nil : Retold [] []
  | define (target : Target) (n : Node) (d : Definition) {l l' : List Event} (h : Retold l l') :
      Retold (.define target n d :: l) (.define target (n.reword w) (d.reword w) :: l')
  | refer (u : Use) {l l' : List Event} (h : Retold l l') :
      Retold (.refer u :: l) (.refer (u.reword w) :: l')
  | callEval {l l' : List Event} (h : Retold l l') : Retold (.callEval :: l) (.callEval :: l')
  | useThis {l l' : List Event} (h : Retold l l') : Retold (.useThis :: l) (.useThis :: l')
  | needScope {l l' : List Event} (h : Retold l l') : Retold (.needScope :: l) (.needScope :: l')
  | phase (p : Phase) {l l' : List Event} (h : Retold l l') :
      Retold (.phase p :: l) (.phase p :: l')
  | within (kind : ScopeKind) (n : Node) {inside inside' l l' : List Event}
      (hi : Retold inside inside') (h : Retold l l') :
      Retold (.within kind n inside :: l) (.within kind (n.reword w) inside' :: l')
  | closeOwned (n : Node) {l l' : List Event} (h : Retold l l') :
      Retold (.closeOwned n :: l) (.closeOwned (n.reword w) :: l')
  | fail {e e' : Error} (l l' : List Event) (he : w.Restates e e') :
      Retold (.fail e :: l) (.fail e' :: l')

variable {w} {l l' m m' : List Event}

/-- The walk stops, before and after, at something that cannot be read. -/
theorem Retold.malformed : Retold w (.fail .malformed :: l) (.fail .malformed :: l') :=
  .fail l l' (.refl w _)

theorem Retold.append (h : Retold w l l') (hm : Retold w m m') : Retold w (l ++ m) (l' ++ m') := by
  induction h with
  | nil => exact hm
  | define target n d _ ih => exact .define target n d ih
  | refer u _ ih => exact .refer u ih
  | callEval _ ih => exact .callEval ih
  | useThis _ ih => exact .useThis ih
  | needScope _ ih => exact .needScope ih
  | phase p _ ih => exact .phase p ih
  | within kind n hi _ _ ih => exact .within kind n hi ih
  | closeOwned n _ ih => exact .closeOwned n ih
  | fail l l' he => exact .fail _ _ he

theorem Retold.flatMap {f f' : Node → List Event} (h : ∀ n, Retold w (f n) (f' (n.reword w)))
    (ns : List Node) : Retold w (ns.flatMap f) ((ns.map (Node.reword w)).flatMap f') := by
  induction ns with
  | nil => exact .nil
  | cons n ns ih => exact (h n).append ih

/-- Nodes with their indices, in other words. -/
theorem Retold.flatMap_zipIdx {f f' : Node × Nat → List Event}
    (h : ∀ n i, Retold w (f (n, i)) (f' (n.reword w, i))) (ns : List Node) (k : Nat) :
    Retold w ((ns.zipIdx k).flatMap f) (((ns.map (Node.reword w)).zipIdx k).flatMap f') := by
  induction ns generalizing k with
  | nil => exact .nil
  | cons n ns ih => exact (h n k).append (ih (k + 1))

/-- Events under a condition. -/
theorem Retold.ite {c : Prop} [Decidable c] (h : Retold w l l') (hm : Retold w m m') :
    Retold w (if c then l else m) (if c then l' else m') := by
  split
  · exact h
  · exact hm

/-! ### Parts of rules -/

variable (w) in
/-- A way to get the events of a node that tells reworded nodes alike. -/
def Retells (visit : Visit) : Prop := ∀ n, Retold w (visit n) (visit (n.reword w))

variable {visit : Visit}

theorem Retells.children (hv : Retells w visit) (n : Node) :
    Retold w (visitChildren visit n) (visitChildren visit (n.reword w)) := by
  rw [visitChildren, visitChildren, children_reword]
  exact .flatMap hv _

theorem Retells.embedded (hv : Retells w visit) (n : Node) :
    Retold w (visitEmbedded visit n) (visitEmbedded visit (n.reword w)) := by
  rw [visitEmbedded, visitEmbedded, Pattern.embedded_reword]
  exact .flatMap hv _

theorem forBound_reword {each each' : Node → List Event}
    (h : ∀ p, Retold w (each p) (each' (p.reword w))) (n : Node) :
    Retold w (forBound n each) (forBound (n.reword w) each') := by
  unfold forBound
  have hitems := Pattern.items_reword (w := w) n
  revert hitems
  generalize Pattern.items n = l, Pattern.items (n.reword w) = l'
  intro hitems
  induction hitems with
  | nil => exact .nil
  | item i _ ih =>
      cases i with
      | bound p => exact (h p).append ih
      | embedded p => exact ih
      | broken => exact .malformed
  | broken k k' _ _ => exact .malformed

/-- Nothing is bound by a text. -/
theorem forBound_text (each : Node → List Event) {n : Node} {s : String} (h : n.value = .str s) :
    forBound n each = [] := by
  rw [forBound, Pattern.items_text h]
  rfl

theorem forSequence_reword {each each' : List Node → List Event}
    (h : ∀ ns, Retold w (each ns) (each' (ns.map (Node.reword w))))
    (hkeys : ∀ ns ns', AreKeys ns → AreKeys ns' → Retold w (each ns) (each' ns')) (n : Node) :
    Retold w (forSequence n each) (forSequence (n.reword w) each') := by
  unfold forSequence
  rcases sequence?_reword w n with hseq | ⟨ns, ns', hns, hns', hk, hk'⟩
  · rw [hseq]
    cases n.sequence? with
    | none => exact .malformed
    | some ns => exact h ns
  · rw [hns, hns']
    exact hkeys ns ns' hk hk'

theorem nested_reword (n : Node) (isMethod : Bool) (h : Retold w l l') :
    Retold w (nested n isMethod l) (nested (n.reword w) isMethod l') := by
  rw [nested, nested, scopeKinds?_reword]
  cases scopeKinds? n isMethod with
  | none => exact .malformed
  | some kinds =>
      refine .append ?_ (.closeOwned n .nil)
      induction kinds with
      | nil => exact h
      | cons kind kinds ih => exact .within kind n ih .nil

theorem nestedIf_reword (condition : Bool) (n : Node) (h : Retold w l l') :
    Retold w (nestedIf condition n l) (nestedIf condition (n.reword w) l') :=
  .ite (nested_reword n false h) (h.append (.closeOwned n .nil))

/-! ### Rules -/

theorem initialWrite_reword (pattern p value : Node) (h : Retold w l l') :
    Retold w (initialWrite pattern p value :: l)
      (initialWrite (pattern.reword w) (p.reword w) (value.reword w) :: l') := by
  rw [initialWrite, initialWrite, Pattern.isWhole_reword]
  exact .refer _ h

theorem bindDeclarator_reword (target : Target) (kind : DefinitionKind) (n : Node) (i : Nat)
    (d : Node) : Retold w (bindDeclarator target kind n i d)
      (bindDeclarator target kind (n.reword w) i (d.reword w)) := by
  simp (disch := decide) only [bindDeclarator, get_reword, isNull_reword]
  refine forBound_reword (fun p => .define target p _ ?_) _
  exact .ite .nil (initialWrite_reword _ p _ .nil)

theorem assignTo_reword (pattern value n : Node) :
    Retold w (assignTo pattern value n)
      (assignTo (pattern.reword w) (value.reword w) (n.reword w)) := by
  refine forBound_reword (fun p => ?_) pattern
  rw [Pattern.isWhole_reword]
  exact .refer _ .nil

theorem declarator?_reword (n : Node) (i : Nat) :
    declarator? (n.reword w) i = (declarator? n i).map (Node.reword w) := by
  simp (disch := decide) only [declarator?, get_reword, items_reword, List.getElem?_map]
  cases (n.get "declarations").items[i]? with
  | none => rfl
  | some d =>
      simp only [Option.map_some, Option.filter_some, isObj_reword]
      split <;> rfl

theorem writeHead_reword (n head : Node) :
    Retold w (writeHead n head) (writeHead (n.reword w) (head.reword w)) := by
  rw [writeHead, writeHead, declarator?_reword]
  cases declarator? head 0 with
  | none => exact .malformed
  | some d =>
      simp (disch := decide) only [Option.map_some, get_reword]
      exact forBound_reword (fun p => initialWrite_reword _ p _ .nil) _

theorem bindHead_reword (kind : DefinitionKind) (head : Node) :
    Retold w (bindHead kind head) (bindHead kind (head.reword w)) := by
  rw [bindHead, bindHead, declarator?_reword]
  cases declarator? head 0 with
  | none => exact .malformed
  | some d => exact bindDeclarator_reword .here kind head 0 d

theorem isLexical_reword (n : Node) : isLexical (n.reword w) = isLexical n := by
  simp (disch := decide) only [isLexical, hasType_reword, get_reword, value_reword,
    ne_eq, Tree.reword_eq_str]

theorem Retells.declare (hv : Retells w visit) (n : Node) :
    Retold w (declare visit n) (declare visit (n.reword w)) := by
  simp (disch := decide) only [Walk.declare, get_reword, value_reword, Tree.reword_eq_str]
  refine .append (.ite (.needScope .nil) .nil) (forSequence_reword (fun ds => ?_) ?_ _)
  · refine .flatMap_zipIdx (fun d i => ?_) ds 0
    simp (disch := decide) only [isObj_reword, get_reword]
    exact .ite .malformed
      (((bindDeclarator_reword _ .variable n i d).append (hv.embedded _)).append (hv _))
  · -- A text is no declarator.
    intro ns ns' hk hk'
    obtain ⟨d, ds, s, rfl, hs⟩ := hk.cons
    obtain ⟨d', ds', s', rfl, hs'⟩ := hk'.cons
    simp only [List.zipIdx_cons, List.flatMap_cons, Node.isObj, hs, hs']
    exact .malformed

theorem Retells.assign (hv : Retells w visit) (n : Node) :
    Retold w (assign visit n) (assign visit (n.reword w)) := by
  simp (disch := decide) only [Walk.assign, get_reword, Pattern.isPattern?_reword, value_reword,
    Tree.reword_eq_str]
  split
  · exact .malformed
  · exact (hv _).append (hv _)
  · exact .ite (((assignTo_reword _ _ n).append (hv.embedded _)).append (hv _)) (.refer _ (hv _))

theorem Retells.update (hv : Retells w visit) (n : Node) :
    Retold w (update visit n) (update visit (n.reword w)) := by
  simp (disch := decide) only [Walk.update, get_reword, isIdentifier_reword]
  exact .ite (.refer _ .nil) (hv.children n)

theorem bindParameters_reword (n : Node) (params : List Node) :
    Retold w (bindParameters n params)
      (bindParameters (n.reword w) (params.map (Node.reword w))) :=
  .flatMap_zipIdx (fun param _ => forBound_reword (fun p => .define .here p _ .nil) param) params 0

theorem Retells.functionBody (hv : Retells w visit) (n : Node) :
    Retold w (functionBody visit n) (functionBody visit (n.reword w)) := by
  rw [Walk.functionBody, Walk.functionBody, hasType_reword]
  exact .ite (hv.children n) (hv n)

/-- Texts bind no parameters and embed nothing. -/
theorem parameters_keys (visit : Visit) (n : Node) {params : List Node} (h : AreKeys params) :
    bindParameters n params ++ params.flatMap (visitEmbedded visit) = [] := by
  refine List.append_eq_nil_iff.2 ⟨List.flatMap_eq_nil_iff.2 ?_, List.flatMap_eq_nil_iff.2 ?_⟩
  · rintro ⟨param, i⟩ hp
    obtain ⟨s, hs⟩ := h.text param (List.fst_mem_of_mem_zipIdx hp)
    exact forBound_text _ hs
  · intro param hp
    obtain ⟨s, hs⟩ := h.text param hp
    rw [visitEmbedded, Pattern.embedded, Pattern.items_text hs]
    rfl

theorem Retells.function (hv : Retells w visit) (n : Node) (isMethod : Bool) :
    Retold w (function visit n isMethod) (function visit (n.reword w) isMethod) := by
  have hid : (n.reword w).get "id" = (n.get "id").reword w := n.get_reword w (by decide)
  have hname : Definition.ofFunction (n.reword w) = (Definition.ofFunction n).reword w := by
    rw [Definition.ofFunction, hid]
    rfl
  simp (disch := decide) only [Walk.function, get_reword, hasType_reword, hname]
  refine .append (.ite (.define .here _ _ .nil) .nil) (nested_reword n isMethod ?_)
  refine forSequence_reword (fun params => ?_) (fun params params' hk hk' => ?_) _
  · exact ((bindParameters_reword n params).append (.flatMap hv.embedded params)).append
      (hv.functionBody _)
  · rw [parameters_keys visit n hk, parameters_keys visit _ hk']
    exact hv.functionBody _

theorem Retells.classDefinition (hv : Retells w visit) (n : Node) :
    Retold w (classDefinition visit n) (classDefinition visit (n.reword w)) := by
  simp (disch := decide) only [Walk.classDefinition, get_reword, hasType_reword, truthy_reword]
  have hbind : Retold w
      [.define .here (n.get "id") { kind := .className, name := n.get "id", node := n }]
      [.define .here ((n.get "id").reword w)
        { kind := .className, name := (n.get "id").reword w, node := n.reword w }] :=
    .define .here _ _ .nil
  exact ((hbind.ite .nil).append (hv _)).append
    (nested_reword n false ((hbind.ite .nil).append (hv _)))

theorem Retells.property (hv : Retells w visit) (n : Node) :
    Retold w (property visit n) (property visit (n.reword w)) := by
  simp (disch := decide) only [Walk.property, get_reword, hasType_reword, truthy_reword,
    isArrow_reword]
  exact .append (.ite (hv _) .nil) (.ite (hv.function _ true) (hv _))

theorem Retells.program (hv : Retells w visit) (g : Gates) (n : Node) :
    Retold w (program g visit n) (program g visit (n.reword w)) :=
  nested_reword n false (.ite (.within .moduleTop n (hv.children n) .nil) (hv.children n))

theorem Retells.switch (hv : Retells w visit) (g : Gates) (n : Node) :
    Retold w (switch g visit n) (switch g visit (n.reword w)) := by
  simp (disch := decide) only [Walk.switch, get_reword]
  exact (hv _).append (nestedIf_reword g.es6 n (hv _))

theorem Retells.withObject (hv : Retells w visit) (n : Node) :
    Retold w (withObject visit n) (withObject visit (n.reword w)) := by
  simp (disch := decide) only [Walk.withObject, get_reword]
  exact (hv _).append (nested_reword n false (hv _))

theorem Retells.catchClause (hv : Retells w visit) (n : Node) :
    Retold w (catchClause visit n) (catchClause visit (n.reword w)) := by
  simp (disch := decide) only [Walk.catchClause, get_reword]
  exact nested_reword n false (((forBound_reword (fun p => .define .here p _ .nil) _).append
    (hv.embedded _)).append (hv _))

theorem Retells.loop (hv : Retells w visit) (g : Gates) (n : Node) :
    Retold w (loop g visit n) (loop g visit (n.reword w)) := by
  simp (disch := decide) only [Walk.loop, get_reword, isLexical_reword]
  exact nestedIf_reword _ n (hv.children n)

theorem Retells.visitHead (hv : Retells w visit) (head : Node) :
    Retold w (visitHead visit head) (visitHead visit (head.reword w)) := by
  rw [Walk.visitHead, Walk.visitHead, declarator?_reword]
  cases declarator? head 0 with
  | none => exact .nil
  | some d =>
      simp (disch := decide) only [Option.map_some, get_reword]
      exact hv.embedded _

theorem Retells.lexicalIteration (hv : Retells w visit) (n : Node) :
    Retold w (lexicalIteration visit n) (lexicalIteration visit (n.reword w)) := by
  simp (disch := decide) only [Walk.lexicalIteration, get_reword]
  have hdead := ((bindHead_reword (w := w) .deadZone (n.get "left")).append
    (.phase .visitRight (hv (n.get "right")))).append (.phase .closeDeadZone .nil)
  have hturn := ((((bindHead_reword .variable (n.get "left")).append
    (writeHead_reword n (n.get "left"))).append (hv.visitHead (n.get "left"))).append
      (.phase .visitBody (hv (n.get "body")))).append (.phase .closeIteration .nil)
  exact .append (.phase .openDeadZone (.within .deadZone n hdead (.phase .openIteration .nil)))
    (nested_reword n false hturn)

theorem Retells.iteration (hv : Retells w visit) (g : Gates) (n : Node) :
    Retold w (iteration g visit n) (iteration g visit (n.reword w)) := by
  simp (disch := decide) only [Walk.iteration, get_reword, isLexical_reword, hasType_reword,
    Pattern.isPattern?_reword]
  refine .ite (hv.lexicalIteration n) (.append (.append ?_ (hv _)) (hv _))
  refine .ite ((hv _).append (writeHead_reword n _)) ?_
  split
  · exact .malformed
  · exact (assignTo_reword _ _ n).append (hv.embedded _)
  · exact hv _

theorem Retells.access (hv : Retells w visit) (n : Node) :
    Retold w (access visit n) (access visit (n.reword w)) := by
  simp (disch := decide) only [Walk.access, get_reword, truthy_reword]
  exact (hv _).append (.ite (hv _) .nil)

/-- A call is a direct `eval` as before: nothing else is called so, and `eval` is. -/
theorem Retells.call (hv : Retells w visit) (hw : w.Faithful)
    (g : Gates) (n : Node) : Retold w (call g visit n) (call g visit (n.reword w)) := by
  have hname : ((n.get "callee").isIdentifier &&
      decide ((((n.reword w).get "callee").get "name").value = .str "eval")) =
      ((n.get "callee").isIdentifier &&
        decide (((n.get "callee").get "name").value = .str "eval")) := by
    cases hid : (n.get "callee").isIdentifier with
    | false => rfl
    | true =>
        have hiff : ((n.get "callee").value.get "name").relabel w = .str (w.name "eval") ↔ _ :=
          Tree.relabel_eq_str hw.injective
        rw [hw.eval, ← name_reword w _ hid] at hiff
        rw [get_reword w n (by decide)]
        exact congrArg (true && ·) (decide_eq_decide.2 hiff)
  simp (disch := decide) only [Walk.call, get_reword, truthy_reword, isObj_reword,
    isIdentifier_reword] at hname ⊢
  rw [hname]
  have hbody := hv.children n
  exact .ite hbody (.ite .malformed (.ite (.callEval hbody) hbody))

theorem onlyInModule_reword (g : Gates) (n : Node) (h : Retold w l l') :
    Retold w (onlyInModule g n l) (onlyInModule g (n.reword w) l') := by
  rw [onlyInModule, onlyInModule, typeName?_reword]
  exact .ite h (.fail [] [] (Fault.on_reword w _ n))

theorem bindImports_reword (n : Node) :
    Retold w (bindImports n) (bindImports (n.reword w)) := by
  simp (disch := decide) only [bindImports, get_reword]
  refine forSequence_reword (fun specifiers => .flatMap (fun specifier => ?_) specifiers) ?_ _
  · simp (disch := decide) only [get_reword, isObj_reword]
    exact .ite .malformed (.define .here _ _ .nil)
  · -- A text is no specifier.
    intro ns ns' hk hk'
    obtain ⟨d, ds, s, rfl, hs⟩ := hk.cons
    obtain ⟨d', ds', s', rfl, hs'⟩ := hk'.cons
    simp only [List.flatMap_cons, Node.isObj, hs, hs']
    exact .malformed

theorem Retells.exportNamed (hv : Retells w visit) (n : Node) :
    Retold w (exportNamed visit n) (exportNamed visit (n.reword w)) := by
  simp (disch := decide) only [Walk.exportNamed, get_reword, truthy_reword]
  exact .ite .nil (.ite (hv _) (hv _))

/-- Every rule tells reworded nodes alike if the nodes further down are told so. -/
theorem Retells.rule (hv : Retells w visit) (hw : w.Faithful)
    (g : Gates) (n : Node) (family : Family) :
    Retold w (rule g visit n family) (rule g visit (n.reword w) family) := by
  have hget : ∀ key, Tree.isPart key = true →
      Retold w (visit (n.get key)) (visit ((n.reword w).get key)) := by
    intro key hk
    rw [get_reword w n hk]
    exact hv _
  cases family with
  | program => exact hv.program g n
  | block => exact nestedIf_reword g.es6 n (hv.children n)
  | switch => exact hv.switch g n
  | withObject => exact hv.withObject n
  | catchClause => exact hv.catchClause n
  | function => exact hv.function n false
  | classDefinition => exact hv.classDefinition n
  | property => exact hv.property n
  | declaration => exact hv.declare n
  | declarator => exact .malformed
  | assignment => exact hv.assign n
  | update => exact hv.update n
  | identifier => exact .refer _ .nil
  | access => exact hv.access n
  | call => exact hv.call hw g n
  | this => exact .useThis .nil
  | label => exact hget "body" (by decide)
  | inert => exact .nil
  | loop => exact hv.loop g n
  | iteration => exact hv.iteration g n
  | lexicalIteration => exact hv.lexicalIteration n
  | importing => exact onlyInModule_reword g n (bindImports_reword n)
  | exportNamed => exact onlyInModule_reword g n (hv.exportNamed n)
  | exportDefault => exact onlyInModule_reword g n (hget "declaration" (by decide))
  | exportAll => exact onlyInModule_reword g n .nil
  | exportSpecifier => exact hget "local" (by decide)
  | plain => exact hv.children n

theorem Retells.step (hv : Retells w visit) (hw : w.Faithful)
    (g : Gates) : Retells w (step g visit) := by
  intro n
  have hrule := fun type : String => hv.rule hw g n (.ofType type)
  have htype := typeName?_reword w n
  obtain ⟨p, t⟩ := n
  cases t with
  | arr ts =>
      -- A list has no type; its items are visited one after the other.
      show Retold w _ ((Node.items (Node.reword w ⟨p, .arr ts⟩)).flatMap visit)
      rw [items_reword]
      exact .flatMap hv _
  | _ =>
      simp only [Walk.step, value_reword, Tree.reword, htype]
      split
      · exact hrule _
      · exact .nil

/-- **The walk over a reworded node is the walk over the node, reworded.** -/
theorem plan_reword (hw : w.Faithful) (g : Gates) (n : Node) :
    Retold w (plan g n) (plan g (n.reword w)) := by
  have hall : ∀ depth, Retells w (planAt g depth) := by
    intro depth
    induction depth with
    | zero => exact fun _ => .nil
    | succ depth ih => exact ih.step hw g
  -- A depth that is enough for the node is enough for it in other words.
  have henough := (descends g).enough (height_reword w n)
  rw [plan, plan, ← henough]
  exact hall n.height n

end Walk

end LexScope
