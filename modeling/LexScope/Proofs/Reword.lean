import LexScope.Proofs.Rename
import LexScope.Proofs.Unfold

/-!
# Proofs — Reword — the same program in other words

A *wording* says what identifiers are called, and what is done with all that annotates a node:
where it starts, the comments beside it, the tokens it was read from (`Wording`).  Rewording a tree
changes the names of its identifiers; annotations are left as they are, or reworded like everything
else, or taken from every object that has something else to say (`Tree.reword`).

Whatever a walk reads off a node reads the same afterwards, up to the rewording of the nodes found,
with two exceptions: names, and the sequence of the keys of an object, which may have become shorter
and is never empty (`sequence?_reword`).
-/

namespace LexScope

/-- What is done with the annotations of nodes. -/
inductive Treatment where
  /-- They stay as they are. -/
  | keep
  /-- The identifiers in them are called something else, too. -/
  | reword
  /-- They are taken away. -/
  | shed
  deriving Repr, DecidableEq

/-- A way to say a program in other words. -/
structure Wording where
  /-- What an identifier is called instead. -/
  name : String → String
  annotations : Treatment

namespace Wording

/-- Whether annotations stay as they are. -/
def keeps (w : Wording) : Bool := w.annotations = .keep

/-- Whether annotations are taken away. -/
def sheds (w : Wording) : Bool := w.annotations = .shed

theorem keeps_of_sheds {w : Wording} (h : w.sheds = true) : w.keeps = false := by
  rw [sheds, decide_eq_true_eq] at h
  rw [keeps, h]
  rfl

end Wording

/-- Names are as different as before, and the two that have a meaning of their own are what they
were. -/
structure Wording.Faithful (w : Wording) : Prop where
  injective : w.name.Injective
  eval : w.name "eval" = "eval"
  arguments : w.name argumentsName = argumentsName

namespace Node

/-- Whether a member annotates a node: all metadata does but the type. -/
def annotates (key : String) : Bool := key != "type" && metadata.contains key

end Node

open Node (annotates)

/-! ### Rewording a tree -/

namespace Tree

/-- A text, called something else. -/
def label (f : String → String) : Tree → Tree
  | .str s => .str (f s)
  | t => t

/-- Whether an object with some members is an identifier. -/
def isCalled (members : List (String × Tree)) : Bool :=
  decide ((Tree.obj members).get "type" = .str "Identifier")

/-- Whether an object with some members has something to say besides annotations. -/
def hasParts (members : List (String × Tree)) : Bool := members.any fun m => !annotates m.1

mutual

/-- A tree in other words. -/
def reword (w : Wording) : Tree → Tree
  | .arr items => .arr (rewordItems w items)
  | .obj members =>
      .obj (rewordMembers w (isCalled members) (w.sheds && hasParts members) members)
  | t => t

/-- The items of a list in other words. -/
def rewordItems (w : Wording) : List Tree → List Tree
  | [] => []
  | t :: ts => t.reword w :: rewordItems w ts

/-- The members of an object in other words: it may be an identifier, and may lose annotations. -/
def rewordMembers (w : Wording) (called sheds : Bool) :
    List (String × Tree) → List (String × Tree)
  | [] => []
  | (key, t) :: ms =>
      if sheds && annotates key then rewordMembers w called sheds ms
      else
        (key,
          if w.keeps && annotates key then t
          else if called && key = "name" then (t.reword w).label w.name
          else t.reword w) :: rewordMembers w called sheds ms

end

variable (w : Wording) {called sheds : Bool} {key : String} {t : Tree}

/-- What becomes of a member that stays. -/
def rewordMember (called : Bool) (key : String) (t : Tree) : Tree :=
  if w.keeps && annotates key then t
  else if called && key = "name" then (t.reword w).label w.name
  else t.reword w

/-- What the name of an identifier becomes. -/
def relabel (t : Tree) : Tree := (t.reword w).label w.name

theorem rewordMembers_cons (called sheds : Bool) (key : String) (t : Tree)
    (ms : List (String × Tree)) : rewordMembers w called sheds ((key, t) :: ms) =
      if sheds && annotates key then rewordMembers w called sheds ms
      else (key, rewordMember w called key t) :: rewordMembers w called sheds ms := rfl

theorem rewordItems_eq_map (ts : List Tree) : rewordItems w ts = ts.map (reword w) := by
  induction ts with
  | nil => rfl
  | cons t ts ih => rw [rewordItems, ih, List.map_cons]

/-! ### What a reworded tree is like -/

@[simp] theorem reword_null : (Tree.null).reword w = .null := rfl

@[simp] theorem reword_str (s : String) : (Tree.str s).reword w = .str s := rfl

variable {w}

@[simp] theorem reword_eq_null : t.reword w = .null ↔ t = .null := by
  cases t <;> simp [reword]

@[simp] theorem reword_eq_str {s : String} : t.reword w = .str s ↔ t = .str s := by
  cases t <;> simp [reword]

variable (w)

theorem rewordMembers_eq_nil {members : List (String × Tree)} :
    rewordMembers w called (w.sheds && hasParts members) members = [] ↔ members = [] := by
  refine ⟨fun h => ?_, by rintro rfl; rfl⟩
  -- A member that is no annotation stays, and without one all stay.
  have hstays : ∀ {sheds} {ms : List (String × Tree)}, rewordMembers w called sheds ms = [] →
      ∀ m ∈ ms, sheds = true ∧ annotates m.1 = true := by
    intro sheds ms h
    induction ms with
    | nil => exact nofun
    | cons m ms ih =>
        rw [rewordMembers_cons] at h
        split at h
        · rename_i hm
          intro m' hm'
          rcases List.mem_cons.1 hm' with rfl | hm'
          · exact Bool.and_eq_true_iff.1 hm
          · exact ih h m' hm'
        · cases h
  cases members with
  | nil => rfl
  | cons m ms =>
      obtain ⟨hsheds, -⟩ := hstays h m List.mem_cons_self
      obtain ⟨m', hm', hpart⟩ := List.any_eq_true.1 (Bool.and_eq_true_iff.1 hsheds).2
      rw [(hstays h m' hm').2] at hpart
      cases hpart

@[simp] theorem truthy_reword (t : Tree) : (t.reword w).truthy = t.truthy := by
  cases t with
  | arr items => cases items <;> rfl
  | obj members =>
      have hnil : rewordMembers w (isCalled members) (w.sheds && hasParts members) members = [] ↔
          members = [] := rewordMembers_eq_nil w
      rw [reword, truthy, truthy, ← Bool.eq_iff_iff.2
        (List.isEmpty_iff.trans (hnil.trans List.isEmpty_iff.symm))]
  | _ => rfl

@[simp] theorem isObj_reword (t : Tree) : (t.reword w).isObj = t.isObj := by
  cases t <;> rfl

@[simp] theorem isScalar_reword (t : Tree) : (t.reword w).isScalar = t.isScalar := by
  cases t <;> rfl

theorem relabel_str (s : String) : (Tree.str s).relabel w = .str (w.name s) := rfl

/-- What is called by a text becomes what is called by another text. -/
theorem relabel_eq_str {w : Wording} (hw : w.name.Injective) {t : Tree} {s : String} :
    t.relabel w = .str (w.name s) ↔ t = .str s := by
  cases t <;> simp [relabel, reword, label, hw.eq_iff]

/-! ### Members -/

@[simp] theorem rewordMember_null (key : String) : rewordMember w called key .null = .null := by
  simp [rewordMember, label]

theorem lookup_rewordMembers (key : String) (ms : List (String × Tree)) :
    (rewordMembers w called sheds ms).lookup key =
      if sheds && annotates key then none else (ms.lookup key).map (rewordMember w called key) := by
  induction ms with
  | nil => cases sheds && annotates key <;> rfl
  | cons m ms ih =>
      obtain ⟨k, t⟩ := m
      rw [rewordMembers_cons]
      by_cases hk : key = k
      · subst hk
        split
        · rename_i hm
          rw [ih, if_pos hm]
        · rw [List.lookup_cons, List.lookup_cons, beq_self_eq_true]
          rfl
      · have hb : (key == k) = false := by simpa using hk
        have hrest : (ms.lookup key).map (rewordMember w called key) =
            (((k, t) :: ms).lookup key).map (rewordMember w called key) := by
          rw [List.lookup_cons, hb]
        split
        · rw [ih, hrest]
        · rw [List.lookup_cons, hb, ih, hrest]

/-- Reading a member of a reworded object. -/
theorem get_reword {sheds : Bool} (h : (sheds && annotates key) = false)
    (ms : List (String × Tree)) : (Tree.obj (rewordMembers w called sheds ms)).get key =
      rewordMember w called key ((Tree.obj ms).get key) := by
  show ((rewordMembers w called sheds ms).lookup key).getD .null = _
  rw [lookup_rewordMembers, h, if_neg Bool.false_ne_true]
  cases hl : ms.lookup key <;> simp [get, hl]

/-- What a reworded tree says of a member that is not taken from it. -/
theorem get_reword_of_not_annotates (h : annotates key = false) (t : Tree) :
    ∃ called, (t.reword w).get key = rewordMember w called key (t.get key) ∧
      (t.get "type" = .str "Identifier" → called = true) := by
  cases t with
  | obj ms =>
      have hstays : (w.sheds && hasParts ms && annotates key) = false := by rw [h, Bool.and_false]
      exact ⟨isCalled ms, get_reword w hstays ms, fun hid => decide_eq_true hid⟩
  | _ => exact ⟨true, by simp [reword, get], fun _ => rfl⟩

@[simp] theorem get_reword_type (t : Tree) :
    (t.reword w).get "type" = (t.get "type").reword w := by
  have hannotates : annotates "type" = false := by decide
  obtain ⟨called, h, -⟩ := get_reword_of_not_annotates w hannotates t
  rw [h, rewordMember, if_neg (by simp [hannotates]), if_neg (by simp)]

theorem get_reword_part (h : isPart key = true) (t : Tree) :
    (t.reword w).get key = (t.get key).reword w := by
  simp only [isPart, Bool.and_eq_true, bne_iff_ne, Bool.not_eq_true'] at h
  have hannotates : annotates key = false := by rw [annotates, h.2, Bool.and_false]
  obtain ⟨called, hget, -⟩ := get_reword_of_not_annotates w hannotates t
  rw [hget, rewordMember, if_neg (by simp [hannotates]), if_neg (by simp [h.1])]

/-- The name of an identifier is another one. -/
theorem get_reword_name (h : t.get "type" = .str "Identifier") :
    (t.reword w).get "name" = (t.get "name").relabel w := by
  have hannotates : annotates "name" = false := by decide
  obtain ⟨called, hget, hcalled⟩ := get_reword_of_not_annotates w hannotates t
  rw [hget, hcalled h, rewordMember, if_neg (by simp [hannotates]), if_pos (by decide)]
  rfl

/-- What becomes of an annotation that is not taken away. -/
def annotate (t : Tree) : Tree := if w.keeps then t else t.reword w

/-- An annotation stays, unless annotations are taken away. -/
theorem get_reword_annotates {w : Wording} (hs : w.sheds = false) (h : annotates key = true)
    (t : Tree) : (t.reword w).get key = (t.get key).annotate w := by
  have hname : key ≠ "name" := by
    rintro rfl
    exact absurd h (by decide)
  cases t with
  | obj ms =>
      rw [reword, hs, get_reword w (by rfl), rewordMember, h, Bool.and_true, annotate]
      simp [hname]
  | _ => cases hk : w.keeps <;> simp [reword, get, annotate, hk]

/-- An annotation that is taken away is lost, or it is reworded with an object that has nothing
else. -/
theorem get_reword_shed {w : Wording} (hs : w.sheds = true) (h : annotates key = true)
    (t : Tree) : (t.reword w).get key = .null ∨ (t.reword w).get key = (t.get key).reword w := by
  have hname : key ≠ "name" := by
    rintro rfl
    exact absurd h (by decide)
  cases t with
  | obj ms =>
      rw [reword, hs]
      cases hp : hasParts ms with
      | true =>
          refine .inl ?_
          show ((rewordMembers w _ _ ms).lookup key).getD .null = _
          rw [lookup_rewordMembers, h]
          rfl
      | false =>
          refine .inr ?_
          rw [Bool.and_false, get_reword w (by rfl), rewordMember,
            if_neg (by simp [Wording.keeps_of_sheds hs]), if_neg (by simp [hname])]
  | _ => exact .inl rfl

/-! ### Objects and positions -/

/-- What is read as an object is read in other words. -/
theorem objectAt?_reword_of_get (h : (t.reword w).get key = (t.get key).reword w) :
    (t.reword w).objectAt? key = (t.objectAt? key).map (reword w) := by
  simp only [objectAt?, h, truthy_reword, isObj_reword]
  split
  · rfl
  · split <;> rfl

theorem objectAt?_reword (h : isPart key = true) (t : Tree) :
    (t.reword w).objectAt? key = (t.objectAt? key).map (reword w) :=
  objectAt?_reword_of_get w (get_reword_part w h t)

end Tree

/-- A position as it is said afterwards. -/
def Position.reword (w : Wording) (p : Position) : Position :=
  ⟨p.line.annotate w, p.column.annotate w⟩

theorem Position.reword_of_keeps {w : Wording} (hk : w.keeps = true) (p : Position) :
    p.reword w = p := by
  simp only [Position.reword, Tree.annotate, hk, if_true]

/-- There are no identifiers in a scalar. -/
theorem Position.reword_of_scalar (w : Wording) {p : Position} (hl : p.line.isScalar = true)
    (hc : p.column.isScalar = true) : p.reword w = p := by
  have hsame : ∀ t : Tree, t.isScalar = true → t.annotate w = t := by
    intro t ht
    rw [Tree.annotate]
    split
    · rfl
    · cases t with
      | arr => cases ht
      | obj => cases ht
      | _ => rfl
  rw [Position.reword, hsame _ hl, hsame _ hc]

@[simp] theorem Position.reword_unknown (w : Wording) : unknown.reword w = unknown := by
  cases hk : w.keeps <;> simp [Position.reword, Tree.annotate, unknown, hk]

namespace Tree

variable (w : Wording) {t : Tree}

/-- Unless annotations are taken away, positions are what they were, in other words. -/
theorem position?_reword {w : Wording} (hs : w.sheds = false) (t : Tree) :
    (t.reword w).position? = t.position?.map (Position.reword w) := by
  have hloc := get_reword_annotates hs (show annotates "loc" = true by decide) t
  cases hk : w.keeps with
  | true =>
      have hsame : (t.reword w).position? = t.position? := by
        simp only [position?, objectAt?, hloc, annotate, hk, if_true]
      rw [hsame, funext (Position.reword_of_keeps hk)]
      exact Option.map_id'.symm
  | false =>
      have hannotate : ∀ u, annotate w u = u.reword w := fun u => by simp [annotate, hk]
      rw [hannotate] at hloc
      have hget : ∀ key, isPart key = true → ∀ u : Tree,
          (u.reword w).get key = (u.get key).annotate w := by
        intro key hkey u
        rw [hannotate, get_reword_part w hkey]
      simp only [position?, objectAt?_reword_of_get w hloc]
      cases t.objectAt? "loc" with
      | none => rfl
      | some loc =>
          simp only [Option.map_some, Option.bind_eq_bind, Option.bind_some,
            objectAt?_reword w (show isPart "start" = true by decide)]
          cases loc.objectAt? "start" with
          | none => rfl
          | some start =>
              show some _ = some _
              rw [hget "line" (by decide), hget "column" (by decide)]
              rfl

/-- A position that can be read can be read in other words. -/
theorem position?_isSome_reword (h : t.position?.isSome = true) :
    (t.reword w).position?.isSome = true := by
  cases hs : w.sheds with
  | false =>
      rw [position?_reword hs, Option.isSome_map]
      exact h
  | true =>
      obtain ⟨p, hp⟩ := Option.isSome_iff_exists.1 h
      obtain ⟨loc, hl, hp⟩ := Option.bind_eq_some_iff.1 hp
      obtain ⟨start, hstart, -⟩ := Option.bind_eq_some_iff.1 hp
      rcases get_reword_shed hs (show annotates "loc" = true by decide) t with hnull | hsame
      · -- Without annotations there is no position, and that can be read.
        have hl' : (t.reword w).objectAt? "loc" = some (.obj []) := by
          rw [objectAt?, hnull]
          rfl
        rw [position?, hl']
        rfl
      · simp [position?, objectAt?_reword_of_get w hsame, hl,
          objectAt?_reword w (show isPart "start" = true by decide), hstart]

/-! ### Height -/

mutual

theorem height_reword : ∀ t : Tree, (t.reword w).height ≤ t.height
  | .arr items => by
      rw [reword, height, height]
      exact Nat.succ_le_succ (heightItems_reword items)
  | .obj members => by
      rw [reword, height, height]
      exact Nat.succ_le_succ (heightMembers_reword _ _ members)
  | .null | .bool _ | .int _ | .float _ | .str _ => le_rfl

theorem heightItems_reword : ∀ ts : List Tree, heightItems (rewordItems w ts) ≤ heightItems ts
  | [] => le_rfl
  | t :: ts => by
      rw [rewordItems, heightItems, heightItems]
      exact max_le_max (height_reword t) (heightItems_reword ts)

theorem heightMembers_reword : ∀ (called sheds : Bool) (ms : List (String × Tree)),
    heightMembers (rewordMembers w called sheds ms) ≤ heightMembers ms
  | _, _, [] => le_rfl
  | called, sheds, (key, t) :: ms => by
      have hlabel : ∀ u : Tree, (u.label w.name).height = u.height := fun u => by cases u <;> rfl
      have ht : (rewordMember w called key t).height ≤ t.height := by
        rw [rewordMember]
        split
        · exact le_rfl
        · split
          · rw [hlabel]
            exact height_reword t
          · exact height_reword t
      rw [rewordMembers_cons]
      split
      · exact (heightMembers_reword called sheds ms).trans (le_max_right _ _)
      · exact max_le_max ht (heightMembers_reword called sheds ms)

end

end Tree

/-! ### Rewording a node -/

namespace Node

/-- A node in other words, where it stands. -/
def reword (w : Wording) (n : Node) : Node := ⟨n.path, n.value.reword w⟩

variable (w : Wording) (n : Node)

@[simp] theorem path_reword : (n.reword w).path = n.path := rfl

@[simp] theorem value_reword : (n.reword w).value = n.value.reword w := rfl

@[simp] theorem reword_absent : absent.reword w = absent := rfl

theorem get_reword {key : String} (h : Tree.isPart key = true) :
    (n.reword w).get key = (n.get key).reword w :=
  congrArg (Node.mk (n.path ++ [.member key])) (Tree.get_reword_part w h n.value)

/-! ### What reads the same -/

@[simp] theorem truthy_reword : (n.reword w).truthy = n.truthy := Tree.truthy_reword ..

@[simp] theorem isObj_reword : (n.reword w).isObj = n.isObj := Tree.isObj_reword ..

@[simp] theorem isNull_reword : (n.reword w).isNull = n.isNull := by simp [isNull]

@[simp] theorem type_reword : (n.reword w).type = n.type.reword w := Tree.get_reword_type w n.value

@[simp] theorem hasType_reword (type : String) : (n.reword w).hasType type = n.hasType type := by
  simp [hasType]

@[simp] theorem typeName?_reword : (n.reword w).typeName? = n.typeName? := by
  rw [typeName?, type_reword, typeName?]
  cases n.type <;> rfl

@[simp] theorem isTyped_reword : (n.reword w).isTyped = n.isTyped := by simp [isTyped]

@[simp] theorem isIdentifier_reword : (n.reword w).isIdentifier = n.isIdentifier :=
  hasType_reword w n _

theorem height_reword : (n.reword w).height ≤ n.height := Tree.height_reword w n.value

@[simp] theorem place_reword : (n.reword w).place = n.place := by simp [place]

@[simp] theorem same_reword (m : Node) : (n.reword w).same (m.reword w) = n.same m := by
  simp [same]

/-- What an identifier is called afterwards. -/
theorem name_reword (h : n.isIdentifier = true) :
    (n.reword w).value.get "name" = (n.value.get "name").relabel w :=
  Tree.get_reword_name w (of_decide_eq_true h)

/-- Unless annotations are taken away, a node is where it was said to be, in other words. -/
theorem site?_reword (hs : w.sheds = false) :
    (n.reword w).site? = n.site?.map (Position.reword w) := by
  simp only [site?, isObj_reword, truthy_reword, value_reword, Tree.position?_reword hs]
  split
  · rfl
  · rw [Option.map_some, Position.reword_unknown]

theorem position?_reword (hs : w.sheds = false) :
    (n.reword w).position? = n.position?.map (Position.reword w) := by
  simp only [position?, isObj_reword, truthy_reword, value_reword, Tree.position?_reword hs]
  split
  · rw [Option.map_some, Position.reword_unknown]
  · split <;> rfl

/-- A place that a message can name can be named in other words. -/
theorem site?_isSome_reword (h : n.site?.isSome = true) : (n.reword w).site?.isSome = true := by
  simp only [site?, isObj_reword, truthy_reword, value_reword] at h ⊢
  split
  · rename_i ho
    rw [if_pos ho] at h
    exact Tree.position?_isSome_reword w h
  · rfl

/-! ### What is read as nodes -/

theorem itemsFrom_reword (p : Path) (i : Nat) (ts : List Tree) :
    itemsFrom p i (Tree.rewordItems w ts) = (itemsFrom p i ts).map (reword w) := by
  induction ts generalizing i with
  | nil => rfl
  | cons t ts ih => rw [Tree.rewordItems, itemsFrom, ih]; rfl

@[simp] theorem items_reword : (n.reword w).items = n.items.map (reword w) := by
  obtain ⟨p, t⟩ := n
  cases t with
  | arr ts => exact itemsFrom_reword w p 0 ts
  | _ => rfl

/-- Nodes that stand for the keys of an object: texts, and at least one. -/
structure AreKeys (ns : List Node) : Prop where
  given : ns ≠ []
  text : ∀ c ∈ ns, ∃ s, c.value = .str s

theorem AreKeys.cons {ns : List Node} (h : AreKeys ns) :
    ∃ c cs s, ns = c :: cs ∧ c.value = .str s := by
  cases ns with
  | nil => exact absurd rfl h.given
  | cons c cs =>
      obtain ⟨s, hs⟩ := h.text c List.mem_cons_self
      exact ⟨c, cs, s, rfl, hs⟩

theorem areKeys_itemsFrom (p : Path) (i : Nat) {members : List (String × Tree)}
    (h : members ≠ []) : AreKeys (itemsFrom p i (members.map fun m => .str m.1)) := by
  refine ⟨?_, ?_⟩
  · cases members with
    | nil => exact absurd rfl h
    | cons m ms => exact List.cons_ne_nil _ _
  · induction members generalizing i with
    | nil => exact nofun
    | cons m ms ih =>
        rintro c (_ | ⟨_, hc⟩)
        · exact ⟨m.1, rfl⟩
        · cases ms with
          | nil => cases hc
          | cons m' ms => exact ih (i + 1) (List.cons_ne_nil _ _) c hc

/-- **What a member offers one after the other** is offered in other words, unless it is an object:
then some keys are offered, before and after. -/
theorem sequence?_reword : (n.reword w).sequence? = n.sequence?.map (List.map (reword w)) ∨
    ∃ ns ns', n.sequence? = some ns ∧ (n.reword w).sequence? = some ns' ∧ AreKeys ns ∧
      AreKeys ns' := by
  rw [sequence?, sequence?, value_reword, Tree.truthy_reword]
  obtain ⟨p, t⟩ := n
  cases ht : t.truthy with
  | false => exact .inl rfl
  | true =>
      cases t with
      | arr ts => exact .inl (congrArg some (itemsFrom_reword w p 0 ts))
      | str s =>
          -- The characters of a text are what they were.
          refine .inl (congrArg some ?_)
          have htexts := itemsFrom_reword w p 0 (s.toList.map fun c => .str c.toString)
          rw [Tree.rewordItems_eq_map, List.map_map] at htexts
          exact htexts
      | obj ms =>
          have hms : ms ≠ [] := by
            rintro rfl
            cases ht
          exact .inr ⟨_, _, rfl, rfl, areKeys_itemsFrom p 0 hms,
            areKeys_itemsFrom p 0 fun h => hms ((Tree.rewordMembers_eq_nil w).1 h)⟩
      | _ => exact .inl rfl

theorem typedAt_reword : (n.reword w).typedAt = n.typedAt.map (reword w) := by
  have htyped : ∀ l : List Node,
      (l.map (reword w)).filter isTyped = (l.filter isTyped).map (reword w) := by
    intro l
    rw [List.filter_map]
    exact congrArg (List.map (reword w)) (List.filter_congr fun m _ => isTyped_reword w m)
  obtain ⟨p, t⟩ := n
  cases t with
  | arr ts =>
      show (itemsFrom p 0 (Tree.rewordItems w ts)).filter isTyped = _
      rw [itemsFrom_reword, htyped]
      rfl
  | obj ms =>
      show (if (reword w ⟨p, .obj ms⟩).isTyped then [reword w ⟨p, .obj ms⟩] else []) = _
      rw [isTyped_reword, typedAt]
      split <;> rfl
  | _ => rfl

/-- What becomes of a member that is a part offers what the member offered. -/
theorem typedAt_rewordMember {called : Bool} {key : String} (h : metadata.contains key = false)
    (p : Path) (t : Tree) : typedAt ⟨p, Tree.rewordMember w called key t⟩ =
      (typedAt ⟨p, t⟩).map (reword w) := by
  have hannotates : annotates key = false := by rw [annotates, h, Bool.and_false]
  have hlabel : ∀ u : Tree, typedAt ⟨p, u.label w.name⟩ = typedAt ⟨p, u⟩ := fun u => by
    cases u <;> rfl
  rw [Tree.rewordMember, if_neg (by simp [hannotates])]
  -- A name is no node, whatever it is called.
  split
  · rw [hlabel]
    exact typedAt_reword w ⟨p, t⟩
  · exact typedAt_reword w ⟨p, t⟩

theorem typedAt_rewordMembers (called sheds : Bool) (p : Path) (ms : List (String × Tree)) :
    ((Tree.rewordMembers w called sheds ms).filter (fun m => !metadata.contains m.1)).flatMap
        (fun m => typedAt ⟨p ++ [.member m.1], m.2⟩) =
      ((ms.filter (fun m => !metadata.contains m.1)).flatMap
        (fun m => typedAt ⟨p ++ [.member m.1], m.2⟩)).map (reword w) := by
  induction ms with
  | nil => rfl
  | cons m ms ih =>
      obtain ⟨key, t⟩ := m
      rw [Tree.rewordMembers_cons]
      cases hk : metadata.contains key with
      | true =>
          have hskip : ∀ (t : Tree) (rest : List (String × Tree)),
              ((key, t) :: rest).filter (fun m => !metadata.contains m.1) =
                rest.filter fun m => !metadata.contains m.1 :=
            fun t rest => List.filter_cons_of_neg (by simp only [hk]; decide)
          rw [hskip]
          split
          · exact ih
          · rw [hskip, ih]
      | false =>
          have hannotates : annotates key = false := by rw [annotates, hk, Bool.and_false]
          rw [if_neg (by simp [hannotates]), List.filter_cons_of_pos (by simp only [hk]; decide),
            List.filter_cons_of_pos (by simp only [hk]; decide), List.flatMap_cons,
            List.flatMap_cons, List.map_append, ih, typedAt_rewordMember w hk]

/-- The children of a node in other words are its children in other words. -/
@[simp] theorem children_reword : (n.reword w).children = n.children.map (reword w) := by
  obtain ⟨p, t⟩ := n
  cases t with
  | obj ms => exact typedAt_rewordMembers w _ _ p ms
  | _ => rfl

end Node

end LexScope
