import LexScope.Proofs.Lookup

/-!
# Proofs — Rename — giving the identifiers of a variable another name

A *renaming* says which variable is called what instead of what, and where the identifiers stand
that name it (`Renaming`).  Renaming a tree changes the name of the nodes at these places and
nothing else (`Tree.rename`).  Metadata is no part of the program and is left as it is.

A node is renamed where it stands (`Node.rename`).  Whatever a walk reads off a node reads the same
after renaming, up to the renaming of the nodes found; only a name can read differently
(`name_rename`).  So nothing but names can make the walk over a renamed tree another one.
-/

namespace LexScope

/-- One variable gets another name. -/
structure Renaming where
  /-- The variable and the scope that binds it. -/
  var : VariableId
  scope : ScopeId
  old : String
  new : String
  /-- Where the identifiers stand that name the variable. -/
  places : List Path
  deriving Repr, DecidableEq

/-! ### Renaming a tree -/

namespace Tree

mutual

/-- The tree at a place, with another name at the places of a renaming. -/
def rename (ρ : Renaming) : Path → Tree → Tree
  | p, .arr items => .arr (renameItems ρ p 0 items)
  | p, .obj members => .obj (renameMembers ρ p members)
  | _, t => t

/-- The items of a list at a place, from an index on. -/
def renameItems (ρ : Renaming) : Path → Nat → List Tree → List Tree
  | _, _, [] => []
  | p, i, t :: ts => t.rename ρ (p ++ [.item i]) :: renameItems ρ p (i + 1) ts

/-- The members of an object at a place. -/
def renameMembers (ρ : Renaming) : Path → List (String × Tree) → List (String × Tree)
  | _, [] => []
  | p, (key, t) :: ms =>
      (key,
        if key = "name" ∧ p ∈ ρ.places ∧ t = .str ρ.old then .str ρ.new
        else if Node.metadata.contains key then t
        else t.rename ρ (p ++ [.member key])) :: renameMembers ρ p ms

end

variable (ρ : Renaming) (p : Path)

/-- What becomes of one member of an object at a place. -/
def renameMember (key : String) (t : Tree) : Tree :=
  if key = "name" ∧ p ∈ ρ.places ∧ t = .str ρ.old then .str ρ.new
  else if Node.metadata.contains key then t
  else t.rename ρ (p ++ [.member key])

theorem renameMembers_cons (key : String) (t : Tree) (ms : List (String × Tree)) :
    renameMembers ρ p ((key, t) :: ms) = (key, renameMember ρ p key t) :: renameMembers ρ p ms :=
  rfl

theorem renameMembers_eq_map (ms : List (String × Tree)) :
    renameMembers ρ p ms = ms.map fun m => (m.1, renameMember ρ p m.1 m.2) := by
  induction ms with
  | nil => rfl
  | cons m ms ih => rw [List.map_cons, ← ih, renameMembers_cons]

/-! ### What a renamed tree is like -/

@[simp] theorem rename_null : (Tree.null).rename ρ p = .null := rfl

@[simp] theorem rename_str (s : String) : (Tree.str s).rename ρ p = .str s := rfl

variable {ρ p}

@[simp] theorem rename_eq_null {t : Tree} : t.rename ρ p = .null ↔ t = .null := by
  cases t <;> simp [rename]

@[simp] theorem rename_eq_str {t : Tree} {s : String} : t.rename ρ p = .str s ↔ t = .str s := by
  cases t <;> simp [rename]

variable (ρ p)

@[simp] theorem truthy_rename (t : Tree) : (t.rename ρ p).truthy = t.truthy := by
  cases t with
  | arr items => cases items <;> rfl
  | obj members => cases members <;> rfl
  | _ => rfl

@[simp] theorem isObj_rename (t : Tree) : (t.rename ρ p).isObj = t.isObj := by
  cases t <;> rfl

/-- A value that can be a name is left as it is. -/
theorem ofTree?_rename (t : Tree) : Name.ofTree? (t.rename ρ p) = Name.ofTree? t := by
  cases t <;> rfl

theorem rename_of_ofTree? {t : Tree} {key : Name} (h : Name.ofTree? t = some key) :
    t.rename ρ p = t := by
  cases t with
  | arr => cases h
  | obj => cases h
  | _ => rfl

/-! ### Members -/

@[simp] theorem renameMember_null (key : String) : renameMember ρ p key .null = .null := by
  simp [renameMember]

theorem renameMember_metadata {key : String} (h : Node.metadata.contains key = true) (t : Tree) :
    renameMember ρ p key t = t := by
  have hname : key ≠ "name" := by
    rintro rfl
    exact absurd h (by decide)
  rw [renameMember, if_neg fun hk => hname hk.1, if_pos h]

theorem lookup_renameMembers (key : String) (ms : List (String × Tree)) :
    (renameMembers ρ p ms).lookup key = (ms.lookup key).map (renameMember ρ p key) := by
  induction ms with
  | nil => rfl
  | cons m ms ih =>
      obtain ⟨k, t⟩ := m
      rw [renameMembers_cons, List.lookup_cons, List.lookup_cons]
      by_cases hk : key = k
      · subst hk; simp
      · have hb : (key == k) = false := by simpa using hk
        rw [hb]
        exact ih

/-- Reading a member of a renamed tree. -/
theorem get_rename (t : Tree) (key : String) :
    (t.rename ρ p).get key = renameMember ρ p key (t.get key) := by
  cases t with
  | obj members =>
      show ((renameMembers ρ p members).lookup key).getD .null = _
      rw [lookup_renameMembers]
      cases h : members.lookup key <;> simp [get, h]
  | _ => simp [rename, get]

theorem get_rename_metadata {key : String} (h : Node.metadata.contains key = true) (t : Tree) :
    (t.rename ρ p).get key = t.get key := by
  rw [get_rename, renameMember_metadata ρ p h]

/-- Whether a member is a part of the program other than a name. -/
def isPart (key : String) : Bool := key != "name" && !Node.metadata.contains key

theorem get_rename_part {key : String} (h : isPart key = true) (t : Tree) :
    (t.rename ρ p).get key = (t.get key).rename ρ (p ++ [.member key]) := by
  simp only [isPart, Bool.and_eq_true, bne_iff_ne, Bool.not_eq_true'] at h
  rw [get_rename, renameMember, if_neg fun hk => h.1 hk.1, h.2]
  rfl

theorem objectAt?_rename {key : String} (h : isPart key = true) (t : Tree) :
    (t.rename ρ p).objectAt? key = (t.objectAt? key).map (rename ρ (p ++ [.member key])) := by
  simp only [objectAt?, get_rename_part ρ p h, truthy_rename, isObj_rename]
  split
  · rfl
  · split <;> rfl

/-! ### Height -/

mutual

theorem height_rename : ∀ (p : Path) (t : Tree), (t.rename ρ p).height = t.height
  | p, .arr items => by rw [rename, height, height, heightItems_rename p 0 items]
  | p, .obj members => by rw [rename, height, height, heightMembers_rename p members]
  | _, .null | _, .bool _ | _, .int _ | _, .float _ | _, .str _ => rfl

theorem heightItems_rename :
    ∀ (p : Path) (i : Nat) (ts : List Tree), heightItems (renameItems ρ p i ts) = heightItems ts
  | _, _, [] => rfl
  | p, i, t :: ts => by
      rw [renameItems, heightItems, heightItems, height_rename _ t, heightItems_rename p (i + 1) ts]

theorem heightMembers_rename : ∀ (p : Path) (ms : List (String × Tree)),
    heightMembers (renameMembers ρ p ms) = heightMembers ms
  | _, [] => rfl
  | p, (key, t) :: ms => by
      have ht : (renameMember ρ p key t).height = t.height := by
        rw [renameMember]
        split
        · rename_i h; rw [h.2.2]; rfl
        · split
          · rfl
          · exact height_rename _ t
      rw [renameMembers_cons, heightMembers, heightMembers, ht, heightMembers_rename p ms]

end

end Tree

/-! ### Renaming a node -/

namespace Node

/-- A node, renamed where it stands. -/
def rename (ρ : Renaming) (n : Node) : Node := ⟨n.path, n.value.rename ρ n.path⟩

variable (ρ : Renaming) (n : Node)

@[simp] theorem path_rename : (n.rename ρ).path = n.path := rfl

@[simp] theorem value_rename : (n.rename ρ).value = n.value.rename ρ n.path := rfl

@[simp] theorem rename_absent : absent.rename ρ = absent := rfl

theorem get_rename {key : String} (h : Tree.isPart key = true) :
    (n.rename ρ).get key = (n.get key).rename ρ :=
  congrArg (Node.mk (n.path ++ [.member key])) (Tree.get_rename_part ρ n.path h n.value)

/-! ### What reads the same -/

@[simp] theorem truthy_rename : (n.rename ρ).truthy = n.truthy := Tree.truthy_rename ..

@[simp] theorem isObj_rename : (n.rename ρ).isObj = n.isObj := Tree.isObj_rename ..

@[simp] theorem isNull_rename : (n.rename ρ).isNull = n.isNull := by simp [isNull]

@[simp] theorem type_rename : (n.rename ρ).type = n.type :=
  Tree.get_rename_metadata ρ n.path (by decide) n.value

@[simp] theorem hasType_rename (type : String) : (n.rename ρ).hasType type = n.hasType type := by
  simp [hasType]

@[simp] theorem typeName?_rename : (n.rename ρ).typeName? = n.typeName? := by simp [typeName?]

@[simp] theorem isTyped_rename : (n.rename ρ).isTyped = n.isTyped := by simp [isTyped]

@[simp] theorem isIdentifier_rename : (n.rename ρ).isIdentifier = n.isIdentifier :=
  hasType_rename ρ n _

@[simp] theorem height_rename : (n.rename ρ).height = n.height :=
  Tree.height_rename ρ n.path n.value

@[simp] theorem place_rename : (n.rename ρ).place = n.place := by simp [place]

@[simp] theorem same_rename (m : Node) : (n.rename ρ).same (m.rename ρ) = n.same m := by
  simp [same]

@[simp] theorem site?_rename : (n.rename ρ).site? = n.site? := by
  have hloc : (n.value.rename ρ n.path).position? = n.value.position? := by
    simp only [Tree.position?, Tree.objectAt?, Tree.get_rename_metadata ρ n.path
      (show metadata.contains "loc" = true by decide)]
  simp only [site?, isObj_rename, truthy_rename, value_rename, hloc]

/-! ### What is read as nodes -/

theorem itemsFrom_rename (p : Path) (i : Nat) (ts : List Tree) :
    itemsFrom p i (Tree.renameItems ρ p i ts) = (itemsFrom p i ts).map (rename ρ) := by
  induction ts generalizing i with
  | nil => rfl
  | cons t ts ih => rw [Tree.renameItems, itemsFrom, ih]; rfl

theorem itemsFrom_texts (p : Path) (i : Nat) (ts : List String) :
    (itemsFrom p i (ts.map .str)).map (rename ρ) = itemsFrom p i (ts.map .str) := by
  induction ts generalizing i with
  | nil => rfl
  | cons t ts ih => rw [List.map_cons, itemsFrom, List.map_cons, ih]; rfl

@[simp] theorem items_rename : (n.rename ρ).items = n.items.map (rename ρ) := by
  obtain ⟨p, t⟩ := n
  cases t with
  | arr ts => exact itemsFrom_rename ρ p 0 ts
  | _ => rfl

@[simp] theorem sequence?_rename :
    (n.rename ρ).sequence? = n.sequence?.map (List.map (rename ρ)) := by
  rw [sequence?, sequence?, value_rename, Tree.truthy_rename]
  obtain ⟨p, t⟩ := n
  cases ht : t.truthy with
  | false => rfl
  | true =>
      cases t with
      | arr ts => exact congrArg some (itemsFrom_rename ρ p 0 ts)
      | str s =>
          -- The characters of a text and the keys of an object are no places to rename.
          have hchars := itemsFrom_texts ρ p 0 (s.toList.map (·.toString))
          rw [List.map_map] at hchars
          exact congrArg some hchars.symm
      | obj ms =>
          have hkeys := itemsFrom_texts ρ p 0 (ms.map (·.1))
          rw [List.map_map] at hkeys
          have hsame : (Tree.renameMembers ρ p ms).map (fun m => Tree.str m.1) =
              ms.map fun m => Tree.str m.1 := by
            rw [Tree.renameMembers_eq_map, List.map_map]
            rfl
          show some (itemsFrom p 0 ((Tree.renameMembers ρ p ms).map fun m => Tree.str m.1)) = _
          rw [hsame]
          exact congrArg some hkeys.symm
      | _ => rfl

theorem typedAt_rename : (n.rename ρ).typedAt = n.typedAt.map (rename ρ) := by
  have htyped : ∀ l : List Node,
      (l.map (rename ρ)).filter isTyped = (l.filter isTyped).map (rename ρ) := by
    intro l
    rw [List.filter_map]
    exact congrArg (List.map (rename ρ)) (List.filter_congr fun m _ => isTyped_rename ρ m)
  obtain ⟨p, t⟩ := n
  cases t with
  | arr ts =>
      show (itemsFrom p 0 (Tree.renameItems ρ p 0 ts)).filter isTyped = _
      rw [itemsFrom_rename, htyped]
      rfl
  | obj ms =>
      show (if (rename ρ ⟨p, .obj ms⟩).isTyped then [rename ρ ⟨p, .obj ms⟩] else []) = _
      rw [isTyped_rename, typedAt]
      split <;> rfl
  | _ => rfl

/-- The children of a renamed node are its children renamed. -/
@[simp] theorem children_rename : (n.rename ρ).children = n.children.map (rename ρ) := by
  obtain ⟨p, t⟩ := n
  have hmembers : ∀ ms : List (String × Tree),
      ((Tree.renameMembers ρ p ms).filter (fun m => !metadata.contains m.1)).flatMap
          (fun m => typedAt ⟨p ++ [.member m.1], m.2⟩) =
        ((ms.filter (fun m => !metadata.contains m.1)).flatMap
          (fun m => typedAt ⟨p ++ [.member m.1], m.2⟩)).map (rename ρ) := by
    intro ms
    induction ms with
    | nil => rfl
    | cons m ms ih =>
        obtain ⟨key, t⟩ := m
        rw [Tree.renameMembers_cons]
        cases hk : metadata.contains key with
        | true =>
            rw [List.filter_cons_of_neg (by simp only [hk]; decide),
              List.filter_cons_of_neg (by simp only [hk]; decide), ih]
        | false =>
            rw [List.filter_cons_of_pos (by simp only [hk]; decide),
              List.filter_cons_of_pos (by simp only [hk]; decide), List.flatMap_cons,
              List.flatMap_cons, List.map_append, ih]
            congr 1
            -- A name is no node, neither before it is changed nor afterwards.
            by_cases hname : key = "name" ∧ p ∈ ρ.places ∧ t = .str ρ.old
            · rw [Tree.renameMember, if_pos hname, hname.2.2]
              rfl
            · rw [Tree.renameMember, if_neg hname, hk]
              exact typedAt_rename ρ ⟨p ++ [.member key], t⟩
  cases t with
  | obj ms => exact hmembers ms
  | _ => rfl

/-! ### Names -/

/-- Whether the name of a node is changed. -/
def IsRenamed (ρ : Renaming) (n : Node) : Prop :=
  n.path ∈ ρ.places ∧ n.value.get "name" = .str ρ.old

instance : Decidable (n.IsRenamed ρ) := inferInstanceAs (Decidable (_ ∧ _))

/-- What a renamed node is called: its name is the new one, or reads as before. -/
theorem ofTree?_name_rename : Name.ofTree? ((n.rename ρ).value.get "name") =
    if n.IsRenamed ρ then some (.text ρ.new) else Name.ofTree? (n.value.get "name") := by
  rw [value_rename, Tree.get_rename, Tree.renameMember]
  by_cases h : n.IsRenamed ρ
  · rw [if_pos ⟨rfl, h⟩, if_pos h]
    rfl
  · rw [if_neg fun hk => h hk.2, if_neg h, if_neg (by decide), Tree.ofTree?_rename]

theorem name_rename {key : Name} (h : Name.ofTree? (n.value.get "name") = some key) :
    (n.rename ρ).value.get "name" =
      if n.IsRenamed ρ then .str ρ.new else n.value.get "name" := by
  rw [value_rename, Tree.get_rename, Tree.renameMember]
  by_cases hr : n.IsRenamed ρ
  · rw [if_pos ⟨rfl, hr⟩, if_pos hr]
  · rw [if_neg fun hk => hr hk.2, if_neg hr, if_neg (by decide), Tree.rename_of_ofTree? ρ _ h]

/-- A name that the renaming is not about is had after it by the nodes that had it before. -/
theorem name_eq_str_rename {s : String} (ho : s ≠ ρ.old) (hn : s ≠ ρ.new) :
    ((n.rename ρ).get "name").value = .str s ↔ (n.get "name").value = .str s := by
  show (n.value.rename ρ n.path).get "name" = _ ↔ n.value.get "name" = _
  rw [Tree.get_rename, Tree.renameMember]
  by_cases hr : n.IsRenamed ρ
  · rw [if_pos ⟨rfl, hr⟩, hr.2, Tree.str.injEq, Tree.str.injEq]
    exact ⟨fun e => absurd e.symm hn, fun e => absurd e.symm ho⟩
  · rw [if_neg fun hk => hr hk.2, if_neg (by decide), Tree.rename_eq_str]

end Node

end LexScope
