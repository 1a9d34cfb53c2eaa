/-!
# Tree — the values a program tree is made of

A program reaches the analysis as a tree of plain data: objects with named members, lists, and
scalars.  The members of an object keep the order in which they were written, because the walk
visits the children of an unknown node in that order.

A `Tree` promises nothing about its shape.  A member may be missing, an object may stand where a
list is expected; what each reader does then is part of its rule, and the two helpers that most
of them share are here: `get` (a missing member reads as `null`) and `truthy` (which values count
as *given*).
-/

namespace LexScope

/-- A value of plain data.  A fractional number is kept as the bit pattern of its double. -/
inductive Tree where
  | null
  | bool (b : Bool)
  | int (n : Int)
  | float (bits : UInt64)
  | str (s : String)
  | arr (items : List Tree)
  | obj (members : List (String × Tree))
  deriving Repr, Inhabited

namespace Tree

/-! ### Equality -/

mutual

/-- Equality of trees is decided by descending both at once. -/
def decEq : (a b : Tree) → Decidable (a = b)
  | .null, .null => isTrue rfl
  | .bool a, .bool b => if h : a = b then isTrue (h ▸ rfl) else isFalse (by simpa using h)
  | .int a, .int b => if h : a = b then isTrue (h ▸ rfl) else isFalse (by simpa using h)
  | .float a, .float b => if h : a = b then isTrue (h ▸ rfl) else isFalse (by simpa using h)
  | .str a, .str b => if h : a = b then isTrue (h ▸ rfl) else isFalse (by simpa using h)
  | .arr a, .arr b =>
      match decEqItems a b with
      | isTrue h => isTrue (h ▸ rfl)
      | isFalse h => isFalse (by simpa using h)
  | .obj a, .obj b =>
      match decEqMembers a b with
      | isTrue h => isTrue (h ▸ rfl)
      | isFalse h => isFalse (by simpa using h)
  | .null, .bool _ | .null, .int _ | .null, .float _ | .null, .str _ | .null, .arr _
  | .null, .obj _ => isFalse nofun
  | .bool _, .null | .bool _, .int _ | .bool _, .float _ | .bool _, .str _ | .bool _, .arr _
  | .bool _, .obj _ => isFalse nofun
  | .int _, .null | .int _, .bool _ | .int _, .float _ | .int _, .str _ | .int _, .arr _
  | .int _, .obj _ => isFalse nofun
  | .float _, .null | .float _, .bool _ | .float _, .int _ | .float _, .str _ | .float _, .arr _
  | .float _, .obj _ => isFalse nofun
  | .str _, .null | .str _, .bool _ | .str _, .int _ | .str _, .float _ | .str _, .arr _
  | .str _, .obj _ => isFalse nofun
  | .arr _, .null | .arr _, .bool _ | .arr _, .int _ | .arr _, .float _ | .arr _, .str _
  | .arr _, .obj _ => isFalse nofun
  | .obj _, .null | .obj _, .bool _ | .obj _, .int _ | .obj _, .float _ | .obj _, .str _
  | .obj _, .arr _ => isFalse nofun

/-- Equality of lists of trees. -/
def decEqItems : (a b : List Tree) → Decidable (a = b)
  | [], [] => isTrue rfl
  | [], _ :: _ | _ :: _, [] => isFalse nofun
  | x :: xs, y :: ys =>
      match decEq x y, decEqItems xs ys with
      | isTrue h, isTrue hs => isTrue (by rw [h, hs])
      | isFalse h, _ => isFalse (fun e => h (List.cons.inj e).1)
      | _, isFalse hs => isFalse (fun e => hs (List.cons.inj e).2)

/-- Equality of members: the same names with the same values in the same order. -/
def decEqMembers : (a b : List (String × Tree)) → Decidable (a = b)
  | [], [] => isTrue rfl
  | [], _ :: _ | _ :: _, [] => isFalse nofun
  | (k, x) :: xs, (l, y) :: ys =>
      if hk : k = l then
        match decEq x y, decEqMembers xs ys with
        | isTrue h, isTrue hs => isTrue (by rw [hk, h, hs])
        | isFalse h, _ => isFalse (fun e => h (Prod.mk.inj (List.cons.inj e).1).2)
        | _, isFalse hs => isFalse (fun e => hs (List.cons.inj e).2)
      else isFalse (fun e => hk (Prod.mk.inj (List.cons.inj e).1).1)

end

instance : DecidableEq Tree := decEq

/-! ### Reading -/

/-- The value of a member, `null` when the tree has no such member. -/
def get : Tree → String → Tree
  | .obj members, key => (members.lookup key).getD .null
  | _, _ => .null

/-- Whether a tree is an object. -/
def isObj : Tree → Bool
  | .obj _ => true
  | _ => false

/-- Whether a tree can stand in a table of names: every scalar can, a list or an object cannot. -/
def isScalar : Tree → Bool
  | .arr _ | .obj _ => false
  | _ => true

/-- Whether a value counts as given: not `null`, `false`, a zero, or something empty. -/
def truthy : Tree → Bool
  | .null => false
  | .bool b => b
  | .int n => n != 0
  | .float bits => bits <<< 1 != 0
  | .str s => s != ""
  | .arr items => !items.isEmpty
  | .obj members => !members.isEmpty

/-- The value itself when it is given, else another one. -/
def orElse (t other : Tree) : Tree := if t.truthy then t else other

/-! ### Height -/

mutual

/-- How many lists and objects are nested in one another. -/
def height : Tree → Nat
  | .arr items => heightItems items + 1
  | .obj members => heightMembers members + 1
  | _ => 0

/-- The greatest height among the items of a list. -/
def heightItems : List Tree → Nat
  | [] => 0
  | t :: ts => max t.height (heightItems ts)

/-- The greatest height among the values of an object. -/
def heightMembers : List (String × Tree) → Nat
  | [] => 0
  | (_, t) :: ms => max t.height (heightMembers ms)

end

/-- An item of a list is no higher than the highest one. -/
theorem height_le_heightItems {t : Tree} {items : List Tree} (h : t ∈ items) :
    t.height ≤ heightItems items := by
  induction items with
  | nil => cases h
  | cons u us ih =>
      simp only [heightItems]
      rcases List.mem_cons.1 h with rfl | h
      · exact Nat.le_max_left _ _
      · exact Nat.le_trans (ih h) (Nat.le_max_right _ _)

/-- A member's value is no higher than the highest one. -/
theorem height_le_heightMembers {k : String} {t : Tree} {members : List (String × Tree)}
    (h : (k, t) ∈ members) : t.height ≤ heightMembers members := by
  induction members with
  | nil => cases h
  | cons m ms ih =>
      obtain ⟨l, u⟩ := m
      simp only [heightMembers]
      rcases List.mem_cons.1 h with h | h
      · cases h; exact Nat.le_max_left _ _
      · exact Nat.le_trans (ih h) (Nat.le_max_right _ _)

/-- What look-up finds is a member. -/
theorem mem_of_lookup {k : String} {t : Tree} {members : List (String × Tree)}
    (h : members.lookup k = some t) : (k, t) ∈ members := by
  induction members with
  | nil => cases h
  | cons m ms ih =>
      obtain ⟨l, u⟩ := m
      by_cases hk : k = l
      · subst hk; simp at h; simp [h]
      · have hb : (k == l) = false := by simpa using hk
        rw [List.lookup_cons, hb] at h
        exact List.mem_cons_of_mem _ (ih h)

/-- Reading a member of an object descends. -/
theorem height_get_lt {t : Tree} (h : t.isObj) (k : String) : (t.get k).height < t.height := by
  cases t with
  | obj members =>
      simp only [get, height]
      cases hl : members.lookup k with
      | none => simp [height]
      | some u =>
          simpa using Nat.lt_succ_of_le (height_le_heightMembers (mem_of_lookup hl))
  | _ => cases h

end Tree

end LexScope
