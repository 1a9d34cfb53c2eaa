import LexScope.Tree.Basic
import LexScope.Decimal.Binary

/-!
# Name — what identifiers are called, and tables of names

An identifier's name is normally a text, and a tree may put any other value there, or none.  Two
names are the same when they are equal as values: a truth value counts as `0` or `1`, and a
fractional number that is whole counts as that whole number.  `Name` is the form in which equal
names are equal; a list or an object is no name (`Name.ofTree?`).

A table gives each name an entry, in the order in which the names were first put in.  Putting an
entry under a name that has one replaces it in its place.
-/

namespace LexScope

/-- A name, in the form in which equal names are equal. -/
inductive Name where
  | missing
  | text (s : String)
  | whole (n : Int)
  | fraction (bits : UInt64)
  deriving Repr, DecidableEq, Inhabited

/-- The name a value stands for. -/
def Name.ofTree? : Tree → Option Name
  | .null => some .missing
  | .bool b => some (.whole (if b then 1 else 0))
  | .int n => some (.whole n)
  | .float bits =>
      match (Decimal.Double.ofBits bits).toInt? with
      | some n => some (.whole n)
      | none => some (.fraction bits)
  | .str s => some (.text s)
  | .arr _ | .obj _ => none

/-- A name that is a text comes from that text. -/
theorem Name.ofTree?_eq_text {t : Tree} {s : String} :
    Name.ofTree? t = some (.text s) ↔ t = .str s := by
  cases t with
  | float bits =>
      simp only [Name.ofTree?]
      split <;> simp
  | _ => simp [Name.ofTree?]

/-- The name under which a function finds the list of its arguments. -/
def argumentsName : String := "arguments"

/-- Entries by name, in the order in which the names were first put in. -/
abbrev Table (α : Type) := List (Name × α)

namespace Table

variable {α : Type}

/-- The entry of a name. -/
def find? : Table α → Name → Option α
  | [], _ => none
  | (m, a) :: t, n => if m = n then some a else find? t n

/-- Give a name an entry: in its place if it has one, else at the end. -/
def put : Table α → Name → α → Table α
  | [], n, a => [(n, a)]
  | (m, b) :: t, n, a => if m = n then (m, a) :: t else (m, b) :: put t n a

/-- The names of a table. -/
def names (t : Table α) : List Name := t.map (·.1)

/-- The entries of a table. -/
def entries (t : Table α) : List α := t.map (·.2)

@[simp] theorem find?_put (t : Table α) (n : Name) (a : α) (m : Name) :
    (t.put n a).find? m = if n = m then some a else t.find? m := by
  induction t with
  | nil => simp [put, find?]
  | cons e t ih =>
      obtain ⟨k, b⟩ := e
      by_cases h : k = n
      · subst h; by_cases hm : k = m <;> simp [put, find?, hm]
      · by_cases hm : k = m
        · subst hm; simp [put, find?, h, Ne.symm h]
        · simp [put, find?, h, hm, ih]

/-- A new name goes to the end, and a present one stays where it is. -/
theorem names_put (t : Table α) (n : Name) (a : α) :
    (t.put n a).names = if n ∈ t.names then t.names else t.names ++ [n] := by
  induction t with
  | nil => simp [put, names]
  | cons e t ih =>
      obtain ⟨k, b⟩ := e
      by_cases h : k = n
      · subst h; simp [put, names]
      · have hn : n ≠ k := fun e => h e.symm
        simp only [names] at ih
        by_cases hm : n ∈ t.map (·.1) <;> simp [put, names, h, hn, ih, hm]

/-- What look-up finds is an entry. -/
theorem mem_of_find? {t : Table α} {n : Name} {a : α} (h : t.find? n = some a) : (n, a) ∈ t := by
  induction t with
  | nil => cases h
  | cons e t ih =>
      obtain ⟨k, b⟩ := e
      by_cases hk : k = n
      · subst hk; simp [find?] at h; simp [h]
      · exact List.mem_cons_of_mem _ (ih (by simpa [find?, hk] using h))

/-- Putting an entry in adds nothing else. -/
theorem mem_put {t : Table α} {n : Name} {a : α} {e : Name × α} (h : e ∈ t.put n a) :
    e = (n, a) ∨ e ∈ t := by
  induction t with
  | nil => simpa [put] using h
  | cons f t ih =>
      obtain ⟨k, b⟩ := f
      by_cases hk : k = n
      · subst hk; simp [put] at h; rcases h with rfl | h <;> simp [*]
      · simp [put, hk] at h
        rcases h with rfl | h
        · simp
        · rcases ih h with rfl | h <;> simp [*]

end Table

/-! ### Order -/

namespace Name

/-- The ratio that a numeric name stands for; an infinity has the denominator zero. -/
def ratio? : Name → Option (Int × Nat)
  | .whole n => some (n, 1)
  | .fraction bits =>
      match Decimal.Double.ofBits bits with
      | .finite negative x =>
          let m : Int := if negative then -x.significand else x.significand
          some (m * Nat.pow 2 x.exponent.toNat, Nat.pow 2 (-x.exponent).toNat)
      | .infinite negative => some (if negative then -1 else 1, 0)
      | .nan => none
  | _ => none

/-- Whether one name comes no later than another, where that can be said: texts by their characters,
numbers by their size. -/
def le? : Name → Name → Option Bool
  | .text a, .text b => some !(decide (b < a))
  | m, n => do
      let (a, b) ← m.ratio?
      let (c, d) ← n.ratio?
      return decide (a * d ≤ c * b)

end Name

namespace Table

variable {α : Type}

/-- Put an entry into a sorted table, in front of the first name that does not come before it. -/
def insertSorted? : Table α → Name × α → Option (Table α)
  | [], e => some [e]
  | f :: t, e => do
      if ← e.1.le? f.1 then return e :: f :: t
      return f :: (← insertSorted? t e)

/-- The entries in the order of their names.  Names that cannot be compared have no order. -/
def sorted? : Table α → Option (Table α)
  | [] => some []
  | e :: t => do (← sorted? t).insertSorted? e

end Table

end LexScope
