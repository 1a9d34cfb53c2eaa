import LexScope.Decimal.Whole
import Mathlib.Data.List.Induction
import Mathlib.Data.Nat.Digits.Defs

/-!
# Proofs — Numeral — whole numbers are read as they are written

A `Numeral` is a whole number in all the ways in which it may be written: blanks around it, a sign
or none, digits of any script in groups with an underscore between two of them.

* `trim_solid`: what is left between blanks.
* `isGrouped_joined`, `filterMap_joined`: groups of digits are recognised, and no digit is lost.
* `intOf?_text`: **a numeral is read as the number that its digits stand for.**
-/

namespace LexScope

namespace Text

variable {c : Char}

/-- No digit of any script is a blank. -/
theorem isBlank_of_isDigit (h : isDigit c = true) : isBlank c = false := by
  have hapart : ∀ z ∈ zeros, ∀ r ∈ blankRanges, z + 9 < r.1 ∨ r.2 < z := by decide
  rw [isDigit, digit?, Option.isSome_map, List.find?_isSome] at h
  obtain ⟨z, hz, hc⟩ := h
  rw [isBlank, List.any_eq_false]
  intro r hr hblank
  simp only [Bool.and_eq_true, decide_eq_true_eq] at hc hblank
  have := hapart z hz r hr
  omega

end Text

namespace Decimal

/-- A whole number as it is written. -/
structure Numeral where
  before : List Char := []
  /-- The sign, if there is one: `true` for a minus. -/
  sign : Option Bool := none
  groups : List (List Char)
  after : List Char := []
  deriving Repr, DecidableEq

namespace Numeral

/-- The characters of the sign. -/
def signChars (n : Numeral) : List Char :=
  match n.sign with
  | none => []
  | some minus => [if minus then '-' else '+']

/-- The groups with an underscore between two of them. -/
def joined (n : Numeral) : List Char := List.intercalate ['_'] n.groups

/-- The numeral as a word. -/
def text (n : Numeral) : String :=
  String.ofList (n.before ++ (n.signChars ++ n.joined) ++ n.after)

/-- The digits, the first one first. -/
def digits (n : Numeral) : List Nat := n.groups.flatten.filterMap Text.digit?

/-- The number that the digits and the sign stand for. -/
def value (n : Numeral) : Int :=
  let size : Nat := Nat.ofDigits 10 n.digits.reverse
  if n.sign = some true then -(size : Int) else size

/-- There are blanks around groups of digits, and not too many digits. -/
structure IsValid (n : Numeral) : Prop where
  before : n.before.all Text.isBlank = true
  some_group : n.groups ≠ []
  groups : ∀ g ∈ n.groups, g ≠ [] ∧ g.all Text.isDigit = true
  after : n.after.all Text.isBlank = true
  fits : n.groups.flatten.length ≤ 4300

instance (n : Numeral) : Decidable n.IsValid :=
  decidable_of_iff (n.before.all Text.isBlank = true ∧ n.groups ≠ [] ∧
      (∀ g ∈ n.groups, g ≠ [] ∧ g.all Text.isDigit = true) ∧ n.after.all Text.isBlank = true ∧
      n.groups.flatten.length ≤ 4300)
    ⟨fun ⟨hb, hs, hg, ha, hf⟩ => ⟨hb, hs, hg, ha, hf⟩,
      fun h => ⟨h.before, h.some_group, h.groups, h.after, h.fits⟩⟩

end Numeral

variable {n : Numeral} {g cs rest : List Char} {gs : List (List Char)} {c : Char}

/-! ### Groups of digits -/

/-- A digit before anything but an underscore. -/
theorem isGrouped_cons (hc : Text.isDigit c = true) (hne : cs ≠ [])
    (hhead : cs.head? ≠ some '_') : isGrouped (c :: cs) = isGrouped cs := by
  cases cs with
  | nil => exact absurd rfl hne
  | cons d cs =>
      have hd : d ≠ '_' := fun heq => hhead (congrArg some heq)
      rw [isGrouped, hc, Bool.true_and]
      · exact nofun
      · exact fun _ heq => hd (List.cons.inj heq).1

theorem ne_underscore (hc : Text.isDigit c = true) : c ≠ '_' := by
  rintro rfl
  exact absurd hc (by decide)

theorem head?_ne_underscore (hg : g.all Text.isDigit = true) : g.head? ≠ some '_' :=
  fun heq => ne_underscore (List.all_eq_true.1 hg _ (List.mem_of_mem_head? heq)) rfl

theorem isGrouped_digits (hne : g ≠ []) (hg : g.all Text.isDigit = true) :
    isGrouped g = true := by
  induction g with
  | nil => exact absurd rfl hne
  | cons c g ih =>
      obtain ⟨hc, hg⟩ := Bool.and_eq_true_iff.1 (List.all_cons.symm.trans hg)
      by_cases hlast : g = []
      · rw [hlast]
        exact hc
      · rw [isGrouped_cons hc hlast (head?_ne_underscore hg)]
        exact ih hlast hg

theorem isGrouped_append (hne : g ≠ []) (hg : g.all Text.isDigit = true) :
    isGrouped (g ++ '_' :: rest) = isGrouped rest := by
  induction g with
  | nil => exact absurd rfl hne
  | cons c g ih =>
      obtain ⟨hc, hg⟩ := Bool.and_eq_true_iff.1 (List.all_cons.symm.trans hg)
      cases g with
      | nil =>
          rw [List.singleton_append, isGrouped, hc]
          rfl
      | cons d g =>
          have hnext : (d :: g ++ '_' :: rest).head? ≠ some '_' := fun heq =>
            ne_underscore (List.all_eq_true.1 hg d List.mem_cons_self) (Option.some.inj heq)
          rw [List.cons_append, isGrouped_cons hc (by simp) hnext]
          exact ih (List.cons_ne_nil d g) hg

theorem intercalate_cons (hne : gs ≠ []) :
    List.intercalate ['_'] (g :: gs) = g ++ '_' :: List.intercalate ['_'] gs := by
  rw [List.intercalate_cons_of_ne_nil hne, List.append_assoc]
  rfl

/-- **Groups of digits with an underscore between two of them are recognised.** -/
theorem isGrouped_joined (hne : gs ≠ [])
    (hgs : ∀ g ∈ gs, g ≠ [] ∧ g.all Text.isDigit = true) :
    isGrouped (List.intercalate ['_'] gs) = true := by
  induction gs with
  | nil => exact absurd rfl hne
  | cons g gs ih =>
      obtain ⟨⟨hg, hdigits⟩, hgs⟩ := List.forall_mem_cons.1 hgs
      cases gs with
      | nil =>
          rw [List.intercalate_singleton]
          exact isGrouped_digits hg hdigits
      | cons g' gs =>
          rw [intercalate_cons (List.cons_ne_nil g' gs), isGrouped_append hg hdigits]
          exact ih (List.cons_ne_nil g' gs) hgs

/-- The underscores are no digits. -/
theorem filterMap_joined (gs : List (List Char)) :
    (List.intercalate ['_'] gs).filterMap Text.digit? = gs.flatten.filterMap Text.digit? := by
  induction gs with
  | nil => rfl
  | cons g gs ih =>
      cases gs with
      | nil => simp
      | cons g' gs =>
          have hnone : Text.digit? '_' = none := by decide
          rw [intercalate_cons (List.cons_ne_nil g' gs), List.flatten_cons, List.filterMap_append,
            List.filterMap_append, List.filterMap_cons, hnone, ih]

theorem mem_joined (hc : c ∈ List.intercalate ['_'] gs) : c = '_' ∨ ∃ g ∈ gs, c ∈ g := by
  induction gs with
  | nil => cases hc
  | cons g gs ih =>
      cases gs with
      | nil =>
          rw [List.intercalate_singleton] at hc
          exact .inr ⟨g, List.mem_cons_self, hc⟩
      | cons g' gs =>
          rw [intercalate_cons (List.cons_ne_nil g' gs), List.mem_append, List.mem_cons] at hc
          rcases hc with hc | hc | hc
          · exact .inr ⟨g, List.mem_cons_self, hc⟩
          · exact .inl hc
          · exact (ih hc).imp_right fun ⟨g, hg, hc⟩ => ⟨g, List.mem_cons_of_mem _ hg, hc⟩

/-- The value of a row of digits, counted from the last one. -/
theorem valueOf_eq (ds : List Nat) : valueOf ds = Nat.ofDigits 10 ds.reverse := by
  induction ds using List.reverseRecOn with
  | nil => rfl
  | append_singleton ds d ih =>
      rw [valueOf, List.foldl_append, ← valueOf, ih, List.reverse_append, List.reverse_singleton,
        List.singleton_append, Nat.ofDigits_cons, List.foldl_cons, List.foldl_nil]
      ring

namespace Numeral.IsValid

variable (h : n.IsValid)

include h

/-- The groups without a sign are read as a number. -/
theorem natOf?_joined : natOf? n.joined = some (Nat.ofDigits 10 n.digits.reverse) := by
  have hlength : (n.joined.filterMap Text.digit?).length ≤ digitLimit := by
    rw [joined, filterMap_joined]
    exact (List.length_filterMap_le _ _).trans h.fits
  have hgrouped : isGrouped n.joined = true := isGrouped_joined h.some_group h.groups
  rw [natOf?, hgrouped, decide_eq_true hlength, joined, filterMap_joined, valueOf_eq]
  rfl

theorem mem_joined_solid (hc : c ∈ n.joined) : Text.isBlank c = false := by
  rcases mem_joined hc with rfl | ⟨g, hg, hc⟩
  · decide
  · exact Text.isBlank_of_isDigit (List.all_eq_true.1 (h.groups g hg).2 c hc)

/-- The groups start with a digit. -/
theorem joined_eq : ∃ c cs, n.joined = c :: cs ∧ Text.isDigit c = true := by
  have hgrouped : isGrouped n.joined = true := isGrouped_joined h.some_group h.groups
  unfold isGrouped at hgrouped
  split at hgrouped
  · cases hgrouped
  · exact ⟨_, _, ‹_›, hgrouped⟩
  · exact ⟨_, _, ‹_›, (Bool.and_eq_true_iff.1 hgrouped).1⟩
  · exact ⟨_, _, ‹_›, (Bool.and_eq_true_iff.1 hgrouped).1⟩

end Numeral.IsValid

/-! ### Blanks and signs -/

/-- Blanks are taken away up to the first character that is none. -/
theorem dropWhile_solid {p : Char → Bool} (hcs : ∀ c ∈ cs, p c = true) (hne : g ≠ [])
    (hg : ∀ c ∈ g, p c = false) : (cs ++ (g ++ rest)).dropWhile p = g ++ rest := by
  rw [List.dropWhile_append_of_pos hcs]
  cases g with
  | nil => exact absurd rfl hne
  | cons c g =>
      rw [List.cons_append, List.dropWhile_cons_of_neg]
      simp [hg c List.mem_cons_self]

/-- What is left between blanks. -/
theorem trim_solid {p : Char → Bool} (hcs : ∀ c ∈ cs, p c = true)
    (hrest : ∀ c ∈ rest, p c = true) (hne : g ≠ []) (hg : ∀ c ∈ g, p c = false) :
    (((cs ++ g ++ rest).dropWhile p).reverse.dropWhile p).reverse = g := by
  have hback : (g ++ rest).reverse = rest.reverse ++ (g.reverse ++ []) := by simp
  rw [List.append_assoc, dropWhile_solid hcs hne hg, hback,
    dropWhile_solid (fun c hc => hrest c (List.mem_reverse.1 hc)) (by simpa using hne)
      (fun c hc => hg c (List.mem_reverse.1 hc)), List.append_nil, List.reverse_reverse]

/-- **A numeral is read as the number that its digits stand for.** -/
theorem intOf?_text (h : n.IsValid) : intOf? n.text = some n.value := by
  obtain ⟨first, others, hjoined, hfirst⟩ := h.joined_eq
  have hne : n.signChars ++ n.joined ≠ [] := by simp [hjoined]
  have hsolid : ∀ c ∈ n.signChars ++ n.joined, Text.isBlank c = false := by
    intro c hc
    rcases List.mem_append.1 hc with hc | hc
    · rw [Numeral.signChars] at hc
      split at hc
      · cases hc
      · rename_i minus _
        obtain rfl := List.mem_singleton.1 hc
        cases minus <;> decide
    · exact h.mem_joined_solid hc
  have hnat := h.natOf?_joined
  simp only [intOf?, Numeral.text, String.toList_ofList, trim_solid (List.all_eq_true.1 h.before)
    (List.all_eq_true.1 h.after) hne hsolid]
  rw [Numeral.value, Numeral.signChars]
  cases hsign : n.sign with
  | none =>
      have hminus : first ≠ '-' := by rintro rfl; exact absurd hfirst (by decide)
      have hplus : first ≠ '+' := by rintro rfl; exact absurd hfirst (by decide)
      rw [List.nil_append, hjoined]
      split
      · exact absurd (List.cons.inj ‹_›).1 hminus
      · exact absurd (List.cons.inj ‹_›).1 hplus
      · rw [← hjoined, hnat]
        rfl
  | some minus => cases minus <;> simp [hnat]

end Decimal

end LexScope
