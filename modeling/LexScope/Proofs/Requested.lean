import LexScope.CommandLine.Invocation
import LexScope.Proofs.Numeral
import Mathlib.Data.List.TakeWhile

/-!
# Proofs — Requested — what a row of flags asks for

Behind `analyze` and the file to read may stand any flags, in any order, each as often as one likes.
A `Flag` is one of them with its value.  It may be written in several ways (`Given`): its name in
full or only as much of it as no other option starts with, its value in the next word or, after `=`,
in the same.  In front of `analyze` may stand any number of words that ask for a log.

* `Word.of_plain`, `Given.IsValid.word_of`, `Given.IsValid.clear`: what each word is taken for, by
  the command and in front of it.
* `Given.IsValid.readFrom`, `readFrom_given`: **the flags of a row act one after the other.**
* `foldl_set`: the flags that choose a value leave the last choice, and the others are set or not.
* `Invocation.of_given`: **a command line asks for what its flags set**, whatever a reader takes for
  attached (`Convention`).

Values that are words of their own, and the file, are *plain*: they do not start with a dash, or are
a dash or a negative number.
-/

namespace LexScope.CommandLine

/-- A flag of `analyze`, with its value if it takes one. -/
inductive Flag where
  | out (path : String)
  | format (format : Report.Format)
  | noReferences
  | ecmaVersion (version : Decimal.Numeral)
  | moduleCode
  | directive
  | optimistic
  | ignoreEval
  | impliedStrict
  | undeclared
  | strict
  deriving Repr, DecidableEq

/-- A word that is no option: it does not start with a dash, or all that follows are digits. -/
def IsPlain (word : String) : Prop :=
  word.toList.head? = some '-' → word.toList.tail.all Text.isDigit = true

instance (word : String) : Decidable (IsPlain word) := inferInstanceAs (Decidable (_ → _))

/-- The names of the flags. -/
def flagNames : List String :=
  ["--out", "--format", "--no-references", "--ecma-version", "--module", "--directive",
    "--optimistic", "--ignore-eval", "--implied-strict", "--undeclared", "--strict"]

/-- The names of the options behind `analyze`. -/
def optionNames : List String := "-h" :: "--help" :: flagNames

namespace Flag

/-- The option that gives a flag. -/
def name : Flag → String
  | out _ => "--out"
  | format _ => "--format"
  | noReferences => "--no-references"
  | ecmaVersion _ => "--ecma-version"
  | moduleCode => "--module"
  | directive => "--directive"
  | optimistic => "--optimistic"
  | ignoreEval => "--ignore-eval"
  | impliedStrict => "--implied-strict"
  | undeclared => "--undeclared"
  | strict => "--strict"

/-- The value that a flag comes with. -/
def value? : Flag → Option String
  | out path => some path
  | format .text => some "text"
  | format .json => some "json"
  | ecmaVersion version => some version.text
  | _ => none

/-- The file that a flag chooses for the report. -/
def path? : Flag → Option String
  | out path => some path
  | _ => none

/-- The format that a flag chooses. -/
def format? : Flag → Option Report.Format
  | format f => some f
  | _ => none

/-- The language version that a flag names. -/
def numeral? : Flag → Option Decimal.Numeral
  | ecmaVersion version => some version
  | _ => none

/-- The language version that a flag chooses. -/
def version? (flag : Flag) : Option Int := flag.numeral?.map Decimal.Numeral.value

/-- What a flag does to a request. -/
def set (r : AnalyzeRequest) : Flag → AnalyzeRequest
  | out path => { r with out := path }
  | format f => { r with format := some f }
  | noReferences => { r with noReferences := true }
  | ecmaVersion version => { r with ecmaVersion := some version.value }
  | moduleCode => { r with isModule := true }
  | directive => { r with directive := true }
  | optimistic => { r with optimistic := true }
  | ignoreEval => { r with ignoreEval := true }
  | impliedStrict => { r with impliedStrict := true }
  | undeclared => { r with undeclared := true }
  | strict => { r with strict := true }

end Flag

/-- A flag as it is written. -/
structure Given where
  flag : Flag
  /-- What is written of its name. -/
  stem : String
  /-- Whether the value stands in the same word. -/
  attached : Bool := false
  deriving Repr, DecidableEq

namespace Given

/-- The words that give a flag. -/
def words (g : Given) : List String :=
  match g.flag.value? with
  | none => [g.stem]
  | some value => if g.attached then [g.stem ++ "=" ++ value] else [g.stem, value]

/-- A flag whose name can be told from the others, with a value that a reader takes for one. -/
structure IsValid (c : Convention) (g : Given) : Prop where
  stem : ∀ name ∈ optionNames, name.startsWith g.stem = true ↔ name = g.flag.name
  version : ∀ version ∈ g.flag.numeral?, version.IsValid
  plain : g.attached = false → ∀ value ∈ g.flag.value?, IsPlain value
  attached : g.attached = true → ∀ value ∈ g.flag.value?, value ≠ "--" ∨ c.keepsDashes = true

instance (c : Convention) (g : Given) : Decidable (g.IsValid c) :=
  decidable_of_iff ((∀ name ∈ optionNames, name.startsWith g.stem = true ↔ name = g.flag.name) ∧
      (∀ version ∈ g.flag.numeral?, version.IsValid) ∧
      (g.attached = false → ∀ value ∈ g.flag.value?, IsPlain value) ∧
      (g.attached = true → ∀ value ∈ g.flag.value?, value ≠ "--" ∨ c.keepsDashes = true))
    ⟨fun ⟨hs, hv, hp, ha⟩ => ⟨hs, hv, hp, ha⟩, fun h => ⟨h.stem, h.version, h.plain, h.attached⟩⟩

end Given

/-- What the flags of a row ask for, of a file. -/
def requestOf (file : String) (flags : List Flag) : AnalyzeRequest where
  input := file
  out := (flags.filterMap Flag.path?).getLastD ""
  format := some ((flags.filterMap Flag.format?).getLastD .text)
  noReferences := .noReferences ∈ flags
  ecmaVersion := some ((flags.filterMap Flag.version?).getLastD 6)
  isModule := .moduleCode ∈ flags
  directive := .directive ∈ flags
  optimistic := .optimistic ∈ flags
  ignoreEval := .ignoreEval ∈ flags
  impliedStrict := .impliedStrict ∈ flags
  undeclared := .undeclared ∈ flags
  strict := .strict ∈ flags

/-! ### Words -/

variable {names : List String} {word name stem value : String} {c : Convention} {g : Given}

/-- A name that cannot be mistaken for a number. -/
def IsOptionName (name : String) : Prop :=
  name.toList.tail.head?.any (fun c => !Text.isDigit c) = true

instance (name : String) : Decidable (IsOptionName name) := inferInstanceAs (Decidable (_ = _))

/-- What starts an option is none, if it starts with a digit behind its dash or stops there. -/
theorem IsOptionName.not_start {cs : List Char} (hname : IsOptionName name)
    (h : ∀ c ∈ cs, Text.isDigit c = true) (hcs : cs ≠ []) : ¬ '-' :: cs <+: name.toList := by
  rintro ⟨rest, hrest⟩
  cases cs with
  | nil => exact hcs rfl
  | cons c cs =>
      rw [IsOptionName, ← hrest] at hname
      have hdigit := h c List.mem_cons_self
      simp [hdigit] at hname

/-- A word that does not start with a dash is an argument. -/
theorem Word.of_undashed (h : word.toList.head? ≠ some '-') : Word.of names word = .argument := by
  have hno : word.startsWith "-" = false := by
    rw [Bool.eq_false_iff]
    intro hstarts
    obtain ⟨rest, hrest⟩ := String.startsWith_string_iff.1 hstarts
    exact h (hrest ▸ rfl)
  rw [Word.of, hno]
  rfl

section

variable {cs : List Char} (hcs : word.toList = '-' :: cs)
  (hdigits : ∀ c ∈ cs, Text.isDigit c = true)

include hcs

/-- Nothing is attached in a number. -/
theorem splitValue_number (hdigits : ∀ c ∈ cs, Text.isDigit c = true) : splitValue word = none := by
  have hplain : ∀ c ∈ word.toList, decide (c ≠ '=') = true := by
    intro c hc
    rw [hcs] at hc
    rcases List.mem_cons.1 hc with rfl | hc
    · rfl
    · refine decide_eq_true ?_
      rintro rfl
      exact absurd (hdigits _ hc) (by decide)
  rw [splitValue, List.dropWhile_eq_nil_iff.2 hplain]

include hdigits

theorem isNegativeNumber_number (hne : cs ≠ []) : isNegativeNumber word = true := by
  have hdrop : cs.dropWhile Text.isDigit = [] := List.dropWhile_eq_nil_iff.2 hdigits
  have htake : cs.takeWhile Text.isDigit = cs := List.takeWhile_eq_self_iff.2 hdigits
  rw [isNegativeNumber, hcs]
  simp [hdrop, htake, hne, isEnd]

/-- A number is not short for an option. -/
theorem matchesOf_number (hnames : ∀ name ∈ names, IsOptionName name) (hne : cs ≠ []) :
    matchesOf names word = [] := by
  have hlong : word.startsWith "--" = false := by
    rw [Bool.eq_false_iff]
    intro hstarts
    obtain ⟨rest, hrest⟩ := String.startsWith_string_iff.1 hstarts
    rw [hcs] at hrest
    obtain rfl := (List.cons.inj hrest).2
    exact absurd (hdigits '-' List.mem_cons_self) (by decide)
  rw [matchesOf, hlong]
  refine List.filterMap_eq_nil_iff.2 fun name hname => ?_
  have hstem : name ≠ String.ofList (word.toList.take 2) := by
    rintro rfl
    have hshort : '-' :: cs.take 1 <+: (String.ofList (word.toList.take 2)).toList := by
      rw [String.toList_ofList, hcs]
      exact List.prefix_refl _
    exact (hnames _ hname).not_start (fun c hc => hdigits c (List.mem_of_mem_take hc))
      (by simpa using hne) hshort
  have hno : name.startsWith word = false := by
    rw [Bool.eq_false_iff, ne_eq, String.startsWith_string_iff, hcs]
    exact (hnames name hname).not_start hdigits hne
  rw [if_neg hstem, hno]
  rfl

/-- A dash, or a negative number, is an argument. -/
theorem Word.of_number (hnames : ∀ name ∈ names, IsOptionName name) :
    Word.of names word = .argument := by
  have hstarts : word.startsWith "-" = true :=
    String.startsWith_string_iff.2 ⟨cs, by rw [hcs]; rfl⟩
  have hnew : names.contains word = false := by
    rw [List.contains_eq_mem, decide_eq_false_iff_not]
    intro hmem
    have hoption := hnames word hmem
    by_cases hne : cs = []
    · rw [IsOptionName, hcs, hne] at hoption
      cases hoption
    · exact hoption.not_start hdigits hne (hcs ▸ List.prefix_refl _)
  rw [Word.of, hstarts, hnew]
  by_cases hlone : word = "-"
  · simp [hlone]
  · have hne : cs ≠ [] := by
      rintro rfl
      exact hlone (String.toList_inj.1 (hcs.trans rfl))
    simp [hlone, splitValue_number hcs hdigits, matchesOf_number hcs hdigits hnames hne,
      isNegativeNumber_number hcs hdigits hne]

end

/-- **A plain word is an argument.** -/
theorem Word.of_plain (hnames : ∀ name ∈ names, IsOptionName name) (h : IsPlain word) :
    Word.of names word = .argument := by
  by_cases hdash : word.toList.head? = some '-'
  · cases hword : word.toList with
    | nil => rw [hword] at hdash; cases hdash
    | cons c cs =>
        rw [IsPlain, hword] at h
        rw [hword] at hdash
        obtain rfl : c = '-' := Option.some.inj hdash
        exact Word.of_number hword (List.all_eq_true.1 (h rfl)) hnames
  · exact Word.of_undashed hdash

theorem IsPlain.ne_dashes (h : IsPlain word) : word ≠ "--" := by
  rintro rfl
  exact absurd h (by decide)

theorem splitValue_none (h : '=' ∉ stem.toList) : splitValue stem = none := by
  have hall : ∀ c ∈ stem.toList, decide (c ≠ '=') = true := fun c hc =>
    decide_eq_true fun heq => h (heq ▸ hc)
  rw [splitValue, List.dropWhile_eq_nil_iff.2 hall]

/-- A word with a value attached is not `--`. -/
theorem attached_ne : stem ++ "=" ++ value ≠ "--" := fun heq => by
  have hmem : '=' ∈ (stem ++ "=" ++ value).toList := by simp
  exact absurd (heq ▸ hmem) (by decide)

theorem splitValue_attached (h : '=' ∉ stem.toList) :
    splitValue (stem ++ "=" ++ value) = some (stem, value) := by
  have hall : ∀ c ∈ stem.toList, decide (c ≠ '=') = true := fun c hc =>
    decide_eq_true fun heq => h (heq ▸ hc)
  have hword : (stem ++ "=" ++ value).toList = stem.toList ++ '=' :: value.toList := by simp
  rw [splitValue, hword, List.dropWhile_append_of_pos hall, List.takeWhile_append_of_pos hall]
  simp

/-- The dashes in front of a word stay where they are if something is written behind it. -/
theorem startsWith_append (h : stem.startsWith word = true) (rest : String) :
    (stem ++ rest).startsWith word = true := by
  rw [String.startsWith_string_iff] at h ⊢
  rw [String.toList_append]
  exact h.trans (List.prefix_append _ _)

theorem matchesOf_stem (hdashes : stem.startsWith "--" = true) (h : '=' ∉ stem.toList) :
    matchesOf names stem = (names.filter (·.startsWith stem)).map (·, none) := by
  rw [matchesOf, if_pos hdashes, splitValue_none h]

theorem matchesOf_attached (hdashes : stem.startsWith "--" = true) (h : '=' ∉ stem.toList) :
    matchesOf names (stem ++ "=" ++ value) =
      (names.filter (·.startsWith stem)).map (·, some value) := by
  rw [matchesOf, String.append_assoc, if_pos (startsWith_append hdashes _), ← String.append_assoc,
    splitValue_attached h]

/-- A word that no two options start with is not ambiguous. -/
theorem Word.of_ne_ambiguous (h : (matchesOf names word).length ≤ 1) :
    Word.of names word ≠ .ambiguous := by
  unfold Word.of
  match matchesOf names word, h with
  | [], _ => grind
  | [_], _ => grind
  | _ :: _ :: _, h => simp at h

theorem dash_of_dashes (h : word.startsWith "--" = true) : word.startsWith "-" = true :=
  String.startsWith_string_iff.2
    (List.IsPrefix.trans ⟨['-'], rfl⟩ (String.startsWith_string_iff.1 h))

theorem ne_dash_of_dashes (h : word.startsWith "--" = true) : word ≠ "-" := by
  rintro rfl
  exact absurd h (by decide)

section

variable (hdashes : stem.startsWith "--" = true) (hno : '=' ∉ stem.toList)
  (honly : names.filter (·.startsWith stem) = [name])

include honly in
/-- A name in full is the only one that it starts. -/
theorem eq_of_mem (h : stem ∈ names) : stem = name := by
  have hself : stem.startsWith stem = true :=
    String.startsWith_string_iff.2 (List.prefix_refl _)
  exact List.mem_singleton.1 (honly ▸ List.mem_filter.2 ⟨h, hself⟩)

include hdashes hno honly

/-- The start of a name is the option, if only one name starts that way. -/
theorem Word.of_stem : Word.of names stem = .option name none := by
  rw [Word.of, dash_of_dashes hdashes]
  by_cases hknown : stem ∈ names
  · obtain rfl := eq_of_mem honly hknown
    simp [hknown]
  · simp [hknown, ne_dash_of_dashes hdashes, splitValue_none hno, matchesOf_stem hdashes hno, honly]

/-- What is attached to the start of a name is its value. -/
theorem Word.of_attached (hnames : ∀ name ∈ names, '=' ∉ name.toList) :
    Word.of names (stem ++ "=" ++ value) = .option name (some value) := by
  have hlong : (stem ++ "=" ++ value).startsWith "--" = true :=
    String.append_assoc ▸ startsWith_append hdashes _
  have hnew : names.contains (stem ++ "=" ++ value) = false := by
    rw [List.contains_eq_mem, decide_eq_false_iff_not]
    exact fun hmem => hnames _ hmem (by simp)
  rw [Word.of, dash_of_dashes hlong, hnew, splitValue_attached hno, matchesOf_attached hdashes hno,
    honly]
  by_cases hknown : stem ∈ names
  · obtain rfl := eq_of_mem honly hknown
    simp [hknown, ne_dash_of_dashes hlong]
  · simp [hknown, ne_dash_of_dashes hlong]

end

/-! ### Flags -/

variable {α : Type} {grammar : Grammar α} {attached : Option String} {values values' : α}
  {rest rest' words : List String} {fuel : Nat} {r : Reading α} {flag : Flag}

namespace Flag

theorem name_mem (flag : Flag) : flag.name ∈ flagNames := by
  cases flag <;> (simp only [name]; decide)

theorem mem_options (flag : Flag) : flag.name ∈ optionNames :=
  List.mem_cons_of_mem _ (List.mem_cons_of_mem _ flag.name_mem)

/-- A flag with a value is given by an option that takes this value and sets what the flag sets. -/
theorem lookup_value (hvalue : flag.value? = some value)
    (hversion : ∀ version ∈ flag.numeral?, version.IsValid) :
    ∃ set, analyzeGrammar.lookup flag.name = some (.value set) ∧
      ∀ r, set (some value) r = some (flag.set r) := by
  cases flag with
  | out path =>
      cases hvalue
      exact ⟨_, rfl, fun r => rfl⟩
  | format f =>
      cases f <;> (cases hvalue; exact ⟨_, rfl, fun r => rfl⟩)
  | ecmaVersion version =>
      cases hvalue
      have hread := Decimal.intOf?_text (hversion version rfl)
      exact ⟨_, rfl, fun r => by simp [hread, set]⟩
  | _ => cases hvalue

/-- Any other flag is given by an option that stands alone. -/
theorem lookup_switch (hvalue : flag.value? = none) :
    ∃ set, analyzeGrammar.lookup flag.name = some (.switch set) ∧ ∀ r, set r = flag.set r := by
  cases flag with
  | out path => cases hvalue
  | format f => cases f <;> cases hvalue
  | ecmaVersion version => cases hvalue
  | _ => exact ⟨_, rfl, fun r => rfl⟩

end Flag

namespace Grammar

/-- An option that takes a value acts with the value there is for it. -/
theorem act_value {set : Option String → α → Option α}
    (hname : grammar.lookup name = some (.value set))
    (hvalue : grammar.valueFor c attached rest = some (some value, rest'))
    (hset : set (some value) values = some values') :
    grammar.act c word name attached rest values = .ok { values := values', rest := rest' } := by
  simp [act, hname, hvalue, hset]

/-- An option that takes no value acts alone. -/
theorem act_switch {set : α → α} (hname : grammar.lookup name = some (.switch set))
    (hword : word.startsWith (name ++ "=") = false) :
    grammar.act c word name none rest values = .ok { values := set values, rest := rest } := by
  have htogether : together grammar c.cutsLetters name [] = some ([name], false) := rfl
  simp [act, hname, hword, htogether, actAll, Except.map]

/-- An option acts and the reading goes on behind it. -/
theorem readFrom_option {stop : Bool} (hne : word ≠ "--")
    (hword : Word.of grammar.names word = .option name attached)
    (hact : grammar.act c word name attached words r.values = .ok { values := values', rest }) :
    grammar.readFrom c stop (fuel + 1) (word :: words) r =
      grammar.readFrom c stop fuel rest { r with values := values' } := by
  simp [readFrom, hne, hword, hact]

theorem isClear_of_forall (h : ∀ w ∈ words, Word.of grammar.names w ≠ .ambiguous) :
    grammar.isClear words = true := by
  rw [isClear, List.all_eq_true]
  exact fun w hw => decide_eq_true (h w (List.takeWhile_subset _ hw))

end Grammar

/-- No option behind `analyze` can be mistaken for a number. -/
theorem isOptionName_of_analyze : ∀ name ∈ analyzeGrammar.names, IsOptionName name := by
  decide

/-- No option in front of `analyze` can be mistaken for a number. -/
theorem isOptionName_of_main : ∀ name ∈ mainGrammar.names, IsOptionName name := by
  decide

namespace Given.IsValid

variable (h : g.IsValid c)

include h

theorem stem_start : g.stem.toList <+: g.flag.name.toList :=
  String.startsWith_string_iff.1 ((h.stem _ g.flag.mem_options).2 rfl)

/-- What is written is not as short as to start the request for help. -/
theorem not_help : ¬ g.stem.toList <+: "--help".toList := fun hhelp => by
  have heq := (h.stem "--help" (by decide)).1 (String.startsWith_string_iff.2 hhelp)
  exact absurd (heq ▸ g.flag.name_mem) (by decide)

theorem dashes : g.stem.startsWith "--" = true := by
  have hall : ∀ name ∈ flagNames, "--".toList <+: name.toList := by decide
  have hname := hall _ g.flag.name_mem
  rcases List.prefix_or_prefix_of_prefix h.stem_start hname with hshort | hlong
  · exact absurd (hshort.trans ⟨"help".toList, rfl⟩) h.not_help
  · exact String.startsWith_string_iff.2 hlong

theorem no_equals : '=' ∉ g.stem.toList := fun hmem => by
  have hall : ∀ name ∈ flagNames, '=' ∉ name.toList := by decide
  exact hall _ g.flag.name_mem (h.stem_start.subset hmem)

theorem stem_ne : g.stem ≠ "--" := fun heq =>
  h.not_help (heq ▸ ⟨"help".toList, rfl⟩)

/-- Behind `analyze`, what is written of a name stands for that name only. -/
theorem filter_names : analyzeGrammar.names.filter (·.startsWith g.stem) = [g.flag.name] := by
  have hsame : optionNames.filter (·.startsWith g.stem) =
      optionNames.filter fun name => decide (name = g.flag.name) :=
    List.filter_congr fun name hname => by
      rw [Bool.eq_iff_iff, decide_eq_true_iff]
      exact h.stem name hname
  have hone : ∀ name ∈ flagNames,
      optionNames.filter (fun other => decide (other = name)) = [name] := by decide
  have hall : analyzeGrammar.names = optionNames := rfl
  rw [hall, hsame, hone _ g.flag.name_mem]

/-- In front of `analyze`, it is short for one option at most. -/
theorem filter_front : (mainGrammar.names.filter (·.startsWith g.stem)).length ≤ 1 := by
  have hlong : "--".toList <+: g.stem.toList := String.startsWith_string_iff.1 h.dashes
  have hother : ∀ name : String, ¬ "--".toList <+: name.toList → name.startsWith g.stem = false :=
    fun name hname => by
      rw [Bool.eq_false_iff, ne_eq, String.startsWith_string_iff]
      exact fun hstem => hname (hlong.trans hstem)
  have hhelp : "--help".startsWith g.stem = false := by
    rw [Bool.eq_false_iff, ne_eq, String.startsWith_string_iff]
    exact h.not_help
  have hall : mainGrammar.names = ["-h", "--help", "-v", "--verbose"] := rfl
  rw [hall, List.filter_cons_of_neg (by simp [hother "-h" (by decide)]),
    List.filter_cons_of_neg (by simp [hhelp]),
    List.filter_cons_of_neg (by simp [hother "-v" (by decide)])]
  exact List.length_filter_le _ _

/-- A flag is given by some words, of which the first one is not `--`. -/
theorem words_eq : ∃ w ws, g.words = w :: ws ∧ w ≠ "--" := by
  rw [words]
  split
  · exact ⟨g.stem, [], rfl, h.stem_ne⟩
  · rename_i value hvalue
    split
    · exact ⟨g.stem ++ "=" ++ value, [], rfl, attached_ne⟩
    · exact ⟨g.stem, [value], rfl, h.stem_ne⟩

/-- **No word of a flag is ambiguous** among options of which what is written starts at most one. -/
theorem clear (hnames : ∀ name ∈ names, IsOptionName name)
    (hle : (names.filter (·.startsWith g.stem)).length ≤ 1) :
    ∀ w ∈ g.words, Word.of names w ≠ .ambiguous := by
  have hstem : Word.of names g.stem ≠ .ambiguous := Word.of_ne_ambiguous <| by
    rwa [matchesOf_stem h.dashes h.no_equals, List.length_map]
  intro w hw
  rw [words] at hw
  split at hw
  · obtain rfl := List.mem_singleton.1 hw
    exact hstem
  · rename_i value hvalue
    split at hw
    · obtain rfl := List.mem_singleton.1 hw
      refine Word.of_ne_ambiguous ?_
      rwa [matchesOf_attached h.dashes h.no_equals, List.length_map]
    · rename_i hapart
      rcases List.mem_cons.1 hw with rfl | hw
      · exact hstem
      · obtain rfl := List.mem_singleton.1 hw
        rw [Word.of_plain hnames (h.plain (by simpa using hapart) _ hvalue)]
        nofun

/-- **A flag is read by its option**, which takes the value it needs and sets what the flag sets. -/
theorem readFrom (fuel : Nat) (rest : List String) (r : Reading AnalyzeRequest) :
    analyzeGrammar.readFrom c false (fuel + 1) (g.words ++ rest) r =
      analyzeGrammar.readFrom c false fuel rest { r with values := g.flag.set r.values } := by
  have hstem : Word.of analyzeGrammar.names g.stem = .option g.flag.name none :=
    Word.of_stem h.dashes h.no_equals h.filter_names
  rw [words]
  cases hvalue : g.flag.value? with
  | none =>
      obtain ⟨set, hlookup, hset⟩ := Flag.lookup_switch hvalue
      have hword : g.stem.startsWith (g.flag.name ++ "=") = false := by
        rw [Bool.eq_false_iff, ne_eq, String.startsWith_string_iff]
        exact fun hstart => h.no_equals (hstart.subset (by simp))
      exact Grammar.readFrom_option h.stem_ne hstem
        (hset r.values ▸ Grammar.act_switch hlookup hword)
  | some value =>
      obtain ⟨set, hlookup, hset⟩ := Flag.lookup_value hvalue h.version
      cases hattached : g.attached with
      | true =>
          have hword : Word.of analyzeGrammar.names (g.stem ++ "=" ++ value) =
              .option g.flag.name (some value) :=
            Word.of_attached h.dashes h.no_equals h.filter_names (by decide)
          have hfor : analyzeGrammar.valueFor c (some value) rest = some (some value, rest) := by
            rcases h.attached hattached value hvalue with hvalue | hkeeps
            · simp [Grammar.valueFor, hvalue]
            · simp [Grammar.valueFor, hkeeps]
          exact Grammar.readFrom_option attached_ne hword
            (Grammar.act_value hlookup hfor (hset r.values))
      | false =>
          have hplain : IsPlain value := h.plain hattached value hvalue
          have hfor : analyzeGrammar.valueFor c none (value :: rest) = some (some value, rest) := by
            rw [Grammar.valueFor, Word.of_plain isOptionName_of_analyze hplain]
            simp [hplain.ne_dashes]
          exact Grammar.readFrom_option h.stem_ne hstem
            (Grammar.act_value hlookup hfor (hset r.values))

end Given.IsValid

/-! ### What the flags of a row set -/

/-- What is chosen by flags that only replace each other is the last choice. -/
theorem foldl_choice {β γ : Type} (get : AnalyzeRequest → γ) (choose : Flag → Option β)
    (wrap : β → γ)
    (hget : ∀ r flag, get (Flag.set r flag) = ((choose flag).map wrap).getD (get r))
    (flags : List Flag) {r : AnalyzeRequest} {start : β} (hr : get r = wrap start) :
    get (flags.foldl Flag.set r) = wrap ((flags.filterMap choose).getLastD start) := by
  induction flags generalizing r start with
  | nil => exact hr
  | cons flag flags ih =>
      cases hchoose : choose flag with
      | none =>
          rw [List.filterMap_cons_none hchoose]
          exact ih (by rw [hget, hchoose, Option.map_none, Option.getD_none, hr])
      | some b =>
          rw [List.filterMap_cons_some hchoose, List.getLastD_cons]
          exact ih (by rw [hget, hchoose, Option.map_some, Option.getD_some])

/-- What a flag switches on is on if the flag is there. -/
theorem foldl_switch (get : AnalyzeRequest → Bool) (switch : Flag)
    (hget : ∀ r flag, get (Flag.set r flag) = (decide (switch = flag) || get r))
    (flags : List Flag) (r : AnalyzeRequest) :
    get (flags.foldl Flag.set r) = (decide (switch ∈ flags) || get r) := by
  induction flags generalizing r with
  | nil => simp
  | cons flag flags ih =>
      rw [List.foldl_cons, ih, hget]
      simp only [List.mem_cons, Bool.decide_or]
      cases decide (switch = flag) <;> simp

/-- **The flags of a row leave the last choice of each value, and set what they switch on.** -/
theorem foldl_set (file : String) (flags : List Flag) :
    { flags.foldl Flag.set {} with input := file } = requestOf file flags := by
  have hout := foldl_choice (·.out) Flag.path? id (by rintro r (_ | _) <;> rfl) flags
    (show ({} : AnalyzeRequest).out = id "" from rfl)
  have hformat := foldl_choice (·.format) Flag.format? some (by rintro r (_ | _) <;> rfl) flags
    (show ({} : AnalyzeRequest).format = some .text from rfl)
  have hversion := foldl_choice (·.ecmaVersion) Flag.version? some (by rintro r (_ | _) <;> rfl)
    flags (show ({} : AnalyzeRequest).ecmaVersion = some 6 from rfl)
  have hswitch : ∀ (get : AnalyzeRequest → Bool) (switch : Flag),
      (∀ r flag, get (Flag.set r flag) = (decide (switch = flag) || get r)) → get {} = false →
        get (flags.foldl Flag.set {}) = decide (switch ∈ flags) := fun get switch hget hstart => by
    rw [foldl_switch get switch hget, hstart, Bool.or_false]
  have hreferences := hswitch (·.noReferences) .noReferences
    (by rintro r (_ | _) <;> simp [Flag.set]) rfl
  have hmodule := hswitch (·.isModule) .moduleCode
    (by rintro r (_ | _) <;> simp [Flag.set]) rfl
  have hdirective := hswitch (·.directive) .directive
    (by rintro r (_ | _) <;> simp [Flag.set]) rfl
  have hoptimistic := hswitch (·.optimistic) .optimistic
    (by rintro r (_ | _) <;> simp [Flag.set]) rfl
  have heval := hswitch (·.ignoreEval) .ignoreEval
    (by rintro r (_ | _) <;> simp [Flag.set]) rfl
  have himplied := hswitch (·.impliedStrict) .impliedStrict
    (by rintro r (_ | _) <;> simp [Flag.set]) rfl
  have hundeclared := hswitch (·.undeclared) .undeclared
    (by rintro r (_ | _) <;> simp [Flag.set]) rfl
  have hstrict := hswitch (·.strict) .strict
    (by rintro r (_ | _) <;> simp [Flag.set]) rfl
  simp only [requestOf, hout, hformat, hversion, hreferences, hmodule, hdirective, hoptimistic,
    heval, himplied, hundeclared, hstrict, id_eq]

/-! ### Whole command lines -/

/-- **The flags of a row act one after the other.** -/
theorem readFrom_given {given : List Given} (h : ∀ g ∈ given, g.IsValid c)
    (hfuel : (given.flatMap Given.words).length ≤ fuel) (r : Reading AnalyzeRequest) :
    analyzeGrammar.readFrom c false fuel (given.flatMap Given.words) r =
      .ok { r with values := (given.map Given.flag).foldl Flag.set r.values } := by
  induction given generalizing fuel r with
  | nil => cases fuel <;> rfl
  | cons g given ih =>
      obtain ⟨hvalid, hrest⟩ := List.forall_mem_cons.1 h
      obtain ⟨w, ws, hwords, -⟩ := hvalid.words_eq
      rw [List.flatMap_cons, List.length_append, hwords, List.length_cons] at hfuel
      obtain ⟨fuel, rfl⟩ := Nat.exists_eq_succ_of_ne_zero (n := fuel) (by omega)
      rw [List.flatMap_cons, hvalid.readFrom]
      exact ih hrest (by omega) _

/-- Where arguments are left to a command, a plain word ends the reading. -/
theorem Grammar.readFrom_command (hnames : ∀ name ∈ grammar.names, IsOptionName name)
    (hw : IsPlain word) :
    grammar.readFrom c true (fuel + 1) (word :: rest) r =
      .ok { r with arguments := word :: rest } := by
  simp [Grammar.readFrom, hw.ne_dashes, Word.of_plain hnames hw]

/-- Elsewhere it is one argument more. -/
theorem Grammar.readFrom_argument (hnames : ∀ name ∈ grammar.names, IsOptionName name)
    (hw : IsPlain word) (hrest : rest.head? ≠ some "--") :
    grammar.readFrom c false (fuel + 1) (word :: rest) r =
      grammar.readFrom c false fuel rest { r with arguments := r.arguments ++ [word] } := by
  cases rest with
  | nil => simp [Grammar.readFrom, hw.ne_dashes, Word.of_plain hnames hw]
  | cons next rest =>
      have hnext : next ≠ "--" := fun heq => hrest (congrArg some heq)
      simp [Grammar.readFrom, hw.ne_dashes, Word.of_plain hnames hw, hnext]

/-- The command line that asks for the analysis of a file with flags, behind words that ask for a
log. -/
def commandLine (log : List String) (file : String) (given : List Given) : List String :=
  log ++ "analyze" :: file :: given.flatMap Given.words

section

variable {file : String} {given : List Given} {log : List String}

/-- The words behind the command. -/
theorem read_given (h : ∀ g ∈ given, g.IsValid c) (hfile : IsPlain file) :
    analyzeGrammar.read c false (file :: given.flatMap Given.words) {} =
      .ok { values := (given.map Given.flag).foldl Flag.set {}, arguments := [file]
            hasUnknown := false } := by
  have hclear : analyzeGrammar.isClear (file :: given.flatMap Given.words) = true := by
    refine Grammar.isClear_of_forall fun w hw => ?_
    rcases List.mem_cons.1 hw with rfl | hw
    · rw [Word.of_plain isOptionName_of_analyze hfile]
      nofun
    · obtain ⟨g, hg, hw⟩ := List.mem_flatMap.1 hw
      exact (h g hg).clear isOptionName_of_analyze (by simp [(h g hg).filter_names]) w hw
  have hhead : (given.flatMap Given.words).head? ≠ some "--" := by
    cases given with
    | nil => nofun
    | cons g given =>
        obtain ⟨w, ws, hwords, hw⟩ := (h g List.mem_cons_self).words_eq
        rw [List.flatMap_cons, hwords]
        exact fun heq => hw (Option.some.inj heq)
  rw [Grammar.read, if_pos hclear, List.length_cons,
    Grammar.readFrom_argument isOptionName_of_analyze hfile hhead, readFrom_given h (Nat.le_refl _)]
  rfl

/-- A word that asks for a log is an option that stands alone. -/
theorem word_of_log (h : word = "-v" ∨ word = "--verbose") :
    Word.of mainGrammar.names word = .option word none := by
  rcases h with rfl | rfl <;> decide +kernel

/-- Words in front of the command ask for a log. -/
theorem readFrom_log (hlog : ∀ w ∈ log, w = "-v" ∨ w = "--verbose") (hfuel : log.length < fuel)
    (r : Reading Bool) :
    mainGrammar.readFrom c true fuel (log ++ "analyze" :: rest) r =
      .ok { r with values := r.values || !log.isEmpty, arguments := "analyze" :: rest } := by
  induction log generalizing fuel r with
  | nil =>
      obtain ⟨fuel, rfl⟩ := Nat.exists_eq_succ_of_ne_zero (n := fuel) (by omega)
      have hcommand : IsPlain "analyze" := by decide
      rw [List.nil_append, Grammar.readFrom_command isOptionName_of_main hcommand]
      simp
  | cons w log ih =>
      obtain ⟨hw, hlog⟩ := List.forall_mem_cons.1 hlog
      rw [List.length_cons] at hfuel
      obtain ⟨fuel, rfl⟩ := Nat.exists_eq_succ_of_ne_zero (n := fuel) (by omega)
      have halone : w ≠ "--" ∧ w.startsWith (w ++ "=") = false ∧
          mainGrammar.lookup w = some (.switch fun _ => true) := by
        rcases hw with rfl | rfl
        · exact ⟨by decide, by decide, rfl⟩
        · exact ⟨by decide, by decide, rfl⟩
      obtain ⟨hne, halone, hlookup⟩ := halone
      rw [List.cons_append, Grammar.readFrom_option hne (word_of_log hw)
          (Grammar.act_switch hlookup halone),
        ih hlog (by omega)]
      simp

/-- **A command line asks for what its flags set**, and for a log if it says so, whatever a reader
takes for attached. -/
theorem Invocation.of_given (hlog : ∀ w ∈ log, w = "-v" ∨ w = "--verbose")
    (h : ∀ g ∈ given, g.IsValid c) (hfile : IsPlain file) :
    Invocation.of (commandLine log file given) c =
      .analyze (!log.isEmpty) (requestOf file (given.map Given.flag)) := by
  have hclear : mainGrammar.isClear (commandLine log file given) = true := by
    refine Grammar.isClear_of_forall fun w hw => ?_
    rcases List.mem_append.1 hw with hw | hw
    · rw [word_of_log (hlog w hw)]
      nofun
    obtain rfl | hw := List.mem_cons.1 hw
    · rw [Word.of_plain isOptionName_of_main (by decide : IsPlain "analyze")]
      nofun
    obtain rfl | hw := List.mem_cons.1 hw
    · rw [Word.of_plain isOptionName_of_main hfile]
      nofun
    obtain ⟨g, hg, hw⟩ := List.mem_flatMap.1 hw
    exact (h g hg).clear isOptionName_of_main (h g hg).filter_front w hw
  have hread : mainGrammar.read c true (commandLine log file given) false =
      .ok { values := !log.isEmpty, arguments := "analyze" :: file :: given.flatMap Given.words
            hasUnknown := false } := by
    rw [Grammar.read, if_pos hclear, commandLine, readFrom_log hlog (by simp)]
    simp
  rw [Invocation.of, hread]
  simp [Invocation.ofAnalyze, read_given h hfile, foldl_set]

end

end LexScope.CommandLine
