import LexScope.Text.Digit

/-!
# CommandLine.Words — how the words of a command line are told apart

A word that starts with a dash is an option, unless it is a lone dash, a negative number, or has a
blank in it; any other word is an argument, and so is every word after `--`.  The word `--` itself
belongs to the argument next to it, the first one, and is an unknown option elsewhere.  An option
may be shortened as long as only one known option starts that way, may have a value attached by `=`,
and short options may be written together behind one dash.  Readers of command lines differ in what
they take for attached (`Convention`).

A grammar says which options there are and what each does to the values read so far (`Choice`).
Words are read from left to right, and the first misuse or request for help ends the reading.
-/

namespace LexScope.CommandLine

/-- Why the reading of a command line ends early. -/
inductive Stop where
  | help
  | misuse
  deriving Repr, DecidableEq

/-- How a reader takes what is attached to an option. -/
structure Convention where
  /-- Whether `--` that is attached to an option is its value.  Otherwise it is taken away, and the
  option is left without one. -/
  keepsDashes : Bool := false
  /-- Whether short options written together end where a letter is no option, and the rest is an
  unknown word, and whether `=` attaches nothing but values.  Otherwise all that is attached to a
  short option which takes no value is read as more of them. -/
  cutsLetters : Bool := false
  deriving Repr, DecidableEq

/-- What an option does to the values read so far. -/
inductive Choice (α : Type) where
  | help
  | switch (set : α → α)
  /-- The option takes a value, which it may refuse; there is none where `--` was attached. -/
  | value (set : Option String → α → Option α)

/-- The options of a command, by name. -/
abbrev Grammar (α : Type) := List (String × Choice α)

/-! ### Telling words apart -/

/-- What a word is. -/
inductive Word where
  | argument
  | option (name : String) (attached : Option String)
  | unknown
  /-- More than one option starts that way. -/
  | ambiguous
  deriving Repr, DecidableEq

/-- Whether nothing is left of a word but a line break at its end. -/
def isEnd (cs : List Char) : Bool := cs = [] || cs = ['\n']

/-- Whether a word is a negative number: digits with at most one point among or before them. -/
def isNegativeNumber (word : String) : Bool :=
  match word.toList with
  | '-' :: cs =>
      let whole := cs.takeWhile Text.isDigit
      match cs.dropWhile Text.isDigit with
      | '.' :: rest =>
          !(rest.takeWhile Text.isDigit).isEmpty && isEnd (rest.dropWhile Text.isDigit)
      | rest => !whole.isEmpty && isEnd rest
  | _ => false

/-- Split a word at its first `=`. -/
def splitValue (word : String) : Option (String × String) :=
  let cs := word.toList
  match cs.dropWhile (· ≠ '=') with
  | [] => none
  | _ :: value => some (String.ofList (cs.takeWhile (· ≠ '=')), String.ofList value)

/-- The options that a word may be short for, with what it attaches to them. -/
def matchesOf (names : List String) (word : String) : List (String × Option String) :=
  if word.startsWith "--" then
    let (stem, attached) :=
      match splitValue word with
      | some (stem, value) => (stem, some value)
      | none => (word, none)
    (names.filter (·.startsWith stem)).map (·, attached)
  else
    let stem := String.ofList (word.toList.take 2)
    names.filterMap fun name =>
      if name = stem then some (name, some (String.ofList (word.toList.drop 2)))
      else if name.startsWith word then some (name, none)
      else none

/-- What a word is, given the names of the options. -/
def Word.of (names : List String) (word : String) : Word :=
  let short :=
    match matchesOf names word with
    | [] =>
        if isNegativeNumber word || word.toList.contains ' ' then Word.argument else .unknown
    | [(name, attached)] => .option name attached
    | _ => .ambiguous
  if !word.startsWith "-" then .argument
  else if names.contains word then .option word none
  else if word = "-" then .argument
  else
    match splitValue word with
    | some (name, value) => if names.contains name then .option name (some value) else short
    | none => short

/-! ### Reading -/

/-- The values read from a command line, and the words left to others. -/
structure Reading (α : Type) where
  values : α
  /-- The arguments in order.  Where reading stops at the first one, it is followed by all words
  after it, whatever they are. -/
  arguments : List String
  /-- Whether there was an option that the grammar does not know. -/
  hasUnknown : Bool
  deriving Repr

namespace Grammar

variable {α : Type}

/-- The names of the options. -/
def names (g : Grammar α) : List String := g.map (·.1)

/-- An option and the short ones written together with it, and whether letters are cut off behind
them. -/
def together (g : Grammar α) (cuts : Bool) (name : String) : List Char → Option (List String × Bool)
  | [] => some ([name], false)
  | c :: cs =>
      let next := String.ofList ['-', c]
      if name.startsWith "--" then none
      else if g.names.contains next then
        (together g cuts next cs).map fun (names, cut) => (name :: names, cut)
      else if cuts && c ≠ '-' && c ≠ '=' then some ([name], true)
      else none

/-- Let options that take no value act. -/
def actAll (g : Grammar α) : List String → α → Except Stop α
  | [], values => .ok values
  | name :: rest, values =>
      match g.lookup name with
      | some .help => .error .help
      | some (.switch set) => actAll g rest (set values)
      | _ => .error .misuse

/-- The value of an option and the words then left: what is attached to the option, or else the next
word, which has to be an argument. -/
def valueFor (g : Grammar α) (c : Convention) :
    Option String → List String → Option (Option String × List String)
  | some v, rest => some (if v = "--" && !c.keepsDashes then none else some v, rest)
  | none, w :: rest =>
      if w ≠ "--" && Word.of g.names w = Word.argument then some (some w, rest) else none
  | none, [] => none

/-- What an option leaves that has acted. -/
structure Acted (α : Type) where
  values : α
  /-- The words behind the option and its value. -/
  rest : List String
  /-- Whether letters were cut off. -/
  cut : Bool := false
  deriving Repr

/-- Let an option act, given the word that it stands in and the words after it. -/
def act (g : Grammar α) (c : Convention) (word name : String) (attached : Option String)
    (rest : List String) (values : α) : Except Stop (Acted α) :=
  match g.lookup name with
  | some (.value set) =>
      match valueFor g c attached rest with
      | some (value, rest) =>
          match set value values with
          | some values => .ok { values, rest }
          | none => .error .misuse
      | none => .error .misuse
  | _ =>
      if attached = some "" || (c.cutsLetters && word.startsWith (name ++ "=")) then .error .misuse
      else
        match together g c.cutsLetters name (attached.getD "").toList with
        | some (names, cut) => (actAll g names values).map fun values => { values, rest, cut }
        | none => .error .misuse

/-- Read words from left to right; the number of words bounds the steps. -/
def readFrom (g : Grammar α) (c : Convention) (stopAtArgument : Bool) :
    Nat → List String → Reading α → Except Stop (Reading α)
  | 0, _, r => .ok r
  | _, [], r => .ok r
  | fuel + 1, w :: rest, r =>
      if w = "--" then
        .ok (if stopAtArgument then { r with arguments := w :: rest }
          else { r with arguments := r.arguments ++ rest
                        hasUnknown := r.hasUnknown || !r.arguments.isEmpty })
      else
        match Word.of g.names w with
        | .argument =>
            if stopAtArgument then .ok { r with arguments := w :: rest }
            else
              match rest with
              | "--" :: rest => .ok { r with arguments := r.arguments ++ w :: rest }
              | _ => readFrom g c stopAtArgument fuel rest { r with arguments := r.arguments ++ [w] }
        | .unknown => readFrom g c stopAtArgument fuel rest { r with hasUnknown := true }
        | .ambiguous => .error .misuse
        | .option name attached =>
            match act g c w name attached rest r.values with
            | .ok a =>
                readFrom g c stopAtArgument fuel a.rest
                  { r with values := a.values, hasUnknown := r.hasUnknown || a.cut }
            | .error stop => .error stop

/-- Whether no word before `--` is short for more than one option. -/
def isClear (g : Grammar α) (words : List String) : Bool :=
  (words.takeWhile (· ≠ "--")).all (fun w => Word.of g.names w ≠ Word.ambiguous)

/-- Read a command line.  An ambiguous word is a misuse wherever it stands. -/
def read (g : Grammar α) (c : Convention) (stopAtArgument : Bool) (words : List String)
    (values : α) : Except Stop (Reading α) :=
  if g.isClear words then
    readFrom g c stopAtArgument words.length words { values, arguments := [], hasUnknown := false }
  else .error .misuse

end Grammar

end LexScope.CommandLine
