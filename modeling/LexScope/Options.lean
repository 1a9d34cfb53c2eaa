import LexScope.Error

/-!
# Options — how an analysis is configured

Six settings configure a run.  The language version and the source type are checked; the four
switches keep whatever value they were given and act by whether it counts as given.

Settings arrive by name.  A *mapping* may spell a name in either of two ways and is read in order,
so that a later spelling wins (`Options.ofMapping`); *fields* use the plain spelling only
(`Options.withFields`).  Both work on a `Draft`, which holds unchecked values and becomes options by
one check (`Draft.validate`).
-/

namespace LexScope

/-- What kind of source a program is. -/
inductive SourceType where
  | script
  | moduleCode
  deriving Repr, DecidableEq, Inhabited

namespace SourceType

/-- The word for a source type. -/
def text : SourceType → String
  | .script => "script"
  | .moduleCode => "module"

/-- The source type a value names. -/
def ofTree? : Tree → Option SourceType
  | .str "script" => some .script
  | .str "module" => some .moduleCode
  | _ => none

end SourceType

/-- The settings of one run. -/
structure Options where
  ecmaVersion : Int := 6
  sourceType : SourceType := .script
  /-- Recognise strict mode by directive fields. -/
  directive : Tree := .bool false
  /-- Resolve through dynamic scopes. -/
  optimistic : Tree := .bool false
  /-- Treat no call as a direct `eval`. -/
  ignoreEval : Tree := .bool false
  /-- Treat every scope as strict. -/
  impliedStrict : Tree := .bool false
  deriving Repr, DecidableEq, Inhabited

/-- Whether blocks have scopes of their own. -/
def Options.isEs6 (o : Options) : Bool := 6 ≤ o.ecmaVersion

/-- Whether the source is a module. -/
def Options.isModule (o : Options) : Bool := o.sourceType = .moduleCode

/-! ### Settings by name -/

/-- The settings that have a name. -/
inductive Setting where
  | ecmaVersion
  | sourceType
  | directive
  | optimistic
  | ignoreEval
  | impliedStrict
  deriving Repr, DecidableEq

namespace Setting

/-- The setting with a given plain name. -/
def ofField? : String → Option Setting
  | "ecma_version" => some .ecmaVersion
  | "source_type" => some .sourceType
  | "directive" => some .directive
  | "optimistic" => some .optimistic
  | "ignore_eval" => some .ignoreEval
  | "implied_strict" => some .impliedStrict
  | _ => none

/-- The setting with a given name, in either spelling. -/
def ofKey? : String → Option Setting
  | "ecmaVersion" => some .ecmaVersion
  | "sourceType" => some .sourceType
  | "ignoreEval" => some .ignoreEval
  | "impliedStrict" => some .impliedStrict
  | key => ofField? key

end Setting

/-- Values for the settings, not yet checked. -/
structure Draft where
  ecmaVersion : Tree := .int 6
  sourceType : Tree := .str "script"
  directive : Tree := .bool false
  optimistic : Tree := .bool false
  ignoreEval : Tree := .bool false
  impliedStrict : Tree := .bool false
  deriving Repr, DecidableEq

namespace Draft

/-- Give one setting a value. -/
def set (d : Draft) : Setting → Tree → Draft
  | .ecmaVersion, t => { d with ecmaVersion := t }
  | .sourceType, t => { d with sourceType := t }
  | .directive, t => { d with directive := t }
  | .optimistic, t => { d with optimistic := t }
  | .ignoreEval, t => { d with ignoreEval := t }
  | .impliedStrict, t => { d with impliedStrict := t }

/-- The options a draft stands for.  The source type is checked before the version. -/
def validate (d : Draft) : Except Error Options :=
  match SourceType.ofTree? d.sourceType, d.ecmaVersion with
  | none, _ => .error (.badSourceType d.sourceType)
  | some sourceType, .int ecmaVersion =>
      .ok { ecmaVersion, sourceType, directive := d.directive, optimistic := d.optimistic,
            ignoreEval := d.ignoreEval, impliedStrict := d.impliedStrict }
  | some _, t => .error (.badVersion t)

/-- Set the members of a mapping one after the other; the first unknown name is an error. -/
def setKeys (d : Draft) : List (String × Tree) → Except Error Draft
  | [] => .ok d
  | (key, t) :: rest =>
      match Setting.ofKey? key with
      | some s => (d.set s t).setKeys rest
      | none => .error (.unknownOption key)

/-- Set fields one after the other; there is no error for a name that is none. -/
def setFields (d : Draft) : List (String × Tree) → Except Error Draft
  | [] => .ok d
  | (key, t) :: rest =>
      match Setting.ofField? key with
      | some s => (d.set s t).setFields rest
      | none => .error .malformed

end Draft

namespace Options

/-- The draft that options stand for. -/
def draft (o : Options) : Draft :=
  ⟨.int o.ecmaVersion, .str o.sourceType.text, o.directive, o.optimistic, o.ignoreEval,
    o.impliedStrict⟩

/-- Options that differ in the given fields. -/
def withFields (o : Options) (fields : List (String × Tree)) : Except Error Options := do
  (← o.draft.setFields fields).validate

/-- The options a mapping stands for; anything empty stands for the defaults. -/
def ofMapping (t : Tree) : Except Error Options :=
  if !t.truthy then .ok {}
  else
    match t with
    | .obj members => do ((← ({} : Draft).setKeys members).validate)
    | _ => .error .malformed

/-! ### Overrides -/

/-- Lay one member over others: in its place if its name is there, else at the end. -/
def layMember : List (String × Tree) → String × Tree → List (String × Tree)
  | [], m => [m]
  | (k, t) :: rest, m => if k = m.1 then m :: rest else (k, t) :: layMember rest m

/-- Lay members over others, one after the other. -/
def layOver (members overrides : List (String × Tree)) : List (String × Tree) :=
  overrides.foldl layMember members

/-- The options of a mapping with overrides laid over its members. -/
def ofMappingWith (t : Tree) (overrides : List (String × Tree)) : Except Error Options :=
  if !t.truthy then ofMapping (.obj overrides)
  else
    match t with
    | .obj members => ofMapping (.obj (layOver members overrides))
    | _ => .error .malformed

end Options

end LexScope
