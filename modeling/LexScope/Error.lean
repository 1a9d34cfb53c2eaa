import LexScope.Node

/-!
# Error — why an analysis, a report or a run stops

An error is a cause, and each cause has one wording (`Error.message`).  A fault of the analysis is
tied to a node and its message ends with the position of that node, if the tree gives one.

`malformed` is the cause of last resort: a value had a form that the step at hand cannot work with.
It has no wording of its own.
-/

namespace LexScope

/-- A broken precondition of the analysis. -/
inductive Fault where
  /-- A node of the given type stands where no import or export is allowed. -/
  | outsideModule (type : String)
  | closedTwice
  | closedReference
  | resolveOpen
  deriving Repr, DecidableEq

/-- What went wrong, as a sentence. -/
def Fault.message : Fault → String
  | .outsideModule type => type ++ " should appear only in an ES6 module context."
  | .closedTwice => "Scope closed twice."
  | .closedReference => "Cannot add a reference to a closed scope."
  | .resolveOpen => "Scope must be closed before resolving."

/-- Why something stops. -/
inductive Error where
  | analysis (fault : Fault) (position : Position)
  | badSourceType (got : Tree)
  | badVersion (got : Tree)
  | unknownOption (key : String)
  | badFormat (got : Tree)
  | badKind (got : Tree)
  | syntaxError (message : String)
  /-- A path holds the character that ends a path. -/
  | nullCharacter
  | malformed
  deriving Repr, DecidableEq

/-- The error for a fault at a node.  The position has to be readable to be named. -/
def Fault.on (fault : Fault) (n : Node) : Error :=
  match n.site? with
  | some p => .analysis fault p
  | none => .malformed

namespace Error

/-- The wording of an error. -/
def message : Error → String
  | .analysis fault p => fault.message ++ p.suffix
  | .badSourceType got => "source_type must be one of ('script', 'module'), got " ++ got.display
  | .badVersion got => "ecma_version must be an integer, got " ++ got.display
  | .unknownOption key => "Unknown analysis option: " ++ Text.quote key
  | .badFormat got => "format must be one of ('text', 'json'), got " ++ got.display
  | .badKind got => got.display ++ " is not a valid DefinitionKind"
  | .syntaxError message => message
  | .nullCharacter => "embedded null byte"
  | .malformed => ""

end Error

/-- A value of a needed form, or the error of last resort. -/
def wellFormed {α : Type} : Option α → Except Error α
  | some a => .ok a
  | none => .error .malformed

end LexScope
