/-!
# Walk.Family — which nodes are walked alike

Many node types need no attention: their children are walked, and that is all.  The others fall
into families that are walked alike.  A family is named by the types of its nodes; the ones that
gather several types also answer to a common short name.
-/

namespace LexScope.Walk

/-- The families of nodes. -/
inductive Family where
  | program
  | block
  | switch
  | withObject
  | catchClause
  | function
  | classDefinition
  | property
  | declaration
  /-- A declarator is walked with its declaration and cannot stand alone. -/
  | declarator
  | assignment
  | update
  | identifier
  | access
  | call
  | this
  | label
  /-- Nodes whose identifiers are no uses of names. -/
  | inert
  | loop
  | iteration
  /-- An iteration whose head is taken to be lexical whatever it is. -/
  | lexicalIteration
  | importing
  | exportNamed
  | exportDefault
  | exportAll
  | exportSpecifier
  /-- Any other node. -/
  | plain
  deriving Repr, DecidableEq

/-- The family of a node type. -/
def Family.ofType : String → Family
  | "Program" => .program
  | "BlockStatement" => .block
  | "SwitchStatement" => .switch
  | "WithStatement" => .withObject
  | "CatchClause" => .catchClause
  | "FunctionDeclaration" | "FunctionExpression" | "ArrowFunctionExpression"
  | "function" => .function
  | "ClassDeclaration" | "ClassExpression" | "class" => .classDefinition
  | "Property" | "MethodDefinition" | "property" => .property
  | "VariableDeclaration" => .declaration
  | "declarator" => .declarator
  | "AssignmentExpression" => .assignment
  | "UpdateExpression" => .update
  | "Identifier" => .identifier
  | "MemberExpression" => .access
  | "CallExpression" => .call
  | "ThisExpression" => .this
  | "LabeledStatement" => .label
  | "MetaProperty" | "BreakStatement" | "ContinueStatement" => .inert
  | "ForStatement" => .loop
  | "ForInStatement" | "ForOfStatement" | "for_in" => .iteration
  | "lexical_for_in" => .lexicalIteration
  | "ImportDeclaration" => .importing
  | "ExportNamedDeclaration" => .exportNamed
  | "ExportDefaultDeclaration" => .exportDefault
  | "ExportAllDeclaration" => .exportAll
  | "ExportSpecifier" => .exportSpecifier
  | _ => .plain

end LexScope.Walk
