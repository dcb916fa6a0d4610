import FuzzReach.Syntax.Metrics

/-!
# Kinds of nodes

Which items of a file are looked at, and which statements of a body can hold
calls.
-/

namespace FuzzReach.Syntax

inductive ItemKind where
  | function
  | implementation
  | module
  | trait
  | statement
  | invocation
  | definition
  | use
  | other
  deriving DecidableEq, Repr

def ItemKind.ofKind (kind : String) : ItemKind :=
  match kind with
  | "function_item" => .function
  | "impl_item" => .implementation
  | "mod_item" => .module
  | "trait_item" => .trait
  | "expression_statement" => .statement
  | "macro_invocation" => .invocation
  | "macro_definition" => .definition
  | "use_declaration" => .use
  | _ => .other

def Node.itemKind (node : Node) : ItemKind :=
  ItemKind.ofKind node.kind

def isBodyStatement (kind : String) : Bool :=
  isExpression kind || Text.contains "declaration".toList kind.toList || kind =
    "macro_invocation"

end FuzzReach.Syntax
