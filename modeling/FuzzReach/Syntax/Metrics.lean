import FuzzReach.Syntax.Cursor
import FuzzReach.Text.Cut

/-!
# Metrics of a syntax tree

Both metrics count nodes by their kind.
-/

namespace FuzzReach.Syntax

/-- The kinds that add a decision to the flow of control, or a boundary in
it. -/
def branchKinds : List String :=
  ["if_expression", "match_expression", "while_expression", "loop_expression",
    "for_expression",
    "try_expression", "try_block", "async_block", "await_expression",
    "unsafe_block", "gen_block",
    "break_expression", "continue_expression", "&&", "||"]

def isBranch (kind : String) : Bool :=
  branchKinds.contains kind

def isExpression (kind : String) : Bool :=
  Text.contains "expression".toList kind.toList

def Node.complexity (root : Node) : Nat :=
  root.count isBranch

def Node.instructions (root : Node) : Nat :=
  root.count isExpression

end FuzzReach.Syntax
