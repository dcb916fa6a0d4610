import FuzzReach.Call.Callee
import FuzzReach.Syntax.Kind

/-!
# Call events

A body is reduced to the list of what matters for its calls: the calls
themselves, the bindings that give variables a type, and the invoked macros, in
pre-order of the syntax tree.
-/

namespace FuzzReach.Call

open Syntax

inductive Event where
  | call (callee : Callee) (position line : Nat)
  | bind (name : String) (value : Binding)
  | invoke (name : String) (position line : Nat)

structure Offset where
  row : Nat
  byte : Nat
  deriving DecidableEq, Repr

namespace Offset

def zero : Offset := ⟨0, 0⟩

def line (offset : Offset) (node : Node) : Nat :=
  node.span.firstRow + offset.row + 1

def position (offset : Offset) (node : Node) : Nat :=
  offset.byte + node.span.stop

end Offset

def Event.ofNode? (bytes : Bytes) (offset : Offset)
    (node : Node) : Option Event :=
  match node.kind with
  | "call_expression" => do
      let function ← node.child? "function"
      let callee ← Callee.ofNode? bytes function
      some (.call callee (offset.position function) (offset.line function))
  | "let_declaration" => do
      let pattern ← node.child? "pattern"
      let value ← node.child? "value"
      let binding ← Binding.ofNode? bytes value
      some (.bind (patternName bytes pattern) binding)
  | "macro_invocation" => do
      let name ← macroName? bytes node
      some (.invoke name (offset.position node) (offset.line node))
  | _ => none

/-- Take the pending trees one node at a time: note the node's event, put its
children in front. -/
def gather (bytes : Bytes) (offset : Offset) (pending : List Node)
    (events : Array Event) :
    Array Event :=
  match pending with
  | [] => events
  | node :: rest =>
      let events :=
        match Event.ofNode? bytes offset node with
        | some event => events.push event
        | none => events
      gather bytes offset (node.children ++ rest) events
termination_by Node.sizes pending
decreasing_by
  have := Node.size_eq node
  simp [Node.sizes]
  omega

def events (bytes : Bytes) (offset : Offset) (root : Node) : List Event :=
  (gather bytes offset [root] #[]).toList

/-! ## Numbers -/

def lineNumber (line : Nat) : Int :=
  Int.bmod line 0x10000000000000000

def positionNumber (position : Nat) : Nat :=
  position % 0x10000000000000000

end FuzzReach.Call
