import FuzzReach.Syntax.Node
import FuzzReach.Text.Utf8

/-!
# Sources

A source is a list of bytes with its syntax tree.  Groups of macro tokens may
have been parsed a second time, each on its own: these are the fragments, whose
trees count bytes and rows from the start of the group.
-/

namespace FuzzReach.Syntax

abbrev Bytes := Array UInt8

def slice? (bytes : Bytes) (start stop : Nat) : Option (List UInt8) :=
  if start ≤ stop ∧
    stop ≤ bytes.size then some (bytes.extract start stop).toList else none

/-- The text of a range; empty if the range is not within the source. -/
def textBetween (bytes : Bytes) (start stop : Nat) : String :=
  match slice? bytes start stop with
  | some part => Text.Utf8.decodeLenient part
  | none => ""

def Node.text (node : Node) (bytes : Bytes) : String :=
  textBetween bytes node.span.start node.span.stop

def Node.fieldText? (node : Node) (field : String)
    (bytes : Bytes) : Option String :=
  (node.child? field).map fun child => child.text bytes

structure Fragment where
  start : Nat
  stop : Nat
  root : Node

structure Source where
  bytes : Bytes
  root : Node
  fragments : List Fragment

def Source.fragment? (source : Source) (node : Node) : Option Fragment :=
  source.fragments.find? fun fragment =>
    fragment.start = node.span.start ∧ fragment.stop = node.span.stop

def openBrace : UInt8 := 0x7B

def semicolon : UInt8 := 0x3B

def Source.startsWithBrace (source : Source) (node : Node) : Bool :=
  source.bytes[node.span.start]? = some openBrace

/-- The bytes that a fragment's tree was made from: those of the group, closed
by a semicolon unless the group is in braces. -/
def Source.fragmentBytes? (source : Source) (node : Node) : Option Bytes :=
  (slice? source.bytes node.span.start node.span.stop).map fun part =>
    if part.head? = some openBrace then part.toArray
      else (part ++ [semicolon]).toArray

end FuzzReach.Syntax
