import FuzzReach.Syntax.Source
import FuzzReach.Text.Blank
import FuzzReach.Text.Cut

/-!
# Callees

What a call expression calls, as far as it can be read off the syntax: a path, a
method of some receiver, or a name with generic arguments.
-/

namespace FuzzReach.Call

open Syntax

mutual

inductive Callee where
  /-- `name(..)` or `a::b::name(..)` -/
  | path (name : String)
  /-- `receiver.name(..)` -/
  | field (receiver : Receiver) (name : String)
  /-- `name::<T>(..)` or `receiver.name::<T>(..)`, of which only the name is
  kept -/
  | generic (name : String)

inductive Receiver where
  | call (callee : Callee)
  /-- the result of a call whose callee has no known form -/
  | untypedCall
  | path (name : String)
  | self
  | literal
  | unknown

end

inductive Binding where
  | path (name : String)
  | cast (type : String)
  | call (callee : Callee)

def nonempty? (name : String) : Option String :=
  if name = "" then none else some name

def Receiver.ofPlain (bytes : Bytes) (node : Node) : Receiver :=
  match node.kind with
  | "identifier" => .path (node.text bytes)
  | "scoped_identifier" => .path (node.text bytes)
  | "self" => .self
  | "string_literal" => .literal
  | _ => .unknown

def Callee.typed? (bytes : Bytes) (node : Node) : Option Callee :=
  match node.kind with
  | "identifier" => (nonempty? (node.text bytes)).map .path
  | "scoped_identifier" => (nonempty? (node.text bytes)).map .path
  | "field_expression" =>
      match (node.fieldText? "field" bytes).bind nonempty? with
      | none => none
      | some name =>
          match _hvalue : node.child? "value" with
          | none => some (.field .unknown name)
          | some value =>
              if value.kind = "call_expression" then
                match _hfunction : value.child? "function" with
                | none => some (.field .untypedCall name)
                | some function =>
                    match Callee.typed? bytes function with
                    | none => some (.field .untypedCall name)
                    | some callee => some (.field (.call callee) name)
              else some (.field (.ofPlain bytes value) name)
  | _ => none
termination_by node.size
decreasing_by
  have := Node.size_lt_of_child? _hvalue
  have := Node.size_lt_of_child? _hfunction
  omega

def lastPart? (mark : List Char) (text : String) : Option String :=
  nonempty? (String.ofList (Text.trim (Text.afterLast mark text.toList)))

def Callee.ofNode? (bytes : Bytes) (node : Node) : Option Callee :=
  if node.kind = "generic_function" then do
    let inner ← node.child? "function"
    (lastPart? ['.'] (inner.text bytes)).map .generic
  else Callee.typed? bytes node

def Callee.ofCall? (bytes : Bytes) (node : Node) : Option Callee :=
  (node.child? "function").bind (Callee.typed? bytes)

def Binding.ofValue? (bytes : Bytes) (node : Node) : Option Binding :=
  match node.kind with
  | "identifier" => some (.path (node.text bytes))
  | "type_cast_expression" => (node.fieldText? "type" bytes).map .cast
  | "call_expression" => (Callee.ofCall? bytes node).map .call
  | _ => none

/-- The binding that an initialiser gives; one reference is looked through. -/
def Binding.ofNode? (bytes : Bytes) (node : Node) : Option Binding :=
  if node.kind = "reference_expression" then
    (node.child? "value").bind (Binding.ofValue? bytes)
  else Binding.ofValue? bytes node

/-- The name that a pattern binds: an identifier, the identifier under `mut`, or
else the whole text of the pattern. -/
def patternName (bytes : Bytes) (node : Node) : String :=
  if node.kind = "mut_pattern" then
    match node.namedChildren.find? fun child => child.kind = "identifier" with
    | some inner => inner.text bytes
    | none => node.text bytes
  else node.text bytes

def macroName? (bytes : Bytes) (node : Node) : Option String := do
  let name ← node.child? "macro" <|> node.childOfKind? "identifier"
  lastPart? [':', ':'] (name.text bytes)

end FuzzReach.Call
