import FuzzReach.Call.Event
import FuzzReach.Table
import FuzzReach.TypeText

/-!
# Functions

A function is one callable unit: a function, a method of an implementation or a
trait, or a macro.
-/

namespace FuzzReach

structure Function where
  /-- qualified by its scope -/
  name : String
  path : String
  startLine : Nat := 0
  endLine : Nat := 0
  /-- its bytes in that file, from `start` on and before `stop` -/
  start : Nat := 0
  stop : Nat := 0
  argNames : List String := []
  argTypes : List String := []
  returnType : String := TypeText.void
  signature : String := ""
  isMacro : Bool := false
  isEntry : Bool := false
  complexity : Nat := 0
  instructions : Nat := 0
  /-- the declared types of its parameters -/
  locals : Table String String := .empty
  events : List Call.Event := []

def flattenSignature (declaration : String) : String :=
  String.ofList
    ((Text.lines (Text.before ['\x7b'] declaration.toList)).flatMap Text.trim)

end FuzzReach
