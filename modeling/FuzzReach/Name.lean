import FuzzReach.Text.Cut

/-!
# Qualified names

A qualified name is a text of segments joined by `::`.  Nothing forbids stray
colons in it, so every function here says which occurrence of the separator it
looks at.
-/

namespace FuzzReach.Name

def separator : List Char := [':', ':']

def entry : String := "fuzz_target"

def join : List String → String
  | [] => ""
  | [segment] => segment
  | segment :: rest => segment ++ "::" ++ join rest

def qualify (scope : List String) (name : String) : String :=
  join (scope ++ [name])

def owner (name : String) : String :=
  match Text.cutLast? separator name.toList with
  | some (before, _) => String.ofList before
  | none => name

def lastSegment (name : List Char) : List Char :=
  Text.afterLast separator name

def separators : List Char → Nat
  | ':' :: ':' :: rest => separators rest + 1
  | _ :: rest => separators rest
  | [] => 0

def afterSeparators : List Char → List (List Char)
  | ':' :: ':' :: rest => rest :: afterSeparators rest
  | _ :: rest => afterSeparators rest
  | [] => []

def suffixes (name : List Char) : List (List Char) :=
  name :: afterSeparators name

end FuzzReach.Name
