import FuzzReach.Files.Glob

/-!
# Globs as regular expressions

A glob that cannot be matched by comparing texts is turned into a regular
expression.  Expressions are compiled together.  If one of them nests too deeply
or their automaton is too large, they are refused, and with them all globs they
stand among.  How large an automaton is, is the compiler's own matter: the limit
is a parameter.
-/

namespace FuzzReach.Files.Glob

/-! ## The text of an expression -/

def escapeByte (byte : UInt8) : List Char :=
  let character := Char.ofNat byte.toNat
  if 0x7F < byte then '\\' :: 'x' :: Nat.toDigits 16 byte.toNat
  else if ".+*?()|[]\\\x7b\x7d^$#&-~".toList.contains character
    then ['\\', character]
  else [character]

def escape (character : Char) : List Char :=
  (String.utf8EncodeChar character).flatMap escapeByte

def rangeText (range : Char × Char) : List Char :=
  if range.1 = range.2 then escape range.1
    else escape range.1 ++ '-' :: escape range.2

mutual

def tokenText : Token → List Char
  | .literal character => escape character
  | .anyByte => "[^/]".toList
  | .run => "[^/]*".toList
  | .leading => "(?:/?|.*/)".toList
  | .trailing => "/.*".toList
  | .between => "(?:/|/.*/)".toList
  | .oneOf negated ranges =>
      '[' :: (if negated then ['^'] else []) ++
        ranges.flatMap rangeText ++ [']']
  | .choice branches =>
      if areVoidBranches branches then []
      else "(?:".toList ++ ['|'].intercalate (branchTexts branches) ++ [')']

def textOf : List Token → List Char
  | [] => []
  | token :: tokens => tokenText token ++ textOf tokens

def branchTexts : List (List Token) → List (List Char)
  | [] => []
  | branch :: branches =>
      if areVoid branch then branchTexts branches
        else textOf branch :: branchTexts branches

end

def expression (tokens : List Token) : String :=
  let text :=
    match tokens with
    | [.leading] => ".*".toList
    | _ => textOf tokens
  String.ofList ("(?-u)^".toList ++ text ++ ['$'])

/-! ## Nesting -/

def parts : Token → Nat
  | .literal character => character.utf8Size
  | .trailing => 2
  | .choice branches => if areVoidBranches branches then 0 else 1
  | _ => 1

/-- The number of items that a range adds to a class: all bytes of its ends, of
which the two at the dash make one. -/
def rangeItems (range : Char × Char) : Nat :=
  if range.1 = range.2 then range.1.utf8Size
    else range.1.utf8Size + range.2.utf8Size - 1

mutual

/-- How deeply the expression of a token nests: repetitions, classes, groups,
and what holds several items, branches or parts count one each. -/
def nesting : Token → Nat
  | .literal _ => 0
  | .anyByte => 1
  | .run => 2
  | .leading => 4
  | .trailing => 1
  | .between => 4
  | .oneOf _ ranges => if (ranges.map rangeItems).sum = 1 then 1 else 2
  | .choice branches =>
      match branches.countP fun branch => !areVoid branch with
      | 0 => 0
      | 1 => deepestBranch branches + 1
      | _ => deepestBranch branches + 2

def deepest : List Token → Nat
  | [] => 0
  | token :: tokens => max (nesting token) (deepest tokens)

def deepestBranch : List (List Token) → Nat
  | [] => 0
  | branch :: branches =>
      let depth := if (branch.map parts).sum ≤ 1 then deepest branch
        else deepest branch + 1
      max depth (deepestBranch branches)

end

def nestingLimit : Nat := 250

def isTooDeep (tokens : List Token) : Bool :=
  nestingLimit < deepest tokens + 1

/-! ## Which globs are expressions -/

def isText (allowed : Char → Bool) : Token → Bool
  | .literal character => allowed character
  | _ => false

def isInExtension (character : Char) : Bool :=
  character ≠ '.' && character ≠ '/'

/-- Whether a glob is matched by comparing texts: a text at any depth or below a
directory, an extension, or all that is below a text. -/
def isPlain (tokens : List Token) : Bool :=
  match tokens with
  | [] => false
  | .leading :: .run :: .literal '.' :: rest => rest.all (isText isInExtension)
  | .leading :: rest => !rest.isEmpty && rest.all (isText fun _ => true)
  | _ =>
      match tokens.getLast? with
      | some .trailing => tokens.dropLast.all (isText fun _ => true)
      | _ => tokens.all (isText fun _ => true)

/-- Whether a glob ends with an extension.  The expression of such a glob stands
alone. -/
def hasExtension (tokens : List Token) : Bool :=
  match tokens.reverse.dropWhile (isText isInExtension) with
  | .literal '.' :: _ => true
  | _ => false

/-! ## Refused globs -/

/-- Whether the automaton of expressions that are compiled together is small
enough.  An expression counts each time it stands there. -/
abbrev Capacity := List (List Token) → Bool

def unlimited : Capacity := fun _ => true

inductive Fault where
  | tooDeep (number : Nat)
  | tooLarge
  deriving DecidableEq, Repr

def Fault.message : Fault → String
  | .tooDeep number => "error parsing pattern " ++ toString number
  | .tooLarge => "error building NFA"

def fault? (fits : Capacity) (globs : List (List Token)) : Option Fault :=
  match globs.findIdx? isTooDeep with
  | some number => some (.tooDeep number)
  | none => if fits globs then none else some .tooLarge

inductive Refusal where
  /-- of an expression that stands alone -/
  | alone (expression : String) (fault : Fault)
  /-- of all the others, which are joined -/
  | joined (fault : Fault)
  deriving DecidableEq, Repr

def Refusal.message : Refusal → String
  | .alone expression fault =>
      "error parsing glob '" ++ expression ++ "': " ++ fault.message
  | .joined fault => fault.message

/-- Why globs cannot be used together; those that stand alone are tried
first. -/
def refusal? (fits : Capacity) (globs : List (List Token)) : Option Refusal :=
  let (alone, joined) :=
    (globs.filter fun glob => !isPlain glob).partition hasExtension
  (alone.findSome? fun glob =>
      (fault? fits [glob]).map (.alone (expression glob))).or
    ((fault? fits joined).map .joined)

end FuzzReach.Files.Glob
