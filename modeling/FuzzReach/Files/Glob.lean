import FuzzReach.Text.Cut

/-!
# Globs

A glob is a pattern for relative paths.  `?` stands for one byte and `*` for any
number of them, neither for a slash; `**` between slashes stands for any number
of directories; `[..]` is a class of bytes and `{..,..}` a choice of globs.  A
backslash takes the next character as it is.
-/

namespace FuzzReach.Files

inductive Token where
  | literal (character : Char)
  | anyByte
  | run
  /-- `**/` at the front: nothing, or any number of directories -/
  | leading
  /-- `/**` at the end: everything below -/
  | trailing
  /-- `/**/`: a slash, or any number of directories between two -/
  | between
  | oneOf (negated : Bool) (ranges : List (Char × Char))
  | choice (branches : List (List Token))

inductive GlobError where
  | unclosedClass
  | invalidRange (low high : Char)
  | unopenedChoice
  | unclosedChoice
  | danglingEscape
  deriving DecidableEq, Repr

def GlobError.message : GlobError → String
  | .unclosedClass => "unclosed character class; missing ']'"
  | .invalidRange low high =>
      "invalid range; '" ++ low.toString ++ "' > '" ++ high.toString ++ "'"
  | .unopenedChoice =>
      "unopened alternate group; missing '\x7b' (maybe escape '\x7d' with '[\x7d]'?)"
  | .unclosedChoice =>
      "unclosed alternate group; missing '\x7d' (maybe escape '\x7b' with '[\x7b]'?)"
  | .danglingEscape => "dangling '\\'"

namespace Glob

/-! ## Classes -/

def closeRange :
    List (Char × Char) → Char → Except GlobError (List (Char × Char))
  | [], high => .ok [(high, high)]
  | [(low, _)], high =>
      if high < low then .error (.invalidRange low high) else .ok [(low, high)]
  | range :: rest, high => (closeRange rest high).map (range :: ·)

/-- Read the inside of a class: its ranges and the number of characters read,
the closing bracket with them.  A bracket or a dash right at the start stands
for itself, and so does a dash at the end; `dash` says whether one waits for the
end of its range. -/
def classRanges (count : Nat) (first dash : Bool)
    (ranges : List (Char × Char)) :
    List Char → Except GlobError (Option (List (Char × Char) × Nat))
  | [] => .ok none
  | character :: rest =>
      if character = ']' && !first then
        .ok (some (if dash then ranges ++ [('-', '-')] else ranges, count + 1))
      else if character = '-' && !first && !dash then
        classRanges (count + 1) false true ranges rest
      else if dash then do
        classRanges (count + 1) false false (← closeRange ranges character) rest
      else classRanges (count + 1) false false
        (ranges ++ [(character, character)]) rest

def readClass (text : List Char) : Except GlobError (Option (Token × Nat)) := do
  let negated :=
    text.head?.any fun character => character = '!' || character = '^'
  let inner ← if negated then classRanges 1 true false [] text.tail
    else classRanges 0 true false [] text
  return inner.map fun (ranges, count) => (.oneOf negated ranges, count)

/-! ## Reading -/

structure State where
  tokens : List Token
  /-- for each open choice the tokens before it and its finished branches, the
  innermost first -/
  choices : List (List Token × List (List Token))
  before : Option Char
  /-- whether brackets stand for themselves from here on -/
  plainBrackets : Bool

namespace State

def start : State := ⟨[], [], none, false⟩

def push (state : State) (token : Token) : State :=
  { state with tokens := state.tokens ++ [token] }

def openChoice (state : State) : State :=
  { state with tokens := [], choices := (state.tokens, []) :: state.choices }

def closeChoice (state : State) : Except GlobError State :=
  match state.choices with
  | [] => .error .unopenedChoice
  | (outer, branches) :: choices =>
      .ok { state with
        tokens := outer ++ [.choice (branches ++ [state.tokens])],
        choices := choices }

def comma (state : State) : State :=
  match state.choices with
  | [] => state.push (.literal ',')
  | (outer, branches) :: choices =>
      { state with
        tokens := [],
        choices := (outer, branches ++ [state.tokens]) :: choices }

/-- Put a token for `**` in place of the token before, which was a slash; a `**`
that stands there already stays. -/
def absorb (state : State) (token : Token) : State :=
  match state.tokens.getLast? with
  | some .leading => state
  | some .trailing => state
  | _ => { state with tokens := state.tokens.dropLast ++ [token] }

def doubleStar (state : State) (after : List Char) : State × Nat :=
  let plain := (state.push .run).push .run
  if state.tokens.isEmpty then
    match after with
    | [] => (state.push .leading, 1)
    | '/' :: _ => (state.push .leading, 2)
    | _ => (plain, 1)
  else if state.before ≠ some '/' &&
      (state.choices.isEmpty ||
        (state.before ≠ some ',' && state.before ≠ some '\x7b')) then
    (plain, 1)
  else
    match after with
    | [] => (state.absorb .trailing, 1)
    | '/' :: _ => (state.absorb .between, 2)
    | character :: _ =>
        if (character = ',' || character = '\x7d') &&
          !state.choices.isEmpty then
          (state.absorb .trailing, 1)
        else (plain, 1)

/-- Read a character in front of `rest`: the new state, and how many characters
of `rest` belong to it.  Unless `strict`, a class that is not closed is no
class. -/
def step (strict : Bool) (state : State) (character : Char) (rest : List Char) :
    Except GlobError (State × Nat) :=
  match character with
  | '?' => .ok (state.push .anyByte, 0)
  | '*' =>
      match rest with
      | '*' :: after => .ok (state.doubleStar after)
      | _ => .ok (state.push .run, 0)
  | '[' =>
      if state.plainBrackets then .ok (state.push (.literal '['), 0)
      else do
        match ← readClass rest with
        | some (token, count) => .ok (state.push token, count)
        | none =>
            if strict then .error .unclosedClass
            else .ok ({ state.push (.literal '[') with plainBrackets := true },
              0)
  | '\x7b' => .ok (state.openChoice, 0)
  | '\x7d' => do .ok (← state.closeChoice, 0)
  | ',' => .ok (state.comma, 0)
  | '\\' =>
      match rest with
      | [] => .error .danglingEscape
      | escaped :: _ => .ok (state.push (.literal escaped), 1)
  | _ => .ok (state.push (.literal character), 0)

def finish (state : State) : Except GlobError (List Token) :=
  if state.choices.isEmpty then .ok state.tokens else .error .unclosedChoice

end State

def readFrom (strict : Bool) :
    Nat → State → List Char → Except GlobError (List Token)
  | _, state, [] => state.finish
  | skip + 1, state, character :: rest =>
      readFrom strict skip { state with before := some character } rest
  | 0, state, character :: rest => do
      let (state, skip) ← state.step strict character rest
      readFrom strict skip { state with before := some character } rest

def read (strict : Bool) (text : List Char) : Except GlobError (List Token) :=
  readFrom strict 0 .start text

/-! ## Tokens without content -/

mutual

def isVoid : Token → Bool
  | .choice branches => areVoidBranches branches
  | _ => false

def areVoid : List Token → Bool
  | [] => true
  | token :: tokens => isVoid token && areVoid tokens

def areVoidBranches : List (List Token) → Bool
  | [] => true
  | branch :: branches => areVoid branch && areVoidBranches branches

end

end Glob

end FuzzReach.Files
