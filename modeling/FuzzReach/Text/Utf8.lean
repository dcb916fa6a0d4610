/-!
# Reading UTF-8

`next?` reads the character whose encoding opens a list of bytes.  `scan` goes
through all bytes and notes, for each character, that character, and for each
byte that opens none, a gap.  A strict reading refuses gaps; a lenient one
leaves them out.
-/

namespace FuzzReach.Text.Utf8

/-! ## One character -/

def tail? (byte : UInt8) : Option Nat :=
  if 0x80 ≤ byte.toNat ∧ byte.toNat < 0xC0 then some (byte.toNat - 0x80)
    else none

def lead? (low high : Nat) (byte : UInt8) : Option Nat :=
  if low ≤ byte.toNat ∧ byte.toNat < high then some (byte.toNat - low) else none

/-- The character with a code point that is not below `least`, the smallest one
of its width. -/
def scalar? (least code : Nat) : Option Char :=
  if h : code.isValidChar then
    if least ≤ code then some (Char.ofNatAux code h) else none
  else none

def one? (first : UInt8) : Option Char := do
  scalar? 0 (← lead? 0 0x80 first)

def two? (first second : UInt8) : Option Char := do
  scalar? 0x80 ((← lead? 0xC0 0xE0 first) * 64 + (← tail? second))

def three? (first second third : UInt8) : Option Char := do
  scalar? 0x800
    (((← lead? 0xE0 0xF0 first) * 64 + (← tail? second)) * 64 + (← tail? third))

def four? (first second third fourth : UInt8) : Option Char := do
  scalar? 0x10000
    ((((← lead? 0xF0 0xF8 first) * 64 + (← tail? second)) * 64 +
      (← tail? third)) * 64 +
      (← tail? fourth))

def next? : List UInt8 → Option (Char × Nat)
  | [] => none
  | [a] => (one? a).map (·, 0)
  | [a, b] => (one? a).map (·, 0) <|> (two? a b).map (·, 1)
  | [a, b, c] =>
      (one? a).map (·, 0) <|> (two? a b).map (·, 1) <|>
        (three? a b c).map (·, 2)
  | a :: b :: c :: d :: _ =>
      (one? a).map (·, 0) <|> (two? a b).map (·, 1) <|> (three? a b c).map
        (·, 2) <|>
        (four? a b c d).map (·, 3)

/-! ## All characters -/

/-- One entry for every character and for every byte that belongs to none;
`skip` bytes still belong to the character before. -/
def scan : Nat → List UInt8 → List (Option Char)
  | _, [] => []
  | skip + 1, _ :: rest => scan skip rest
  | 0, byte :: rest =>
      match next? (byte :: rest) with
      | some (character, more) => some character :: scan more rest
      | none => none :: scan 0 rest

def characters (bytes : List UInt8) : List Char :=
  (scan 0 bytes).filterMap id

def wellFormed (bytes : List UInt8) : Bool :=
  (scan 0 bytes).all Option.isSome

def decode? (bytes : List UInt8) : Option String :=
  if wellFormed bytes then some (String.ofList (characters bytes)) else none

def replacement : Char := '\uFFFD'

/-- The text that the bytes encode.  Where they encode none, what can be read of
them, without replacement marks. -/
def decodeLenient (bytes : List UInt8) : String :=
  if wellFormed bytes then String.ofList (characters bytes)
  else String.ofList ((characters bytes).filter (· != replacement))

end FuzzReach.Text.Utf8
