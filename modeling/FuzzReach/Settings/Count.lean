/-!
# Counts

A count is written in decimal digits, with a plus sign in front if one likes,
and fits in 64 bits.
-/

namespace FuzzReach.Settings

inductive CountError where
  | invalidDigit
  | tooLarge
  deriving DecidableEq, Repr

def CountError.message : CountError → String
  | .invalidDigit => "invalid digit found in string"
  | .tooLarge => "number too large to fit in target type"

def largest : Nat := 0xFFFFFFFFFFFFFFFF

def readDigits (count : Nat) : List Char → Except CountError Nat
  | [] => .ok count
  | character :: rest =>
      if character.isDigit then
        let count := count * 10 + (character.toNat - '0'.toNat)
        if largest < count then .error .tooLarge else readDigits count rest
      else .error .invalidDigit

def readCount (text : List Char) : Except CountError Nat :=
  let digits := if text.head? = some '+' then text.tail else text
  if digits.isEmpty then .error .invalidDigit else readDigits 0 digits

end FuzzReach.Settings
