/-!
# Sets of code points

A set of code points is written as the increasing list of the points where
membership changes: the first number opens the first range, the second is the
first code point after it, and so on.
-/

namespace FuzzReach.Text

/-- Walk along the changes up to `code`; `inside` is the state before the first
of them. -/
def insideAt (code : Nat) : List Nat → Bool → Bool
  | [], inside => inside
  | change :: changes, inside =>
      if code < change then inside else insideAt code changes !inside

def inSet (changes : List Nat) (character : Char) : Bool :=
  insideAt character.toNat changes false

end FuzzReach.Text
