import FuzzReach.Name
import FuzzReach.Table

/-!
# Looking names up

A name that is no key of a table may still mean one of its keys: leading
segments are dropped from the name until some key ends with what is left, and
the first such key counts.
-/

namespace FuzzReach

inductive Tolerance where
  | oneSegment
  | allSegments
  deriving DecidableEq, Repr

namespace Lookup

variable {ν : Type}

def candidates (tolerance : Tolerance) (name : String) : List (List Char) :=
  match tolerance with
  | .oneSegment => (Name.suffixes name.toList).take 2
  | .allSegments => Name.suffixes name.toList

def sharedLength : List Char → List Char → Nat
  | first :: rest, other :: others =>
    if first = other then sharedLength rest others + 1 else 0
  | _, _ => 0

theorem le_sharedLength_iff {length : Nat} {first second : List Char}
    (hlength : length ≤ first.length) :
    length ≤ sharedLength first second ↔ first.take length <+: second := by
  induction length generalizing first second with
  | zero => simp
  | succ length ih =>
      match first, second with
      | [], _ => simp at hlength
      | character :: rest, [] => simp [sharedLength]
      | character :: rest, other :: others =>
          by_cases h : character = other
          · simpa [sharedLength, h] using ih (Nat.le_of_succ_le_succ hlength)
          · simp [sharedLength, h]

def endings (name : String) (entries : List (String × ν)) : List (Nat × ν) :=
  let reversed := name.toList.reverse
  entries.map fun entry =>
    (sharedLength reversed entry.1.toList.reverse, entry.2)

def firstEnding? (length : Nat) (endings : List (Nat × ν)) : Option ν :=
  (endings.find? fun ending => length ≤ ending.1).map Prod.snd

end Lookup

def Table.lookup? {ν : Type} (table : Table String ν) (tolerance : Tolerance)
    (name : String) :
    Option ν :=
  match table.get? name with
  | some value => some value
  | none =>
      let endings := Lookup.endings name table.entries
      (Lookup.candidates tolerance name).findSome? fun suffix =>
        Lookup.firstEnding? suffix.length endings

end FuzzReach
