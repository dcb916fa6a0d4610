import FuzzReach.Text.Cut

/-!
# Blanks, trimming and lines

A blank is a character of the Unicode property `White_Space`.  Texts are handled
as lists of characters here, so that every cut is a statement about `++`.
-/

namespace FuzzReach.Text

/-- The twenty-five code points of `White_Space`. -/
def isBlank (character : Char) : Bool :=
  let code := character.toNat
  (9 ≤ code && code ≤ 13) || code == 0x20 || code == 0x85 || code == 0xA0 ||
    code == 0x1680 ||
    (0x2000 ≤ code && code ≤ 0x200A) || code == 0x2028 || code == 0x2029 ||
      code == 0x202F ||
    code == 0x205F || code == 0x3000

def trimStart (text : List Char) : List Char :=
  text.dropWhile isBlank

def trimEnd (text : List Char) : List Char :=
  (text.reverse.dropWhile isBlank).reverse

def trim (text : List Char) : List Char :=
  trimEnd (trimStart text)

def trimmed (text : String) : String :=
  String.ofList (trim text.toList)

/-! ## Pieces between marks -/

def onFirst (character : Char) : List (List Char) → List (List Char)
  | [] => [[character]]
  | piece :: pieces => (character :: piece) :: pieces

def split (mark : Char) : List Char → List (List Char)
  | [] => [[]]
  | character :: rest =>
      if character = mark then [] :: split mark rest
      else onFirst character (split mark rest)

def words : List Char → List (List Char)
  | [] => [[]]
  | character :: rest =>
      if isBlank character then
        if rest.head?.any isBlank then words rest else [] :: words rest
      else onFirst character (words rest)

/-! ## Lines -/

/-- What a list of pieces between line feeds means: all but the last were ended
by a line feed, and an empty last piece is no line. -/
def endLines : List (List Char) → List (List Char)
  | [] => []
  | [last] => if last.isEmpty then [] else [last]
  | line :: rest => dropEnd '\r' line :: endLines rest

/-- The lines of a text.  A line feed ends a line, and a carriage return right
before it belongs to that end. -/
def lines (text : List Char) : List (List Char) :=
  endLines (split '\n' text)

end FuzzReach.Text
