import FuzzReach.Files.Glob

/-!
# Matching globs

A glob is matched against a whole path token by token.  In between we know of
every place in the path whether the tokens so far can end there.  There is one
place more than there are bytes.
-/

namespace FuzzReach.Files.Glob

def slash : UInt8 := 0x2F

abbrev Places := List Bool

namespace Places

def start (path : List UInt8) : Places :=
  true :: path.map fun _ => false

def step (wanted : UInt8 → Bool) (path : List UInt8) (places : Places) :
    Places :=
  false :: List.zipWith (fun byte here => here && wanted byte) path places

/-- Pass any number of bytes that are as wanted; `carried` says whether the
first place is reached from the one before. -/
def spread (wanted : UInt8 → Bool) (carried : Bool) :
    List UInt8 → Places → Places
  | _, [] => []
  | [], here :: _ => [here || carried]
  | byte :: path, here :: places =>
      (here || carried) ::
        spread wanted ((here || carried) && wanted byte) path places

def pass (text path : List UInt8) (places : Places) : Places :=
  text.foldl (fun places byte => step (· = byte) path places) places

def descend (path : List UInt8) (places : Places) : Places :=
  let slashes :=
    step (· = slash) path (spread (fun _ => true) false path places)
  List.zipWith (· || ·) places slashes

end Places

/-- Whether a byte is in a range of a class.  The bytes of both ends belong to
the class, and so do the bytes from the last one of the lower end to the first
one of the upper end. -/
def inRange (byte : UInt8) (range : Char × Char) : Bool :=
  let low := String.utf8EncodeChar range.1
  let high := String.utf8EncodeChar range.2
  low.contains byte || high.contains byte ||
    (range.1 ≠ range.2 && low.getLast?.any (· ≤ byte) &&
      high.head?.any (byte ≤ ·))

mutual

def after (path : List UInt8) (places : Places) : Token → Places
  | .literal character => places.pass (String.utf8EncodeChar character) path
  | .anyByte => places.step (· ≠ slash) path
  | .run => places.spread (· ≠ slash) false path
  | .leading => places.descend path
  | .trailing =>
      (places.step (· = slash) path).spread (fun _ => true) false path
  | .between => (places.step (· = slash) path).descend path
  | .oneOf negated ranges =>
      places.step (fun byte => ranges.any (inRange byte) ≠ negated) path
  | .choice branches =>
      if areVoidBranches branches then places
        else afterChoice path places branches

def afterAll (path : List UInt8) (places : Places) : List Token → Places
  | [] => places
  | token :: tokens => afterAll path (after path places token) tokens

def afterChoice (path : List UInt8)
    (places : Places) : List (List Token) → Places
  | [] => places.map fun _ => false
  | branch :: branches =>
      let others := afterChoice path places branches
      if areVoid branch then others
      else List.zipWith (· || ·) (afterAll path places branch) others

end

/-- Whether a glob matches a whole path; a lone `**` matches everything. -/
def isMatch (tokens : List Token) (path : List UInt8) : Bool :=
  match tokens with
  | [.leading] => true
  | _ => (afterAll path (.start path) tokens).getLast? = some true

end FuzzReach.Files.Glob
