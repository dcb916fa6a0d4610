import FuzzReach.Text.Blank

/-!
# Paths

A path is a text of parts between slashes.  Empty parts and `.` stay where they
are.
-/

namespace FuzzReach.Files.Path

def parts (path : String) : List String :=
  (Text.split '/' path.toList).map String.ofList

def join (directory name : String) : String :=
  match directory.toList.getLast? with
  | none => name
  | some '/' => directory ++ name
  | some _ => directory ++ "/" ++ name

def below (root : String) (names : List String) : String :=
  names.foldl join root

def le : List String → List String → Bool
  | [], _ => true
  | _ :: _, [] => false
  | first :: rest, other :: others =>
      first < other || (first = other && le rest others)

def isOnly (first path : String) : Bool :=
  match parts path with
  | head :: rest => head = first && rest.all fun part => part = "" || part = "."
  | [] => false

def strip (mark path : List Char) : List Char :=
  (Text.afterStart? mark path).getD path

/-- Whether the last part of a path has an extension, which is not its whole
name. -/
def hasExtension (extension path : String) : Bool :=
  match Text.cutLast? ['.'] (Text.afterLast ['/'] path.toList) with
  | some (stem, ending) => !stem.isEmpty && ending = extension.toList
  | none => false

end FuzzReach.Files.Path
