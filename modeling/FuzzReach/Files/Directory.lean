import FuzzReach.Files.Path
import FuzzReach.Syntax.Source
import FuzzReach.Table

/-!
# Directories

A tree of files below a working directory, and reading by path.
-/

namespace FuzzReach.Files

structure Content where
  bytes : Syntax.Bytes
  source : Option Syntax.Source

inductive Entry where
  | file (content : Content)
  | directory (entries : List (String × Entry))

abbrev Entries := List (String × Entry)

def Entry.isDirectory : Entry → Bool
  | .file _ => false
  | .directory _ => true

inductive ReadError where
  | notFound
  | isDirectory
  | notDirectory
  | tooLong
  | zeroByte
  deriving DecidableEq, Repr

def ReadError.message : ReadError → String
  | .notFound => "No such file or directory (os error 2)"
  | .isDirectory => "Is a directory (os error 21)"
  | .notDirectory => "Not a directory (os error 20)"
  | .tooLong => "File name too long (os error 36)"
  | .zeroByte => "file name contained an unexpected NUL byte"

namespace Entries

def write (content : Content) : List String → Entries → Entries
  | [], entries => entries
  | [name], entries => Table.place name (.file content) entries
  | name :: rest, entries =>
      let inner :=
        match Table.find? name entries with
        | some (.directory inner) => inner
        | _ => []
      Table.place name (.directory (write content rest inner)) entries

def ofFiles (files : List (String × Content)) : Entries :=
  files.foldl (fun entries (path, content) =>
    write content ((Path.parts path).filter fun part => part ≠ "" ∧ part ≠ ".")
      entries) []

/-! ## Finding a path -/

structure Passed where
  names : List String
  entries : Entries

structure Location where
  names : List String
  entry : Entry
  above : List Passed

def outside : Location :=
  ⟨[], .directory [], []⟩

def longestName : Nat := 255

def longestPath : Nat := 4095

/-- Follow the parts of a path.  A file has nothing below it, not even
itself. -/
def follow (here : Location) : List String → Except ReadError Location
  | [] => .ok here
  | part :: rest =>
      match here.entry with
      | .file _ => .error .notDirectory
      | .directory entries =>
          if part = "" ∨ part = "." then follow here rest
          else if part = ".." then
            match here.above with
            | [] => follow outside rest
            | passed :: above =>
                follow ⟨passed.names, .directory passed.entries, above⟩ rest
          else
            match Table.find? part entries with
            | none =>
                .error (if longestName < part.utf8ByteSize then .tooLong
                  else .notFound)
            | some entry =>
                follow ⟨here.names ++ [part], entry,
                  ⟨here.names, entries⟩ :: here.above⟩ rest

def locate (entries : Entries) (path : String) : Except ReadError Location :=
  if path.toList.contains '\x00' then .error .zeroByte
  else if longestPath < path.utf8ByteSize then .error .tooLong
  else if path = "" then .error .notFound
  else if path.toList.head? = some '/' then follow outside (Path.parts path)
  else follow ⟨[], .directory entries, []⟩ (Path.parts path)

def read (entries : Entries) (path : String) : Except ReadError Content :=
  match locate entries path with
  | .error error => .error error
  | .ok location =>
      match location.entry with
      | .file content => .ok content
      | .directory _ => .error .isDirectory

end Entries

end FuzzReach.Files
