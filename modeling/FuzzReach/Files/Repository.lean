import FuzzReach.Files.Rule

/-!
# Rules of a repository

A repository has rules of its own in `info/exclude` below its directory `.git`.
If `.git` is a file, its first line leads to a second directory, and the first
line of the file `commondir` there leads to the one with the rules.  Both are
paths from the working directory on, unless the second starts with a dot: then
it goes on from the first.
-/

namespace FuzzReach.Files.Repository

def firstLine? (content : Content) : Option (List Char) :=
  (Rules.readable (Rules.splitLines content.bytes.toList)).head?

def common? (tree : Entries) (line : List Char) : Option String := do
  let rest ← Text.afterStart? "gitdir: ".toList line
  let directory := String.ofList rest
  let content ← (tree.read (Path.join directory "commondir")).toOption
  let line ← firstLine? content
  let shared := String.ofList line
  return if line.head? = some '.' then Path.join directory shared else shared

def rules (fits : Glob.Capacity) (tree : Entries) (base : String)
    (entries : Entries) : Rules :=
  match Table.find? ".git" entries with
  | some (.file content) =>
      match firstLine? content >>= common? tree with
      | some directory =>
          .ofEntry fits base tree (Path.join directory "info/exclude")
      | none => ⟨base, []⟩
  | _ => .ofEntry fits base entries ".git/info/exclude"

end FuzzReach.Files.Repository
