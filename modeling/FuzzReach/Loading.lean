import FuzzReach.Error
import FuzzReach.Files.Discover
import FuzzReach.Registry

/-!
# Loading projects

A project is made of files given by their paths or of all source files below a
root.  Files that cannot be read or parsed are left out.
-/

namespace FuzzReach

open Files

def SourceFile.parse (path : String) (source : Option Syntax.Source) :
    Except Error SourceFile :=
  match source with
  | some source => .ok (.ofSource path source)
  | none => .error (.unparsed path)

def SourceFile.load (tree : Entries)
    (path : String) : Except Error SourceFile :=
  match tree.read path with
  | .ok content => SourceFile.parse path content.source
  | .error cause => .error (.unreadable cause)

namespace Project

def ofPaths (tree : Entries) (paths : List String) : Project where
  files := paths.filterMap fun path => (SourceFile.load tree path).toOption

def ofRoot (tree : Entries) (root : String) (excludes : List String)
    (fits : Glob.Capacity := Glob.unlimited) : Except Error Project :=
  match discover tree root excludes fits with
  | .ok paths => .ok (ofPaths tree paths)
  | .error cause => .error (.pattern cause)

end Project

end FuzzReach
