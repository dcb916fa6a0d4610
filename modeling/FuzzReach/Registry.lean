import FuzzReach.Call.Resolution
import FuzzReach.SourceFile

/-!
# The registry of a project

All functions of a project in one table.  Later files win over earlier ones, and
of the entry points only those of the chosen harness are kept.
-/

namespace FuzzReach

structure Project where
  files : List SourceFile

structure Place where
  file : Nat
  index : Nat
  deriving DecidableEq, Repr

structure Declaration where
  place : Place
  file : SourceFile
  function : Function

namespace Declaration

def name (declaration : Declaration) : String :=
  declaration.function.name

def ofFile (file : SourceFile) (number : Nat) : List Declaration :=
  file.functions.zipIdx.map fun (function, index) =>
    ⟨⟨number, index⟩, file, function⟩

def entryOf? (file : SourceFile) (number : Nat) : Option Declaration :=
  (ofFile file number).find? fun declaration => declaration.function.isEntry

end Declaration

structure Registry where
  files : List SourceFile
  table : Table String Declaration

namespace Registry

def contribution (harness : String) (file : SourceFile) (number : Nat) :
    Table String Declaration :=
  let table : Table String Declaration :=
    .ofList ((Declaration.ofFile file number).map fun declaration =>
      (declaration.name, declaration))
  if file.hasHarness && !SourceFile.matchesHarness file.path harness
    then table.erase Name.entry
  else table

def build (files : List SourceFile) (harness : String) : Registry where
  files := files
  table := files.zipIdx.foldl
    (fun table (file, number) => table.merge (contribution harness file number))
      .empty

def declarations (registry : Registry) : List Declaration :=
  registry.table.values

def get? (registry : Registry) (name : String) : Option Declaration :=
  registry.table.get? name

def lookup? (registry : Registry) (tolerance : Tolerance)
    (name : String) : Option Declaration :=
  registry.table.lookup? tolerance name

def function? (registry : Registry) (name : String) : Option Function :=
  (registry.lookup? .allSegments name).map Declaration.function

def entry? (registry : Registry) : Option Declaration :=
  registry.declarations.find? fun declaration => declaration.function.isEntry

def fileWith? (registry : Registry) (name : String) : Option SourceFile :=
  registry.files.find? fun file =>
    (file.functionTable.lookup? .allSegments name).isSome

def resolve (registry : Registry) (declaration : Declaration) :
    Call.Resolution :=
  Call.resolve declaration.function declaration.file.aliases registry.function?

end Registry

namespace Project

def registry (project : Project) (harness : String) : Registry :=
  .build project.files harness

def harnessFiles (project : Project) : List SourceFile :=
  project.files.filter SourceFile.hasHarness

def file? (project : Project) (path : String) : Option (SourceFile × Nat) :=
  project.files.zipIdx.find? fun (file, _) => file.path = path

end Project

end FuzzReach
