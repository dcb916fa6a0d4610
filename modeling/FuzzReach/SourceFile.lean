import FuzzReach.Extract
import FuzzReach.Lookup

/-!
# Source files

An analysed file: its path, its bytes, the aliases of its `use` declarations and
its functions.
-/

namespace FuzzReach

open Syntax

structure SourceFile where
  path : String
  bytes : Bytes
  aliases : Table String String
  functions : List Function

namespace SourceFile

def inMemory : String := "in-memory string"

def ofSource (path : String) (source : Source) : SourceFile where
  path := path
  bytes := source.bytes
  aliases := Extract.aliases source
  functions := Extract.functions source path

def entry? (file : SourceFile) : Option Function :=
  file.functions.find? Function.isEntry

def hasHarness (file : SourceFile) : Bool :=
  file.functions.any Function.isEntry

/-- The functions by name; of two with one name the later counts. -/
def functionTable (file : SourceFile) : Table String Function :=
  .ofList (file.functions.map fun function => (function.name, function))

def function? (file : SourceFile) (name : String) : Option Function :=
  file.functions.find? fun function => function.name = name

def functionText (file : SourceFile) (function : Function) : String :=
  textBetween file.bytes function.start function.stop

/-- Whether the file belongs to a harness: its path holds the harness name with
the extension of source files.  The empty name selects every file. -/
def matchesHarness (path harness : String) : Bool :=
  harness = "" || Text.contains (harness ++ ".rs").toList path.toList

end SourceFile

end FuzzReach
