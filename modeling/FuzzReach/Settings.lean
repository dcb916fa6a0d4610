import FuzzReach.Error
import FuzzReach.Text.Blank
import FuzzReach.Text.Utf8

/-!
# Settings

How many workers read files, and which files are left out.  Both come from
environment variables; a variable whose value is no text counts as unset.
-/

namespace FuzzReach

structure Settings where
  /-- zero leaves the choice to the system -/
  workers : Nat
  exclude : List String
  deriving DecidableEq, Repr

namespace Settings

def workersVariable : String := "REACHGRAPH_WORKERS"

/-- The number of workers; an empty text means zero. -/
def readWorkers (text : String) : Except Error Nat :=
  let text := Text.trimmed text
  if text = "" then .ok 0
  else
    match readCount text.toList with
    | .ok count => .ok count
    | .error cause => .error (.setting workersVariable text cause)

def readExclude (text : String) : List String :=
  ((Text.split ',' text.toList).map fun part =>
    String.ofList (Text.trim part)).filter (· ≠ "")

def ofEnvironment (workers exclude : Option (List UInt8)) :
    Except Error Settings := do
  let workers ←
    match workers.bind Text.Utf8.decode? with
    | some text => readWorkers text
    | none => .ok 0
  let exclude :=
    match exclude.bind Text.Utf8.decode? with
    | some text => readExclude text
    | none => []
  return ⟨workers, exclude⟩

end Settings

end FuzzReach
