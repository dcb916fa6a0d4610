import FuzzReach.Call.Tracker

/-!
# Call sites

The events of a body are replayed against the known functions.  What they call,
ordered by position and without repetitions, becomes the list of call sites
after the file's aliases were put in.
-/

namespace FuzzReach.Call

structure Site where
  callee : String
  line : Nat
  deriving DecidableEq, Repr

structure Record where
  source : String
  target : String
  deriving DecidableEq, Repr

structure Resolution where
  sites : List Site
  records : List Record
  /-- the types of the variables at the end of the body -/
  locals : Table String String

/-! ## Replay -/

structure Finding where
  position : Nat
  target : String
  line : Nat
  deriving DecidableEq, Repr

def replay (tracker : Tracker) : List Event → List Finding × Table String String
  | [] => ([], tracker.locals)
  | .call callee position line :: rest =>
      let (found, locals) := replay tracker rest
      match tracker.target? callee with
      | some target => (⟨position, target, line⟩ :: found, locals)
      | none => (found, locals)
  | .bind name value :: rest => replay (tracker.learn name value) rest
  | .invoke name position line :: rest =>
      let (found, locals) := replay tracker rest
      match tracker.invoked? name with
      | some target => (⟨position, target, line⟩ :: found, locals)
      | none => (found, locals)

/-! ## Order -/

def Finding.le (first second : Finding) : Bool :=
  first.position < second.position ||
    (first.position = second.position &&
      (first.target < second.target ||
        (first.target = second.target && first.line ≤ second.line)))

def dropRepeats : List Finding → List Finding
  | first :: second :: rest =>
      if first = second then dropRepeats (second :: rest)
      else first :: dropRepeats (second :: rest)
  | rest => rest

def arrange (found : List Finding) : List Finding :=
  dropRepeats (found.mergeSort Finding.le)

/-! ## Resolution -/

def siteOf (aliases : Table String String) (finding : Finding) : Site :=
  ⟨(aliases.get? finding.target).getD finding.target, finding.line⟩

def recordOf (path : String) (site : Site) : Record :=
  ⟨path ++ ":" ++ toString site.line ++ ",1", site.callee⟩

def resolve (function : Function) (aliases : Table String String)
    (lookup : String → Option Function) : Resolution :=
  let tracker := Tracker.start lookup aliases function.name function.locals
  let (found, locals) := replay tracker function.events
  let sites := (arrange found).map (siteOf aliases)
  ⟨sites, sites.map (recordOf function.path), locals⟩

end FuzzReach.Call
