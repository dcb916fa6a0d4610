import FuzzReach.Proofs.Call.Reading
import FuzzReach.Proofs.Registry

/-!
# What a caller sees of other functions

Resolution asks the known functions for their names, for their return types and
for whether they are macros.  Nothing else of them reaches a call site, a record
or a variable, so registries that agree on these answers resolve every function
alike.
-/

namespace FuzzReach

structure Interface where
  name : String
  returnType : String
  isMacro : Bool
  deriving DecidableEq, Repr

def Function.interface (function : Function) : Interface :=
  ⟨function.name, function.returnType, function.isMacro⟩

namespace Call

/-- Every name means functions with the same interface, or none in either
case. -/
def SeenAlike (first second : String → Option Function) : Prop :=
  ∀ name, (first name).map Function.interface =
    (second name).map Function.interface

namespace Tracker

structure Alike (first second : Tracker) : Prop where
  lookup : SeenAlike first.lookup second.lookup
  aliases : first.aliases = second.aliases
  owner : first.owner = second.owner
  locals : first.locals = second.locals

private theorem returnType?_eq_interface (tracker : Tracker) (name : String) :
    tracker.returnType? name =
      ((tracker.lookup name).map Function.interface).bind
      fun interface => nonempty? interface.returnType := by
  rw [returnType?, Option.bind_map]
  rfl

private theorem invoked?_eq_interface (tracker : Tracker) (name : String) :
    tracker.invoked? name = ((tracker.lookup name).map Function.interface).bind
      fun interface => if interface.isMacro then some interface.name
        else none := by
  rw [invoked?, Option.bind_map]
  rfl

namespace Alike

variable {first second : Tracker}

theorem sameTypes (h : first.Alike second) : first.SameTypes second where
  returns := fun name => by
    rw [returnType?_eq_interface, returnType?_eq_interface, h.lookup]
  owner := h.owner

theorem target?_eq (h : first.Alike second) (callee : Callee) :
    first.target? callee = second.target? callee :=
  h.sameTypes.target?_eq fun _ _ => by rw [h.locals]

private theorem invoked?_eq (h : first.Alike second) (name : String) :
    first.invoked? name = second.invoked? name := by
  rw [invoked?_eq_interface, invoked?_eq_interface, h.lookup]

private theorem finding?_eq (h : first.Alike second) (event : Event) :
    first.finding? event = second.finding? event := by
  cases event with
  | call callee position line => simp only [finding?, h.target?_eq]
  | bind name value => rfl
  | invoke name position line => simp only [finding?, h.invoked?_eq]

private theorem bindingType?_eq (h : first.Alike second) (value : Binding) :
    first.bindingType? value = second.bindingType? value := by
  cases value with
  | path name => simp only [bindingType?, h.locals, h.aliases]
  | cast type => rfl
  | call callee =>
      exact h.sameTypes.callType?_eq callee fun _ _ => by rw [h.locals]

theorem bind (h : first.Alike second) (name type : String) :
    (first.bind name type).Alike (second.bind name type) where
  lookup := h.lookup
  aliases := h.aliases
  owner := h.owner
  locals := by simp only [Tracker.bind, h.locals]

theorem learnEvent (h : first.Alike second) (event : Event) :
    (first.learnEvent event).Alike (second.learnEvent event) := by
  cases event with
  | bind name value =>
      simp only [Tracker.learnEvent, learn, h.bindingType?_eq]
      cases (second.bindingType? value).bind nonempty? with
      | none => exact h
      | some type => exact h.bind name type
  | call | invoke => exact h

private theorem replay_eq (h : first.Alike second) (events : List Event) :
    replay first events = replay second events := by
  induction events generalizing first second with
  | nil => simp only [replay, h.locals]
  | cons event rest ih =>
      rw [replay_cons, replay_cons, h.finding?_eq, ih (h.learnEvent event)]

end Alike

end Tracker

private theorem resolve_congr {lookup other : String → Option Function}
    (h : SeenAlike lookup other) (function : Function)
    (aliases : Table String String) :
    resolve function aliases lookup = resolve function aliases other := by
  have halike :
      (Tracker.start lookup aliases function.name function.locals).Alike
      (Tracker.start other aliases function.name function.locals) :=
        ⟨h, rfl, rfl, rfl⟩
  simp only [resolve, halike.replay_eq]

end Call

/-! ## Registries -/

namespace Registry

def interfaces (registry : Registry) : List Interface :=
  registry.declarations.map fun declaration => declaration.function.interface

def interfaceTable (registry : Registry) : Table String Interface :=
  registry.table.map fun declaration => declaration.function.interface

private theorem entries_interfaceTable {registry : Registry}
    (h : registry.Named) :
    registry.interfaceTable.entries =
      registry.interfaces.map fun interface => (interface.name, interface) := by
  rw [interfaces, declarations, Table.values, List.map_map, List.map_map]
  apply List.map_congr_left
  rintro ⟨key, declaration⟩ hentry
  have hname : declaration.name = key := h key declaration hentry
  rw [← hname]
  rfl

private theorem interface_function? (registry : Registry) (name : String) :
    (registry.function? name).map Function.interface =
      registry.interfaceTable.lookup? .allSegments name := by
  rw [interfaceTable, Table.lookup?_map, function?, Option.map_map]
  rfl

private theorem seenAlike_function? {first second : Registry}
    (hfirst : first.Named) (hsecond : second.Named)
    (h : first.interfaces = second.interfaces) :
    Call.SeenAlike first.function? second.function? := by
  have htable : first.interfaceTable = second.interfaceTable := by
    apply Table.ext
    rw [entries_interfaceTable hfirst, entries_interfaceTable hsecond, h]
  intro name
  rw [interface_function?, interface_function?, htable]

/-- Registries that list the same names in the same order, with the same return
types and the same macros among them, give every function the same call sites,
records and variables. -/
theorem resolve_eq_of_interfaces (files others : List SourceFile)
    (harness otherHarness : String) (h : (build files harness).interfaces =
      (build others otherHarness).interfaces) (function : Function)
        (aliases : Table String String) :
    Call.resolve function aliases (build files harness).function? =
      Call.resolve function aliases (build others otherHarness).function? :=
  Call.resolve_congr (seenAlike_function? (build_named _ _) (build_named _ _) h)
    function aliases

def lexerFile (path : String) (body : List Call.Event) : SourceFile where
  path := path
  bytes := #[]
  aliases := .empty
  functions :=
    [{ name := "open", path := path, returnType := "Lexer", events := body },
     { name := "check", path := path, isMacro := true }]

/-- A body with `let x = open();`, `x.next()` and `check!()`. -/
def lexerUser : Function :=
  { name := "run", path := "src/run.rs",
    events := [.bind "x" (.call (.path "open")),
      .call (.field (.path "x") "next") 30 3,
      .invoke "check" 40 4] }

theorem resolve_lexerUser :
    let quiet := build [lexerFile "src/a.rs" []] ""
    let busy := build [lexerFile "src/b.rs" [.call (.path "run") 7 1]] ""
    quiet.interfaces = busy.interfaces ∧
      Call.resolve lexerUser .empty quiet.function? =
        Call.resolve lexerUser .empty busy.function? ∧
      (Call.resolve lexerUser .empty quiet.function?).sites =
        [⟨"Lexer::next", 3⟩, ⟨"check", 4⟩] ∧
      (Call.resolve lexerUser .empty quiet.function?).locals.entries =
        [("x", "Lexer")] := by
  intro quiet busy
  have hinterfaces : quiet.interfaces = busy.interfaces := by decide +kernel
  have hfound :
      (Call.replay (.start quiet.function? .empty "run" .empty)
        lexerUser.events).1 =
      [⟨30, "Lexer::next", 3⟩, ⟨40, "check", 4⟩] := by decide +kernel
  have hsites : (Call.arrange [⟨30, "Lexer::next", 3⟩, ⟨40, "check", 4⟩]).map
      (Call.siteOf .empty) = [⟨"Lexer::next", 3⟩, ⟨"check", 4⟩] := by
    rw [Call.arrange, List.mergeSort_of_pairwise (by decide +kernel)]
    decide +kernel
  refine ⟨hinterfaces,
    resolve_eq_of_interfaces _ _ _ _ hinterfaces lexerUser .empty, ?_,
    by decide +kernel⟩
  rw [← hsites, ← hfound]
  rfl

end Registry

end FuzzReach
