import FuzzReach.Graph.Depth
import FuzzReach.Registry

/-!
# The call graph of a project

A call graph joins a registry with what earlier queries have resolved.  A
function's calls are resolved against the registry of the first query that needs
them, and that result stays.
-/

namespace FuzzReach

structure CallGraph where
  registry : Registry
  known : Table Place Call.Resolution

namespace CallGraph

/-- The resolved calls of a function: the known ones, else those against this
registry. -/
def resolution (graph : CallGraph) (declaration : Declaration) :
    Call.Resolution :=
  (graph.known.get? declaration.place).getD (graph.registry.resolve declaration)

def sites (graph : CallGraph) (declaration : Declaration) : List Call.Site :=
  (graph.resolution declaration).sites

def callees (graph : CallGraph) (declaration : Declaration) : List String :=
  (graph.sites declaration).map Call.Site.callee

def keep (graph : CallGraph) (declaration : Declaration) : CallGraph :=
  if graph.known.contains declaration.place then graph
  else { graph with
    known := graph.known.insert declaration.place
      (graph.registry.resolve declaration) }

def keepAll (graph : CallGraph) (declarations : List Declaration) : CallGraph :=
  declarations.foldl keep graph

def resolveAll (graph : CallGraph) : CallGraph :=
  graph.keepAll graph.registry.declarations

/-! ## Uses -/

/-- The registered functions that call exactly the function which the name
means, or the name itself if it means none. -/
def crossReferences (graph : CallGraph) (name : String) : List Declaration :=
  let target :=
    ((graph.registry.lookup? .allSegments name).map Declaration.name).getD name
  graph.registry.declarations.filter fun caller =>
    (graph.callees caller).contains target

def uses (graph : CallGraph) (name : String) : Nat :=
  graph.registry.declarations.countP fun caller =>
    (graph.callees caller).any (Text.endsWith name)

/-! ## Depth -/

def targets (graph : CallGraph) (declaration : Declaration) :
    List Declaration :=
  (graph.callees declaration).filterMap (graph.registry.lookup? .oneSegment)

def adjacency (graph : CallGraph) : Table String (List String) :=
  graph.registry.table.map fun declaration =>
    (graph.targets declaration).map Declaration.name

def nextIn (adjacency : Table String (List String))
    (name : String) : List String :=
  (adjacency.get? name).getD []

def settle (adjacency : Table String (List String)) (settled : Table String Nat)
    (name : String) :
    Table String Nat :=
  Graph.settle (nextIn adjacency) adjacency.keys settled name

def depth (graph : CallGraph) (name : String) : Nat :=
  Graph.depthIn (settle graph.adjacency .empty name) name

def depths (adjacency : Table String (List String))
    (settled : Table String Nat) :
    List String → List (Option Nat)
  | [] => []
  | name :: rest =>
      if adjacency.contains name then
        let settled := settle adjacency settled name
        some (Graph.depthIn settled name) :: depths adjacency settled rest
      else none :: depths adjacency settled rest

def below (graph : CallGraph) (name : String) : List Declaration :=
  let adjacency := graph.adjacency
  (Graph.reach (nextIn adjacency) adjacency.keys name).filterMap
    graph.registry.get?

/-! ## Starting points -/

structure Start where
  name : String
  declaration : Option Declaration

def start? (graph : CallGraph) (file : Option (SourceFile × Nat))
    (function : Option String) :
    Option Start :=
  match function, file with
  | some name, _ => some ⟨name, graph.registry.lookup? .allSegments name⟩
  | none, some (file, number) =>
      (Declaration.entryOf? file number).map fun declaration =>
        ⟨declaration.name, some declaration⟩
  | none, none => none

end CallGraph

end FuzzReach
