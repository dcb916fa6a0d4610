import FuzzReach.CallGraph

/-!
# Reachable names

The names that a start reaches: its own, those of its calls, those of the calls
of the functions they mean, and so on.  A name that means no function is listed
and leads nowhere.
-/

namespace FuzzReach.CallGraph

def successors (graph : CallGraph) (start : Start) : List Start :=
  match start.declaration with
  | none => []
  | some declaration =>
      (graph.callees declaration).map fun callee =>
        ⟨callee, graph.registry.lookup? .allSegments callee⟩

def vocabulary (graph : CallGraph) (start : Start) : List String :=
  start.name :: ((graph.successors start).map Start.name ++
    graph.registry.declarations.flatMap graph.callees)

def reachedFrom (graph : CallGraph) (start : Start) : List Start :=
  Graph.expansions
    (Graph.trail (fun (item : Start) => some item.name) graph.successors
      (graph.vocabulary start) [start])

def reachable (graph : CallGraph) (file : Option (SourceFile × Nat))
    (function : Option String) :
    List Start :=
  match graph.start? file function with
  | some start => graph.reachedFrom start
  | none => []

end FuzzReach.CallGraph
