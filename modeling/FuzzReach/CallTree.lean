import FuzzReach.CallGraph

/-!
# Call trees

A call tree is a text with one line for every call: two spaces for each level,
the function, the file that the call is made from and the line of the call.  A
function's own calls are listed where it first comes up.  Calls from the body of
a macro are listed but not followed, unless the macro is the entry point.
-/

namespace FuzzReach

/-- A line of a call tree.  Only the root has no line number. -/
structure TreeLine where
  calledAs : String
  declaration : Option Declaration
  caller : String
  level : Nat
  number : Option Nat

namespace TreeLine

def key? (line : TreeLine) : Option String :=
  line.declaration.map Declaration.name

/-- The name shown for a call: that of the function, unless the call wrote more
segments. -/
def shown (line : TreeLine) : String :=
  match line.declaration with
  | some declaration =>
      if Name.separators line.calledAs.toList ≤
        Name.separators declaration.name.toList then
        declaration.name
      else line.calledAs
  | none => line.calledAs

def numberText (line : TreeLine) : String :=
  match line.number with
  | some number => toString number
  | none => "-1"

def indent : Nat → String
  | 0 => ""
  | level + 1 => "  " ++ indent level

def render (line : TreeLine) : String :=
  indent line.level ++ line.shown ++ " " ++ line.caller ++ " " ++
    line.numberText ++ "\n"

def renderAll (visits : List (Graph.Visit TreeLine)) : String :=
  String.join (visits.map fun visit => visit.item.render)

end TreeLine

namespace CallGraph

def isFollowed (declaration : Declaration) : Bool :=
  !declaration.function.isMacro || declaration.name = Name.entry

def linesBelow (graph : CallGraph) (line : TreeLine) : List TreeLine :=
  match line.declaration with
  | none => []
  | some declaration =>
      (graph.sites declaration).map fun site =>
        { calledAs := site.callee
          declaration :=
            if isFollowed declaration
              then graph.registry.lookup? .allSegments site.callee
            else none
          caller := declaration.file.path
          level := line.level + 1
          number := some site.line }

def treeFrom (graph : CallGraph)
    (root : TreeLine) : List (Graph.Visit TreeLine) :=
  Graph.trail TreeLine.key? graph.linesBelow
    (root.key?.toList ++ graph.registry.table.keys) [root]

/-- The file shown for the root: the given one, else the first with a function
of that name. -/
def rootLabel (graph : CallGraph) (file : Option (SourceFile × Nat))
    (name : String) : String :=
  match file with
  | some (file, _) => file.path
  | none => ((graph.registry.fileWith? name).map SourceFile.path).getD ""

def root? (graph : CallGraph) (file : Option (SourceFile × Nat))
    (function : Option String) :
    Option TreeLine :=
  (graph.start? file function).map fun start =>
    { calledAs := start.name
      declaration := start.declaration
      caller := graph.rootLabel file start.name
      level := 0
      number := none }

def callTree (graph : CallGraph) (file : Option (SourceFile × Nat))
    (function : Option String) :
    List (Graph.Visit TreeLine) :=
  match graph.root? file function with
  | some root => graph.treeFrom root
  | none => []

end CallGraph

end FuzzReach
