import FuzzReach.CallGraph
import FuzzReach.Report.Json

/-!
# Reports

A report lists the files of a project with their functions and describes every
registered function: where it is, what it calls, how often it is called and how
deep its calls go.
-/

namespace FuzzReach

structure Report.Element where
  function : Function
  records : List Call.Record
  uses : Nat
  depth : Nat
  reached : List String

structure Report where
  files : List (String × List String)
  harnessSource : String
  entry : Option String
  elements : List Report.Element

namespace Report

/-! ## Contents -/

def distinct (names : List String) : List String :=
  names.eraseDups.mergeSort fun first second => first ≤ second

def element (graph : CallGraph) (settled : Table String Nat)
    (declaration : Declaration) :
    Element where
  function := declaration.function
  records := (graph.resolution declaration).records
  uses := graph.uses declaration.name
  depth := Graph.depthIn settled declaration.name
  reached := distinct (graph.callees declaration)

/-- Describe functions one after the other; the depths settled for one serve the
next. -/
def describe (graph : CallGraph) (adjacency : Table String (List String))
    (settled : Table String Nat) : List Declaration → List Element
  | [] => []
  | declaration :: rest =>
      let settled := CallGraph.settle adjacency settled declaration.name
      element graph settled declaration :: describe graph adjacency settled rest

def ofGraph (graph : CallGraph) (harnessSource : String) : Report where
  files := graph.registry.files.map fun file =>
    (file.path, file.functions.map Function.name)
  harnessSource := harnessSource
  entry := graph.registry.entry?.map Declaration.name
  elements := describe graph graph.adjacency .empty graph.registry.declarations

def element? (report : Report) (name : String) : Option Element :=
  report.elements.find? fun element => element.function.name = name

/-! ## Text -/

def texts (values : List String) : Json :=
  .list (values.map .text)

def recordJson (record : Call.Record) : Json :=
  .object [("Src", .text record.source), ("Dst", .text record.target)]

def elementJson (element : Element) : Json :=
  let function := element.function
  .object
    [ ("functionName", .text function.name),
      ("functionSourceFile", .text function.path),
      ("functionLinenumber", .number function.startLine),
      ("functionLinenumberEnd", .number function.endLine),
      ("linkageType", .text ""),
      ("func_position",
        .object [("start", .number function.startLine),
          ("end", .number function.endLine)]),
      ("CyclomaticComplexity", .number function.complexity),
      ("EdgeCount", .number function.complexity),
      ("ICount", .number function.instructions),
      ("argNames", texts function.argNames),
      ("argTypes", texts function.argTypes),
      ("argCount", .number function.argTypes.length),
      ("returnType", .text function.returnType),
      ("BranchProfiles", .list []),
      ("Callsites", .list (element.records.map recordJson)),
      ("functionUses", .number element.uses),
      ("functionDepth", .number element.depth),
      ("constantsTouched", .list []),
      ("BBCount", .number 0),
      ("signature", .text function.signature),
      ("functionsReached", texts element.reached) ]

def fileJson (file : String × List String) : Json :=
  .object [("source_file", .text file.1), ("function_names", texts file.2)]

/-- The list of functions is left out if it is empty. -/
def toJson (report : Report) : Json :=
  .object
    ([ ("report", .text "name"),
        ("sources", .list (report.files.map fileJson)),
        ("Fuzzer filename", .text report.harnessSource) ] ++
      (match report.entry with
        | some entry => [("Fuzzing method", .text entry)]
        | none => []) ++
      (if report.elements.isEmpty then []
        else
          [("All functions",
            .object [("Elements", .list (report.elements.map elementJson))])]))

def render (report : Report) : String :=
  report.toJson.render 0

end Report

end FuzzReach
