import FuzzReach.CallTree
import FuzzReach.Reachable
import FuzzReach.Report

/-!
# Sessions

A session answers queries about one project.  Each query that names a harness
works on a registry of its own; what it resolves is kept for all later queries,
whatever their harness.
-/

namespace FuzzReach

structure Session where
  project : Project
  known : Table Place Call.Resolution

structure ReportOptions where
  harness : String
  /-- written into the report as it is -/
  harnessSource : String

inductive Query where
  | files
  | report (options : ReportOptions)
  | reportText (options : ReportOptions)
  | reportElement (options : ReportOptions) (name : String)
  | callTree (harness : String) (file : Option String)
      (function : Option String)
  | reachable (harness : String) (file : Option String)
      (function : Option String)
  | registry (harness : String)
  | get (harness name : String)
  | lookup (harness name : String) (tolerance : Tolerance)
  | callSites (harness name : String)
  | resolveAll (harness : String)
  | resolved
  | fileWith (harness name : String)
  | crossReferences (harness name : String)
  | uses (harness name : String)
  | depth (harness name : String)
  | depths (harness : String) (names : List String)
  | harnessFiles
  | file (path : Option String)
  | functionText (path : Option String) (name : String)

inductive Answer where
  | none
  | text (value : String)
  | texts (values : List String)
  | count (value : Nat)
  | counts (values : List (Option Nat))
  | report (report : Report)
  | element (element : Report.Element)
  | registry (registry : Registry)
  | declaration (declaration : Declaration)
  | declarations (declarations : List Declaration)
  | resolution (resolution : Call.Resolution)
  | resolved (functions : List (List (String × Option Call.Resolution)))
  | file (file : SourceFile)
  | files (files : List SourceFile)

namespace Answer

def ofOption {α : Type} (answer : α → Answer) : Option α → Answer
  | some value => answer value
  | Option.none => .none

end Answer

namespace Session

def start (project : Project) : Session :=
  ⟨project, .empty⟩

def graph (session : Session) (harness : String) : CallGraph :=
  ⟨session.project.registry harness, session.known⟩

def keep (session : Session) (harness : String)
    (declarations : List Declaration) : Session :=
  { session with known := ((session.graph harness).keepAll declarations).known }

def file? (session : Session) (path : Option String) :
    Option (SourceFile × Nat) :=
  path.bind session.project.file?

def resolveAll (session : Session) (harness : String) : Session :=
  session.keep harness (session.project.registry harness).declarations

def report (session : Session) (options : ReportOptions) : Report × Session :=
  let session := session.resolveAll options.harness
  (Report.ofGraph (session.graph options.harness) options.harnessSource,
    session)

def resolved (session : Session) :
    List (List (String × Option Call.Resolution)) :=
  session.project.files.zipIdx.map fun (file, number) =>
    (Declaration.ofFile file number).map fun declaration =>
      (declaration.name, session.known.get? declaration.place)

def ask (session : Session) (query : Query) : Answer × Session :=
  match query with
  | .files => (.files session.project.files, session)
  | .report options =>
      let (report, session) := session.report options
      (.report report, session)
  | .reportText options =>
      let (report, session) := session.report options
      (.text report.render, session)
  | .reportElement options name =>
      let (report, session) := session.report options
      (.ofOption .element (report.element? name), session)
  | .callTree harness file function =>
      let visits :=
        (session.graph harness).callTree (session.file? file) function
      (.text (TreeLine.renderAll visits),
        session.keep harness
          ((Graph.expansions visits).filterMap TreeLine.declaration))
  | .reachable harness file function =>
      let reached :=
        (session.graph harness).reachable (session.file? file) function
      (.texts (reached.map CallGraph.Start.name),
        session.keep harness (reached.filterMap CallGraph.Start.declaration))
  | .registry harness => (.registry (session.project.registry harness), session)
  | .get harness name =>
      (.ofOption .declaration ((session.project.registry harness).get? name),
        session)
  | .lookup harness name tolerance =>
      (.ofOption .declaration
        ((session.project.registry harness).lookup? tolerance name), session)
  | .callSites harness name =>
      let graph := session.graph harness
      match graph.registry.get? name with
      | some declaration =>
          (.resolution (graph.resolution declaration),
            session.keep harness [declaration])
      | none => (.none, session)
  | .resolveAll harness => (.none, session.resolveAll harness)
  | .resolved => (.resolved session.resolved, session)
  | .fileWith harness name =>
      (.ofOption .text
        (((session.project.registry harness).fileWith? name).map
          SourceFile.path),
        session)
  | .crossReferences harness name =>
      (.declarations ((session.graph harness).crossReferences name),
        session.resolveAll harness)
  | .uses harness name =>
      (.count ((session.graph harness).uses name), session.resolveAll harness)
  | .depth harness name =>
      let graph := session.graph harness
      if graph.registry.table.contains name then
        (.count (graph.depth name), session.keep harness (graph.below name))
      else (.none, session)
  | .depths harness names =>
      let graph := session.graph harness
      let registered := names.filter graph.registry.table.contains
      (.counts (CallGraph.depths graph.adjacency .empty names),
        session.keep harness (registered.flatMap graph.below))
  | .harnessFiles =>
      (.texts (session.project.harnessFiles.map SourceFile.path), session)
  | .file path => (.ofOption .file ((session.file? path).map Prod.fst), session)
  | .functionText path name =>
      let text := do
        let (file, _) ← session.file? path
        let function ← file.function? name
        some (file.functionText function)
      (.ofOption .text text, session)

end Session

end FuzzReach
