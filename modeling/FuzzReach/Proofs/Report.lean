import FuzzReach.Proofs.Depth.Calls
import FuzzReach.Proofs.Session.History

/-!
# Reports are consistent with themselves

A report lists the registered functions in their order.  All that it says of
their uses, depths and reached names follows from the function names and the
targets of the call sites that it lists, whichever queries came before.
-/

namespace FuzzReach

/-! ## Tables of names -/

namespace Table

variable {κ ν μ : Type}

private theorem place_eq_append [DecidableEq κ] {key : κ} {value : ν}
    {entries : List (κ × ν)} (h : key ∉ entries.map Prod.fst) :
    place key value entries = entries ++ [(key, value)] := by
  induction entries with
  | nil => rfl
  | cons entry rest ih =>
      simp only [List.map_cons, List.mem_cons, not_or] at h
      rw [place, if_neg (Ne.symm h.1), ih h.2, List.cons_append]

private theorem entries_insertAll_of_nodup [DecidableEq κ] {table : Table κ ν}
    {pairs : List (κ × ν)} (h : ((table.entries ++ pairs).map Prod.fst).Nodup) :
    (table.insertAll pairs).entries = table.entries ++ pairs := by
  induction pairs generalizing table with
  | nil => simp
  | cons pair rest ih =>
      have hfresh : pair.1 ∉ table.entries.map Prod.fst := by
        simp only [List.map_append, List.map_cons, List.nodup_append,
          List.mem_cons] at h
        exact fun hmem => h.2.2 _ hmem _ (Or.inl rfl) rfl
      have hentries :
          (table.insert pair.1 pair.2).entries = table.entries ++ [pair] :=
        place_eq_append hfresh
      rw [insertAll_cons, ih (by simpa [hentries] using h), hentries,
        List.append_assoc]
      rfl

private theorem ofList_entries [DecidableEq κ] (table : Table κ ν) :
    ofList table.entries = table := by
  apply Table.ext
  exact entries_insertAll_of_nodup (by simpa using table.nodup)

end Table

namespace Report

/-! ## Reached names -/

private theorem nodup_distinct (names : List String) :
    (distinct names).Nodup := by
  have hkeys := Table.keys_ofList (names.map fun name => (name, ()))
  simp only [List.map_map, Function.comp_def, List.map_id'] at hkeys
  have hnodup : names.eraseDups.Nodup := hkeys ▸ Table.nodup _
  exact (List.mergeSort_perm _ _).nodup_iff.mpr hnodup

theorem mem_distinct_iff {names : List String} {name : String} :
    name ∈ distinct names ↔ name ∈ names := by
  rw [distinct, List.mem_mergeSort, List.mem_eraseDups]

private theorem pairwise_distinct (names : List String) :
    (distinct names).Pairwise (· < ·) := by
  have hsorted : (distinct names).Pairwise fun first second =>
      decide (first ≤ second) = true := by
    refine List.pairwise_mergeSort ?_ ?_ _
    · intro first second third hfirst hsecond
      exact decide_eq_true
        (String.le_trans (of_decide_eq_true hfirst) (of_decide_eq_true hsecond))
    · intro first second
      simpa using String.le_total first second
  refine (hsorted.and (nodup_distinct names)).imp ?_
  rintro first second ⟨hle, hne⟩
  exact String.not_le.mp fun hback =>
    hne (String.le_antisymm (of_decide_eq_true hle) hback)

/-! ## What a report lists -/

/-- The functions of a report with the targets of their call sites. -/
def outline (report : Report) : List (String × List String) :=
  report.elements.map fun element =>
    (element.function.name, element.records.map Call.Record.target)

def namesOf (outline : List (String × List String)) : Table String String :=
  .ofList (outline.map fun entry => (entry.1, entry.1))

/-- A listed call site of the first function means the second one among the
listed names, at most one segment of its target dropped. -/
def Calls (outline : List (String × List String))
    (caller callee : String) : Prop :=
  ∃ targets, (caller, targets) ∈ outline ∧
    ∃ target ∈ targets,
      (namesOf outline).lookup? .oneSegment target = some callee

def usesOf (outline : List (String × List String)) (name : String) : Nat :=
  outline.countP fun entry => entry.2.any (Text.endsWith name)

/-! ## Elements -/

section Elements

variable {graph : CallGraph}

/-- Depths that were settled before do not show: each function is described as
if it were alone. -/
theorem describe_eq_map (hnamed : graph.registry.Named)
    {settled : Table String Nat}
    (hsettled : Graph.Settled (CallGraph.nextIn graph.adjacency) settled)
    {declarations : List Declaration}
    (hdeclarations : ∀ declaration ∈ declarations,
      declaration ∈ graph.registry.declarations) :
    describe graph graph.adjacency settled declarations =
      declarations.map fun declaration =>
        element graph (CallGraph.settle graph.adjacency .empty declaration.name)
          declaration := by
  induction declarations generalizing settled with
  | nil => rfl
  | cons declaration rest ih =>
      obtain ⟨hhead, hrest⟩ := List.forall_mem_cons.mp hdeclarations
      have hname : graph.adjacency.contains declaration.name = true := by
        rw [CallGraph.contains_adjacency]
        exact hnamed.contains_of_mem hhead
      have hdepth :=
        CallGraph.depthIn_settleBy hnamed
          (Graph.listsGroups_groups _) hsettled hname
      rw [← Graph.settle_eq_settleBy] at hdepth
      rw [describe, List.map_cons,
        ih (CallGraph.settle_settled hnamed hsettled hname).1 hrest]
      simp only [element, CallGraph.settle, hdepth, CallGraph.depth]

private theorem elements_ofGraph (hnamed : graph.registry.Named)
    (harnessSource : String) :
    (ofGraph graph harnessSource).elements =
      graph.registry.declarations.map fun declaration =>
        element graph (CallGraph.settle graph.adjacency .empty declaration.name)
          declaration :=
  describe_eq_map hnamed (Graph.Settled.empty _) fun _ h => h

def RecordsCallees (graph : CallGraph) : Prop :=
  ∀ declaration ∈ graph.registry.declarations,
    (graph.resolution declaration).records.map Call.Record.target =
      graph.callees declaration

private theorem outline_ofGraph (hnamed : graph.registry.Named)
    (hrecords : RecordsCallees graph) (harnessSource : String) :
    (ofGraph graph harnessSource).outline =
      graph.registry.declarations.map fun declaration =>
        (declaration.name, graph.callees declaration) := by
  rw [outline, elements_ofGraph hnamed, List.map_map]
  refine List.map_congr_left fun declaration h => ?_
  exact Prod.ext rfl (hrecords declaration h)

private theorem namesOf_outline (hnamed : graph.registry.Named) :
    namesOf (graph.registry.declarations.map fun declaration =>
        (declaration.name, graph.callees declaration)) =
      graph.registry.table.map Declaration.name := by
  rw [namesOf, ← Table.ofList_entries
    (graph.registry.table.map Declaration.name), List.map_map]
  congr 1
  rw [Registry.declarations, Table.values, List.map_map]
  refine List.map_congr_left fun entry hentry => ?_
  exact Prod.ext (hnamed _ _ hentry) rfl

private theorem calls_outline (hnamed : graph.registry.Named) :
    Calls (graph.registry.declarations.map fun declaration =>
        (declaration.name, graph.callees declaration)) = graph.Calls := by
  funext caller callee
  refine propext ?_
  unfold Calls
  rw [namesOf_outline hnamed]
  simp only [Table.lookup?_map, List.mem_map, Option.map_eq_some_iff]
  constructor
  · rintro ⟨targets, ⟨declaration, hmem, heq⟩, name, hname, target,
      hlookup, rfl⟩
    obtain ⟨rfl, rfl⟩ := Prod.mk.inj heq
    obtain ⟨site, hsite, rfl⟩ := List.mem_map.mp hname
    exact ⟨declaration, hnamed.get?_eq_some_iff.mpr ⟨hmem, rfl⟩, site, hsite,
      target, hlookup, rfl⟩
  · rintro ⟨declaration, hget, site, hsite, target, hlookup, rfl⟩
    obtain ⟨hmem, rfl⟩ := hnamed.get?_eq_some_iff.mp hget
    exact ⟨_, ⟨declaration, hmem, rfl⟩, site.callee, List.mem_map_of_mem hsite,
      target, hlookup, rfl⟩

theorem forall_isDepthAt_iff (hnamed : graph.registry.Named)
    (depth : String → Nat) :
    (∀ declaration ∈ graph.registry.declarations,
        Graph.IsDepthAt graph.Calls depth declaration.name) ↔
      ∀ declaration ∈ graph.registry.declarations,
        graph.depth declaration.name = depth declaration.name := by
  have hunique := CallGraph.forall_isDepthAt_iff_eq_depth hnamed depth
  constructor
  · intro hdepth declaration hmem
    refine (hunique.mp ?_ _ (hnamed.contains_of_mem hmem)).symm
    intro name hname
    obtain ⟨other, hother, rfl⟩ := hnamed.exists_of_contains hname
    exact hdepth other hother
  · intro hsame declaration hmem
    refine hunique.mpr ?_ _ (hnamed.contains_of_mem hmem)
    intro name hname
    obtain ⟨other, hother, rfl⟩ := hnamed.exists_of_contains hname
    exact (hsame other hother).symm

end Elements

end Report

/-! ## Histories -/

private theorem Call.targets_resolve (function : Function)
    (aliases : Table String String) (lookup : String → Option Function) :
    (resolve function aliases lookup).records.map Record.target =
      (resolve function aliases lookup).sites.map Site.callee := by
  simp [resolve, recordOf]

namespace Session

/-- The calls of a function are those against the registry of an earlier query,
or of the present one. -/
def ResolvesBy (project : Project) (queries : List Query) (harness : String)
    (declaration : Declaration) (resolution : Call.Resolution) : Prop :=
  ∃ named, (named = harness ∨ ∃ query ∈ queries, query.harness? = some named) ∧
    resolution = (project.registry named).resolve declaration

private theorem resolvesBy_after (project : Project) (queries : List Query)
    (harness : String) {declaration : Declaration}
    (hdeclaration : declaration.IsIn project.files) :
    ResolvesBy project queries harness declaration
      ((((start project).after queries).graph harness).resolution
        declaration) := by
  unfold CallGraph.resolution
  cases hknown : (((start project).after queries).graph harness).known.get?
      declaration.place with
  | none =>
      refine ⟨harness, .inl rfl, ?_⟩
      exact congrArg (fun project : Project =>
        (project.registry harness).resolve declaration)
          (project_after _ queries)
  | some resolution =>
      obtain ⟨before, query, later, named, rfl, -, -, hharness, found, hfound,
        hplace, rfl⟩ := exists_first_of_known project queries hknown
      obtain rfl : found = declaration := hfound.eq_of_place hdeclaration hplace
      exact ⟨named, .inr ⟨query, by simp, hharness⟩, rfl⟩

private theorem resolution_resolveAll (session : Session) (harness : String)
    {declaration : Declaration}
    (h : declaration ∈ (session.project.registry harness).declarations) :
    ((session.resolveAll harness).graph harness).resolution declaration =
      (session.graph harness).resolution declaration := by
  let registry := session.project.registry harness
  have hfrom := Registry.build_isFrom session.project.files harness
  change
    ((session.keep harness registry.declarations).known.get?
        declaration.place).getD (registry.resolve declaration) =
      (session.known.get? declaration.place).getD (registry.resolve declaration)
  rw [get?_keep]
  cases session.known.get? declaration.place with
  | some resolution => rfl
  | none =>
      -- The place is that of one declaration only, so that one is resolved
      -- there.
      cases hfind : registry.declarations.find? fun other =>
          other.place = declaration.place with
      | none => rfl
      | some other =>
          have hplace : other.place = declaration.place := by
            simpa using List.find?_some hfind
          obtain rfl : other = declaration :=
            (hfrom other (List.mem_of_find?_eq_some hfind)).eq_of_place
              (hfrom declaration h) hplace
          rfl

private theorem recordsCallees_after (project : Project) (queries : List Query)
    (harness : String) :
    Report.RecordsCallees (((start project).after queries).graph harness) := by
  intro declaration hmem
  have hin := registry_isFrom
    ((start project).after queries) harness declaration hmem
  rw [project_after] at hin
  obtain ⟨named, -, hresolution⟩ := resolvesBy_after project queries harness hin
  rw [CallGraph.callees, CallGraph.sites, hresolution]
  exact Call.targets_resolve _ _ _

end Session

def Json.field? (name : String) : Json → Option Json
  | .object fields => (fields.find? fun field => field.1 = name).map Prod.snd
  | _ => none

namespace Report

private theorem field?_toJson_elements (report : Report) :
    report.toJson.field? "All functions" =
      if report.elements.isEmpty then none
      else some (.object
        [("Elements", .list (report.elements.map elementJson))]) := by
  simp only [toJson, Json.field?]
  cases report.entry <;> cases report.elements <;> simp

/-- After every history of queries a report lists the registered functions in
their order, and leaves the list out exactly if there are none.  The records of
a function are those of its resolved calls.  From the listed names and targets
alone follow the reached names of every function, the number of its uses and its
depth. -/
theorem report_follows_outline (project : Project) (queries : List Query)
    (options : ReportOptions) :
    let session := (Session.start project).after queries
    let report := (session.report options).1
    let registry := project.registry options.harness
    report.elements.map Element.function =
      registry.declarations.map Declaration.function ∧
      report.toJson.field? "All functions" =
        (if registry.declarations = [] then none
          else some (.object
            [("Elements", .list (report.elements.map elementJson))])) ∧
      (∀ element ∈ report.elements, ∃ declaration ∈ registry.declarations,
        element.function = declaration.function ∧
        let resolution := (session.graph options.harness).resolution declaration
        element.records = resolution.records ∧
          Session.ResolvesBy project queries options.harness declaration
            resolution) ∧
      (∀ element ∈ report.elements,
        element.reached.Pairwise (· < ·) ∧
        (∀ name, name ∈ element.reached ↔
          name ∈ element.records.map Call.Record.target) ∧
        element.uses = usesOf report.outline element.function.name) ∧
      ∀ depth : String → Nat,
        (∀ entry ∈ report.outline,
          Graph.IsDepthAt (Calls report.outline) depth entry.1) ↔
          ∀ element ∈ report.elements,
            element.depth = depth element.function.name := by
  intro session report registry
  let resolved := session.resolveAll options.harness
  have hproject : session.project = project :=
    Session.project_after (Session.start project) queries
  have hregistry : (resolved.graph options.harness).registry = registry :=
    congrArg (fun project : Project => project.registry options.harness)
      hproject
  have hnamed : (resolved.graph options.harness).registry.Named :=
    Registry.build_named session.project.files options.harness
  have hrecords : RecordsCallees (resolved.graph options.harness) := by
    have hafter := Session.recordsCallees_after project
      (queries ++ [.resolveAll options.harness]) options.harness
    rwa [Session.after_append] at hafter
  have helements := elements_ofGraph hnamed options.harnessSource
  have houtline := outline_ofGraph hnamed hrecords options.harnessSource
  change report.elements = _ at helements
  change report.outline = _ at houtline
  refine ⟨?_, ?_, ?_, ?_, ?_⟩
  · rw [helements, hregistry, List.map_map]
    rfl
  · rw [field?_toJson_elements, helements, hregistry]
    simp
  · intro element helement
    rw [helements] at helement
    obtain ⟨declaration, hdeclaration, rfl⟩ := List.mem_map.mp helement
    have hresolution :=
      session.resolution_resolveAll options.harness hdeclaration
    have hin := Session.registry_isFrom session options.harness declaration
      hdeclaration
    rw [hproject] at hin
    refine ⟨declaration, hregistry ▸ hdeclaration, rfl, ?_, ?_⟩
    · exact congrArg Call.Resolution.records hresolution
    · exact Session.resolvesBy_after project queries options.harness hin
  · intro element helement
    rw [helements] at helement
    obtain ⟨declaration, hdeclaration, rfl⟩ := List.mem_map.mp helement
    refine ⟨pairwise_distinct _, fun name => ?_, ?_⟩
    · rw [element, hrecords declaration hdeclaration]
      exact mem_distinct_iff
    · rw [usesOf, houtline, List.countP_map]
      rfl
  · intro depth
    rw [houtline, calls_outline hnamed, helements]
    simp only [List.forall_mem_map]
    exact forall_isDepthAt_iff hnamed depth

end Report
end FuzzReach
