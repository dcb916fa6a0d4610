import FuzzReach.Proofs.Session.Agree
import FuzzReach.Session
import Mathlib.Data.List.Induction

/-!
# Histories of queries

A query changes nothing of a session but what is known of resolved calls.  What
is known stays as it is, and was resolved against the registry of the first
query that needed it.  If all queries of a history name the same harness, the
history shows in no answer.
-/

namespace FuzzReach

def Query.harness? : Query → Option String
  | .files => none
  | .report options => some options.harness
  | .reportText options => some options.harness
  | .reportElement options _ => some options.harness
  | .callTree harness _ _ => some harness
  | .reachable harness _ _ => some harness
  | .registry harness => some harness
  | .get harness _ => some harness
  | .lookup harness _ _ => some harness
  | .callSites harness _ => some harness
  | .resolveAll harness => some harness
  | .resolved => none
  | .fileWith harness _ => some harness
  | .crossReferences harness _ => some harness
  | .uses harness _ => some harness
  | .depth harness _ => some harness
  | .depths harness _ => some harness
  | .harnessFiles => none
  | .file _ => none
  | .functionText _ _ => none

def Query.Uses (harness : String) (query : Query) : Prop :=
  ∀ named, query.harness? = some named → named = harness

namespace Session

def after (session : Session) (queries : List Query) : Session :=
  queries.foldl (fun session query => (session.ask query).2) session

@[simp] theorem after_nil (session : Session) :
    session.after [] = session := rfl

theorem after_append (session : Session) (first second : List Query) :
    session.after (first ++ second) = (session.after first).after second :=
  List.foldl_append

@[simp] theorem after_singleton (session : Session) (query : Query) :
    session.after [query] = (session.ask query).2 := rfl

/-! ## Keeping what was resolved -/

private theorem get?_keepAll (graph : CallGraph)
    (declarations : List Declaration) (place : Place) :
    (graph.keepAll declarations).registry = graph.registry ∧
      (graph.keepAll declarations).known.get? place =
        (graph.known.get? place).or
          ((declarations.find? fun declaration => declaration.place = place).map
            graph.registry.resolve) := by
  induction declarations generalizing graph with
  | nil => simp [CallGraph.keepAll]
  | cons declaration rest ih =>
      have hkeep : graph.keepAll (declaration :: rest) =
          (graph.keep declaration).keepAll rest := rfl
      obtain ⟨hregistry, hknown⟩ := ih (graph.keep declaration)
      rw [hkeep, hregistry, hknown]
      unfold CallGraph.keep
      split
      · next hcontains =>
          refine ⟨rfl, ?_⟩
          by_cases hplace : declaration.place = place
          · obtain ⟨resolution, hresolution⟩ :=
              Option.isSome_iff_exists.mp hcontains
            rw [hplace] at hresolution
            simp [hresolution]
          · simp [hplace]
      · next hcontains =>
          refine ⟨rfl, ?_⟩
          by_cases hplace : declaration.place = place
          · have hnone : graph.known.get? place = none := by
              rw [← hplace]
              exact Table.get?_eq_none_iff.mpr (by simpa using hcontains)
            simp [hplace, hnone]
          · simp [hplace]

theorem get?_keep (session : Session) (harness : String)
    (declarations : List Declaration) (place : Place) :
    (session.keep harness declarations).known.get? place =
      (session.known.get? place).or
        ((declarations.find? fun declaration => declaration.place = place).map
          (session.project.registry harness).resolve) :=
  (get?_keepAll (session.graph harness) declarations place).2

/-! ## One query -/

private theorem fileIsIn (session : Session) (path : Option String) :
    CallGraph.FileIsIn session.project.files (session.file? path) := by
  intro pair hpair
  obtain ⟨name, -, hfile⟩ := Option.bind_eq_some_iff.mp hpair
  exact Project.getElem?_of_file? hfile

theorem registry_isFrom (session : Session) (harness : String) :
    (session.graph harness).registry.IsFrom session.project.files :=
  Registry.build_isFrom session.project.files harness

private theorem isIn_of_mem_below (session : Session) (harness name : String) :
    ∀ declaration ∈ (session.graph harness).below name,
      declaration.IsIn session.project.files := by
  intro declaration hdeclaration
  obtain ⟨found, -, hget⟩ := List.mem_filterMap.mp hdeclaration
  exact session.registry_isFrom harness _
    (Registry.mem_declarations_of_get? hget)

/-- What a query can do to a session: nothing, or keep the calls of functions of
the project, resolved against the registry of the query's harness. -/
theorem ask_cases (session : Session) (query : Query) :
    (session.ask query).2 = session ∨
      ∃ harness declarations, query.harness? = some harness ∧
        (∀ declaration ∈ declarations, declaration.IsIn session.project.files) ∧
        (session.ask query).2 = session.keep harness declarations := by
  have hall : ∀ harness,
      ∀ declaration ∈ (session.project.registry harness).declarations,
        declaration.IsIn session.project.files := session.registry_isFrom
  cases query with
  | files => exact Or.inl rfl
  | report options => exact Or.inr ⟨_, _, rfl, hall _, rfl⟩
  | reportText options => exact Or.inr ⟨_, _, rfl, hall _, rfl⟩
  | reportElement options name => exact Or.inr ⟨_, _, rfl, hall _, rfl⟩
  | callTree harness file function =>
      refine Or.inr ⟨harness, _, rfl, ?_, rfl⟩
      intro declaration hdeclaration
      obtain ⟨line, hline, hmeets⟩ := List.mem_filterMap.mp hdeclaration
      exact CallGraph.isIn_of_mem_callTree (session.registry_isFrom harness)
        (session.fileIsIn file)
          (Graph.mem_expansions_iff.mp hline) declaration hmeets
  | reachable harness file function =>
      refine Or.inr ⟨harness, _, rfl, ?_, rfl⟩
      intro declaration hdeclaration
      obtain ⟨item, hitem, hmeans⟩ := List.mem_filterMap.mp hdeclaration
      exact CallGraph.isIn_of_mem_reachable (session.registry_isFrom harness)
        (session.fileIsIn file) hitem declaration hmeans
  | registry harness => exact Or.inl rfl
  | get harness name => exact Or.inl rfl
  | lookup harness name tolerance => exact Or.inl rfl
  | callSites harness name =>
      cases hget : (session.project.registry harness).get? name with
      | none => exact Or.inl (by simp [ask, graph, hget])
      | some declaration =>
          refine Or.inr ⟨harness, [declaration], rfl,
            ?_, by simp [ask, graph, hget]⟩
          intro other hother
          rw [List.mem_singleton] at hother
          exact hother ▸ hall harness declaration
            (Registry.mem_declarations_of_get? hget)
  | resolveAll harness => exact Or.inr ⟨_, _, rfl, hall _, rfl⟩
  | resolved => exact Or.inl rfl
  | fileWith harness name => exact Or.inl rfl
  | crossReferences harness name => exact Or.inr ⟨_, _, rfl, hall _, rfl⟩
  | uses harness name => exact Or.inr ⟨_, _, rfl, hall _, rfl⟩
  | depth harness name =>
      cases hcontains :
        (session.graph harness).registry.table.contains name with
      | false => exact Or.inl (by simp [ask, hcontains])
      | true =>
          exact Or.inr ⟨harness, _, rfl, session.isIn_of_mem_below harness name,
            by simp [ask, hcontains]⟩
  | depths harness names =>
      refine Or.inr ⟨harness, _, rfl, ?_, rfl⟩
      intro declaration hdeclaration
      obtain ⟨name, -, hbelow⟩ := List.mem_flatMap.mp hdeclaration
      exact session.isIn_of_mem_below harness name declaration hbelow
  | harnessFiles => exact Or.inl rfl
  | file path => exact Or.inl rfl
  | functionText path name => exact Or.inl rfl

private theorem project_ask (session : Session) (query : Query) :
    (session.ask query).2.project = session.project := by
  rcases session.ask_cases query with h | ⟨harness, declarations, -, -, h⟩
  · rw [h]
  · rw [h]
    rfl

private theorem get?_ask_of_known {session : Session} {place : Place}
    {resolution : Call.Resolution}
    (h : session.known.get? place = some resolution) (query : Query) :
    (session.ask query).2.known.get? place = some resolution := by
  rcases session.ask_cases query with
    hsame | ⟨harness, declarations, -, -, hkeep⟩
  · rw [hsame, h]
  · rw [hkeep, get?_keep, h, Option.some_or]

def IsResolvedBy (project : Project) (harness : String) (place : Place)
    (resolution : Call.Resolution) : Prop :=
  ∃ declaration : Declaration, declaration.IsIn project.files ∧
    declaration.place = place ∧
    resolution = Call.resolve declaration.function declaration.file.aliases
      (project.registry harness).function?

private theorem isResolvedBy_of_new {session : Session} {query : Query}
    {place : Place} {resolution : Call.Resolution}
    (hbefore : session.known.get? place = none)
    (hafter : (session.ask query).2.known.get? place = some resolution) :
    ∃ harness, query.harness? = some harness ∧
      IsResolvedBy session.project harness place resolution := by
  rcases session.ask_cases query with
    hsame | ⟨harness, declarations, hharness, hin, hkeep⟩
  · rw [hsame, hbefore] at hafter
    cases hafter
  · rw [hkeep, get?_keep, hbefore, Option.none_or] at hafter
    obtain ⟨declaration, hfind, rfl⟩ := Option.map_eq_some_iff.mp hafter
    refine ⟨harness, hharness, declaration,
      hin _ (List.mem_of_find?_eq_some hfind), ?_, rfl⟩
    simpa using List.find?_some hfind

/-! ## Histories -/

theorem project_after (session : Session) (queries : List Query) :
    (session.after queries).project = session.project := by
  induction queries generalizing session with
  | nil => rfl
  | cons query rest ih => exact (ih _).trans (session.project_ask query)

private theorem get?_after_of_known {session : Session} {place : Place}
    {resolution : Call.Resolution}
    (h : session.known.get? place = some resolution) (queries : List Query) :
    (session.after queries).known.get? place = some resolution := by
  induction queries generalizing session with
  | nil => exact h
  | cons query rest ih => exact ih (get?_ask_of_known h query)

theorem exists_first_of_known (project : Project) (queries : List Query)
    {place : Place} {resolution : Call.Resolution}
    (h : ((start project).after queries).known.get? place = some resolution) :
    ∃ before query later harness, queries = before ++ query :: later ∧
      ((start project).after before).known.get? place = none ∧
      ((start project).after (before ++ [query])).known.get? place =
        some resolution ∧
      query.harness? = some harness ∧
      IsResolvedBy project harness place resolution := by
  -- Peel off the last query: either the place was known before it, or this
  -- query resolved it.
  induction queries using List.reverseRecOn with
  | nil => simp [start] at h
  | append_singleton queries query ih =>
      cases hbefore : ((start project).after queries).known.get? place with
      | some known =>
          have hsame : known = resolution := by
            rw [after_append, get?_after_of_known hbefore] at h
            exact Option.some.inj h
          obtain ⟨before, first, later, harness, rfl, hrest⟩ :=
            ih (hsame ▸ hbefore)
          exact ⟨before, first, later ++ [query], harness, by simp, hrest⟩
      | none =>
          have hask := h
          rw [after_append, after_singleton] at hask
          obtain ⟨harness, hharness, hresolved⟩ :=
            isResolvedBy_of_new hbefore hask
          rw [project_after] at hresolved
          exact ⟨queries, query, [], harness, rfl, hbefore, h, hharness,
            hresolved⟩

/-! ## Histories with one harness -/

/-- All that is known was resolved against the registry of the harness. -/
def Consistent (harness : String) (session : Session) : Prop :=
  ∀ place resolution, session.known.get? place = some resolution →
    IsResolvedBy session.project harness place resolution

private theorem consistent_start (harness : String) (project : Project) :
    (start project).Consistent harness := by
  intro place resolution h
  simp [start] at h

private theorem consistent_after {harness : String} {queries : List Query}
    (h : ∀ query ∈ queries, query.Uses harness) (project : Project) :
    ((start project).after queries).Consistent harness := by
  intro place resolution hknown
  obtain ⟨before, query, later, named, rfl, -, -, hharness, hresolved⟩ :=
    exists_first_of_known project queries hknown
  have hsame : named = harness := h query (by simp) named hharness
  rw [project_after]
  exact hsame ▸ hresolved

section Consistent

variable {harness : String} {session : Session}

theorem Consistent.resolution (h : session.Consistent harness)
    {declaration : Declaration}
    (hdeclaration : declaration.IsIn session.project.files) :
    (session.graph harness).resolution declaration =
      (session.project.registry harness).resolve declaration := by
  unfold CallGraph.resolution
  cases hknown : (session.graph harness).known.get? declaration.place with
  | none => rfl
  | some resolution =>
      obtain ⟨found, hfound, hplace, rfl⟩ := h _ _ hknown
      have hsame : found = declaration := hfound.eq_of_place hdeclaration hplace
      subst hsame
      rfl

theorem Consistent.keep (h : session.Consistent harness)
    {declarations : List Declaration} (hin : ∀ declaration ∈ declarations,
      declaration.IsIn session.project.files) :
    (session.keep harness declarations).Consistent harness := by
  intro place resolution hknown
  rw [get?_keep] at hknown
  rcases Option.or_eq_some_iff.mp hknown with hold | ⟨-, hnew⟩
  · exact h place resolution hold
  · obtain ⟨declaration, hfind, rfl⟩ := Option.map_eq_some_iff.mp hnew
    refine ⟨declaration, hin _ (List.mem_of_find?_eq_some hfind), ?_, rfl⟩
    simpa using List.find?_some hfind

theorem Consistent.agree {project : Project}
    {known other : Table Place Call.Resolution}
    (h : Consistent harness ⟨project, known⟩)
    (h' : Consistent harness ⟨project, other⟩) :
    CallGraph.Agree project.files (graph ⟨project, known⟩ harness)
      (graph ⟨project, other⟩ harness) where
  registry := rfl
  isFrom := Registry.build_isFrom project.files harness
  resolution := fun _ hdeclaration =>
    (h.resolution hdeclaration).trans (h'.resolution hdeclaration).symm

theorem Consistent.report {project : Project}
    {known other : Table Place Call.Resolution} {options : ReportOptions}
    (h : Consistent options.harness ⟨project, known⟩)
    (h' : Consistent options.harness ⟨project, other⟩) :
    (report ⟨project, known⟩ options).1 =
      (report ⟨project, other⟩ options).1 := by
  have hall : ∀ declaration ∈ (project.registry options.harness).declarations,
      declaration.IsIn project.files :=
        Registry.build_isFrom project.files options.harness
  exact ((h.keep hall).agree (h'.keep hall)).report options.harnessSource

end Consistent

private theorem answer_eq {harness : String} {project : Project}
    {known other : Table Place Call.Resolution}
    (h : Consistent harness ⟨project, known⟩)
    (h' : Consistent harness ⟨project, other⟩) {query : Query}
    (huses : query.Uses harness) (hquery : query ≠ .resolved) :
    (ask ⟨project, known⟩ query).1 = (ask ⟨project, other⟩ query).1 := by
  cases query with
  | files => rfl
  | report options =>
      obtain rfl := huses _ rfl
      exact congrArg Answer.report (h.report h')
  | reportText options =>
      obtain rfl := huses _ rfl
      exact congrArg (fun report => Answer.text (Report.render report))
        (h.report h')
  | reportElement options name =>
      obtain rfl := huses _ rfl
      exact congrArg (fun report =>
        Answer.ofOption Answer.element (Report.element? report name))
        (h.report h')
  | callTree named file function =>
      obtain rfl := huses _ rfl
      have hfile := fileIsIn ⟨project, known⟩ file
      exact congrArg (fun visits => Answer.text (TreeLine.renderAll visits))
        ((h.agree h').callTree hfile function)
  | reachable named file function =>
      obtain rfl := huses _ rfl
      have hfile := fileIsIn ⟨project, known⟩ file
      exact congrArg
        (fun reached => Answer.texts (reached.map CallGraph.Start.name))
        ((h.agree h').reachable hfile function)
  | registry named => rfl
  | get named name => rfl
  | lookup named name tolerance => rfl
  | callSites named name =>
      obtain rfl := huses _ rfl
      cases hget : (project.registry named).get? name with
      | none => simp [ask, graph, hget]
      | some declaration =>
          have hin := Registry.build_isFrom project.files named declaration
            (Registry.mem_declarations_of_get? hget)
          have hsame := (h.agree h').resolution declaration hin
          simp only [graph] at hsame
          simp [ask, graph, hget, hsame]
  | resolveAll named => rfl
  | resolved => exact absurd rfl hquery
  | fileWith named name => rfl
  | crossReferences named name =>
      obtain rfl := huses _ rfl
      exact congrArg Answer.declarations ((h.agree h').crossReferences name)
  | uses named name =>
      obtain rfl := huses _ rfl
      exact congrArg Answer.count ((h.agree h').uses name)
  | depth named name =>
      obtain rfl := huses _ rfl
      have hsame := (h.agree h').depth name
      simp only [graph] at hsame
      cases hcontains : (project.registry named).table.contains name with
      | false => simp [ask, graph, hcontains]
      | true => simp [ask, graph, hcontains, hsame]
  | depths named names =>
      obtain rfl := huses _ rfl
      exact congrArg (fun adjacency =>
        Answer.counts (CallGraph.depths adjacency .empty names))
        (h.agree h').adjacency
  | harnessFiles => rfl
  | file path => rfl
  | functionText path name => rfl

/-- Through every history the project stays as it is, known calls stay as they
are, and each was resolved against the registry of the first query that needed
it.  If all queries name the same harness, every answer but the list of what is
resolved is that of a new session. -/
theorem history_invariant (project : Project) (queries : List Query) :
    let session := (start project).after queries
    session.project = project ∧
      (∀ before later, queries = before ++ later → ∀ place resolution,
        ((start project).after before).known.get? place = some resolution →
          session.known.get? place = some resolution) ∧
      (∀ place resolution, session.known.get? place = some resolution →
        ∃ before query later harness, queries = before ++ query :: later ∧
          ((start project).after before).known.get? place = none ∧
          ((start project).after (before ++ [query])).known.get? place =
            some resolution ∧
          query.harness? = some harness ∧
            IsResolvedBy project harness place resolution) ∧
      ∀ harness, (∀ query ∈ queries, query.Uses harness) → ∀ query,
        query.Uses harness → query ≠ .resolved →
          (session.ask query).1 = ((start project).ask query).1 := by
  intro session
  have hproject : session.project = project :=
    project_after (start project) queries
  refine ⟨hproject, ?_, ?_, ?_⟩
  · rintro before later rfl place resolution hknown
    simp only [session, after_append]
    exact get?_after_of_known hknown later
  · intro place resolution hknown
    exact exists_first_of_known project queries hknown
  · intro harness hqueries query huses hquery
    have hconsistent : session.Consistent harness :=
      consistent_after hqueries project
    obtain ⟨found, known⟩ := session
    subst hproject
    exact answer_eq hconsistent (consistent_start harness found) huses hquery

end Session

end FuzzReach
