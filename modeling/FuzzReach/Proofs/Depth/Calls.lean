import FuzzReach.CallGraph
import FuzzReach.Proofs.Depth.Settle
import FuzzReach.Proofs.Registry

/-!
# Depths of functions

The depths that a sequence of queries gets are those that each query gets on its
own, and they are the one solution of the depth equations of the resolved calls.
-/

namespace FuzzReach.CallGraph

/-- A call of the first function means the second one, at most one segment of
its name dropped. -/
def Calls (graph : CallGraph) (caller callee : String) : Prop :=
  ∃ declaration, graph.registry.get? caller = some declaration ∧
    ∃ site ∈ graph.sites declaration, ∃ target,
      graph.registry.lookup? .oneSegment site.callee = some target ∧
        target.name = callee

def depthsBy (listing : List String → List (List String))
    (adjacency : Table String (List String)) (settled : Table String Nat) :
    List String → List (Option Nat)
  | [] => []
  | name :: rest =>
      if adjacency.contains name then
        let settled :=
          Graph.settleBy listing (nextIn adjacency) adjacency.keys settled name
        some (Graph.depthIn settled name) ::
          depthsBy listing adjacency settled rest
      else none :: depthsBy listing adjacency settled rest

/-- The queries are answered without any default: when a group is settled, all
that it calls outside itself is settled, and in the end so is the name that was
asked for. -/
def Founded (listing : List String → List (List String))
    (adjacency : Table String (List String)) (settled : Table String Nat) :
    List String → Prop
  | [] => True
  | name :: rest =>
      if adjacency.contains name then
        let after :=
          Graph.settleBy listing (nextIn adjacency) adjacency.keys settled name
        (∀ earlier members later,
          listing (Graph.unsettled
            (nextIn adjacency) adjacency.keys settled name) =
            earlier ++ members :: later →
          Graph.Grounded (nextIn adjacency)
            (earlier.foldl (Graph.settleGroup (nextIn adjacency)) settled)
              members) ∧
        after.contains name = true ∧ Founded listing adjacency after rest
      else Founded listing adjacency settled rest

private theorem depths_eq_depthsBy (adjacency : Table String (List String))
    (settled : Table String Nat) (names : List String) :
    depths adjacency settled names =
      depthsBy (Graph.groups (nextIn adjacency)) adjacency settled names := by
  induction names generalizing settled with
  | nil => rfl
  | cons name rest ih =>
      rw [depths, depthsBy, settle, Graph.settle_eq_settleBy]
      split
      · exact congrArg _ (ih _)
      · rw [ih]

/-! ## Adjacency -/

theorem mem_nextIn_adjacency {graph : CallGraph} {caller callee : String} :
    callee ∈ nextIn graph.adjacency caller ↔ graph.Calls caller callee := by
  rw [nextIn, adjacency, Table.get?_map]
  unfold Calls Registry.get?
  cases graph.registry.table.get? caller with
  | none => simp
  | some declaration =>
      simp only [targets, callees, Option.map_some, Option.getD_some,
        List.mem_map, List.mem_filterMap, Option.some.injEq, exists_eq_left']
      constructor
      · rintro ⟨target, ⟨name, ⟨site, hsite, rfl⟩, hlookup⟩, hname⟩
        exact ⟨site, hsite, target, hlookup, hname⟩
      · rintro ⟨site, hsite, target, hlookup, hname⟩
        exact ⟨target, ⟨site.callee, ⟨site, hsite, rfl⟩, hlookup⟩, hname⟩

theorem contains_adjacency (graph : CallGraph) (name : String) :
    graph.adjacency.contains name = graph.registry.table.contains name :=
  Table.contains_map _ _ _

theorem Calls.contains {graph : CallGraph} (hnamed : graph.registry.Named)
    {caller callee : String} (h : graph.Calls caller callee) :
    graph.registry.table.contains callee = true := by
  obtain ⟨declaration, -, site, -, target, hlookup, rfl⟩ := h
  exact hnamed.contains_of_mem (Registry.mem_declarations_of_lookup? hlookup)

theorem Calls.contains_caller {graph : CallGraph} {caller callee : String}
    (h : graph.Calls caller callee) :
    graph.registry.table.contains caller = true := by
  obtain ⟨declaration, hget, -⟩ := h
  exact Option.isSome_of_eq_some hget

theorem mem_keys_of_mem_nextIn {graph : CallGraph}
    (hnamed : graph.registry.Named) (name : String) {target : String}
    (htarget : target ∈ nextIn graph.adjacency name) :
    target ∈ graph.adjacency.keys := by
  rw [← Table.contains_iff, contains_adjacency]
  exact (mem_nextIn_adjacency.mp htarget).contains hnamed

theorem contains_of_reaches {graph : CallGraph} (hnamed : graph.registry.Named)
    {name other : String} (hname : graph.registry.table.contains name = true)
    (hpath : Relation.ReflTransGen graph.Calls name other) :
    graph.registry.table.contains other = true :=
  Graph.mem_of_reflTransGen {name | graph.registry.table.contains name = true}
    (fun _ _ _ hcalls => hcalls.contains hnamed) hname hpath

theorem finite_registered (graph : CallGraph) :
    {name | graph.registry.table.contains name = true}.Finite :=
  graph.registry.table.keys.finite_toSet.subset fun _ hname =>
    Table.contains_iff.mp hname

private theorem adjacency_closed {graph : CallGraph}
    (hnamed : graph.registry.Named) :
    ∀ name ∈ graph.adjacency.keys, ∀ target ∈ nextIn graph.adjacency name,
      target ∈ graph.adjacency.keys :=
  fun name _ _ htarget => mem_keys_of_mem_nextIn hnamed name htarget

theorem step_nextIn_eq_calls (graph : CallGraph) :
    Graph.Step (nextIn graph.adjacency) = graph.Calls := by
  funext caller callee
  exact propext mem_nextIn_adjacency

def edges (graph : CallGraph) : List (String × String) :=
  graph.adjacency.entries.flatMap fun entry => entry.2.map fun callee =>
    (entry.1, callee)

theorem mem_edges_iff {graph : CallGraph} {caller callee : String} :
    (caller, callee) ∈ graph.edges ↔ graph.Calls caller callee := by
  rw [← mem_nextIn_adjacency, nextIn]
  constructor
  · intro hmem
    obtain ⟨⟨name, callees⟩, hentry, hcallee⟩ := List.mem_flatMap.mp hmem
    obtain ⟨other, hother, heq⟩ := List.mem_map.mp hcallee
    cases heq
    rw [Table.get?_eq_some_iff.mpr hentry]
    exact hother
  · intro hmem
    cases hget : graph.adjacency.get? caller with
    | none => simp [hget] at hmem
    | some callees =>
        rw [hget] at hmem
        exact List.mem_flatMap.mpr
          ⟨_, Table.get?_eq_some_iff.mp hget, List.mem_map_of_mem hmem⟩

theorem rank_le_of_edges {graph : CallGraph} {edges : List (String × String)}
    (hedges : graph.edges = edges) (rank : String → Nat)
    (hrank : ∀ edge ∈ edges, rank edge.2 ≤ rank edge.1) {name other : String}
    (hpath : Relation.ReflTransGen graph.Calls name other) :
    rank other ≤ rank name := by
  refine Graph.le_of_reaches (fun caller callee hcalls => ?_) hpath
  exact hrank (caller, callee) (hedges ▸ mem_edges_iff.mpr hcalls)

theorem mutual_of_edges {graph : CallGraph} {edges : List (String × String)}
    (hedges : graph.edges = edges) (rank : String → Nat)
    (hrank : ∀ edge ∈ edges, rank edge.2 ≤ rank edge.1) {first second : String}
    (hmutual : Graph.Mutual graph.Calls first second) (hne : first ≠ second) :
    first ∈ edges.map Prod.fst ∧ second ∈ edges.map Prod.fst ∧
      rank first = rank second := by
  have hcaller : ∀ {node target}, graph.Calls node target →
      node ∈ edges.map Prod.fst :=
    fun hcalls =>
      List.mem_map_of_mem (f := Prod.fst) (hedges ▸ mem_edges_iff.mpr hcalls)
  obtain ⟨_, hfirst⟩ := hmutual.exists_step hne
  obtain ⟨_, hsecond⟩ := hmutual.symm.exists_step hne.symm
  exact ⟨hcaller hfirst, hcaller hsecond,
    Nat.le_antisymm (rank_le_of_edges hedges rank hrank hmutual.2)
      (rank_le_of_edges hedges rank hrank hmutual.1)⟩

/-! ## Queries -/

section Queries

variable {graph : CallGraph} {settled : Table String Nat}
  {listing : List String → List (List String)}

private theorem settleBy_settled (hnamed : graph.registry.Named)
    (hlisting : Graph.ListsGroups (nextIn graph.adjacency) listing)
    (hsettled : Graph.Settled (nextIn graph.adjacency) settled) {name : String}
    (hname : graph.adjacency.contains name = true) :
    let after :=
      Graph.settleBy listing (nextIn graph.adjacency) graph.adjacency.keys
        settled name
    Graph.Settled (nextIn graph.adjacency) after ∧ after.contains name = true :=
  Graph.settleBy_spec hlisting (adjacency_closed hnamed) hsettled
    (Table.contains_iff.mp hname)

theorem settle_settled (hnamed : graph.registry.Named)
    (hsettled : Graph.Settled (nextIn graph.adjacency) settled) {name : String}
    (hname : graph.adjacency.contains name = true) :
    Graph.Settled (nextIn graph.adjacency)
      (settle graph.adjacency settled name) ∧
      (settle graph.adjacency settled name).contains name = true :=
  settleBy_settled hnamed (Graph.listsGroups_groups _) hsettled hname

/-- Neither the listing nor what was settled before changes the answer. -/
theorem depthIn_settleBy (hnamed : graph.registry.Named)
    (hlisting : Graph.ListsGroups (nextIn graph.adjacency) listing)
    (hsettled : Graph.Settled (nextIn graph.adjacency) settled) {name : String}
    (hname : graph.adjacency.contains name = true) :
    Graph.depthIn
        (Graph.settleBy listing (nextIn graph.adjacency) graph.adjacency.keys
          settled name) name =
      graph.depth name := by
  obtain ⟨hshared, hcontains⟩ := settleBy_settled hnamed hlisting hsettled hname
  obtain ⟨hfresh, hcontains'⟩ :=
    settle_settled hnamed (Graph.Settled.empty _) hname
  exact hshared.agree hfresh hcontains hcontains'

private theorem depthsBy_eq_map (hnamed : graph.registry.Named)
    (hlisting : Graph.ListsGroups (nextIn graph.adjacency) listing)
    (hsettled : Graph.Settled (nextIn graph.adjacency) settled)
    (names : List String) :
    depthsBy listing graph.adjacency settled names =
      names.map fun name =>
        if graph.registry.table.contains name then some (graph.depth name)
          else none := by
  induction names generalizing settled with
  | nil => rfl
  | cons name rest ih =>
      rw [depthsBy, List.map_cons, ← contains_adjacency]
      split
      · next hname =>
          simp only [ih (settleBy_settled hnamed hlisting hsettled hname).1,
            depthIn_settleBy hnamed hlisting hsettled hname]
      · rw [ih hsettled]

private theorem depths_eq_map (hnamed : graph.registry.Named)
    (hsettled : Graph.Settled (nextIn graph.adjacency) settled)
    (names : List String) :
    depths graph.adjacency settled names =
      names.map fun name =>
        if graph.registry.table.contains name then some (graph.depth name)
          else none := by
  rw [depths_eq_depthsBy]
  exact depthsBy_eq_map hnamed (Graph.listsGroups_groups _) hsettled names

private theorem founded (hnamed : graph.registry.Named)
    (hlisting : Graph.ListsGroups (nextIn graph.adjacency) listing)
    (hsettled : Graph.Settled (nextIn graph.adjacency) settled)
    (names : List String) :
    Founded listing graph.adjacency settled names := by
  induction names generalizing settled with
  | nil => trivial
  | cons name rest ih =>
      rw [Founded]
      split
      · next hname =>
          have hunsettled :=
            Graph.unsettled_spec (adjacency_closed hnamed) settled name
          have hgroups := hlisting settled _ hsettled hunsettled
          obtain ⟨hafter, hcontains⟩ :=
            settleBy_settled hnamed hlisting hsettled hname
          refine ⟨?_, hcontains, ih hafter⟩
          intro earlier members later heq
          exact Graph.grounded_foldl_settleGroup hgroups hsettled hunsettled heq
      · exact ih hsettled

theorem isDepthAt_depth (hnamed : graph.registry.Named) {name : String}
    (hname : graph.registry.table.contains name = true) :
    Graph.IsDepthAt graph.Calls graph.depth name := by
  rw [← contains_adjacency] at hname
  obtain ⟨hsettled, hcontains⟩ :=
    settle_settled hnamed (Graph.Settled.empty _) hname
  rw [← step_nextIn_eq_calls]
  refine (hsettled.isDepth name hcontains).congr rfl fun other hother => ?_
  -- Everything below the name was settled with it, and has the depth of a query
  -- of its own.
  have hlisted : graph.adjacency.contains other = true := by
    rw [Table.contains_iff] at hname ⊢
    exact Graph.mem_of_reflTransGen {name | name ∈ graph.adjacency.keys}
      (adjacency_closed hnamed) hname hother.1
  obtain ⟨hfresh, hcontains'⟩ :=
    settle_settled hnamed (Graph.Settled.empty _) hlisted
  exact hsettled.agree hfresh (hsettled.contains_of_reaches hcontains hother.1)
    hcontains'

private theorem eq_depth_of_isDepthAt (hnamed : graph.registry.Named)
    {depth : String → Nat}
    (hdepth : ∀ name, graph.registry.table.contains name = true →
      Graph.IsDepthAt graph.Calls depth name) {name : String}
    (hname : graph.registry.table.contains name = true) :
    depth name = graph.depth name := by
  exact Graph.depth_unique graph.finite_registered
    (fun _ _ _ hcalls => hcalls.contains hnamed)
    hdepth (fun _ hother => isDepthAt_depth hnamed hother) name hname

theorem forall_isDepthAt_iff_eq_depth (hnamed : graph.registry.Named)
    (depth : String → Nat) :
    (∀ name, graph.registry.table.contains name = true →
        Graph.IsDepthAt graph.Calls depth name) ↔
      ∀ name, graph.registry.table.contains name = true →
        depth name = graph.depth name := by
  constructor
  · intro hdepth name hname
    exact eq_depth_of_isDepthAt hnamed hdepth hname
  · intro hsame name hname
    refine (isDepthAt_depth hnamed hname).congr (hsame name hname).symm ?_
    intro other hother
    exact (hsame other (contains_of_reaches hnamed hname hother.1)).symm

end Queries

/-- However many depths are asked for in a row, each is the one that a single
query gives, and these depths are the only solution of the depth equations.  The
order of the groups does not matter as long as callees come first, and no
default is ever taken. -/
theorem depths_unique_solution (files : List SourceFile) (harness : String)
    (known : Table Place Call.Resolution) :
    let graph : CallGraph := ⟨.build files harness, known⟩
    let next := nextIn graph.adjacency
    (∀ names, depths graph.adjacency .empty names =
        names.map fun name =>
          if graph.registry.table.contains name then some (graph.depth name)
            else none) ∧
      Graph.ListsGroups next (Graph.groups next) ∧
      (∀ listing, Graph.ListsGroups next listing → ∀ names,
        depthsBy listing graph.adjacency .empty names =
            depths graph.adjacency .empty names ∧
          Founded listing graph.adjacency .empty names) ∧
      ∀ depth : String → Nat,
        (∀ name, graph.registry.table.contains name = true →
          Graph.IsDepthAt graph.Calls depth name) ↔
        ∀ name, graph.registry.table.contains name = true →
          depth name = graph.depth name := by
  intro graph next
  have hnamed : graph.registry.Named := Registry.build_named files harness
  have hempty : Graph.Settled next .empty := Graph.Settled.empty _
  refine ⟨depths_eq_map hnamed hempty, Graph.listsGroups_groups next, ?_,
    forall_isDepthAt_iff_eq_depth hnamed⟩
  intro listing hlisting names
  refine ⟨?_, founded hnamed hlisting hempty names⟩
  rw [depths_eq_map hnamed hempty, depthsBy_eq_map hnamed hlisting hempty]

end FuzzReach.CallGraph
