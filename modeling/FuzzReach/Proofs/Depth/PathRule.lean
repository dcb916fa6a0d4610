import FuzzReach.Proofs.Depth.Calls
import Mathlib.Data.List.Permutation

/-!
# The path rule

The depth of a node can also be found by following its steps and keeping the
path: a step back to the path counts one, any other step one more than its
target.  The path does not matter below a node that leads to none of its nodes.
So without mutual recursion the path rule solves the depth equations.
-/

namespace FuzzReach.Graph

variable {κ : Type} [DecidableEq κ]

private theorem length_filter_notMem_cons_lt {node : κ} {nodes path : List κ}
    (hlisted : node ∈ nodes) (hfresh : node ∉ path) :
    (nodes.filter (· ∉ node :: path)).length <
      (nodes.filter (· ∉ path)).length := by
  have hwithout : nodes.filter (· ∉ node :: path) =
      without node (nodes.filter (· ∉ path)) := by
    simp [without, List.filter_filter]
  rw [hwithout]
  exact length_without_lt (by simp [hlisted, hfresh])

/-- The depth of a node at the end of a path.  Nodes that are not listed have no
steps. -/
def pathDepth (next : κ → List κ) (nodes path : List κ) (node : κ) : Nat :=
  maximum ((next node).map fun target =>
    if _hpath : target ∈ node :: path then 1
    else if _hlisted :
      target ∈ nodes then 1 + pathDepth next nodes (node :: path) target
    else 1)
termination_by (nodes.filter (· ∉ node :: path)).length
decreasing_by exact length_filter_notMem_cons_lt _hlisted _hpath

section Path

variable {next : κ → List κ} {nodes : List κ}

theorem pathDepth_eq (hnodes : ∀ node, ∀ target ∈ next node, target ∈ nodes)
    (path : List κ) (node : κ) :
    pathDepth next nodes path node =
      maximum ((next node).map fun target =>
        if target ∈ node :: path then 1
          else 1 + pathDepth next nodes (node :: path) target) := by
  rw [pathDepth]
  congr 1
  apply List.map_congr_left
  intro target htarget
  simp [hnodes node target htarget]

/-- Of the path, only the nodes matter that can be reached again. -/
theorem pathDepth_congr {path other : List κ} {node : κ}
    (hsame : ∀ reached, Relation.ReflTransGen (Step next) node reached →
      (reached ∈ path ↔ reached ∈ other)) :
    pathDepth next nodes path node = pathDepth next nodes other node := by
  induction hsize :
    (nodes.filter (· ∉ node :: path)).length using Nat.strongRecOn
    generalizing path other node with
  | ind size ih =>
      rw [pathDepth, pathDepth]
      congr 1
      apply List.map_congr_left
      intro target htarget
      have hstep : Step next node target := htarget
      have hmem : target ∈ node :: path ↔ target ∈ node :: other := by
        simp [hsame target (.single hstep)]
      by_cases hpath : target ∈ node :: path
      · simp [hpath, hmem.mp hpath]
      · by_cases hlisted : target ∈ nodes
        · have hless := length_filter_notMem_cons_lt hlisted hpath
          have hlonger : pathDepth next nodes (node :: path) target =
              pathDepth next nodes (node :: other) target := by
            refine ih _ (by omega) (fun reached hreached => ?_) rfl
            simp [hsame reached (.head hstep hreached)]
          simp only [hpath, mt hmem.mpr hpath, hlisted, dif_neg, dif_pos,
            not_false_eq_true, hlonger]
        · simp [hlisted]

theorem pathDepth_of_unreached {path : List κ} {node : κ}
    (hpath : ∀ other ∈ path, ¬Relation.ReflTransGen (Step next) node other) :
    pathDepth next nodes path node = pathDepth next nodes [] node := by
  apply pathDepth_congr
  intro reached hreached
  have hfresh : reached ∉ path := fun hmem => hpath reached hmem hreached
  simp [hfresh]

/-! ## Nodes alone in their group -/

def Alone (calls : κ → κ → Prop) (node : κ) : Prop :=
  ∀ other, Mutual calls node other → other = node

omit [DecidableEq κ] in
theorem IsDepthAt.eq_maximum {depth : κ → Nat} {node : κ}
    (h : IsDepthAt (Step next) depth node) :
    ∃ exit, IsMaximum (exitCounts (Step next) depth node) exit ∧
      depth node =
        maximum ((next node).map (stepCount (Step next) depth exit node)) := by
  obtain ⟨exit, hexit, hdepth⟩ := h
  refine ⟨exit, hexit, hdepth.unique ?_⟩
  have hcounts : stepCounts (Step next) depth exit node =
      {count | count ∈
        (next node).map (stepCount (Step next) depth exit node)} := by
    ext count
    simp [stepCounts, Step, eq_comm]
  rw [hcounts]
  exact isMaximum_maximum _

theorem IsDepthAt.eq_of_alone {depth : κ → Nat} {node : κ}
    (h : IsDepthAt (Step next) depth node) (halone : Alone (Step next) node) :
    depth node =
      maximum ((next node).map fun target =>
        if target = node then 1 else 1 + depth target) := by
  obtain ⟨exit, -, hdepth⟩ := h.eq_maximum
  rw [hdepth]
  congr 1
  apply List.map_congr_left
  intro target _
  by_cases hself : target = node
  · simp [stepCount, hself]
  · have hmutual : ¬Mutual (Step next) node target :=
      fun hmutual => hself (halone target hmutual)
    simp [stepCount, hself, hmutual, Nat.add_comm]

theorem pathDepth_of_alone
    (hnodes : ∀ node, ∀ target ∈ next node, target ∈ nodes) {node : κ}
    (halone : Alone (Step next) node) :
    pathDepth next nodes [] node =
      maximum ((next node).map fun target =>
        if target = node then 1 else 1 + pathDepth next nodes [] target) := by
  rw [pathDepth_eq hnodes]
  congr 1
  apply List.map_congr_left
  intro target htarget
  by_cases hself : target = node
  · simp [hself]
  · have hstep : Step next node target := htarget
    have hback : ¬Relation.ReflTransGen (Step next) target node := fun hback =>
      hself (halone target ⟨.single hstep, hback⟩)
    have hpath :
        pathDepth next nodes [node] target = pathDepth next nodes [] target :=
      pathDepth_of_unreached (by simpa using hback)
    simp [hself, hpath]

private theorem eq_pathDepth_of_alone
    (hnodes : ∀ node, ∀ target ∈ next node, target ∈ nodes) {inside : Set κ}
    (hfinite : inside.Finite)
    (hclosed : ∀ node ∈ inside, ∀ target, Step next node target →
      target ∈ inside) {depth : κ → Nat}
        (hdepth : ∀ node ∈ inside, IsDepthAt (Step next) depth node)
          (halone : ∀ node ∈ inside, Alone (Step next) node) :
    ∀ node ∈ inside, depth node = pathDepth next nodes [] node := by
  refine below_induction hfinite hclosed fun node hnode hbelow => ?_
  rw [(hdepth node hnode).eq_of_alone (halone node hnode),
    pathDepth_of_alone hnodes (halone node hnode)]
  congr 1
  apply List.map_congr_left
  intro target htarget
  by_cases hself : target = node
  · simp [hself]
  · have houtside : ¬Mutual (Step next) node target := fun hmutual =>
      hself (halone node hnode target hmutual)
    rw [hbelow target (below_of_exit (Mutual.refl _ _) htarget houtside)]

end Path

end FuzzReach.Graph

namespace FuzzReach.CallGraph

def pathDepth (graph : CallGraph) (path : List String) (name : String) : Nat :=
  Graph.pathDepth (nextIn graph.adjacency) graph.adjacency.keys path name

private theorem pathDepth_eq_maximum {graph : CallGraph}
    (hnamed : graph.registry.Named) (path : List String) (name : String) :
    graph.pathDepth path name =
      Graph.maximum ((nextIn graph.adjacency name).map fun callee =>
        if callee ∈ name :: path then 1
          else 1 + graph.pathDepth (name :: path) callee) :=
  Graph.pathDepth_eq (fun name _ => mem_keys_of_mem_nextIn hnamed name)
    path name

/-- The path rule counts a call back to the path as one and any other call as
one more than the function called.  A function that leads to no two functions
which lead to each other has the depth that the path rule gives. -/
theorem depth_eq_pathDepth (files : List SourceFile) (harness : String)
    (known : Table Place Call.Resolution) :
    let graph : CallGraph := ⟨.build files harness, known⟩
    (∀ path name, graph.pathDepth path name =
      Graph.maximum ((nextIn graph.adjacency name).map fun callee =>
        if callee = name ∨ callee ∈ path then 1
        else 1 + graph.pathDepth (name :: path) callee)) ∧
    ∀ name, graph.registry.table.contains name = true →
      (∀ first second, Relation.ReflTransGen graph.Calls name first →
        Graph.Mutual graph.Calls first second → first = second) →
      graph.depth name = graph.pathDepth [] name := by
  intro graph
  have hnamed : graph.registry.Named := Registry.build_named files harness
  refine ⟨fun path name => ?_, fun name hname hsingle => ?_⟩
  · rw [pathDepth_eq_maximum hnamed]
    simp only [List.mem_cons]
  · rw [← step_nextIn_eq_calls] at hsingle
    let inside : Set String :=
      {other | Relation.ReflTransGen
        (Graph.Step (nextIn graph.adjacency)) name other}
    have hlisted : ∀ other ∈ inside,
        graph.registry.table.contains other = true :=
      fun other hother =>
        contains_of_reaches hnamed hname (step_nextIn_eq_calls graph ▸ hother)
    have hdepth : ∀ other ∈ inside,
        Graph.IsDepthAt (Graph.Step (nextIn graph.adjacency)) graph.depth
          other := by
      intro other hother
      rw [step_nextIn_eq_calls]
      exact isDepthAt_depth hnamed (hlisted other hother)
    exact Graph.eq_pathDepth_of_alone
      (fun name _ => mem_keys_of_mem_nextIn hnamed name)
      (graph.finite_registered.subset hlisted)
        (fun other hother target hstep => hother.tail hstep)
      hdepth (fun other hother second hmutual =>
        (hsingle other second hother hmutual).symm) name
      .refl

def sharedCalls : CallGraph :=
  ⟨.build [⟨"src/lib.rs", #[], .empty,
    [{ name := "leaf", path := "src/lib.rs" },
      { name := "fact", path := "src/lib.rs",
        events := [.call (.path "fact") 10 1, .call (.path "leaf") 20 1] },
      { name := "root", path := "src/lib.rs",
        events := [.call (.path "leaf") 30 2, .call (.path "fact") 40 2] }]⟩]
          "", .empty⟩

theorem depth_sharedCalls :
    (∀ first second, Relation.ReflTransGen sharedCalls.Calls "root" first →
      Graph.Mutual sharedCalls.Calls first second → first = second) ∧
    sharedCalls.pathDepth [] "root" = 2 ∧
    sharedCalls.depth "root" = sharedCalls.pathDepth [] "root" := by
  have hedges : sharedCalls.edges =
      [("fact", "fact"), ("fact", "leaf"), ("root", "leaf"),
        ("root", "fact")] := by cbv
  have hsingle : ∀ first second,
      Relation.ReflTransGen sharedCalls.Calls "root" first →
      Graph.Mutual sharedCalls.Calls first second → first = second := by
    intro first second _ hmutual
    by_contra hne
    obtain ⟨hfirst, hsecond, hsame⟩ := mutual_of_edges hedges
      (fun name => ["leaf", "fact", "root"].idxOf name) (by decide) hmutual hne
    simp only [List.map_cons, List.map_nil, List.mem_cons, List.not_mem_nil,
      or_false]
      at hfirst hsecond
    grind
  exact ⟨hsingle, by cbv,
    (depth_eq_pathDepth sharedCalls.registry.files "" .empty).2 "root" rfl
      hsingle⟩

end FuzzReach.CallGraph
