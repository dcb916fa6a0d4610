import FuzzReach.Proofs.Depth.Rank
import FuzzReach.Proofs.Lookup
import FuzzReach.Proofs.Reachable
import Mathlib.Data.Set.Card

/-!
# Depth and reached names

A node is not deeper than the number of nodes that it leads to: a step down
loses the node itself, and where it counts two, another member of its group as
well.  Every function that a depth query visits is what one of the reached names
means, so the reached names are not fewer.
-/

namespace FuzzReach.Graph

/-! ## Counting nodes -/

def reached {κ : Type} (calls : κ → κ → Prop) (node : κ) : Set κ :=
  {other | Relation.ReflTransGen calls node other}

section Counting

variable {κ : Type} {calls : κ → κ → Prop} {depth : κ → Nat} {node target : κ}

private theorem ncard_reached_add_le {group : Set κ}
    (hfinite : (reached calls node).Finite)
    (hgroup : ∀ member ∈ group, Mutual calls node member)
    (hbelow : Below calls target node) :
    (reached calls target).ncard + group.ncard ≤
      (reached calls node).ncard := by
  have htarget : reached calls target ⊆ reached calls node :=
    fun other hother =>
    hbelow.1.trans hother
  have hmembers : group ⊆ reached calls node :=
    fun member hmember => (hgroup member hmember).1
  -- What lies below a node leads to none of the nodes in its group.
  have hdisjoint : Disjoint (reached calls target) group := by
    rw [Set.disjoint_left]
    intro member hreached hmember
    exact hbelow.2
      (Relation.ReflTransGen.trans hreached (hgroup member hmember).2)
  rw [← Set.ncard_union_eq hdisjoint (hfinite.subset htarget)
    (hfinite.subset hmembers)]
  exact Set.ncard_le_ncard (Set.union_subset htarget hmembers) hfinite

private theorem one_le_ncard_reached (hfinite : (reached calls node).Finite) :
    1 ≤ (reached calls node).ncard :=
  (Set.ncard_pos hfinite).mpr ⟨node, .refl⟩

private theorem IsDepthAt.le_ncard_of_mutual {other : κ}
    (h : IsDepthAt calls depth node) (hmutual : Mutual calls node other)
    (hne : node ≠ other) (hfinite : (reached calls node).Finite)
    (hbelow : ∀ target, Below calls target node →
      depth target ≤ (reached calls target).ncard) :
    depth node ≤ (reached calls node).ncard := by
  have hpair : ∀ member ∈ ({node, other} : Set κ),
      Mutual calls node member := by
    rintro member (rfl | rfl)
    · exact Mutual.refl _ _
    · exact hmutual
  have htwo : ({node, other} : Set κ).ncard = 2 := Set.ncard_pair hne
  obtain ⟨exit, ⟨-, rfl⟩ | ⟨⟨member, target, hmember, hstep, houtside, rfl⟩, -⟩,
    hdepth⟩ :=
    h.eq_of_mutual hmutual hne
  · have hmembers : ({node, other} : Set κ) ⊆ reached calls node :=
      fun member hmember =>
      (hpair member hmember).1
    have hcount := Set.ncard_le_ncard hmembers hfinite
    omega
  · have hexit := below_of_exit hmember hstep houtside
    have hless := ncard_reached_add_le hfinite hpair hexit
    have htarget := hbelow target hexit
    omega

private theorem IsDepthAt.le_ncard_of_alone (h : IsDepthAt calls depth node)
    (halone : Alone calls node) (hfinite : (reached calls node).Finite)
    (hbelow : ∀ target, Below calls target node →
      depth target ≤ (reached calls target).ncard) :
    depth node ≤ (reached calls node).ncard := by
  have hone := one_le_ncard_reached hfinite
  obtain ⟨exit, -, ⟨-, hzero⟩ | ⟨⟨target, hstep, hcount⟩, -⟩⟩ := h
  · omega
  · unfold stepCount at hcount
    split at hcount
    · omega
    · next hself =>
        have houtside : ¬Mutual calls node target :=
          fun hmutual => hself (halone target hmutual)
        rw [if_neg houtside] at hcount
        have hexit := below_of_exit (Mutual.refl calls node) hstep houtside
        have hsingle : ∀ member ∈ ({node} : Set κ),
            Mutual calls node member := by
          simp [Mutual.refl]
        have hless := ncard_reached_add_le hfinite hsingle hexit
        have htarget := hbelow target hexit
        rw [Set.ncard_singleton] at hless
        omega

private theorem depth_le_ncard_reached {inside : Set κ}
    (hfinite : inside.Finite)
    (hclosed : ∀ node ∈ inside, ∀ target, calls node target → target ∈ inside)
    (hdepth : ∀ node ∈ inside, IsDepthAt calls depth node) :
    ∀ node ∈ inside, depth node ≤ (reached calls node).ncard := by
  refine below_induction hfinite hclosed fun node hnode hbelow => ?_
  have hreached : (reached calls node).Finite :=
    hfinite.subset fun other hother =>
      mem_of_reflTransGen inside hclosed hnode hother
  by_cases halone : Alone calls node
  · exact (hdepth node hnode).le_ncard_of_alone halone hreached hbelow
  · simp only [Alone, not_forall] at halone
    obtain ⟨other, hmutual, hne⟩ := halone
    exact (hdepth node hnode).le_ncard_of_mutual hmutual
      (Ne.symm hne) hreached hbelow

end Counting

end FuzzReach.Graph

namespace FuzzReach.CallGraph

/-! ## Visited functions -/

section Visited

variable {graph : CallGraph} {name : String}

/-- Every function that a function leads to is what a name reached from it
means: a call that means a function with one segment dropped at most means the
same function in any case. -/
theorem exists_reached_of_calls (hnamed : graph.registry.Named)
    (hname : graph.registry.table.contains name = true)
    (file : Option (SourceFile × Nat)) {other : String}
    (hpath : Relation.ReflTransGen graph.Calls name other) :
    ∃ reached ∈ (graph.reachable file (some name)).map Start.name,
      ∃ declaration, graph.registry.get? other = some declaration ∧
        graph.registry.lookup? .allSegments reached = some declaration := by
  have hclosed :=
    closedFrom_reachedFrom graph
      ⟨name, graph.registry.lookup? .allSegments name⟩
  induction hpath with
  | refl =>
      obtain ⟨declaration, hget⟩ := Option.isSome_iff_exists.mp hname
      exact ⟨name, hclosed.start_mem, declaration, hget,
        Table.lookup?_of_get? hget⟩
  | @tail caller callee _ hcalls ih =>
      obtain ⟨reached, hreached, declaration, hget, hlookup⟩ := ih
      obtain ⟨found, hfound, site, hsite, target, htarget, rfl⟩ := hcalls
      obtain rfl : declaration = found :=
        Option.some.inj (hget.symm.trans hfound)
      refine ⟨site.callee, ?_, target, ?_,
        Table.lookup?_allSegments_of_oneSegment htarget⟩
      · refine hclosed.callee_mem reached hreached declaration ?_ site hsite
        rw [meaning?_of_named, hlookup]
      · exact hnamed.get?_eq_some_iff.mpr
          ⟨Registry.mem_declarations_of_lookup? htarget, rfl⟩

private theorem ncard_reached_le_length (hnamed : graph.registry.Named)
    (hname : graph.registry.table.contains name = true)
    (file : Option (SourceFile × Nat)) :
    (Graph.reached graph.Calls name).ncard ≤
      ((graph.reachable file (some name)).map Start.name).length := by
  -- A name means one function at most, so there are at least as many names as
  -- functions.
  let meant :=
    ((graph.reachable file (some name)).map Start.name).filterMap fun reached =>
      (graph.registry.lookup? .allSegments reached).map Declaration.name
  have hmeant : Graph.reached graph.Calls name ⊆ {other | other ∈ meant} := by
    intro other hother
    obtain ⟨reached, hreached, declaration, hget, hlookup⟩ :=
      exists_reached_of_calls hnamed hname file hother
    refine List.mem_filterMap.mpr ⟨reached, hreached, ?_⟩
    rw [hlookup, Option.map_some, (hnamed.get?_eq_some_iff.mp hget).2]
  calc (Graph.reached graph.Calls name).ncard
      ≤ ({other | other ∈ meant} : Set String).ncard :=
        Set.ncard_le_ncard hmeant (List.finite_toSet meant)
    _ = meant.toFinset.card := by rw [← List.coe_toFinset, Set.ncard_coe_finset]
    _ ≤ meant.length := List.toFinset_card_le meant
    _ ≤ _ := List.length_filterMap_le _ _

private theorem reaches_of_mem_unsettled {other : String}
    (h : other ∈
      Graph.unsettled (nextIn graph.adjacency) graph.adjacency.keys .empty
        name) :
    Relation.ReflTransGen graph.Calls name other := by
  rw [← step_nextIn_eq_calls]
  exact Relation.ReflTransGen.mono (fun _ _ hstep => hstep.1) _ _
    (Graph.mem_reach_iff.mp h).2

end Visited

/-- The depth of a registered function is not larger than the number of names
reached from its own, and every function that the query visits is what one of
these names means. -/
theorem depth_le_length_reachable (files : List SourceFile) (harness : String)
    (known : Table Place Call.Resolution) (name : String)
    (file : Option (SourceFile × Nat)) :
    let graph : CallGraph := ⟨.build files harness, known⟩
    let names := (graph.reachable file (some name)).map Start.name
    graph.registry.table.contains name = true →
      names.Nodup ∧ graph.depth name ≤ names.length ∧
      ∀ visited ∈
          Graph.unsettled (nextIn graph.adjacency) graph.adjacency.keys .empty
            name,
        ∃ reached ∈ names, ∃ declaration,
          graph.registry.get? visited = some declaration ∧
          graph.registry.lookup? .allSegments reached = some declaration := by
  intro graph names hname
  have hnamed : graph.registry.Named := Registry.build_named files harness
  refine ⟨nodup_reachedFrom graph _, ?_, fun visited hvisited => ?_⟩
  · calc graph.depth name
        ≤ (Graph.reached graph.Calls name).ncard :=
          Graph.depth_le_ncard_reached graph.finite_registered
            (fun _ _ _ hcalls => hcalls.contains hnamed)
            (fun _ hother => isDepthAt_depth hnamed hother) name hname
      _ ≤ names.length := ncard_reached_le_length hnamed hname file
  · exact exists_reached_of_calls hnamed hname file
      (reaches_of_mem_unsettled hvisited)

def qualifiedCalls : CallGraph :=
  ⟨.build [⟨"src/lib.rs", #[], .empty,
    [{ name := "m::leaf", path := "src/lib.rs" },
      { name := "n::mid",
        path := "src/lib.rs", events := [.call (.path "x::leaf") 10 1] },
      { name := "root", path := "src/lib.rs",
        events := [.call (.path "y::mid") 20 2] }]⟩] "", .empty⟩

theorem depth_le_length_qualifiedCalls :
    let names := (qualifiedCalls.reachable none (some "root")).map Start.name
    qualifiedCalls.registry.table.contains "root" = true ∧
      names = ["root", "y::mid", "x::leaf"] ∧ qualifiedCalls.depth "root" = 2 ∧
      qualifiedCalls.depth "root" ≤ names.length ∧
      ∃ reached ∈ names, ∃ declaration,
        qualifiedCalls.registry.get? "m::leaf" = some declaration ∧
          qualifiedCalls.registry.lookup? .allSegments reached =
            some declaration := by
  have hname : qualifiedCalls.registry.table.contains "root" = true := by cbv
  have hnames : (qualifiedCalls.reachable none (some "root")).map Start.name =
      ["root", "y::mid", "x::leaf"] := by cbv
  have hvisited : Graph.unsettled
      (nextIn qualifiedCalls.adjacency) qualifiedCalls.adjacency.keys
      .empty "root" = ["root", "n::mid", "m::leaf"] := by cbv
  obtain ⟨-, hdepth, hmeant⟩ :=
    depth_le_length_reachable qualifiedCalls.registry.files "" .empty "root"
      none hname
  exact ⟨hname, hnames, by cbv, hdepth, hmeant "m::leaf" (hvisited ▸ by decide)⟩

end FuzzReach.CallGraph
