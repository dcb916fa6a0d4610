import FuzzReach.Proofs.Registry
import FuzzReach.Proofs.Trail
import FuzzReach.Reachable
import Mathlib.Data.List.Permutation
import Mathlib.Data.Set.Basic
import Mathlib.Order.Bounds.Basic

/-!
# Reachable names are the least closed set

The names reached from a start are listed once each.  They form the least set
that holds the start's name and, with every name that means a function, all
names which that function calls.
-/

namespace FuzzReach.CallGraph

/-- The function that a name stands for in a walk.  The name of the start stands
for the start's own function, whatever the registry says. -/
def meaning? (graph : CallGraph) (start : Start)
    (name : String) : Option Declaration :=
  if name = start.name then start.declaration
    else graph.registry.lookup? .allSegments name

/-- The names hold the start's name and all names called by the functions that
they stand for. -/
structure ClosedFrom (graph : CallGraph) (start : Start) (names : Set String) :
    Prop where
  start_mem : start.name ∈ names
  callee_mem : ∀ name ∈ names, ∀ declaration,
    graph.meaning? start name = some declaration →
      ∀ site ∈ graph.sites declaration, site.callee ∈ names

section Walk

variable {graph : CallGraph} {start : Start}

theorem meaning?_start (graph : CallGraph) (start : Start) :
    graph.meaning? start start.name = start.declaration := by
  simp [meaning?]

theorem meaning?_of_ne {name : String} (h : name ≠ start.name) :
    graph.meaning? start name = graph.registry.lookup? .allSegments name := by
  simp [meaning?, h]

theorem mem_successors_iff {item follower : Start} :
    follower ∈ graph.successors item ↔
      ∃ declaration, item.declaration = some declaration ∧
      ∃ site ∈ graph.sites declaration,
        follower = ⟨site.callee,
          graph.registry.lookup? .allSegments site.callee⟩ := by
  unfold successors
  cases item.declaration with
  | none => simp
  | some declaration => simp [callees, eq_comm]

def reachedBelow (graph : CallGraph) (start : Start) : List Start :=
  Graph.expansions
    (Graph.trail (fun (item : Start) => some item.name) graph.successors
      (Graph.without start.name (graph.vocabulary start))
        (graph.successors start))

theorem reachedFrom_eq_cons (graph : CallGraph) (start : Start) :
    graph.reachedFrom start = start :: graph.reachedBelow start := by
  have hstart : start.name ∈ graph.vocabulary start := List.mem_cons_self
  rw [reachedFrom, Graph.trail]
  simp [hstart, reachedBelow]

private theorem ne_start_of_mem_reachedBelow {item : Start}
    (h : item ∈ graph.reachedBelow start) :
    item.name ≠ start.name := by
  obtain ⟨name, hname, hsome⟩ := Graph.key_mem_of_mem_expansions h
  cases hsome
  exact (Graph.mem_without.mp hname).2

theorem declaration_of_mem_successors {item follower : Start}
    (h : follower ∈ graph.successors item) :
    follower.declaration =
      graph.registry.lookup? .allSegments follower.name := by
  obtain ⟨declaration, -, site, -, rfl⟩ := mem_successors_iff.mp h
  rfl

private theorem declaration_of_mem_reachedBelow {item : Start}
    (h : item ∈ graph.reachedBelow start) :
    item.declaration = graph.registry.lookup? .allSegments item.name := by
  refine Graph.trail_induction
    (fun item =>
      item.declaration = graph.registry.lookup? .allSegments item.name)
    (fun follower hfollower => declaration_of_mem_successors hfollower) ?_
    _ (Graph.mem_expansions_iff.mp h)
  intro item _ _ _ _ follower hfollower
  exact declaration_of_mem_successors hfollower

private theorem declaration_of_mem_reachedFrom {item : Start}
    (h : item ∈ graph.reachedFrom start) :
    item.declaration = graph.meaning? start item.name := by
  rw [reachedFrom_eq_cons] at h
  rcases List.mem_cons.mp h with rfl | h
  · exact (meaning?_start graph item).symm
  · rw [meaning?_of_ne (ne_start_of_mem_reachedBelow h)]
    exact declaration_of_mem_reachedBelow h

/-! ## Soundness -/

private theorem mem_of_mem_reachedFrom {names : Set String}
    (hnames : graph.ClosedFrom start names) {item : Start}
    (h : item ∈ graph.reachedFrom start) : item.name ∈ names := by
  rw [reachedFrom_eq_cons] at h
  rcases List.mem_cons.mp h with rfl | h
  · exact hnames.start_mem
  have hvisits := Graph.trail_induction
    (fun item => item.name ∈ names ∧
      item.declaration = graph.registry.lookup? .allSegments item.name)
    (fun follower hfollower => ?_) ?_ _ (Graph.mem_expansions_iff.mp h)
  · exact hvisits.1
  · obtain ⟨declaration, hdeclaration, site, hsite, rfl⟩ :=
      mem_successors_iff.mp hfollower
    rw [← meaning?_start graph start] at hdeclaration
    exact ⟨hnames.callee_mem _ hnames.start_mem declaration hdeclaration site
      hsite, rfl⟩
  · rintro item ⟨hname, hmeaning⟩ key hkey hsome follower hfollower
    cases hsome
    -- Only names other than that of the start are expanded here.
    rw [← meaning?_of_ne (Graph.mem_without.mp hkey).2] at hmeaning
    obtain ⟨declaration, hdeclaration, site, hsite, rfl⟩ :=
      mem_successors_iff.mp hfollower
    rw [hmeaning] at hdeclaration
    exact ⟨hnames.callee_mem _ hname declaration hdeclaration site hsite, rfl⟩

/-! ## Completeness -/

private theorem mem_vocabulary_of_follower {item follower : Start}
    (h : item ∈ graph.reachedFrom start)
    (hfollower : follower ∈ graph.successors item) :
    follower.name ∈ graph.vocabulary start := by
  unfold vocabulary
  rw [reachedFrom_eq_cons] at h
  apply List.mem_cons_of_mem
  rcases List.mem_cons.mp h with rfl | h
  · exact List.mem_append_left _ (List.mem_map_of_mem hfollower)
  · apply List.mem_append_right
    obtain ⟨declaration, hdeclaration, site, hsite, rfl⟩ :=
      mem_successors_iff.mp hfollower
    rw [declaration_of_mem_reachedBelow h] at hdeclaration
    refine List.mem_flatMap.mpr ⟨declaration, ?_, List.mem_map_of_mem hsite⟩
    exact Registry.mem_declarations_of_lookup? hdeclaration

theorem closedFrom_reachedFrom (graph : CallGraph) (start : Start) :
    graph.ClosedFrom start
      {name | name ∈ (graph.reachedFrom start).map Start.name} := by
  constructor
  · rw [reachedFrom_eq_cons]
    exact List.mem_cons_self
  · intro name hname declaration hmeaning site hsite
    obtain ⟨item, hitem, rfl⟩ := List.mem_map.mp hname
    have hfollower :
        ⟨site.callee, graph.registry.lookup? .allSegments site.callee⟩ ∈
        graph.successors item := by
      refine mem_successors_iff.mpr ⟨declaration, ?_, site, hsite, rfl⟩
      rw [declaration_of_mem_reachedFrom hitem, hmeaning]
    obtain ⟨other, hother, hsome⟩ :=
      Graph.exists_expansion_of_follower hitem hfollower rfl
        (mem_vocabulary_of_follower hitem hfollower)
    exact List.mem_map.mpr ⟨other, hother, Option.some.inj hsome⟩

theorem nodup_reachedFrom (graph : CallGraph) (start : Start) :
    ((graph.reachedFrom start).map Start.name).Nodup := by
  apply List.Nodup.of_map some
  rw [List.map_map]
  exact Graph.nodup_keys_expansions

theorem isLeast_reachedFrom (graph : CallGraph) (start : Start) :
    IsLeast {names | graph.ClosedFrom start names}
      {name | name ∈ (graph.reachedFrom start).map Start.name} := by
  refine ⟨closedFrom_reachedFrom graph start, ?_⟩
  intro names hnames name hname
  obtain ⟨item, hitem, rfl⟩ := List.mem_map.mp hname
  exact mem_of_mem_reachedFrom hnames hitem

end Walk

/-! ## Starts given by name -/

theorem meaning?_of_named (graph : CallGraph) (name other : String) :
    graph.meaning? ⟨name, graph.registry.lookup? .allSegments name⟩ other =
      graph.registry.lookup? .allSegments other := by
  by_cases h : other = name
  · subst h
    exact meaning?_start graph _
  · exact meaning?_of_ne h

private theorem ClosedFrom.restart {graph : CallGraph} {name other : String}
    {names : Set String}
    (h : graph.ClosedFrom ⟨name, graph.registry.lookup? .allSegments name⟩
      names) (hother : other ∈ names) :
    graph.ClosedFrom ⟨other, graph.registry.lookup? .allSegments other⟩
      names := by
  refine ⟨hother, ?_⟩
  intro found hfound declaration hmeaning
  rw [meaning?_of_named] at hmeaning
  refine h.callee_mem found hfound declaration ?_
  rw [meaning?_of_named, hmeaning]

/-- The names reached from a start come up once each and are the least closed
set; from a start given by name, nothing more can be reached from any of
them. -/
theorem reachable_isLeast (graph : CallGraph) (file : Option (SourceFile × Nat))
    (function : Option String) (start : Start)
    (hstart : graph.start? file function = some start) :
    let names := (graph.reachable file function).map Start.name
    names.Nodup ∧
      IsLeast {closed | graph.ClosedFrom start closed} {name | name ∈ names} ∧
      ∀ given, function = some given → ∀ other ∈ names, ∀ file,
        (graph.reachable file (some other)).map Start.name ⊆ names := by
  intro names
  have hnames : names = (graph.reachedFrom start).map Start.name := by
    simp [names, reachable, hstart]
  refine ⟨hnames ▸ nodup_reachedFrom graph start,
    hnames ▸ isLeast_reachedFrom graph start, ?_⟩
  rintro given rfl other hother file name hname
  have hnamed : start = ⟨given, graph.registry.lookup? .allSegments given⟩ :=
    (Option.some.inj hstart).symm
  rw [hnames, hnamed] at hother ⊢
  have hclosed := closedFrom_reachedFrom graph
    ⟨given, graph.registry.lookup? .allSegments given⟩
  exact (isLeast_reachedFrom graph _).2 (hclosed.restart hother) hname

def mutualCalls : CallGraph :=
  ⟨.build [⟨"src/lib.rs", #[], .empty,
    [{ name := "a", path := "src/lib.rs", events := [.call (.path "b") 10 1] },
      { name := "b", path := "src/lib.rs",
        events := [.call (.path "a") 30 2, .call (.path "ext") 40 2] }]⟩] "",
        .empty⟩

theorem reachable_mutualCalls :
    let start : Start := ⟨"a", mutualCalls.registry.lookup? .allSegments "a"⟩
    let names := (mutualCalls.reachable none (some "a")).map Start.name
    mutualCalls.start? none (some "a") = some start ∧
      names = ["a", "b", "ext"] ∧
      IsLeast {closed | mutualCalls.ClosedFrom start closed}
        {name | name ∈ names} := by
  have hnames : (mutualCalls.reachable none (some "a")).map Start.name =
      ["a", "b", "ext"] := by
    cbv
  exact ⟨rfl, hnames, (reachable_isLeast mutualCalls none (some "a") _ rfl).2.1⟩

end FuzzReach.CallGraph
