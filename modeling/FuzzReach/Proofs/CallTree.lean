import FuzzReach.CallTree
import FuzzReach.Proofs.Reachable

/-!
# Call trees and reachable names

A call tree prunes by the function that a call meets, the search for reachable
names prunes by the name of the call.  The calls listed in a tree are reachable
names, and all of them as long as no reachable name means a macro whose calls
are not followed.
-/

namespace FuzzReach.CallGraph

def treeNames (visits : List (Graph.Visit TreeLine)) : Set String :=
  {name | ∃ visit ∈ visits, visit.item.calledAs = name}

def treeFunctions (visits : List (Graph.Visit TreeLine)) : Set Declaration :=
  {declaration | ∃ line ∈ Graph.expansions visits,
    line.declaration = some declaration}

def startAt (graph : CallGraph) (name : String) : Start :=
  ⟨name, graph.registry.lookup? .allSegments name⟩

variable {graph : CallGraph} {file : Option (SourceFile × Nat)} {start : String}

theorem mem_linesBelow_iff {line below : TreeLine} :
    below ∈ graph.linesBelow line ↔
      ∃ declaration, line.declaration = some declaration ∧
      ∃ site ∈ graph.sites declaration,
        below = ⟨site.callee,
          if isFollowed declaration
            then graph.registry.lookup? .allSegments site.callee else none,
          declaration.file.path, line.level + 1, some site.line⟩ := by
  unfold linesBelow
  cases line.declaration with
  | none => simp
  | some declaration =>
      simp only [List.mem_map, Option.some.injEq, exists_eq_left', eq_comm]

private theorem callTree_eq (graph : CallGraph)
    (file : Option (SourceFile × Nat)) (start : String) :
    graph.callTree file (some start) =
      graph.treeFrom ⟨start, graph.registry.lookup? .allSegments start,
        graph.rootLabel file start, 0, none⟩ := rfl

/-- No name means a macro whose calls are not followed. -/
def Followed (graph : CallGraph) (names : Set String) : Prop :=
  ∀ name ∈ names, ∀ declaration,
    graph.registry.lookup? .allSegments name = some declaration →
      isFollowed declaration = true

/-! ## What a tree lists -/

private theorem callTree_line {names : Set String}
    (hnames : graph.ClosedFrom (graph.startAt start) names)
    {visit : Graph.Visit TreeLine}
    (hvisit : visit ∈ graph.callTree file (some start)) :
    visit.item.calledAs ∈ names ∧
      (visit.item.declaration =
        graph.registry.lookup? .allSegments visit.item.calledAs ∨
        visit.item.declaration = none ∧ ¬ graph.Followed names) := by
  rw [callTree_eq] at hvisit
  refine Graph.trail_induction (fun line => line.calledAs ∈ names ∧
    (line.declaration = graph.registry.lookup? .allSegments line.calledAs ∨
      line.declaration = none ∧ ¬ graph.Followed names)) ?_ ?_ visit hvisit
  · intro line hline
    rw [List.mem_singleton] at hline
    subst hline
    exact ⟨hnames.start_mem, Or.inl rfl⟩
  · rintro line ⟨hname, hmeaning⟩ _ _ _ below hbelow
    obtain ⟨declaration, hdeclaration, site, hsite, rfl⟩ :=
      mem_linesBelow_iff.mp hbelow
    have hlookup : graph.registry.lookup? .allSegments line.calledAs =
        some declaration := by
      rcases hmeaning with hmeaning | ⟨hnone, -⟩
      · rw [← hmeaning, hdeclaration]
      · rw [hnone] at hdeclaration
        cases hdeclaration
    refine ⟨hnames.callee_mem _ hname declaration
      ((meaning?_of_named graph start _).trans hlookup) site hsite, ?_⟩
    cases hfollow : isFollowed declaration with
    | true => simp
    | false =>
        refine Or.inr ⟨by simp, fun hfollowed => ?_⟩
        rw [hfollowed _ hname declaration hlookup] at hfollow
        cases hfollow

private theorem declaration_of_mem_callTree {names : Set String}
    (hnames : graph.ClosedFrom (graph.startAt start) names)
    (hfollowed : graph.Followed names) {visit : Graph.Visit TreeLine}
    (hvisit : visit ∈ graph.callTree file (some start)) :
    visit.item.declaration =
      graph.registry.lookup? .allSegments visit.item.calledAs := by
  rcases (callTree_line hnames hvisit).2 with h | ⟨-, h⟩
  · exact h
  · exact absurd hfollowed h

/-! ## What a tree leaves out -/

section Complete

variable (hnamed : graph.registry.Named) {names : Set String}
  (hnames : graph.ClosedFrom (graph.startAt start) names)
    (hfollowed : graph.Followed names)

include hnamed hnames hfollowed

private theorem exists_expansion_of_mem_callTree {visit : Graph.Visit TreeLine}
    {declaration : Declaration}
    (hvisit : visit ∈ graph.callTree file (some start))
    (hlookup : graph.registry.lookup? .allSegments visit.item.calledAs =
      some declaration) :
    ∃ line ∈ Graph.expansions (graph.callTree file (some start)),
      line.declaration = some declaration := by
  have hdeclaration :=
    (declaration_of_mem_callTree hnames hfollowed hvisit).trans hlookup
  have hmem := Registry.mem_declarations_of_lookup? hlookup
  have hlisted := Table.contains_iff.mp (hnamed.contains_of_mem hmem)
  have hkey : visit.item.key? = some declaration.name := by
    simp [TreeLine.key?, hdeclaration]
  obtain ⟨line, hline, hsame⟩ :=
    Graph.exists_expansion_of_visit hvisit hkey
      (List.mem_append_right _ hlisted)
  refine ⟨line, hline, ?_⟩
  -- A line with the same key has the same function, since no two registered
  -- ones share a name.
  obtain ⟨other, hother, hname⟩ := Option.map_eq_some_iff.mp hsame
  have hmeans := declaration_of_mem_callTree hnames hfollowed
    (Graph.mem_expansions_iff.mp hline)
  have hregistered :=
    Registry.mem_declarations_of_lookup? (hmeans.symm.trans hother)
  rw [hother, hnamed.eq_of_name_eq hregistered hmem hname]

private theorem closedFrom_treeNames :
    graph.ClosedFrom (graph.startAt start)
      (treeNames (graph.callTree file (some start))) := by
  constructor
  · have hroot : ∃ visit ∈ graph.callTree file (some start), visit.item =
        ⟨start, graph.registry.lookup? .allSegments start,
          graph.rootLabel file start, 0, none⟩ :=
      Graph.exists_visit_of_pending (List.mem_singleton.mpr rfl)
    obtain ⟨visit, hvisit, hitem⟩ := hroot
    exact ⟨visit, hvisit, congrArg TreeLine.calledAs hitem⟩
  · rintro name ⟨visit, hvisit, rfl⟩ declaration hmeaning site hsite
    have hlookup := (meaning?_of_named graph start _).symm.trans hmeaning
    obtain ⟨line, hline, hdeclaration⟩ :=
      exists_expansion_of_mem_callTree hnamed hnames hfollowed hvisit hlookup
    obtain ⟨below, hbelow, hitem⟩ := Graph.exists_visit_of_follower hline
      (mem_linesBelow_iff.mpr ⟨declaration, hdeclaration, site, hsite, rfl⟩)
    exact ⟨below, hbelow, congrArg TreeLine.calledAs hitem⟩

private theorem treeFunctions_eq :
    treeFunctions (graph.callTree file (some start)) =
      {declaration | ∃ name ∈ treeNames (graph.callTree file (some start)),
        graph.registry.lookup? .allSegments name = some declaration} := by
  ext declaration
  constructor
  · rintro ⟨line, hline, hdeclaration⟩
    have hvisit := Graph.mem_expansions_iff.mp hline
    refine ⟨line.calledAs, ⟨_, hvisit, rfl⟩, ?_⟩
    rw [← hdeclaration, declaration_of_mem_callTree hnames hfollowed hvisit]
  · rintro ⟨name, ⟨visit, hvisit, rfl⟩, hlookup⟩
    exact exists_expansion_of_mem_callTree hnamed hnames hfollowed
      hvisit hlookup

end Complete

/-- The calls listed in the tree of a function are among the names that it
reaches.  If no reached name means a macro other than the entry point, they are
all of them, and the tree lists the calls of exactly the functions that the
reached names mean. -/
theorem callTree_agrees_reachable (files : List SourceFile) (harness : String)
    (known : Table Place Call.Resolution)
    (file other : Option (SourceFile × Nat)) (start : String) :
    let graph : CallGraph := ⟨.build files harness, known⟩
    let tree := graph.callTree file (some start)
    let reached :=
      {name | name ∈ (graph.reachable other (some start)).map Start.name}
    treeNames tree ⊆ reached ∧
      ((∀ name ∈ reached, ∀ declaration,
          graph.registry.lookup? .allSegments name = some declaration →
          declaration.function.isMacro = true → declaration.name = Name.entry) →
        treeNames tree = reached ∧
          treeFunctions tree = {declaration | ∃ name ∈ reached,
            graph.registry.lookup? .allSegments name = some declaration}) := by
  intro graph tree reached
  have hleast := isLeast_reachedFrom graph (graph.startAt start)
  have hsubset : treeNames tree ⊆ reached := by
    rintro name ⟨visit, hvisit, rfl⟩
    exact (callTree_line hleast.1 hvisit).1
  refine ⟨hsubset, fun hmacros => ?_⟩
  have hnamed : graph.registry.Named := Registry.build_named files harness
  have hfollowed : graph.Followed reached := by
    intro name hname declaration hlookup
    cases hmacro : declaration.function.isMacro with
    | false => simp [isFollowed, hmacro]
    | true => simp [isFollowed, hmacros name hname declaration hlookup hmacro]
  have hnames : treeNames tree = reached :=
    hsubset.antisymm (hleast.2 (closedFrom_treeNames hnamed hleast.1 hfollowed))
  exact ⟨hnames, hnames ▸ treeFunctions_eq hnamed hleast.1 hfollowed⟩

def renamedCalls : CallGraph :=
  ⟨.build [⟨"src/lib.rs", #[], .empty,
    [{ name := "m::a",
       path := "src/lib.rs", events := [.call (.path "b") 10 1] },
      { name := "b", path := "src/lib.rs",
        events := [.call (.path "a") 30 2, .call (.path "x::a") 40 2] }]⟩] "",
        .empty⟩

theorem callTree_agrees_renamedCalls :
    let reached := (renamedCalls.reachable none (some "m::a")).map Start.name
    (∀ name ∈ reached, ∀ declaration,
        renamedCalls.registry.lookup? .allSegments name = some declaration →
        declaration.function.isMacro = true → declaration.name = Name.entry) ∧
      reached = ["m::a", "b", "a", "x::a"] ∧
      treeNames (renamedCalls.callTree none (some "m::a")) =
        {name | name ∈ reached} := by
  have hplain : ∀ declaration ∈ renamedCalls.registry.declarations,
      declaration.function.isMacro = false := by decide +kernel
  have hreached : (renamedCalls.reachable none (some "m::a")).map Start.name =
      ["m::a", "b", "a", "x::a"] := by cbv
  intro reached
  have hmacros : ∀ name ∈ reached, ∀ declaration,
      renamedCalls.registry.lookup? .allSegments name = some declaration →
      declaration.function.isMacro = true → declaration.name = Name.entry := by
    intro name _ declaration hlookup hmacro
    rw [hplain declaration
      (Registry.mem_declarations_of_lookup? hlookup)] at hmacro
    cases hmacro
  have hagree :=
    callTree_agrees_reachable renamedCalls.registry.files "" .empty none
      none "m::a"
  exact ⟨hmacros, hreached, (hagree.2 hmacros).1⟩

end FuzzReach.CallGraph
