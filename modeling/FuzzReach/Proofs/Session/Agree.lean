import FuzzReach.CallTree
import FuzzReach.Proofs.Registry
import FuzzReach.Proofs.Trail
import FuzzReach.Reachable
import FuzzReach.Report

/-!
# Answers depend only on resolved calls

Two call graphs with one registry give the same answers if every function of the
project has the same calls in both, no matter which of these calls were known
before.
-/

namespace FuzzReach.CallGraph

/-! ## Functions that come up -/

def Start.IsIn (files : List SourceFile) (start : Start) : Prop :=
  ∀ declaration, start.declaration = some declaration → declaration.IsIn files

def LineIsIn (files : List SourceFile) (line : TreeLine) : Prop :=
  ∀ declaration, line.declaration = some declaration → declaration.IsIn files

def FileIsIn (files : List SourceFile)
    (file : Option (SourceFile × Nat)) : Prop :=
  ∀ pair, file = some pair → files[pair.2]? = some pair.1

section Declared

variable {files : List SourceFile} {graph : CallGraph}
  {file : Option (SourceFile × Nat)} {function : Option String}

private theorem isIn_of_start? (h : graph.registry.IsFrom files)
    (hfile : FileIsIn files file) {start : Start}
    (hstart : graph.start? file function = some start) : start.IsIn files := by
  intro declaration hdeclaration
  unfold start? at hstart
  split at hstart
  · cases hstart
    exact h.lookup? hdeclaration
  · obtain ⟨entry, hentry, rfl⟩ := Option.map_eq_some_iff.mp hstart
    cases hdeclaration
    exact Declaration.isIn_of_entryOf? (hfile _ rfl) hentry
  · cases hstart

private theorem isIn_of_mem_successors (h : graph.registry.IsFrom files)
    {start follower : Start} (hfollower : follower ∈ graph.successors start) :
    follower.IsIn files := by
  unfold successors at hfollower
  split at hfollower
  · cases hfollower
  · obtain ⟨callee, -, rfl⟩ := List.mem_map.mp hfollower
    exact fun declaration hlookup => h.lookup? hlookup

theorem isIn_of_mem_reachable (h : graph.registry.IsFrom files)
    (hfile : FileIsIn files file) {item : Start}
    (hitem : item ∈ graph.reachable file function) : item.IsIn files := by
  unfold reachable at hitem
  split at hitem
  · next start hstart =>
      refine Graph.trail_induction (Start.IsIn files) ?_ ?_ _
        (Graph.mem_expansions_iff.mp hitem)
      · intro item hitem
        rw [List.mem_singleton] at hitem
        exact hitem ▸ isIn_of_start? h hfile hstart
      · exact fun item _ _ _ _ follower hfollower =>
          isIn_of_mem_successors h hfollower
  · cases hitem

private theorem isIn_of_root? (h : graph.registry.IsFrom files)
    (hfile : FileIsIn files file) {root : TreeLine}
    (hroot : graph.root? file function = some root) : LineIsIn files root := by
  obtain ⟨start, hstart, rfl⟩ := Option.map_eq_some_iff.mp hroot
  exact isIn_of_start? h hfile hstart

private theorem isIn_of_mem_linesBelow (h : graph.registry.IsFrom files)
    {line below : TreeLine} (hbelow : below ∈ graph.linesBelow line) :
    LineIsIn files below := by
  unfold linesBelow at hbelow
  split at hbelow
  · cases hbelow
  · obtain ⟨site, -, rfl⟩ := List.mem_map.mp hbelow
    intro declaration hdeclaration
    simp only at hdeclaration
    split at hdeclaration
    · exact h.lookup? hdeclaration
    · cases hdeclaration

theorem isIn_of_mem_callTree (h : graph.registry.IsFrom files)
    (hfile : FileIsIn files file) {visit : Graph.Visit TreeLine}
    (hvisit : visit ∈ graph.callTree file function) :
    LineIsIn files visit.item := by
  unfold callTree at hvisit
  split at hvisit
  · next root hroot =>
      refine Graph.trail_induction (LineIsIn files) ?_ ?_ _ hvisit
      · intro line hline
        rw [List.mem_singleton] at hline
        exact hline ▸ isIn_of_root? h hfile hroot
      · exact fun line _ _ _ _ below hbelow => isIn_of_mem_linesBelow h hbelow
  · cases hvisit

end Declared

/-- Both graphs resolve every function of the files alike. -/
structure Agree (files : List SourceFile) (first second : CallGraph) :
    Prop where
  registry : first.registry = second.registry
  isFrom : first.registry.IsFrom files
  resolution : ∀ declaration, declaration.IsIn files →
    first.resolution declaration = second.resolution declaration

section Agree

variable {files : List SourceFile} {first second : CallGraph}

theorem Agree.sites (h : Agree files first second) {declaration : Declaration}
    (hdeclaration : declaration.IsIn files) :
    first.sites declaration = second.sites declaration := by
  rw [CallGraph.sites, CallGraph.sites, h.resolution declaration hdeclaration]

theorem Agree.callees (h : Agree files first second) {declaration : Declaration}
    (hdeclaration : declaration.IsIn files) :
    first.callees declaration = second.callees declaration := by
  rw [CallGraph.callees, CallGraph.callees, h.sites hdeclaration]

/-! ## Uses and depths -/

theorem Agree.crossReferences (h : Agree files first second) (name : String) :
    first.crossReferences name = second.crossReferences name := by
  unfold CallGraph.crossReferences
  rw [← h.registry]
  apply List.filter_congr
  intro caller hcaller
  rw [h.callees (h.isFrom caller hcaller)]

theorem Agree.uses (h : Agree files first second) (name : String) :
    first.uses name = second.uses name := by
  unfold CallGraph.uses
  rw [← h.registry]
  apply List.countP_congr
  intro caller hcaller
  rw [h.callees (h.isFrom caller hcaller)]

theorem Agree.targets (h : Agree files first second) {declaration : Declaration}
    (hdeclaration : declaration.IsIn files) :
    first.targets declaration = second.targets declaration := by
  rw [CallGraph.targets, CallGraph.targets, h.callees hdeclaration, h.registry]

theorem Agree.adjacency (h : Agree files first second) :
    first.adjacency = second.adjacency := by
  unfold CallGraph.adjacency
  rw [← h.registry]
  apply Table.map_congr
  intro declaration hdeclaration
  rw [h.targets (h.isFrom declaration hdeclaration)]

theorem Agree.depth (h : Agree files first second) (name : String) :
    first.depth name = second.depth name := by
  rw [CallGraph.depth, CallGraph.depth, h.adjacency]

/-! ## Walks -/

theorem Agree.successors (h : Agree files first second) {start : Start}
    (hstart : start.IsIn files) :
    first.successors start = second.successors start := by
  unfold CallGraph.successors
  cases hdeclaration : start.declaration with
  | none => rfl
  | some declaration =>
      simp only [h.callees (hstart declaration hdeclaration), h.registry]

theorem Agree.vocabulary (h : Agree files first second) {start : Start}
    (hstart : start.IsIn files) :
    first.vocabulary start = second.vocabulary start := by
  unfold CallGraph.vocabulary
  rw [h.successors hstart, ← h.registry]
  have hcallees : first.registry.declarations.flatMap first.callees =
      first.registry.declarations.flatMap second.callees := by
    rw [List.flatMap_def, List.flatMap_def]
    congr 1
    apply List.map_congr_left
    intro declaration hdeclaration
    exact h.callees (h.isFrom declaration hdeclaration)
  rw [hcallees]

theorem Agree.reachedFrom (h : Agree files first second) {start : Start}
    (hstart : start.IsIn files) :
    first.reachedFrom start = second.reachedFrom start := by
  unfold CallGraph.reachedFrom
  rw [h.vocabulary hstart]
  congr 1
  apply Graph.trail_congr (Start.IsIn files)
  · intro item hitem
    rw [List.mem_singleton] at hitem
    exact hitem ▸ hstart
  · exact fun item _ follower hfollower =>
      isIn_of_mem_successors h.isFrom hfollower
  · exact fun item hitem => h.successors hitem

theorem Agree.start? (h : Agree files first second)
    (file : Option (SourceFile × Nat)) (function : Option String) :
    first.start? file function = second.start? file function := by
  unfold CallGraph.start?
  rw [h.registry]

theorem Agree.reachable (h : Agree files first second)
    {file : Option (SourceFile × Nat)} (hfile : FileIsIn files file)
    (function : Option String) :
    first.reachable file function = second.reachable file function := by
  unfold CallGraph.reachable
  rw [← h.start?]
  cases hstart : first.start? file function with
  | none => rfl
  | some start => exact h.reachedFrom (isIn_of_start? h.isFrom hfile hstart)

/-! ## Call trees -/

theorem Agree.linesBelow (h : Agree files first second) {line : TreeLine}
    (hline : LineIsIn files line) :
    first.linesBelow line = second.linesBelow line := by
  unfold CallGraph.linesBelow
  cases hdeclaration : line.declaration with
  | none => rfl
  | some declaration =>
      simp only [h.sites (hline declaration hdeclaration), h.registry]

theorem Agree.treeFrom (h : Agree files first second) {root : TreeLine}
    (hroot : LineIsIn files root) :
    first.treeFrom root = second.treeFrom root := by
  unfold CallGraph.treeFrom
  rw [← h.registry]
  apply Graph.trail_congr (LineIsIn files)
  · intro line hline
    rw [List.mem_singleton] at hline
    exact hline ▸ hroot
  · exact fun line _ below hbelow => isIn_of_mem_linesBelow h.isFrom hbelow
  · exact fun line hline => h.linesBelow hline

theorem Agree.root? (h : Agree files first second)
    (file : Option (SourceFile × Nat)) (function : Option String) :
    first.root? file function = second.root? file function := by
  unfold CallGraph.root? CallGraph.rootLabel
  rw [h.start?, h.registry]

theorem Agree.callTree (h : Agree files first second)
    {file : Option (SourceFile × Nat)} (hfile : FileIsIn files file)
    (function : Option String) :
    first.callTree file function = second.callTree file function := by
  unfold CallGraph.callTree
  rw [← h.root?]
  cases hroot : first.root? file function with
  | none => rfl
  | some root => exact h.treeFrom (isIn_of_root? h.isFrom hfile hroot)

/-! ## Reports -/

theorem Agree.element (h : Agree files first second)
    (settled : Table String Nat) {declaration : Declaration}
    (hdeclaration : declaration.IsIn files) :
    Report.element first settled declaration =
      Report.element second settled declaration := by
  unfold Report.element
  rw [h.resolution declaration hdeclaration, h.uses, h.callees hdeclaration]

theorem Agree.describe (h : Agree files first second)
    (adjacency : Table String (List String)) (settled : Table String Nat)
    {declarations : List Declaration}
    (hdeclarations : ∀ declaration ∈ declarations, declaration.IsIn files) :
    Report.describe first adjacency settled declarations =
      Report.describe second adjacency settled declarations := by
  induction declarations generalizing settled with
  | nil => rfl
  | cons declaration rest ih =>
      have hhead := hdeclarations declaration List.mem_cons_self
      have htail := ih (CallGraph.settle adjacency settled declaration.name)
        fun other hother => hdeclarations other (List.mem_cons_of_mem _ hother)
      simp only [Report.describe, htail, h.element _ hhead]

theorem Agree.report (h : Agree files first second) (harnessSource : String) :
    Report.ofGraph first harnessSource =
      Report.ofGraph second harnessSource := by
  unfold Report.ofGraph
  rw [h.describe _ _ h.isFrom, h.adjacency, h.registry]

end Agree

end FuzzReach.CallGraph
