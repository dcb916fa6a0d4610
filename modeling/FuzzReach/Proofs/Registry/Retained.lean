import FuzzReach.Proofs.Extract
import FuzzReach.Proofs.Registry
import FuzzReach.Proofs.Text.Cut

/-!
# The registry lists what is retained

Every function of the files is retained, except the entry points of harnesses
that were not chosen.  The registry lists the names of the retained functions in
the order in which they first come up, each with its last declaration.
-/

namespace FuzzReach

def Declaration.ofFiles (files : List SourceFile) : List Declaration :=
  files.zipIdx.flatMap fun (file, number) => ofFile file number

namespace Registry

def isRetained (harness : String) (declaration : Declaration) : Bool :=
  !(declaration.name = Name.entry && declaration.file.hasHarness &&
    !SourceFile.matchesHarness declaration.file.path harness)

def retained (files : List SourceFile) (harness : String) : List Declaration :=
  (Declaration.ofFiles files).filter (isRetained harness)

def keyed (declaration : Declaration) : String × Declaration :=
  (declaration.name, declaration)

private theorem file_of_mem_ofFile {file : SourceFile} {number : Nat}
    {declaration : Declaration}
    (h : declaration ∈ Declaration.ofFile file number) :
    declaration.file = file := by
  obtain ⟨⟨function, index⟩, -, rfl⟩ := List.mem_map.mp h
  rfl

private theorem contribution_eq (harness : String) (file : SourceFile)
    (number : Nat) :
    contribution harness file number =
      .ofList (((Declaration.ofFile file number).filter
        (isRetained harness)).map keyed) := by
  simp only [contribution]
  split
  · next hdropped =>
      rw [Table.erase_ofList, List.filter_map]
      congr 2
      apply List.filter_congr
      intro declaration hdeclaration
      rw [isRetained, file_of_mem_ofFile hdeclaration]
      simp_all
  · next hkept =>
      congr 2
      refine (List.filter_eq_self.mpr ?_).symm
      intro declaration hdeclaration
      rw [isRetained, file_of_mem_ofFile hdeclaration, Bool.and_assoc,
        Bool.eq_false_iff.mpr hkept]
      simp

private theorem table_build (files : List SourceFile) (harness : String) :
    (build files harness).table =
      .ofList ((retained files harness).map keyed) := by
  have hmerged := Table.foldl_merge_ofList (fun numbered : SourceFile × Nat =>
    ((Declaration.ofFile numbered.1 numbered.2).filter (isRetained harness)).map
      keyed)
    files.zipIdx .empty
  simp only [← contribution_eq] at hmerged
  rw [retained, Declaration.ofFiles, List.filter_flatMap, List.map_flatMap]
  exact hmerged

theorem keys_build (files : List SourceFile) (harness : String) :
    (build files harness).table.keys =
      ((retained files harness).map Declaration.name).eraseDups := by
  rw [table_build, Table.keys_ofList, List.map_map]
  rfl

theorem get?_build (files : List SourceFile) (harness key : String) :
    (build files harness).get? key =
      (retained files harness).reverse.find? fun declaration =>
        declaration.name = key := by
  rw [get?, table_build, Table.get?_ofList, ← List.map_reverse, List.find?_map,
    Option.map_map]
  exact Option.map_id'

private theorem mem_retained_of_mem_declarations {files : List SourceFile}
    {harness : String} {declaration : Declaration}
    (h : declaration ∈ (build files harness).declarations) :
    declaration ∈ retained files harness := by
  rw [declarations, table_build] at h
  obtain ⟨key, hentry⟩ := Table.mem_values_iff.mp h
  obtain ⟨found, hfound, heq⟩ := List.mem_map.mp (Table.mem_ofList hentry)
  cases heq
  exact hfound

/-! ## Entry points -/

theorem matchesHarness_of_isEntry {files : List SourceFile} {harness : String}
    {declaration : Declaration}
    (h : declaration ∈ (build files harness).declarations)
    (hname : declaration.name = Name.entry)
    (hentry : declaration.function.isEntry = true) :
    SourceFile.matchesHarness declaration.file.path harness = true := by
  have hin := build_isFrom files harness declaration h
  have hharness : declaration.file.hasHarness = true :=
    List.any_eq_true.mpr
      ⟨declaration.function, List.mem_of_getElem? hin.2, hentry⟩
  have hretained := (List.mem_filter.mp (mem_retained_of_mem_declarations h)).2
  simpa [isRetained, hname, hharness] using hretained

theorem name_of_isEntry {sources : List (String × Syntax.Source)}
    {declaration : Declaration} (h : declaration.IsIn
      (sources.map fun (path, source) => .ofSource path source))
        (hentry : declaration.function.isEntry = true) :
          declaration.name = Name.entry := by
  obtain ⟨⟨path, source⟩, -, hfile⟩ :=
    List.mem_map.mp (List.mem_of_getElem? h.1)
  have hmem := List.mem_of_getElem? h.2
  rw [← hfile] at hmem
  exact (Extract.isDeclared_of_mem_functions hmem).name_of_isEntry hentry

/-- The registry of a harness over extracted files lists exactly the retained
functions, the last of each name in the place of the first.  It has one entry
point at most, which belongs to the harness. -/
theorem build_lists_retained (sources : List (String × Syntax.Source))
    (harness : String) :
    let files :=
      sources.map fun (path, source) => SourceFile.ofSource path source
    let registry := build files harness
    registry.table.keys =
      ((retained files harness).map Declaration.name).eraseDups ∧
      registry.table.keys.Nodup ∧
      (∀ key, registry.get? key =
        (retained files harness).reverse.find? fun declaration =>
          declaration.name = key) ∧
      (∀ key declaration, registry.get? key = some declaration →
        declaration.name = key) ∧
      (∀ first ∈ registry.declarations, ∀ second ∈ registry.declarations,
        first.function.isEntry = true → second.function.isEntry = true →
          first = second) ∧
      ∀ declaration ∈ registry.declarations,
        declaration.function.isEntry = true →
          declaration.name = Name.entry ∧
            (harness ≠ "" →
              (harness ++ ".rs").toList <:+: declaration.file.path.toList) := by
  intro files registry
  have hname : ∀ declaration ∈ registry.declarations,
      declaration.function.isEntry = true →
      declaration.name = Name.entry := fun declaration h hentry =>
    name_of_isEntry (build_isFrom files harness declaration h) hentry
  refine ⟨keys_build files harness, registry.table.nodup,
    get?_build files harness, ?_, ?_, ?_⟩
  · intro key declaration h
    exact build_named files harness key declaration
      (Table.get?_eq_some_iff.mp h)
  · intro first hfirst second hsecond hentry hentry'
    exact (build_named files harness).eq_of_name_eq hfirst hsecond
      ((hname first hfirst hentry).trans (hname second hsecond hentry').symm)
  · intro declaration h hentry
    refine ⟨hname declaration h hentry, fun hharness => ?_⟩
    have hmatch :=
      matchesHarness_of_isEntry h (hname declaration h hentry) hentry
    simp only [SourceFile.matchesHarness, hharness, decide_false,
      Bool.false_or] at hmatch
    exact Text.contains_iff.mp hmatch

end Registry

end FuzzReach
