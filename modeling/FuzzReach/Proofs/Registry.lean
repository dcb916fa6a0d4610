import FuzzReach.Proofs.Table
import FuzzReach.Registry

/-!
# Where registered functions come from

A registry lists functions of the project's files and nothing else, each under
its own name.
-/

namespace FuzzReach

def Declaration.IsIn (files : List SourceFile)
    (declaration : Declaration) : Prop :=
  files[declaration.place.file]? = some declaration.file ∧
    declaration.file.functions[declaration.place.index]? =
      some declaration.function

theorem Declaration.IsIn.eq_of_place {files : List SourceFile}
    {first second : Declaration} (hfirst : first.IsIn files)
    (hsecond : second.IsIn files) (hplace : first.place = second.place) :
    first = second := by
  obtain ⟨place, file, function⟩ := first
  obtain ⟨place', file', function'⟩ := second
  cases hplace
  obtain ⟨hfile, hfunction⟩ := hfirst
  obtain ⟨hfile', hfunction'⟩ := hsecond
  simp only at hfile hfunction hfile' hfunction'
  rw [hfile, Option.some.injEq] at hfile'
  subst hfile'
  rw [hfunction, Option.some.injEq] at hfunction'
  subst hfunction'
  rfl

theorem Declaration.isIn_of_mem_ofFile {files : List SourceFile}
    {file : SourceFile} {number : Nat} (hfile : files[number]? = some file)
    {declaration : Declaration}
    (h : declaration ∈ Declaration.ofFile file number) :
    declaration.IsIn files := by
  obtain ⟨⟨function, index⟩, hindex, rfl⟩ := List.mem_map.mp h
  exact ⟨hfile, List.mem_zipIdx_iff_getElem?.mp hindex⟩

theorem Declaration.isIn_of_entryOf? {files : List SourceFile}
    {file : SourceFile} {number : Nat} (hfile : files[number]? = some file)
    {declaration : Declaration}
    (h : Declaration.entryOf? file number = some declaration) :
    declaration.IsIn files :=
  isIn_of_mem_ofFile hfile (List.mem_of_find?_eq_some h)

theorem Project.getElem?_of_file? {project : Project} {path : String}
    {file : SourceFile} {number : Nat}
    (h : project.file? path = some (file, number)) :
    project.files[number]? = some file :=
  List.mem_zipIdx_iff_getElem?.mp (List.mem_of_find?_eq_some h)

namespace Registry

private theorem mem_contribution {harness : String} {file : SourceFile}
    {number : Nat} {key : String} {declaration : Declaration}
    (h : (key, declaration) ∈ (contribution harness file number).entries) :
    declaration ∈ Declaration.ofFile file number ∧ declaration.name = key := by
  have hlisted : (key, declaration) ∈
      (Table.ofList ((Declaration.ofFile file number).map
        fun declaration => (declaration.name, declaration))).entries := by
    unfold contribution at h
    split at h
    · exact Table.mem_erase h
    · exact h
  obtain ⟨found, hfound, heq⟩ := List.mem_map.mp (Table.mem_ofList hlisted)
  obtain ⟨rfl, rfl⟩ := Prod.mk.inj heq
  exact ⟨hfound, rfl⟩

private theorem mem_foldl_merge {harness : String}
    {numbered : List (SourceFile × Nat)}
    {table : Table String Declaration} {entry : String × Declaration}
    (h : entry ∈ (numbered.foldl (fun table (file, number) =>
      table.merge (contribution harness file number)) table).entries) :
    entry ∈ table.entries ∨
      ∃ file number, (file, number) ∈ numbered ∧
        entry ∈ (contribution harness file number).entries := by
  induction numbered generalizing table with
  | nil => exact Or.inl h
  | cons first rest ih =>
      rcases ih h with h | ⟨file, number, hmem, hentry⟩
      · rcases Table.mem_insertAll h with h | h
        · exact Or.inl h
        · exact Or.inr ⟨first.1, first.2, List.mem_cons_self, h⟩
      · exact Or.inr ⟨file, number, List.mem_cons_of_mem _ hmem, hentry⟩

theorem mem_build {files : List SourceFile} {harness : String} {key : String}
    {declaration : Declaration}
    (h : (key, declaration) ∈ (build files harness).table.entries) :
    declaration.name = key ∧ declaration.IsIn files := by
  rcases mem_foldl_merge h with h | ⟨file, number, hnumbered, hentry⟩
  · simp at h
  · obtain ⟨hdeclared, hname⟩ := mem_contribution hentry
    exact ⟨hname,
      Declaration.isIn_of_mem_ofFile (List.mem_zipIdx_iff_getElem?.mp hnumbered)
        hdeclared⟩

def Named (registry : Registry) : Prop :=
  ∀ key declaration, (key, declaration) ∈ registry.table.entries →
    declaration.name = key

theorem build_named (files : List SourceFile) (harness : String) :
    (build files harness).Named :=
  fun _ _ h => (mem_build h).1

def IsFrom (files : List SourceFile) (registry : Registry) : Prop :=
  ∀ declaration ∈ registry.declarations, declaration.IsIn files

theorem build_isFrom (files : List SourceFile) (harness : String) :
    (build files harness).IsFrom files := by
  intro declaration hdeclaration
  obtain ⟨key, hentry⟩ := Table.mem_values_iff.mp hdeclaration
  exact (mem_build hentry).2

theorem mem_declarations_of_get? {registry : Registry} {name : String}
    {declaration : Declaration} (h : registry.get? name = some declaration) :
    declaration ∈ registry.declarations :=
  Table.mem_values_of_get? h

theorem mem_declarations_of_lookup? {registry : Registry}
    {tolerance : Tolerance} {name : String} {declaration : Declaration}
    (h : registry.lookup? tolerance name = some declaration) :
    declaration ∈ registry.declarations :=
  Table.mem_values_of_lookup? h

theorem IsFrom.lookup? {files : List SourceFile} {registry : Registry}
    (h : registry.IsFrom files) {tolerance : Tolerance} {name : String}
    {declaration : Declaration}
    (hlookup : registry.lookup? tolerance name = some declaration) :
    declaration.IsIn files :=
  h declaration (mem_declarations_of_lookup? hlookup)

theorem Named.contains_of_mem {registry : Registry} (hnamed : registry.Named)
    {declaration : Declaration} (h : declaration ∈ registry.declarations) :
    registry.table.contains declaration.name = true := by
  obtain ⟨key, hentry⟩ := Table.mem_values_iff.mp h
  rw [hnamed key declaration hentry]
  exact Table.contains_iff.mpr (Table.mem_keys_iff.mpr ⟨declaration, hentry⟩)

theorem Named.eq_of_name_eq {registry : Registry} (hnamed : registry.Named)
    {first second : Declaration} (hfirst : first ∈ registry.declarations)
    (hsecond : second ∈ registry.declarations)
    (hname : first.name = second.name) :
    first = second := by
  obtain ⟨key, hfirst⟩ := Table.mem_values_iff.mp hfirst
  obtain ⟨other, hsecond⟩ := Table.mem_values_iff.mp hsecond
  obtain rfl : key = other := by
    rw [← hnamed key first hfirst, hname, hnamed other second hsecond]
  have hget := Table.get?_eq_some_iff.mpr hfirst
  rw [Table.get?_eq_some_iff.mpr hsecond] at hget
  exact (Option.some.inj hget).symm

theorem Named.get?_eq_some_iff {registry : Registry} (hnamed : registry.Named)
    {name : String} {declaration : Declaration} :
    registry.get? name = some declaration ↔
      declaration ∈ registry.declarations ∧ declaration.name = name := by
  refine Table.get?_eq_some_iff.trans ⟨fun h => ?_, ?_⟩
  · exact ⟨Table.mem_values_iff.mpr ⟨name, h⟩, hnamed name declaration h⟩
  · rintro ⟨hmem, rfl⟩
    obtain ⟨key, hentry⟩ := Table.mem_values_iff.mp hmem
    rwa [hnamed key declaration hentry]

theorem Named.exists_of_contains {registry : Registry} (hnamed : registry.Named)
    {name : String} (h : registry.table.contains name = true) :
    ∃ declaration ∈ registry.declarations, declaration.name = name := by
  obtain ⟨declaration, hget⟩ := Option.isSome_iff_exists.mp h
  exact ⟨declaration, hnamed.get?_eq_some_iff.mp hget⟩

end Registry

end FuzzReach
