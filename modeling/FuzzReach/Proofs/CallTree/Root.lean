import FuzzReach.Proofs.CallTree.Shape
import FuzzReach.Proofs.Lookup

/-!
# The file on the root line

The function at the root of a call tree is looked up in the registry, the file
on its line is searched for among the files.  The search takes the first file
that has any function with a fitting name.  So the line names the file of its
function only if no earlier file has such a function, while the calls below it
are always listed with the file of the function.
-/

namespace FuzzReach

/-- The file has a function whose name ends with the last segment of the given
one. -/
def SourceFile.Fits (name : String) (file : SourceFile) : Prop :=
  ∃ function ∈ file.functions,
    (Name.segments name.toList).getLast (Name.segments_ne_nil _) <:+
      function.name.toList

theorem SourceFile.isSome_lookup?_iff {file : SourceFile} {name : String} :
    (file.functionTable.lookup? .allSegments name).isSome = true ↔
      file.Fits name := by
  rw [Table.isSome_lookup?_iff (Lookup.getLast?_candidates_allSegments name)]
  simp [Lookup.EndsKey, functionTable, Table.keys_ofList, Fits]

namespace Registry

variable {files : List SourceFile} {harness name : String}
  {declaration : Declaration}

private theorem fits_of_lookup?
    (h : (build files harness).lookup? .allSegments name = some declaration) :
    declaration.file.Fits name := by
  obtain ⟨key, hentry, hends⟩ :=
    Table.exists_key_of_lookup? (Lookup.getLast?_candidates_allSegments name) h
  obtain ⟨rfl, hin⟩ := mem_build hentry
  exact ⟨declaration.function, List.mem_of_getElem? hin.2, hends⟩

def IsFirstFit (files : List SourceFile) (name : String) (number : Nat)
    (file : SourceFile) : Prop :=
  files[number]? = some file ∧ file.Fits name ∧
    ∀ earlier other, earlier < number → files[earlier]? = some other →
      ¬other.Fits name

theorem fileWith?_eq_some_iff {file : SourceFile} :
    (build files harness).fileWith? name = some file ↔
      ∃ number, IsFirstFit files name number file := by
  rw [fileWith?, List.find?_eq_some_iff_getElem, SourceFile.isSome_lookup?_iff]
  simp only [build, Bool.not_eq_true', ← Bool.not_eq_true,
    SourceFile.isSome_lookup?_iff]
  constructor
  · rintro ⟨hfits, number, hnumber, rfl, hearlier⟩
    refine ⟨number, List.getElem?_eq_getElem hnumber, hfits,
      fun earlier other hless hother => ?_⟩
    obtain ⟨_, rfl⟩ := List.getElem?_eq_some_iff.mp hother
    exact hearlier earlier hless
  · rintro ⟨number, hfile, hfits, hearlier⟩
    obtain ⟨hnumber, rfl⟩ := List.getElem?_eq_some_iff.mp hfile
    exact ⟨hfits, number, hnumber, rfl, fun earlier hless =>
      hearlier earlier _ hless
        (List.getElem?_eq_getElem (Nat.lt_trans hless hnumber))⟩

private theorem exists_fileWith? (harness : String) {number : Nat}
    {file : SourceFile} (hfile : files[number]? = some file)
    (hfits : file.Fits name) :
    ∃ first found, (build files harness).fileWith? name = some found ∧
      IsFirstFit files name first found ∧ first ≤ number := by
  have hsome : ((build files harness).fileWith? name).isSome = true :=
    List.find?_isSome.mpr
      ⟨file, List.mem_of_getElem? hfile,
        SourceFile.isSome_lookup?_iff.mpr hfits⟩
  obtain ⟨found, hfound⟩ := Option.isSome_iff_exists.mp hsome
  obtain ⟨first, hfirst⟩ := fileWith?_eq_some_iff.mp hfound
  refine ⟨first, found, hfound, hfirst, Nat.le_of_not_lt fun hless => ?_⟩
  exact hfirst.2.2 number file hless hfile hfits

end Registry

namespace CallGraph

private theorem exists_callTree_cons {graph : CallGraph} {name : String}
    {declaration : Declaration}
    (h : graph.registry.lookup? .allSegments name = some declaration) :
    ∃ root below, graph.callTree none (some name) = ⟨root, true⟩ :: below ∧
      root.declaration = some declaration ∧
      root.caller = graph.rootLabel none name ∧
      ∀ line ∈ linesUnder root below, line.caller = declaration.file.path := by
  let root : TreeLine := ⟨name, graph.registry.lookup? .allSegments name,
    graph.rootLabel none name, 0, none⟩
  have hkey : root.key? = some declaration.name := by
    simp [TreeLine.key?, root, h]
  obtain ⟨expanded, below, hcons, -⟩ := exists_treeFrom_cons graph root
  have hfirst : graph.treeFrom root = [] ++ ⟨root, expanded⟩ :: below := hcons
  obtain rfl : expanded = true :=
    (Graph.expanded_iff hfirst).mpr
      ⟨declaration.name, by simp [hkey], hkey, by simp⟩
  refine ⟨root, below, hcons, h, rfl, fun line hline => ?_⟩
  rw [linesUnder_treeFrom hfirst] at hline
  obtain ⟨found, hfound, site, -, rfl⟩ := mem_linesBelow_iff.mp hline
  rw [Option.some.inj (h.symm.trans hfound)]

/-- The root of the tree of a function is listed with the first file that fits
its name, and the calls of the function are listed with the file that declares
it.  The two are the same if no file before the declaring one fits, and only
then if no two files share a path. -/
theorem root_names_first_fit (files : List SourceFile) (harness : String)
    (known : Table Place Call.Resolution) (name : String)
    (declaration : Declaration)
    (hlookup : (Registry.build files harness).lookup? .allSegments name =
      some declaration) :
    let graph : CallGraph := ⟨.build files harness, known⟩
    let declaredFirst := ∀ earlier other, earlier < declaration.place.file →
      files[earlier]? = some other → ¬other.Fits name
    ∃ root below number file,
      graph.callTree none (some name) = ⟨root, true⟩ :: below ∧
        root.declaration = some declaration ∧
        (∀ line ∈ linesUnder root below, line.caller = declaration.file.path) ∧
        Registry.IsFirstFit files name number file ∧
          number ≤ declaration.place.file ∧
        root.caller = file.path ∧
        (declaredFirst → root.caller = declaration.file.path) ∧
        ((files.map SourceFile.path).Nodup →
          root.caller = declaration.file.path →
          declaredFirst) := by
  intro graph declaredFirst
  have hin := (Registry.build_isFrom files harness).lookup? hlookup
  have hmeans : graph.registry.lookup? .allSegments name = some declaration :=
    hlookup
  obtain ⟨root, below, htree, hroot, hlabel, hbelow⟩ :=
    exists_callTree_cons hmeans
  obtain ⟨number, file, hfound, hfirst, hle⟩ :=
    Registry.exists_fileWith? harness hin.1 (Registry.fits_of_lookup? hlookup)
  have hcaller : root.caller = file.path := by
    simp [hlabel, rootLabel, graph, hfound]
  refine ⟨root, below, number, file, htree, hroot, hbelow, hfirst, hle,
    hcaller, ?_, ?_⟩
  · intro halone
    have hplace : number = declaration.place.file := Nat.le_antisymm hle <|
      Nat.le_of_not_lt fun hless => halone number file hless hfirst.1 hfirst.2.1
    have hfile : files[declaration.place.file]? = some file := hplace ▸ hfirst.1
    rw [hcaller, Option.some.inj (hfile.symm.trans hin.1)]
  · intro hnodup hsame
    have hpaths : (files.map SourceFile.path)[number]? =
        (files.map SourceFile.path)[declaration.place.file]? := by
      rw [List.getElem?_map, List.getElem?_map, hfirst.1, hin.1,
        Option.map_some, Option.map_some, ← hcaller, hsame]
    have hnumber : number < (files.map SourceFile.path).length := by
      rw [List.length_map]
      exact (List.getElem?_eq_some_iff.mp hfirst.1).1
    have hplace := (List.getElem?_inj hnumber hnodup).mp hpaths
    exact fun earlier other hless => hfirst.2.2 earlier other (hplace ▸ hless)

def likeNamed : List SourceFile :=
  [⟨"src/a.rs", #[], .empty, [{ name := "reparse", path := "src/a.rs" }]⟩,
    ⟨"src/b.rs", #[], .empty,
      [{ name := "parse",
         path := "src/b.rs", events := [.call (.path "step") 17 1] },
        { name := "step", path := "src/b.rs" }]⟩]

theorem root_names_first_fit_likeNamed :
    ∃ declaration root below,
      (Registry.build likeNamed "").lookup? .allSegments "step" =
        some declaration ∧
        callTree ⟨.build likeNamed "", .empty⟩ none (some "step") =
          ⟨root, true⟩ :: below ∧
        root.caller = "src/b.rs" := by
  have hlookup : (Registry.build likeNamed "").lookup? .allSegments "step" =
      some ⟨⟨1, 1⟩, likeNamed[1], { name := "step", path := "src/b.rs" }⟩ := by
        cbv
  obtain ⟨root, below, number, file, htree, -, -, -, -, -, hlabel, -⟩ :=
    root_names_first_fit likeNamed "" .empty "step" _ hlookup
  refine ⟨_, root, below, hlookup, htree, hlabel ?_⟩
  intro earlier other hless hother
  obtain rfl : earlier = 0 := Nat.lt_one_iff.mp hless
  cases hother
  unfold SourceFile.Fits
  decide +kernel

/-- The tree of `parse` starts with the file of `reparse`, which has no function
of that name. -/
theorem callTree_likeNamed :
    ((Registry.build likeNamed "").lookup? .allSegments "parse").map
        (fun declaration => (declaration.name, declaration.file.path)) =
      some ("parse", "src/b.rs") ∧
      TreeLine.renderAll
        (callTree ⟨.build likeNamed "", .empty⟩ none (some "parse")) =
        "parse src/a.rs -1\n  step src/b.rs 1\n" := by
  have hlines : (callTree ⟨.build likeNamed "", .empty⟩ none (some "parse")).map
      Graph.Visit.item =
      [⟨"parse", (Registry.build likeNamed "").lookup? .allSegments "parse",
        "src/a.rs", 0, none⟩,
        ⟨"step", (Registry.build likeNamed "").lookup? .allSegments "step",
          "src/b.rs", 1,
          some 1⟩] := by cbv
  constructor
  · cbv
  · have hrender : ∀ visits, TreeLine.renderAll visits =
        String.join ((visits.map Graph.Visit.item).map TreeLine.render) := by
      intro visits
      rw [TreeLine.renderAll, List.map_map]
      rfl
    rw [hrender, hlines]
    decide +kernel

end CallGraph

end FuzzReach
