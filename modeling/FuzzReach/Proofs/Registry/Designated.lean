import FuzzReach.Files.Path
import FuzzReach.Proofs.Registry.Retained
import Mathlib.Order.Bounds.Basic

/-!
# The entry point that is kept

A harness is chosen by looking for its file name anywhere in a path.  All entry
points share one name, so of the files whose path fits the last one with an
entry point gives the entry point of the registry, whether or not it is the file
that is named after the harness.
-/

namespace FuzzReach

open Syntax

/-! ## File names -/

private theorem Text.split_eq_cons (mark : Char) (text : List Char) :
    ∃ first rest, split mark text = first :: rest ∧ first <+: text ∧
      ∀ piece ∈ first :: rest, piece <:+: text := by
  induction text with
  | nil => exact ⟨[], [], rfl, List.nil_prefix, by simp⟩
  | cons character text ih =>
      obtain ⟨first, rest, hsplit, hfirst, hpieces⟩ := ih
      have hlater : ∀ piece ∈ first :: rest, piece <:+: character :: text :=
        fun piece hpiece =>
          (hpieces piece hpiece).trans (List.suffix_cons _ _).isInfix
      rw [split, hsplit]
      split
      · refine ⟨[], first :: rest, rfl, List.nil_prefix, ?_⟩
        exact List.forall_mem_cons.mpr ⟨List.nil_infix, hlater⟩
      · have hopens : character :: first <+: character :: text :=
          List.cons_prefix_cons.mpr ⟨rfl, hfirst⟩
        refine ⟨character :: first, rest, rfl, hopens, ?_⟩
        exact List.forall_mem_cons.mpr
          ⟨hopens.isInfix, (List.forall_mem_cons.mp hlater).2⟩

namespace Files.Path

def fileName? (path : String) : Option String :=
  ((parts path).filter fun part => part ≠ "" ∧ part ≠ ".").getLast?

private theorem infix_of_fileName? {path name : String}
    (h : fileName? path = some name) :
    name.toList <:+: path.toList := by
  have hpart : name ∈ parts path :=
    (List.mem_filter.mp (List.mem_of_getLast? h)).1
  obtain ⟨piece, hpiece, rfl⟩ := List.mem_map.mp hpart
  obtain ⟨first, rest, hsplit, -, hpieces⟩ := Text.split_eq_cons '/' path.toList
  rw [String.toList_ofList]
  exact hpieces piece (hsplit ▸ hpiece)

end Files.Path

private theorem Extract.IsDeclared.isEntry_of_name {source : Source}
    {path : String} {function : Function} (h : IsDeclared source path function)
    (hisMacro : function.isMacro = true) (hname : function.name = Name.entry) :
    function.isEntry = true := by
  cases h with
  | item h =>
      obtain ⟨name, -, h⟩ := Option.bind_eq_some_iff.mp h
      cases h
      simp [describe] at hisMacro
  | entry h =>
      unfold entryOf? at h
      split at h
      · cases h
        simp
      · cases h
  | definition h =>
      obtain ⟨nameNode, -, h⟩ := Option.bind_eq_some_iff.mp h
      obtain ⟨name, -, h⟩ := Option.bind_eq_some_iff.mp h
      cases h
      simpa [describe] using hname

def SourceFile.ofSources (sources : List (String × Source)) : List SourceFile :=
  sources.map fun (path, source) => .ofSource path source

namespace Registry

/-- The file has an entry point, and the file name of the harness is somewhere
in its path. -/
def Selected (harness : String) (file : SourceFile) : Prop :=
  file.hasHarness = true ∧ (harness ++ ".rs").toList <:+: file.path.toList

/-- The file has an entry point and is named after the harness. -/
def Designated (harness : String) (file : SourceFile) : Prop :=
  file.hasHarness = true ∧
    Files.Path.fileName? file.path = some (harness ++ ".rs")

private theorem Designated.selected {harness : String} {file : SourceFile}
    (h : Designated harness file) :
    Selected harness file :=
  ⟨h.1, Files.Path.infix_of_fileName? h.2⟩

/-! ## Order of the files -/

private theorem file_place_of_mem_ofFile {file : SourceFile} {number : Nat}
    {declaration : Declaration}
    (h : declaration ∈ Declaration.ofFile file number) :
    declaration.place.file = number := by
  obtain ⟨⟨function, index⟩, -, rfl⟩ := List.mem_map.mp h
  rfl

private theorem pairwise_ofFiles (files : List SourceFile) :
    (Declaration.ofFiles files).Pairwise fun first second =>
      first.place.file ≤ second.place.file := by
  rw [Declaration.ofFiles, List.pairwise_flatMap]
  constructor
  · rintro ⟨file, number⟩ -
    refine List.pairwise_of_forall_mem_list
      fun first hfirst second hsecond => ?_
    rw [file_place_of_mem_ofFile hfirst, file_place_of_mem_ofFile hsecond]
  · have hnumbers : (files.zipIdx.map Prod.snd).Pairwise (· < ·) := by
      rw [List.zipIdx_map_snd]
      exact List.pairwise_lt_range'
    refine (List.pairwise_map.mp hnumbers).imp ?_
    intro numbered other hlt first hfirst second hsecond
    rw [file_place_of_mem_ofFile hfirst, file_place_of_mem_ofFile hsecond]
    omega

theorem mem_ofFiles_iff {files : List SourceFile} {declaration : Declaration} :
    declaration ∈ Declaration.ofFiles files ↔ declaration.IsIn files := by
  rw [Declaration.ofFiles, List.mem_flatMap]
  constructor
  · rintro ⟨⟨file, number⟩, hfile, h⟩
    exact Declaration.isIn_of_mem_ofFile
      (List.mem_zipIdx_iff_getElem?.mp hfile) h
  · intro h
    refine ⟨(declaration.file, declaration.place.file),
      List.mem_zipIdx_iff_getElem?.mpr h.1, ?_⟩
    exact List.mem_map.mpr ⟨(declaration.function, declaration.place.index),
      List.mem_zipIdx_iff_getElem?.mpr h.2, rfl⟩

/-! ## Extracted files -/

def OnlyMacrosEnter (files : List SourceFile) : Prop :=
  ∀ file ∈ files, ∀ function ∈ file.functions, function.name = Name.entry →
    function.isMacro = true

section Extracted

variable {sources : List (String × Source)} {harness : String}

private theorem isEntry_of_name
    (hmacros : OnlyMacrosEnter (SourceFile.ofSources sources))
    {declaration : Declaration}
    (h : declaration.IsIn (SourceFile.ofSources sources))
    (hname : declaration.name = Name.entry) :
    declaration.function.isEntry = true := by
  have hfile := List.mem_of_getElem? h.1
  have hfunction := List.mem_of_getElem? h.2
  have hisMacro := hmacros _ hfile _ hfunction hname
  obtain ⟨⟨path, source⟩, -, heq⟩ := List.mem_map.mp hfile
  rw [← heq] at hfunction
  exact (Extract.isDeclared_of_mem_functions hfunction).isEntry_of_name
    hisMacro hname

private theorem entry?_eq_get?
    (hmacros : OnlyMacrosEnter (SourceFile.ofSources sources)) :
    entry? (build (SourceFile.ofSources sources) harness) =
      (build (SourceFile.ofSources sources) harness).get? Name.entry := by
  have hnamed := build_named (SourceFile.ofSources sources) harness
  have hfrom := build_isFrom (SourceFile.ofSources sources) harness
  have hentries : ∀ declaration ∈
      (build (SourceFile.ofSources sources) harness).declarations,
      declaration.function.isEntry = true ↔ declaration.name = Name.entry :=
    fun declaration h =>
      ⟨name_of_isEntry (hfrom declaration h),
        isEntry_of_name hmacros (hfrom declaration h)⟩
  generalize build (SourceFile.ofSources sources) harness =
    registry at hnamed hentries
  cases hget : registry.get? Name.entry with
  | none =>
      refine List.find?_eq_none.mpr fun declaration h hisEntry => ?_
      have hcontains := hnamed.contains_of_mem h
      rw [(hentries declaration h).mp hisEntry] at hcontains
      rw [Table.get?_eq_none_iff.mp hget] at hcontains
      cases hcontains
  | some declaration =>
      have hmem := mem_declarations_of_get? hget
      have hname := hnamed _ _ (Table.get?_eq_some_iff.mp hget)
      cases hfind : registry.entry? with
      | none =>
          have hnot := List.find?_eq_none.mp hfind declaration hmem
          exact absurd ((hentries declaration hmem).mpr hname) hnot
      | some found =>
          have hfound := List.mem_of_find?_eq_some hfind
          have hsame :=
            (hentries found hfound).mp (by simpa using List.find?_some hfind)
          rw [hnamed.eq_of_name_eq hfound hmem (hsame.trans hname.symm)]

private theorem exists_retained_of_selected {number : Nat} {file : SourceFile}
    (hfile : (SourceFile.ofSources sources)[number]? = some file)
    (hselected : Selected harness file) :
    ∃ declaration ∈ retained (SourceFile.ofSources sources) harness,
      declaration.name = Name.entry ∧ declaration.place.file = number := by
  obtain ⟨function, hfunction, hentry⟩ := List.any_eq_true.mp hselected.1
  obtain ⟨index, hindex⟩ := List.getElem?_of_mem hfunction
  have hin : Declaration.IsIn (SourceFile.ofSources sources)
      ⟨⟨number, index⟩, file, function⟩ :=
    ⟨hfile, hindex⟩
  refine ⟨_, List.mem_filter.mpr ⟨mem_ofFiles_iff.mpr hin, ?_⟩,
    name_of_isEntry hin hentry, rfl⟩
  have hmatch : SourceFile.matchesHarness file.path harness = true := by
    rw [SourceFile.matchesHarness, Text.contains_iff.mpr hselected.2,
      Bool.or_true]
  simp [isRetained, hmatch]

private theorem selected_of_isEntry (hharness : harness ≠ "")
    {declaration : Declaration} (h : declaration ∈
      (build (SourceFile.ofSources sources) harness).declarations)
        (hentry : declaration.function.isEntry = true) :
          Selected harness declaration.file := by
  have hin := build_isFrom (SourceFile.ofSources sources) harness declaration h
  refine ⟨List.any_eq_true.mpr ⟨_, List.mem_of_getElem? hin.2, hentry⟩, ?_⟩
  have hmatch := matchesHarness_of_isEntry h (name_of_isEntry hin hentry) hentry
  simp only [SourceFile.matchesHarness, hharness, decide_false,
    Bool.false_or] at hmatch
  exact Text.contains_iff.mp hmatch

/-- The last of the declarations with a name comes from the last file that has
any. -/
theorem file_le_of_find?_reverse {files : List SourceFile}
    {declaration : Declaration} (h : (retained files harness).reverse.find?
      (fun other => other.name = Name.entry) =
      some declaration)
    {other : Declaration} (hother : other ∈ retained files harness)
    (hname : other.name = Name.entry) :
    other.place.file ≤ declaration.place.file := by
  obtain ⟨-, later, earlier, hreverse, hlater⟩ :=
    List.find?_eq_some_iff_append.mp h
  have hordered : (retained files harness).reverse.Pairwise fun first second =>
      second.place.file ≤ first.place.file :=
    List.pairwise_reverse.mpr ((pairwise_ofFiles files).filter _)
  rw [hreverse, List.pairwise_append, List.pairwise_cons] at hordered
  have hmem : other ∈ later ++ declaration :: earlier :=
    hreverse ▸ List.mem_reverse.mpr hother
  rcases List.mem_append.mp hmem with hmem | hmem
  · simpa [hname] using hlater other hmem
  · rcases List.mem_cons.mp hmem with rfl | hmem
    · exact Nat.le_refl _
    · exact hordered.2.1.1 other hmem

end Extracted

/-- If a file with an entry point is named after the harness, the registry has
an entry point, and that is declared in the last file with an entry point whose
path holds the file name of the harness.  It is the file named after the harness
exactly if none of the later files is such. -/
theorem entry?_isFrom_last_selected (sources : List (String × Source))
    (harness : String) (hharness : harness ≠ "")
    (hmacros : OnlyMacrosEnter (SourceFile.ofSources sources)) (number : Nat)
    (file : SourceFile)
    (hfile : (SourceFile.ofSources sources)[number]? = some file)
    (hdesignated : Designated harness file) :
    ∃ declaration,
      entry? (build (SourceFile.ofSources sources) harness) = some declaration ∧
      declaration.function.isEntry = true ∧
      declaration.IsIn (SourceFile.ofSources sources) ∧
      IsGreatest {other | ∃ file,
        (SourceFile.ofSources sources)[other]? = some file ∧
        Selected harness file} declaration.place.file ∧
      (declaration.place.file = number ↔ ∀ later other, number < later →
        (SourceFile.ofSources sources)[later]? = some other →
        ¬Selected harness other) := by
  obtain ⟨kept, hkept, hkeptName, -⟩ :=
    exists_retained_of_selected hfile hdesignated.selected
  have hsome :
      ((retained (SourceFile.ofSources sources) harness).reverse.find?
        fun other =>
      other.name = Name.entry).isSome = true :=
    List.find?_isSome.mpr
      ⟨kept, List.mem_reverse.mpr hkept, decide_eq_true hkeptName⟩
  obtain ⟨declaration, hfind⟩ := Option.isSome_iff_exists.mp hsome
  have hentry : entry? (build (SourceFile.ofSources sources) harness) =
      some declaration := by
    rw [entry?_eq_get? hmacros, get?_build, hfind]
  have hmem := List.mem_of_find?_eq_some hentry
  have hin := build_isFrom
    (SourceFile.ofSources sources) harness declaration hmem
  have hisEntry : declaration.function.isEntry = true := by
    simpa using List.find?_some hentry
  have hselected := selected_of_isEntry hharness hmem hisEntry
  have hlast : ∀ other file,
      (SourceFile.ofSources sources)[other]? = some file →
      Selected harness file → other ≤ declaration.place.file := by
    intro other file hother hselected
    obtain ⟨rival, hrival, hname, rfl⟩ :=
      exists_retained_of_selected hother hselected
    exact file_le_of_find?_reverse hfind hrival hname
  refine ⟨declaration, hentry, hisEntry, hin,
    ⟨⟨_, hin.1, hselected⟩, ?_⟩, ?_, ?_⟩
  · rintro other ⟨file, hother, hselected⟩
    exact hlast other file hother hselected
  · rintro rfl later other hlater hother hselected
    have := hlast later other hother hselected
    omega
  · intro hnone
    have hle := hlast number file hfile hdesignated.selected
    rcases Nat.eq_or_lt_of_le hle with heq | hlt
    · exact heq.symm
    · exact absurd hselected (hnone _ _ hlt hin.1)

/-! ## A harness whose name ends like that of another -/

/-- The source `fuzz_target!();`. -/
def bareEntry : Source where
  bytes := "fuzz_target!();".toUTF8.data
  root :=
    ⟨"source_file", none, true, ⟨0, 15, 0, 0⟩,
      [⟨"expression_statement", none, true, ⟨0, 15, 0, 0⟩,
        [⟨"macro_invocation", none, true, ⟨0, 14, 0, 0⟩,
          [⟨"identifier", some "macro", true, ⟨0, 11, 0, 0⟩, []⟩,
            ⟨"!", none, false, ⟨11, 12, 0, 0⟩, []⟩,
            ⟨"token_tree", none, true, ⟨12, 14, 0, 0⟩,
              [⟨"(", none, false, ⟨12, 13, 0, 0⟩, []⟩,
                ⟨")", none, false, ⟨13, 14, 0, 0⟩, []⟩]⟩]⟩,
          ⟨";", none, false, ⟨14, 15, 0, 0⟩, []⟩]⟩]⟩
  fragments :=
    [⟨12, 14, ⟨"source_file", none, true, ⟨0, 3, 0, 0⟩,
      [⟨"expression_statement", none, true, ⟨0, 3, 0, 0⟩,
        [⟨"unit_expression", none, true, ⟨0, 2, 0, 0⟩,
          [⟨"(", none, false, ⟨0, 1, 0, 0⟩, []⟩,
            ⟨")", none, false, ⟨1, 2, 0, 0⟩, []⟩]⟩,
          ⟨";", none, false, ⟨2, 3, 0, 0⟩, []⟩]⟩]⟩⟩]

def rivalHarnesses : List (String × Source) :=
  [("fuzz/parse.rs", bareEntry), ("fuzz/sparse.rs", bareEntry)]

theorem entry?_rivalHarnesses_reverse :
    ∃ declaration,
      entry? (build (SourceFile.ofSources rivalHarnesses.reverse) "parse") =
        some declaration ∧
        declaration.place.file = 1 ∧
        declaration.file.path = "fuzz/parse.rs" := by
  have hmacros :
      OnlyMacrosEnter (SourceFile.ofSources rivalHarnesses.reverse) := by
    unfold OnlyMacrosEnter
    decide +kernel
  have hdesignated :
      Designated "parse" (.ofSource "fuzz/parse.rs" bareEntry) := by
    unfold Designated
    decide +kernel
  obtain ⟨declaration, hentry, -, hin, -, hiff⟩ :=
    entry?_isFrom_last_selected rivalHarnesses.reverse "parse"
      (by decide) hmacros 1
      (.ofSource "fuzz/parse.rs" bareEntry) rfl hdesignated
  have hplace : declaration.place.file = 1 := by
    refine hiff.mpr fun later other hlater hother => ?_
    have := (List.getElem?_eq_some_iff.mp hother).1
    simp [SourceFile.ofSources, rivalHarnesses] at this
    omega
  refine ⟨declaration, hentry, hplace, ?_⟩
  have hfile := hin.1
  rw [hplace] at hfile
  exact congrArg SourceFile.path (Option.some.inj hfile).symm

/-- Only the first file is named after the harness, and the entry point is that
of the second. -/
theorem entry?_rivalHarnesses :
    let chosen := entry? (build (SourceFile.ofSources rivalHarnesses) "parse")
    OnlyMacrosEnter (SourceFile.ofSources rivalHarnesses) ∧
      (∀ number file,
        (SourceFile.ofSources rivalHarnesses)[number]? = some file →
        (Designated "parse" file ↔ number = 0)) ∧
      chosen.map (fun declaration => declaration.place.file) = some 1 := by
  refine ⟨by unfold OnlyMacrosEnter; decide +kernel, ?_, by decide +kernel⟩
  intro number file hfile
  match number with
  | 0 | 1 =>
      cases hfile
      unfold Designated
      decide +kernel
  | number + 2 => cases hfile

end Registry

end FuzzReach
