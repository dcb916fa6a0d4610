import FuzzReach.Proofs.Extract.Containers
import FuzzReach.Proofs.Name
import FuzzReach.Proofs.Registry.Retained
import Mathlib.Data.List.Dedup

/-!
# Distinct names

Different containers can have the same scope, so names can repeat although no
container declares a name twice.  The names of a file are distinct exactly if no
two containers declare the same name, and then the registry of the file loses no
function.
-/

namespace FuzzReach

/-! ## The registry of one file -/

private theorem Registry.names_retained_singleton (file : SourceFile) :
    (retained [file] "").map Declaration.name =
      file.functions.map Function.name := by
  have hretained : retained [file] "" = Declaration.ofFile file 0 := by
    rw [retained, List.filter_eq_self.mpr]
    · simp [Declaration.ofFiles]
    · simp [isRetained, SourceFile.matchesHarness]
  have hnames : (Declaration.ofFile file 0).map Declaration.name =
      (file.functions.zipIdx.map Prod.fst).map Function.name := by
    rw [Declaration.ofFile, List.map_map, List.map_map]
    rfl
  rw [hretained, hnames, List.zipIdx_map_fst]

theorem Registry.size_build_singleton_iff (file : SourceFile) :
    (build [file] "").table.size = file.functions.length ↔
      (file.functions.map Function.name).Nodup := by
  have hkeys := keys_build [file] ""
  rw [names_retained_singleton] at hkeys
  have hperm : (build [file] "").table.keys.Perm
      (file.functions.map Function.name).dedup := by
    refine (List.perm_ext_iff_of_nodup (build [file] "").table.nodup
      (List.nodup_dedup _)).mpr ?_
    intro name
    rw [List.mem_dedup, ← List.mem_eraseDups (l := file.functions.map _),
      ← hkeys, Table.keys]
  have hsize : (build [file] "").table.size =
      (file.functions.map Function.name).dedup.length := by
    rw [← hperm.length_eq, Table.keys, List.length_map, Table.size]
  have hlength : file.functions.length =
      (file.functions.map Function.name).length := by simp
  rw [hsize, hlength]
  constructor
  · intro hlength
    exact List.dedup_eq_self.mp ((List.dedup_sublist _).eq_of_length hlength)
  · intro hnodup
    rw [List.dedup_eq_self.mpr hnodup]

namespace Extract

open Syntax

/-! ## When names repeat -/

/-- No two declarations of different containers share a name, and no macro has
the name of a function. -/
structure Unambiguous (source : Source) : Prop where
  functions : (containers source).Pairwise fun first second =>
    ∀ name ∈ first.qualifiedNames source, name ∉ second.qualifiedNames source
  macros : (containers source).Pairwise fun first second =>
    ∀ name ∈ first.macroNames source, name ∉ second.macroNames source
  mixed : ∀ first ∈ containers source, ∀ second ∈ containers source,
    ∀ name ∈ first.qualifiedNames source, name ∉ second.macroNames source

theorem nodup_flatMap_iff {names : Container → List String}
    {containers : List Container}
    (h : ∀ container ∈ containers, (names container).Nodup) :
    (containers.flatMap names).Nodup ↔ containers.Pairwise fun first second =>
      ∀ name ∈ names first, name ∉ names second := by
  rw [List.nodup_flatMap, and_iff_right h]
  rfl

theorem nodup_names_iff {source : Source} (path : String)
    (h : ∀ container ∈ containers source,
      (container.functionNames source ++ container.macroNames source).Nodup) :
    ((functions source path).map Function.name).Nodup ↔ Unambiguous source := by
  have hfunctions : ∀ container ∈ containers source,
      (container.qualifiedNames source).Nodup :=
    fun container hmem => (List.nodup_append.mp (h container hmem)).1.map
      (Name.qualify_injective container.scope)
  have hmacros : ∀ container ∈ containers source,
      (container.macroNames source).Nodup :=
    fun container hmem => (List.nodup_append.mp (h container hmem)).2.1
  have hperm : ((functions source path).map Function.name).Perm
      ((containers source).flatMap (Container.qualifiedNames source) ++
        (containers source).flatMap (Container.macroNames source)) :=
    (names_functions_perm source path).trans (List.flatMap_append_perm ..).symm
  rw [hperm.nodup_iff, List.nodup_append', nodup_flatMap_iff hfunctions,
    nodup_flatMap_iff hmacros]
  have hmixed : List.Disjoint
      ((containers source).flatMap (Container.qualifiedNames source))
      ((containers source).flatMap (Container.macroNames source)) ↔
        ∀ first ∈ containers source, ∀ second ∈ containers source,
          ∀ name ∈ first.qualifiedNames source,
            name ∉ second.macroNames source := by
    constructor
    · intro hdisjoint first hfirst second hsecond name hname hother
      exact hdisjoint (List.mem_flatMap.mpr ⟨first, hfirst, hname⟩)
        (List.mem_flatMap.mpr ⟨second, hsecond, hother⟩)
    · intro hmixed name hname hother
      obtain ⟨first, hfirst, hname⟩ := List.mem_flatMap.mp hname
      obtain ⟨second, hsecond, hother⟩ := List.mem_flatMap.mp hother
      exact hmixed first hfirst second hsecond name hname hother
  rw [hmixed]
  exact ⟨fun ⟨hfirst, hsecond, hthird⟩ => ⟨hfirst, hsecond, hthird⟩,
    fun ⟨hfirst, hsecond, hthird⟩ => ⟨hfirst, hsecond, hthird⟩⟩

def Container.Plain (source : Source) (container : Container) : Prop :=
  ∀ name ∈ container.functionNames source ++ container.macroNames source,
    ':' ∉ name.toList

section Plain

variable {source : Source} {first second : Container}

theorem Container.Plain.functionName (h : first.Plain source) {name : String}
    (hname : name ∈ first.functionNames source) : ':' ∉ name.toList :=
  h name (List.mem_append_left _ hname)

private theorem Container.Plain.macroName (h : first.Plain source)
    {name : String} (hname : name ∈ first.macroNames source) :
    ':' ∉ name.toList :=
  h name (List.mem_append_right _ hname)

theorem Container.Plain.functions_apart_iff (hfirst : first.Plain source)
    (hsecond : second.Plain source) :
    (∀ name ∈ first.qualifiedNames source,
      name ∉ second.qualifiedNames source) ↔
      (Name.SameScope first.scope second.scope →
        ∀ name ∈ first.functionNames source,
          name ∉ second.functionNames source) := by
  simp only [qualifiedNames, List.mem_map, forall_exists_index, and_imp,
    forall_apply_eq_imp_iff₂, not_exists, not_and]
  constructor
  · intro h hscope name hname hother
    refine h name hname name hother ?_
    exact (Name.qualify_eq_qualify_iff (hsecond.functionName hother)
      (hfirst.functionName hname)).mpr ⟨hscope.symm, rfl⟩
  · intro h name hname other hother heq
    obtain ⟨hscope, rfl⟩ :=
      (Name.qualify_eq_qualify_iff (hsecond.functionName hother)
        (hfirst.functionName hname)).mp heq
    exact h hscope.symm _ hname hother

theorem Container.Plain.mixed_apart_iff (hsecond : second.Plain source) :
    (∀ name ∈ first.qualifiedNames source, name ∉ second.macroNames source) ↔
      (first.scope = [] →
        ∀ name ∈ first.functionNames source,
          name ∉ second.macroNames source) := by
  simp only [qualifiedNames, List.mem_map, forall_exists_index, and_imp,
    forall_apply_eq_imp_iff₂]
  constructor
  · intro h hscope name hname
    simpa [hscope] using h name hname
  · intro h name hname hother
    obtain ⟨hscope, heq⟩ :=
      (Name.qualify_eq_self_iff (hsecond.macroName hother)).mp rfl
    exact h hscope name hname (heq ▸ hother)

end Plain

/-- If no container declares a name twice, then the names of a file are
distinct, and its registry loses no function, exactly if no two containers
clash.  Plain names clash only in scopes that are spelled alike. -/
theorem distinct_names_iff (source : Source) (path : String)
    (h : ∀ container ∈ containers source,
      (container.functionNames source ++ container.macroNames source).Nodup) :
    (((functions source path).map Function.name).Nodup ↔ Unambiguous source) ∧
    ((Registry.build [.ofSource path source] "").table.size =
      (functions source path).length ↔
      Unambiguous source) ∧
    ((∀ container ∈ containers source, container.Plain source) →
      (Unambiguous source ↔
        (containers source).Pairwise (fun first second =>
          Name.SameScope first.scope second.scope →
            ∀ name ∈ first.functionNames source,
              name ∉ second.functionNames source) ∧
        (containers source).Pairwise (fun first second =>
          ∀ name ∈ first.macroNames source, name ∉ second.macroNames source) ∧
        ∀ first ∈ containers source, ∀ second ∈ containers source,
          first.scope = [] →
          ∀ name ∈ first.functionNames source,
            name ∉ second.macroNames source)) := by
  have hnames := nodup_names_iff path h
  refine ⟨hnames,
    (Registry.size_build_singleton_iff (.ofSource path source)).trans hnames,
    fun hplain => ?_⟩
  have hapart := List.Pairwise.iff_of_mem fun {first second} hfirst hsecond =>
    (hplain first hfirst).functions_apart_iff (hplain second hsecond)
  constructor
  · intro hclear
    exact ⟨hapart.mp hclear.functions, hclear.macros,
      fun first hfirst second hsecond =>
      (hplain second hsecond).mixed_apart_iff.mp
        (hclear.mixed first hfirst second hsecond)⟩
  · rintro ⟨hfunctions, hmacros, hmixed⟩
    exact ⟨hapart.mpr hfunctions, hmacros, fun first hfirst second hsecond =>
      (hplain second hsecond).mixed_apart_iff.mpr
        (hmixed first hfirst second hsecond)⟩

theorem distinct_names_nestedScopes :
    (∀ container ∈ containers nestedScopes,
      (container.functionNames nestedScopes ++
        container.macroNames nestedScopes).Nodup) ∧
    (containers nestedScopes).map Container.scope =
      [[], ["m"], ["m", "A"], ["m::A::f"], ["m::A::f::g"]] ∧
    ((functions nestedScopes "m.rs").map Function.name).Nodup ∧
    (Registry.build [.ofSource "m.rs" nestedScopes] "").table.size =
      (functions nestedScopes "m.rs").length := by
  have hdistinct : ∀ container ∈ containers nestedScopes,
      (container.functionNames nestedScopes ++
        container.macroNames nestedScopes).Nodup := by
    decide +kernel
  have hclear : Unambiguous nestedScopes :=
    ⟨by decide +kernel, by decide +kernel, by decide +kernel⟩
  obtain ⟨hnames, hsize, -⟩ := distinct_names_iff nestedScopes "m.rs" hdistinct
  exact ⟨hdistinct, by decide +kernel, hnames.mpr hclear, hsize.mpr hclear⟩

def twoTraits : Source where
  bytes :=
    "impl P for A \x7b fn f() \x7b\x7d \x7d impl Q for A \x7b fn f() \x7b\x7d \x7d".toUTF8.data
  root :=
    ⟨"source_file", none, true, ⟨0, 53, 0, 0⟩,
      [⟨"impl_item", none, true, ⟨0, 26, 0, 0⟩,
        [⟨"type_identifier", some "trait", true, ⟨5, 6, 0, 0⟩, []⟩,
         ⟨"type_identifier", some "type", true, ⟨11, 12, 0, 0⟩, []⟩,
         ⟨"declaration_list", some "body", true, ⟨13, 26, 0, 0⟩,
          [⟨"function_item", none, true, ⟨15, 24, 0, 0⟩,
            [⟨"identifier", some "name", true, ⟨18, 19, 0, 0⟩, []⟩,
             ⟨"block", some "body", true, ⟨22, 24, 0, 0⟩, []⟩]⟩]⟩]⟩,
       ⟨"impl_item", none, true, ⟨27, 53, 0, 0⟩,
        [⟨"type_identifier", some "trait", true, ⟨32, 33, 0, 0⟩, []⟩,
         ⟨"type_identifier", some "type", true, ⟨38, 39, 0, 0⟩, []⟩,
         ⟨"declaration_list", some "body", true, ⟨40, 53, 0, 0⟩,
          [⟨"function_item", none, true, ⟨42, 51, 0, 0⟩,
            [⟨"identifier", some "name", true, ⟨45, 46, 0, 0⟩, []⟩,
             ⟨"block", some "body", true, ⟨49, 51, 0, 0⟩, []⟩]⟩]⟩]⟩]⟩
  fragments := []

/-- No container declares a name twice, and yet a name repeats and its first
function is lost. -/
theorem names_repeat_twoTraits :
    (∀ container ∈ containers twoTraits,
      (container.functionNames twoTraits ++
        container.macroNames twoTraits).Nodup ∧
        (container.scopeNames twoTraits).Nodup) ∧
    (functions twoTraits "lib.rs").map Function.name = ["A::f", "A::f"] ∧
    ¬((functions twoTraits "lib.rs").map Function.name).Nodup ∧
    (Registry.build [.ofSource "lib.rs" twoTraits] "").table.size ≠
      (functions twoTraits "lib.rs").length := by
  have hnames :
      (functions twoTraits "lib.rs").map Function.name = ["A::f", "A::f"] := by
    decide +kernel
  have hrepeat : ¬((functions twoTraits "lib.rs").map Function.name).Nodup := by
    simp [hnames]
  have hsize := Registry.size_build_singleton_iff (.ofSource "lib.rs" twoTraits)
  exact ⟨by decide +kernel, hnames, hrepeat, fun heq => hrepeat (hsize.mp heq)⟩

end Extract

end FuzzReach
