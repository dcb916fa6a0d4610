import FuzzReach.Proofs.Alias.Compact
import FuzzReach.Proofs.Alias.Cuts
import FuzzReach.Proofs.Table
import Mathlib.Data.List.Basic

/-!
# Expansion follows the tree

On a use tree whose groups all have a path in front, the cuts in the text are
the branches of the tree, and the aliases are the bindings of its leaves from
left to right.
-/

namespace FuzzReach.Alias

open Text

/-! ## One node -/

theorem text_eq_self_iff (tree : UseTree) :
    tree.text = "self".toList ↔ tree.isSelf = true := by
  have hself : ∀ character ∈ "self".toList, isLetter character = true :=
    List.all_eq_true.mp rfl
  cases tree with
  | leaf front last rename =>
      rw [text_leaf]
      cases front with
      | cons segment front =>
          refine iff_of_false (fun heq => ?_) (by simp [UseTree.isSelf])
          exact absurd (hself ':' (heq ▸ by simp)) (by decide)
      | nil =>
          cases rename with
          | none => simp [UseTree.isSelf]
          | name | underscore =>
              refine iff_of_false (fun heq => ?_) (by simp [UseTree.isSelf])
              exact absurd (hself '@' (heq ▸ by simp)) (by decide)
  | glob front =>
      refine iff_of_false (fun heq => ?_) (by simp [UseTree.isSelf])
      exact absurd (hself '*' (heq ▸ by simp [text_glob])) (by decide)
  | group front items comma =>
      refine iff_of_false (fun heq => ?_) (by simp [UseTree.isSelf])
      exact absurd (hself '\x7b' (heq ▸ by simp [text_group])) (by decide)

private theorem Segment.binds (segment : Segment) :
    ¬ (segment.letters = [] ∨ segment.letters = ['_'] ∨
      segment.letters = ['*']) := by
  rintro (h | h | h)
  · exact segment.ne_nil h
  · exact segment.notReserved (h ▸ by decide)
  · have hstar : '*' ∉ segment.letters := segment.notMem rfl
    exact hstar (h ▸ by decide)

theorem expand_leafTree (path : List Char) (front : List Segment)
    (last : Segment) (rename : Rename) :
    expand path (UseTree.leaf front last rename).text =
      (rename.bound? last).toList.map fun bound =>
        (bound.letters, path ++ (lead front ++ last.letters)) := by
  have hshape : shape (dropCrate (UseTree.leaf front last rename).text) =
      .leaf (lead front ++ last.letters) rename.target? := by
    rw [dropCrate_text, text_leaf]
    exact shape_leaf (brace_notMem_path front last)
      (mark_notMem_path front last) rename
  rw [expand_leaf hshape]
  cases rename with
  | none =>
      have hcolon : ':' ∉ last.letters := last.notMem rfl
      have hlast := lastSegment_lead front hcolon
      simp [leaf, Rename.target?, Rename.bound?, hlast, last.binds]
  | name segment => simp [leaf, Rename.target?, Rename.bound?, segment.binds]
  | underscore => simp [leaf, Rename.target?, Rename.bound?]

theorem expand_globTree (path : List Char) (front : List Segment) :
    expand path (UseTree.glob front).text = [] := by
  have hshape : shape (dropCrate (UseTree.glob front).text) =
      .leaf (lead front ++ ['*']) none := by
    have hnotMem : ∀ character, isLetter character = false → character ≠ ':' →
        character ≠ '*' → character ∉ lead front ++ ['*'] := by
      intro character hletter hcolon hstar
      simp [notMem_lead front hletter hcolon, hstar]
    have hleaf := shape_leaf (hnotMem '\x7b' rfl (by decide) (by decide))
      (hnotMem '@' rfl (by decide) (by decide)) .none
    rw [dropCrate_text, text_glob]
    simpa [Rename.target?] using hleaf
  have hlast : Name.lastSegment (lead front ++ ['*']) = ['*'] :=
    lastSegment_lead front (by decide)
  rw [expand_leaf hshape]
  simp [leaf, hlast]

theorem expand_groupTree (path : List Char) (front : List Segment)
    (last : Segment) (items : List UseTree) (comma : Bool) :
    expand path (UseTree.group (front ++ [last]) items comma).text =
      items.flatMap fun item =>
        if item.isSelf
          then [(last.letters, path ++ (lead front ++ last.letters))]
        else expand (path ++ lead (front ++ [last])) item.text := by
  have hshape :
      shape (dropCrate (UseTree.group (front ++ [last]) items comma).text) =
      .group (lead front ++ last.letters) (items.map UseTree.text) := by
    rw [dropCrate_text, text_group, shape_of_cut? (cut?_openGroup front last _),
      closeGroup_items]
  have hcolon : ':' ∉ last.letters := last.notMem rfl
  have hlast := lastSegment_lead front hcolon
  rw [expand_group hshape, List.flatMap_map]
  simp only [text_eq_self_iff, hlast, lead_append, lead_cons, lead_nil,
    Name.separator, List.append_assoc]

theorem expand_bareTree (path : List Char) {items : List UseTree} {comma : Bool}
    (h : ¬ openGroup <:+: (UseTree.group [] items comma).text) :
    expand path (UseTree.group [] items comma).text =
      items.flatMap fun item => expand path item.text := by
  have hshape : shape (dropCrate (UseTree.group [] items comma).text) =
      .bare (items.map UseTree.text) := by
    rw [text_group] at h
    rw [dropCrate_text, text_group, lead_nil, List.nil_append, shape_brace h,
      closeGroup_items]
  rw [expand_bare hshape, List.flatMap_map]

/-! ## Whole trees -/

private theorem pathName_append (front : List Segment) (last : Segment) :
    pathName (front ++ [last]) =
      String.ofList (lead front ++ last.letters) := by
  induction front with
  | nil => rfl
  | cons segment front ih =>
      have hjoin : pathName (segment :: front ++ [last]) =
          segment.name ++ "::" ++ pathName (front ++ [last]) := by
        cases front <;> rfl
      rw [hjoin, ih, lead_cons, Segment.name]
      apply String.toList_inj.mp
      simp

private theorem itemBindings_eq (path front : List Segment)
    (items : List UseTree) :
    UseTree.itemBindings path front items = items.flatMap fun item =>
      if item.isSelf then front.getLast?.toList.map fun last =>
        (last.name, pathName path)
      else item.bindings path := by
  induction items with
  | nil => simp [UseTree.itemBindings]
  | cons item rest ih => rw [UseTree.itemBindings, ih, List.flatMap_cons]

def asStrings (pair : List Char × List Char) : String × String :=
  (String.ofList pair.1, String.ofList pair.2)

private theorem expand_eq_bindings {tree : UseTree} (h : tree.Prefixed)
    (path : List Segment) :
    (expand (lead path) tree.text).map asStrings = tree.bindings path := by
  induction h generalizing path with
  | @leaf front last rename hself =>
      rw [expand_leafTree, UseTree.bindings, List.map_map, pathName_append,
        lead_append, List.append_assoc]
      rfl
  | @glob front => rw [expand_globTree, UseTree.bindings, List.map_nil]
  | @group front items comma hfront hitems ih =>
      obtain ⟨front, last, rfl⟩ :=
        (List.eq_nil_or_concat' front).resolve_left hfront
      rw [expand_groupTree, UseTree.bindings, itemBindings_eq, List.map_flatMap]
      apply List.flatMap_congr
      intro item hitem
      split
      · rw [← List.append_assoc path, pathName_append]
        simp [asStrings, Segment.name]
      · rw [← lead_append, ih item hitem]

/-! ## Declarations -/

private theorem expand_eq_of_dropCrate {first second : List Char}
    (h : dropCrate first = dropCrate second) (path : List Char) :
    expand path first = expand path second := by
  cases hshape : shape (dropCrate first) with
  | group => rw [expand_group hshape, expand_group (h ▸ hshape)]
  | bare => rw [expand_bare hshape, expand_bare (h ▸ hshape)]
  | leaf => rw [expand_leaf hshape, expand_leaf (h ▸ hshape)]

private theorem expand_compact {declaration : UseDeclaration} {text : String}
    (h : declaration.Spells text) (path : List Char) :
    expand path (compact text.toList) = expand path declaration.tree.text := by
  apply expand_eq_of_dropCrate
  rw [compact_of_spells h, dropCrate_text, UseDeclaration.tokens]
  cases declaration.fromCrate with
  | false => exact dropCrate_text declaration.tree
  | true => exact dropCrate_crate declaration.tree.text

theorem ofUse_eq {declaration : UseDeclaration} {text : String}
    (h : declaration.Spells text) :
    ofUse text = .ofList ((expand [] declaration.tree.text).map asStrings) := by
  rw [ofUse, expand_compact h]
  rfl

/-- However a declaration is spelled, if all its groups have a path in front,
the aliases are the bindings of the leaves from left to right: a name stands
where it is first bound, with what it is last bound to. -/
theorem ofUse_lists_bindings (declaration : UseDeclaration)
    (hprefixed : declaration.tree.Prefixed) (text : String)
    (hspells : declaration.Spells text) :
    let bindings := declaration.tree.bindings []
    (ofUse text).keys = (bindings.map Prod.fst).eraseDups ∧
      ∀ name, (ofUse text).get? name =
        (bindings.reverse.find? fun binding => binding.1 = name).map
          Prod.snd := by
  intro bindings
  have haliases : ofUse text = .ofList bindings := by
    rw [ofUse_eq hspells]
    exact congrArg Table.ofList (expand_eq_bindings hprefixed [])
  rw [haliases]
  exact ⟨Table.keys_ofList bindings, Table.get?_ofList bindings⟩

/-- `crate::io::{self, Read as R, net::{*, R as _, io::R},}` -/
def ioUse : UseDeclaration where
  fromCrate := true
  tree :=
    let io : Segment := ⟨"io".toList, by decide, by decide, by decide⟩
    let itself : Segment := ⟨"self".toList, by decide, by decide, by decide⟩
    let read : Segment := ⟨"Read".toList, by decide, by decide, by decide⟩
    let short : Segment := ⟨"R".toList, by decide, by decide, by decide⟩
    let net : Segment := ⟨"net".toList, by decide, by decide, by decide⟩
    .group [io] [.leaf [] itself .none, .leaf [] read (.name short),
      .group [net] [.glob [], .leaf [] short .underscore,
        .leaf [io] short .none] false] true

private theorem prefixed_ioUse : ioUse.tree.Prefixed := by
  have hread : "Read".toList ≠ "self".toList := by decide
  refine .group (by simp) ?_
  simp only [List.forall_mem_cons]
  refine ⟨.leaf (by simp), .leaf fun _ h => absurd h hread,
    .group (by simp) ?_, by simp⟩
  simp only [List.forall_mem_cons]
  exact ⟨.glob, .leaf (by simp), .leaf (by simp), by simp⟩

theorem ofUse_ioUse :
    let text := "crate::io :: \x7bself, Read  as\n R,\n net::\x7b*, R as _, io::R\x7d,\n\x7d"
    ioUse.tree.Prefixed ∧ ioUse.Spells text ∧ (ofUse text).keys = ["io", "R"] ∧
      (ofUse text).get? "R" = some "io::net::io::R" := by
  intro text
  have hspells : ioUse.Spells text := spells_of_reads (by decide +kernel)
  have haliases := ofUse_lists_bindings ioUse prefixed_ioUse text hspells
  refine ⟨prefixed_ioUse, hspells, haliases.1.trans ?_,
    (haliases.2 "R").trans ?_⟩
  · decide +kernel
  · decide +kernel

end FuzzReach.Alias
