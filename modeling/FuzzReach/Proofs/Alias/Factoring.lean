import FuzzReach.Proofs.Alias.Expansion
import Mathlib.Data.List.Chain
import Mathlib.Data.List.Forall2

/-!
# Groups factor out a path

A group `p::{a, b}` gives the aliases of `p::a` and `p::b` one after the other.
A group without a path does so only if none of its items has a group with a path
inside: the text is cut at the first `::{` wherever it stands, and then the
opening brace becomes part of every target.
-/

namespace FuzzReach.Alias

open Text

namespace UseTree

def behind (front : List Segment) : UseTree → UseTree
  | .leaf inner last rename => .leaf (front ++ inner) last rename
  | .glob inner => .glob (front ++ inner)
  | .group inner items comma => .group (front ++ inner) items comma

/-- An item of a group with the path of the group written out.  A renamed `self`
is a segment like any other, and so is `self` in a group without a path. -/
def factored (front : List Segment) (item : UseTree) : UseTree :=
  match item.isSelf, front.getLast? with
  | true, some last => .leaf front.dropLast last .none
  | _, _ => item.behind front

inductive HasPathGroup : UseTree → Prop where
  | here {front : List Segment} {items : List UseTree} {comma : Bool}
      (hfront : front ≠ []) :
      HasPathGroup (.group front items comma)
  | inside {front : List Segment} {items : List UseTree} {comma : Bool}
      {item : UseTree} (hitem : item ∈ items) (h : item.HasPathGroup) :
        HasPathGroup (.group front items comma)

/-- What a group without a path must not hold if it is to be moved behind a
path. -/
def Movable : UseTree → Prop
  | .group [] items _ =>
    ∀ item ∈ items, item.isSelf = false ∧ ¬ item.HasPathGroup
  | _ => True

private theorem not_hasPathGroup_bare {items : List UseTree} (comma : Bool)
    (h : ∀ item ∈ items, ¬ item.HasPathGroup) :
    ¬ (group [] items comma).HasPathGroup := by
  rintro (hfront | ⟨hitem, hinner⟩)
  · exact hfront rfl
  · exact h _ hitem hinner

private theorem behind_nil (tree : UseTree) : tree.behind [] = tree := by
  cases tree <;> rfl

private theorem factored_nil (item : UseTree) : item.factored [] = item := by
  simp [factored, behind_nil]

private theorem factored_append (front : List Segment) (last : Segment)
    (item : UseTree) :
    item.factored (front ++ [last]) =
      if item.isSelf then .leaf front last .none
        else item.behind (front ++ [last]) := by
  cases h : item.isSelf <;> simp [factored, h]

end UseTree

/-! ## Groups behind a path -/

def OpensFreely (text : List Char) : Prop :=
  text.IsChain fun first second => ¬ (first = ':' ∧ second = '\x7b')

namespace OpensFreely

theorem cons {mark : Char} {text : List Char} (hmark : mark ≠ ':')
    (h : OpensFreely text) :
    OpensFreely (mark :: text) :=
  List.IsChain.cons h fun _ _ heq => hmark heq.1

theorem append {first second : List Char} (hfirst : OpensFreely first)
    (hsecond : OpensFreely second) (hhead : '\x7b' ∉ second.head?) :
    OpensFreely (first ++ second) :=
  List.IsChain.append hfirst hsecond fun _ _ _ hmem heq => hhead (heq.2 ▸ hmem)

theorem of_notMem {text : List Char} (h : '\x7b' ∉ text) :
    OpensFreely text := by
  induction text with
  | nil => exact List.IsChain.nil
  | cons character text ih =>
      have hhead : '\x7b' ∉ text.head? := fun hmem =>
        h (List.mem_cons_of_mem _ (List.mem_of_mem_head? hmem))
      have hsingle : OpensFreely [character] := List.IsChain.singleton character
      exact hsingle.append
        (ih fun hmem => h (List.mem_cons_of_mem _ hmem)) hhead

private theorem not_openGroup {text : List Char} (h : OpensFreely text) :
    ¬ openGroup <:+: text := by
  intro hpart
  have hchain := List.IsChain.infix h hpart
  simp [openGroup] at hchain

end OpensFreely

private theorem opensFreely_itemsText {items : List UseTree}
    (h : ∀ item ∈ items, OpensFreely item.text) :
    OpensFreely (UseTree.itemsText items) := by
  match items with
  | [] => exact itemsText_nil ▸ .of_notMem List.not_mem_nil
  | [item] => exact itemsText_singleton item ▸ h item (by simp)
  | item :: next :: rest =>
      have hrest : OpensFreely (UseTree.itemsText (next :: rest)) :=
        opensFreely_itemsText fun other hother =>
          h other (List.mem_cons_of_mem _ hother)
      rw [itemsText_cons]
      exact (h item (by simp)).append (.cons (by decide) hrest) (by simp)

private theorem opensFreely_text {tree : UseTree} (h : ¬ tree.HasPathGroup) :
    OpensFreely tree.text := by
  induction tree with
  | leaf front last rename =>
      refine .of_notMem ?_
      have hrename : '\x7b' ∉ rename.text := by
        cases rename with
        | none => simp
        | name segment =>
            have hsegment : '\x7b' ∉ segment.letters := segment.notMem rfl
            simp [hsegment]
        | underscore => simp
      rw [text_leaf, List.mem_append]
      exact not_or.mpr ⟨brace_notMem_path front last, hrename⟩
  | glob front =>
      refine .of_notMem ?_
      have hlead : '\x7b' ∉ lead front := notMem_lead front rfl (by decide)
      simp [text_glob, hlead]
  | group front items comma ih =>
      obtain rfl : front = [] := by
        by_contra hfront
        exact h (.here hfront)
      have hitems : OpensFreely (UseTree.itemsText items) :=
        opensFreely_itemsText fun item hitem => ih item hitem fun hinner =>
          h (.inside hitem hinner)
      have hcomma : OpensFreely (commaText comma ++ ['\x7d']) :=
        .of_notMem (by cases comma <;> simp [commaText])
      rw [text_group, lead_nil, List.nil_append, List.append_assoc]
      refine .cons (by decide) (hitems.append hcomma ?_)
      cases comma <;> simp [commaText]

private theorem text_part_itemsText {items : List UseTree} {item : UseTree}
    (h : item ∈ items) :
    item.text <:+: UseTree.itemsText items := by
  match items with
  | [single] =>
      obtain rfl := List.mem_singleton.mp h
      simp
  | first :: next :: rest =>
      rw [itemsText_cons]
      rcases List.mem_cons.mp h with rfl | h
      · exact (List.prefix_append _ _).isInfix
      · exact (text_part_itemsText h).trans ⟨first.text ++ [','], [], by simp⟩

private theorem openGroup_part_text {tree : UseTree} (h : tree.HasPathGroup) :
    openGroup <:+: tree.text := by
  induction h with
  | @here front items comma hfront =>
      obtain ⟨front, last, rfl⟩ :=
        (List.eq_nil_or_concat' front).resolve_left hfront
      exact ⟨lead front ++ last.letters,
        UseTree.itemsText items ++ commaText comma ++ ['\x7d'],
        by simp [text_group, openGroup]⟩
  | @inside front items comma item hitem _ ih =>
      refine ih.trans ((text_part_itemsText hitem).trans ?_)
      exact ⟨lead front ++ ['\x7b'],
        commaText comma ++ ['\x7d'], by simp [text_group]⟩

/-! ## Items written out -/

private theorem expand_behind (path : List Char) (front : List Segment)
    (last : Segment) {item : UseTree} (h : item.Movable) :
    expand path (item.behind (front ++ [last])).text =
      expand (path ++ lead (front ++ [last])) item.text := by
  cases item with
  | leaf inner name rename => simp [UseTree.behind, expand_leafTree]
  | glob inner => rw [UseTree.behind, expand_globTree, expand_globTree]
  | group inner items comma =>
      rcases List.eq_nil_or_concat' inner with rfl | ⟨inner, name, rfl⟩
      · have hfree :=
          UseTree.not_hasPathGroup_bare comma fun item hitem => (h item hitem).2
        rw [UseTree.behind, List.append_nil, expand_groupTree,
          expand_bareTree _ (opensFreely_text hfree).not_openGroup]
        apply List.flatMap_congr
        intro item hitem
        simp [(h item hitem).1]
      · rw [UseTree.behind, ← List.append_assoc, expand_groupTree,
          expand_groupTree]
        simp

private theorem expand_factored (path : List Char) (front : List Segment)
    {items : List UseTree} (comma : Bool) (hfront : front ≠ [])
    (hmovable : ∀ item ∈ items, item.Movable) :
    expand path (UseTree.group front items comma).text =
      items.flatMap fun item => expand path (item.factored front).text := by
  obtain ⟨front, last, rfl⟩ :=
    (List.eq_nil_or_concat' front).resolve_left hfront
  rw [expand_groupTree]
  apply List.flatMap_congr
  intro item hitem
  rw [UseTree.factored_append]
  split
  · simp [expand_leafTree, Rename.bound?]
  · rw [expand_behind path front last (hmovable item hitem)]

private theorem expand_factored_nil (path : List Char) {items : List UseTree}
    (comma : Bool) (h : ∀ item ∈ items, ¬ item.HasPathGroup) :
    expand path (UseTree.group [] items comma).text =
      items.flatMap fun item => expand path (item.factored []).text := by
  simp only [UseTree.factored_nil]
  have hfree := UseTree.not_hasPathGroup_bare comma h
  exact expand_bareTree path (opensFreely_text hfree).not_openGroup

/-! ## Targets -/

private theorem path_start_target {path text : List Char}
    {pair : List Char × List Char} (h : pair ∈ expand path text) :
    path <+: pair.2 := by
  induction path, text using expand.induct with
  | case1 path text front items hshape ih =>
      rw [expand_group hshape, List.mem_flatMap] at h
      obtain ⟨item, hitem, hpair⟩ := h
      split at hpair
      · rw [List.mem_singleton.mp hpair]
        exact List.prefix_append path front
      · have htarget := ih item hitem hpair
        rw [List.append_assoc] at htarget
        exact (List.prefix_append path _).trans htarget
  | case2 path text items hshape ih =>
      rw [expand_bare hshape, List.mem_flatMap] at h
      obtain ⟨item, hitem, hpair⟩ := h
      exact ih item hitem hpair
  | case3 path text target rename hshape =>
      rw [expand_leaf hshape, leaf] at h
      split at h
      · cases h
      · rw [List.mem_singleton.mp h]
        exact List.prefix_append path target

private theorem cut?_brace {rest before after : List Char}
    (h : cut? openGroup ('\x7b' :: rest) = some (before, after)) :
    ['\x7b'] <+: before := by
  have hstart : afterStart? openGroup ('\x7b' :: rest) = none := rfl
  rw [cut?_cons hstart, Option.map_eq_some_iff] at h
  obtain ⟨parts, -, heq⟩ := h
  cases heq
  exact ⟨_, rfl⟩

/-- The first `::{` behind a brace is taken for the end of a path that starts
with the brace. -/
theorem brace_start_target {path : List Char} {items : List UseTree}
    {comma : Bool} (h : (UseTree.group [] items comma).HasPathGroup)
    {pair : List Char × List Char}
    (hpair : pair ∈ expand path (UseTree.group [] items comma).text) :
    path ++ ['\x7b'] <+: pair.2 := by
  obtain ⟨⟨before, after⟩, hcut⟩ :=
    Option.isSome_iff_exists.mp (isSome_cut?_iff.mpr (openGroup_part_text h))
  have hbrace : path ++ ['\x7b'] <+: path ++ before := by
    rw [List.prefix_append_right_inj]
    rw [text_group] at hcut
    exact cut?_brace hcut
  rw [expand_group (dropCrate_text _ ▸ shape_of_cut? hcut),
    List.mem_flatMap] at hpair
  obtain ⟨item, -, hpair⟩ := hpair
  refine hbrace.trans ?_
  split at hpair
  · exact List.mem_singleton.mp hpair ▸ List.prefix_rfl
  · exact (List.prefix_append _ _).trans (path_start_target hpair)

inductive UseTree.GroupsHavePaths : UseTree → Prop where
  | leaf {front : List Segment} {last : Segment} {rename : Rename} :
      GroupsHavePaths (.leaf front last rename)
  | glob {front : List Segment} : GroupsHavePaths (.glob front)
  | group {front : List Segment} {items : List UseTree} {comma : Bool}
      (hfront : front ≠ []) (hitems : ∀ item ∈ items, item.GroupsHavePaths) :
      GroupsHavePaths (.group front items comma)

private theorem brace_notMem_target {tree : UseTree} (h : tree.GroupsHavePaths)
    {path : List Char} (hpath : '\x7b' ∉ path) {pair : List Char × List Char}
    (hpair : pair ∈ expand path tree.text) : '\x7b' ∉ pair.2 := by
  induction h generalizing path with
  | @leaf front last rename =>
      rw [expand_leafTree, List.mem_map] at hpair
      obtain ⟨bound, -, rfl⟩ := hpair
      rw [List.mem_append]
      exact not_or.mpr ⟨hpath, brace_notMem_path front last⟩
  | @glob front => simp [expand_globTree] at hpair
  | @group front items comma hfront hitems ih =>
      obtain ⟨front, last, rfl⟩ :=
        (List.eq_nil_or_concat' front).resolve_left hfront
      rw [expand_groupTree, List.mem_flatMap] at hpair
      obtain ⟨item, hitem, hpair⟩ := hpair
      split at hpair
      · rw [List.mem_singleton.mp hpair, List.mem_append]
        exact not_or.mpr ⟨hpath, brace_notMem_path front last⟩
      · refine ih item hitem ?_ hpair
        rw [List.mem_append]
        exact not_or.mpr ⟨hpath, notMem_lead _ rfl (by decide)⟩

/-! ## Declarations -/

def ofUses (texts : List String) : Table String String :=
  texts.foldl (fun table text => table.merge (ofUse text)) .empty

def SpellItems (fromCrate : Bool) (front : List Segment) (items : List UseTree)
    (texts : List String) : Prop :=
  List.Forall₂ (fun item =>
    UseDeclaration.Spells ⟨fromCrate, item.factored front⟩) items texts

private theorem ofUses_eq {fromCrate : Bool} {front : List Segment}
    {items : List UseTree} {texts : List String}
    (h : SpellItems fromCrate front items texts) :
    ofUses texts = .ofList ((items.flatMap fun item =>
      expand [] (item.factored front).text).map asStrings) := by
  have hmerge : ∀ table : Table String String,
      texts.foldl (fun table text => table.merge (ofUse text)) table =
        items.foldl (fun table item => table.merge
          (.ofList ((expand [] (item.factored front).text).map asStrings)))
            table := by
    induction h with
    | nil => exact fun _ => rfl
    | cons hspells _ ih =>
        intro table
        rw [List.foldl_cons, List.foldl_cons, ofUse_eq hspells, ih]
  rw [ofUses, hmerge, Table.foldl_merge_ofList, List.map_flatMap]
  rfl

private theorem exists_pair_of_mem_values {pairs : List (List Char × List Char)}
    {target : String}
    (h : target ∈ (Table.ofList (pairs.map asStrings)).values) :
    ∃ pair ∈ pairs, pair.2 = target.toList := by
  obtain ⟨key, hentry⟩ := Table.mem_values_iff.mp h
  obtain ⟨pair, hpair, heq⟩ := List.mem_map.mp (Table.mem_ofList hentry)
  cases heq
  exact ⟨pair, hpair, String.toList_ofList.symm⟩

/-- A group gives the aliases of its items with the path of the group written
out.  A group without a path does so if none of its items has a group with a
path inside.  If one has, every target starts with the brace that opens the
group, so that no target is right where the items hold no further group without
a path. -/
theorem ofUse_group_merges (fromCrate : Bool) (front : List Segment)
    (items : List UseTree) (comma : Bool) (text : String) (texts : List String)
    (hspells : UseDeclaration.Spells ⟨fromCrate, .group front items comma⟩ text)
    (hitems : SpellItems fromCrate front items texts) :
    (front ≠ [] → (∀ item ∈ items, item.Movable) → ofUse text = ofUses texts) ∧
      (front = [] → (∀ item ∈ items, ¬ item.HasPathGroup) →
        ofUse text = ofUses texts) ∧
      (front = [] → (∃ item ∈ items, item.HasPathGroup) →
        (∀ target ∈ (ofUse text).values, ['\x7b'] <+: target.toList) ∧
        ((∀ item ∈ items, item.GroupsHavePaths) →
          ∀ target ∈ (ofUses texts).values, target ∉ (ofUse text).values)) := by
  have haliases := ofUse_eq hspells
  have hmerged := ofUses_eq hitems
  refine ⟨fun hfront hmovable => ?_, fun hfront hfree => ?_, ?_⟩
  · rw [hmerged, haliases, expand_factored [] front comma hfront hmovable]
  · subst hfront
    rw [hmerged, haliases, expand_factored_nil [] comma hfree]
  · rintro rfl ⟨item, hitem, hinner⟩
    have hbrace : ∀ target ∈ (ofUse text).values,
        ['\x7b'] <+: target.toList := by
      intro target htarget
      rw [haliases] at htarget
      obtain ⟨pair, hpair, hvalue⟩ := exists_pair_of_mem_values htarget
      exact hvalue ▸ brace_start_target (.inside hitem hinner) hpair
    refine ⟨hbrace, fun hpaths target hright hwrong => ?_⟩
    rw [hmerged] at hright
    obtain ⟨pair, hpair, hvalue⟩ := exists_pair_of_mem_values hright
    obtain ⟨other, hother, hpair⟩ := List.mem_flatMap.mp hpair
    rw [UseTree.factored_nil] at hpair
    have hclean :=
      brace_notMem_target (hpaths other hother) List.not_mem_nil hpair
    exact hclean (hvalue ▸ (hbrace target hwrong).subset (by simp))

/-- The items of `{a::{b}, c}`. -/
def nestedItems : List UseTree :=
  let a : Segment := ⟨['a'], by decide, by decide, by decide⟩
  let b : Segment := ⟨['b'], by decide, by decide, by decide⟩
  let c : Segment := ⟨['c'], by decide, by decide, by decide⟩
  [.group [a] [.leaf [] b .none] false, .leaf [] c .none]

private theorem movable_nestedItems : ∀ item ∈ nestedItems, item.Movable := by
  simp only [nestedItems, List.forall_mem_cons]
  exact ⟨trivial, trivial, by simp⟩

private theorem groupsHavePaths_nestedItems :
    ∀ item ∈ nestedItems, item.GroupsHavePaths := by
  simp only [nestedItems, List.forall_mem_cons]
  refine ⟨.group (by simp) ?_, .leaf, by simp⟩
  simp only [List.forall_mem_cons]
  exact ⟨.leaf, by simp⟩

private theorem spells_nestedItems :
    UseDeclaration.Spells
      ⟨true, .group [] nestedItems false⟩ "crate::\x7ba::\x7bb\x7d, c\x7d" ∧
      SpellItems true [] nestedItems ["crate::a::\x7bb\x7d", "crate::c"] :=
  ⟨spells_of_reads (by decide +kernel),
    .cons (spells_of_reads (by decide +kernel))
    (.cons (spells_of_reads (by decide +kernel)) .nil)⟩

private theorem spells_nestedItems_behind :
    let q : Segment := ⟨['q'], by decide, by decide, by decide⟩
    UseDeclaration.Spells
      ⟨false, .group [q] nestedItems false⟩ "q::\x7b a::\x7bb\x7d, c \x7d" ∧
      SpellItems false [q] nestedItems ["q::a::\x7bb\x7d", "q::c"] :=
  ⟨spells_of_reads (by decide +kernel),
    .cons (spells_of_reads (by decide +kernel))
    (.cons (spells_of_reads (by decide +kernel)) .nil)⟩

theorem ofUse_nestedItems_behind :
    ofUse "q::\x7b a::\x7bb\x7d, c \x7d" = ofUses ["q::a::\x7bb\x7d", "q::c"] ∧
      "a::b" ∉ (ofUse "crate::\x7ba::\x7bb\x7d, c\x7d").values := by
  have hbehind :=
    ofUse_group_merges false _ nestedItems false _ _ spells_nestedItems_behind.1
      spells_nestedItems_behind.2
  have hbare :=
    ofUse_group_merges true [] nestedItems false _ _ spells_nestedItems.1
      spells_nestedItems.2
  refine ⟨hbehind.1 (by simp) movable_nestedItems, ?_⟩
  have hbroken := hbare.2.2 rfl ⟨_, List.mem_cons_self, .here (by simp)⟩
  exact hbroken.2 groupsHavePaths_nestedItems "a::b" (by decide +kernel)

/-- The brace of the group gets into name and target.  The path of a renamed
`self` keeps the segment. -/
theorem ofUse_nestedItems :
    UseDeclaration.Spells
      ⟨true, .group [] nestedItems false⟩ "crate::\x7ba::\x7bb\x7d, c\x7d" ∧
      SpellItems true [] nestedItems ["crate::a::\x7bb\x7d", "crate::c"] ∧
      (ofUse "crate::\x7ba::\x7bb\x7d, c\x7d").entries =
        [("b\x7d,c", "\x7ba::b\x7d,c")] ∧
      (ofUses ["crate::a::\x7bb\x7d", "crate::c"]).entries =
        [("b", "a::b"), ("c", "c")] ∧
      (ofUse "fmt::\x7bself as f\x7d").entries = [("f", "fmt::self")] :=
  ⟨spells_nestedItems.1, spells_nestedItems.2, by decide +kernel⟩

end FuzzReach.Alias
