import FuzzReach.Proofs.Alias.UseTree
import FuzzReach.Proofs.Name
import FuzzReach.Proofs.Text.Cut

/-!
# Cuts in the text of a use tree

The text of a use tree, once it is compact, is cut where the tree branches: in
front of a group, at the commas between its items and at the last separator of a
path.
-/

namespace FuzzReach.Alias

open Text

/-! ## Compact texts -/

def lead (front : List Segment) : List Char :=
  (leadTokens front).flatMap Token.mark

def Rename.text (rename : Rename) : List Char :=
  rename.tokens.flatMap Token.mark

def UseTree.text (tree : UseTree) : List Char :=
  tree.tokens.flatMap Token.mark

def UseTree.itemsText (items : List UseTree) : List Char :=
  (UseTree.itemTokens items).flatMap Token.mark

def commaText (comma : Bool) : List Char :=
  if comma then [','] else []

@[simp] theorem lead_nil : lead [] = [] := rfl

@[simp] theorem lead_cons (segment : Segment) (front : List Segment) :
    lead (segment :: front) = segment.letters ++ ':' :: ':' :: lead front := by
  simp [lead, leadTokens, Token.mark, Name.separator]

@[simp] theorem lead_append (front back : List Segment) :
    lead (front ++ back) = lead front ++ lead back := by
  simp [lead, leadTokens]

theorem text_leaf (front : List Segment) (last : Segment) (rename : Rename) :
    (UseTree.leaf front last rename).text = lead front ++ last.letters ++
      rename.text := by
  simp [UseTree.text, UseTree.tokens, lead, Rename.text, Token.mark]

theorem text_glob (front : List Segment) :
    (UseTree.glob front).text = lead front ++ ['*'] := by
  simp [UseTree.text, UseTree.tokens, lead, Token.mark]

theorem text_group (front : List Segment) (items : List UseTree)
    (comma : Bool) :
    (UseTree.group front items comma).text =
      lead front ++ '\x7b' ::
        (UseTree.itemsText items ++ commaText comma ++ ['\x7d']) := by
  cases comma <;>
    simp [UseTree.text, UseTree.tokens, lead, Token.mark, UseTree.itemsText,
      commaText]

@[simp] theorem itemsText_nil : UseTree.itemsText [] = [] := by
  simp [UseTree.itemsText, UseTree.itemTokens]

@[simp] theorem itemsText_singleton
    (item : UseTree) : UseTree.itemsText [item] = item.text := by
  simp [UseTree.itemsText, UseTree.itemTokens, UseTree.text]

@[simp] theorem itemsText_cons (item next : UseTree) (rest : List UseTree) :
    UseTree.itemsText (item :: next :: rest) =
      item.text ++ ',' :: UseTree.itemsText (next :: rest) := by
  simp [UseTree.itemsText, UseTree.itemTokens, UseTree.text, Token.mark]

@[simp] theorem text_none : Rename.none.text = [] := rfl

@[simp] theorem text_name (segment : Segment) :
    (Rename.name segment).text = '@' :: segment.letters := by
  simp [Rename.text, Rename.tokens, Token.mark, Token.target]

@[simp] theorem text_underscore : Rename.underscore.text = ['@', '_'] := rfl

/-! ## Letters -/

theorem Segment.notMem (segment : Segment) {character : Char}
    (h : isLetter character = false) :
    character ∉ segment.letters := by
  intro hmem
  rw [segment.isLetter_of_mem character hmem] at h
  cases h

theorem notMem_lead (front : List Segment) {character : Char}
    (h : isLetter character = false) (hcolon : character ≠ ':') :
    character ∉ lead front := by
  induction front with
  | nil => simp
  | cons segment front ih => simp [hcolon, ih, segment.notMem h]

private theorem takeWhile_segment (segment : Segment) {rest : List Char}
    (h : ∀ character ∈ rest.head?, isLetter character = false) :
    (segment.letters ++ rest).takeWhile isLetter = segment.letters := by
  rw [List.takeWhile_append_of_pos segment.isLetter_of_mem]
  cases rest with
  | nil => simp
  | cons character rest => simp [h character (by simp)]

private theorem head_text_not_letter (rename : Rename) :
    ∀ character ∈ rename.text.head?, isLetter character = false := by
  cases rename with
  | none => simp
  | name | underscore => simp; decide

private theorem takeWhile_lead (segment : Segment) (front : List Segment)
    (rest : List Char) :
    (lead (segment :: front) ++ rest).takeWhile isLetter = segment.letters := by
  rw [lead_cons, List.append_assoc]
  exact takeWhile_segment segment (by simp; decide)

private theorem takeWhile_text (tree : UseTree) :
    tree.text.takeWhile isLetter = [] ∨
      ∃ segment : Segment, tree.text.takeWhile isLetter = segment.letters := by
  have hmark : ∀ front mark rest, isLetter mark = false →
      (lead front ++ mark :: rest).takeWhile isLetter = [] ∨
        ∃ segment : Segment,
          (lead front ++ mark :: rest).takeWhile isLetter = segment.letters := by
    intro front mark rest hmark
    cases front with
    | nil => simp [hmark]
    | cons segment front =>
        exact Or.inr ⟨segment, takeWhile_lead segment front _⟩
  cases tree with
  | leaf front last rename =>
      rw [text_leaf, List.append_assoc]
      cases front with
      | nil =>
          exact Or.inr ⟨last,
            takeWhile_segment last (head_text_not_letter rename)⟩
      | cons segment front =>
          exact Or.inr ⟨segment, takeWhile_lead segment front _⟩
  | glob front => exact text_glob front ▸ hmark front '*' [] rfl
  | group front items comma =>
      exact text_group front items comma ▸ hmark front _ _ rfl

theorem dropCrate_text (tree : UseTree) : dropCrate tree.text = tree.text := by
  unfold dropCrate
  cases h : afterStart? "crate::".toList tree.text with
  | none => rfl
  | some rest =>
      have htext : tree.text = "crate::".toList ++ rest :=
        afterStart?_eq_some_iff.mp h
      have hcrate : tree.text.takeWhile isLetter = "crate".toList := by
        rw [htext]
        rfl
      rcases takeWhile_text tree with hempty | ⟨segment, hsegment⟩
      · rw [hcrate] at hempty
        cases hempty
      · rw [hcrate] at hsegment
        exact absurd (hsegment ▸ by decide) segment.notReserved

theorem dropCrate_crate (text : List Char) :
    dropCrate ("crate::".toList ++ text) = text := by
  simp [dropCrate, afterStart?_eq_some_iff.mpr]

/-! ## Paths -/

theorem lastSegment_lead (front : List Segment) {last : List Char}
    (h : ':' ∉ last) :
    Name.lastSegment (lead front ++ last) = last := by
  rcases List.eq_nil_or_concat front with rfl | ⟨front, segment, rfl⟩
  · exact Name.lastSegment_of_notMem h
  · have htext : lead (front.concat segment) ++ last =
        lead front ++ segment.letters ++ ':' :: ':' :: last := by simp
    rw [htext, Name.lastSegment_behind _ h]

def Rename.target? : Rename → Option (List Char)
  | .none => Option.none
  | .name segment => some segment.letters
  | .underscore => some ['_']

theorem brace_notMem_path (front : List Segment) (last : Segment) :
    '\x7b' ∉ lead front ++ last.letters := by
  rw [List.mem_append]
  exact not_or.mpr ⟨notMem_lead front rfl (by decide), last.notMem rfl⟩

theorem mark_notMem_path (front : List Segment) (last : Segment) :
    '@' ∉ lead front ++ last.letters := by
  rw [List.mem_append]
  exact not_or.mpr ⟨notMem_lead front rfl (by decide), last.notMem rfl⟩

theorem shape_of_cut? {text path rest : List Char}
    (h : cut? openGroup text = some (path, rest)) :
    shape text = .group path (closeGroup rest) := by
  unfold shape
  simp [h]

theorem shape_brace {rest : List Char} (h : ¬ openGroup <:+: '\x7b' :: rest) :
    shape ('\x7b' :: rest) = .bare (closeGroup rest) := by
  unfold shape
  simp [cut?_eq_none_iff.mpr h]

private theorem shape_of_brace_notMem {text : List Char} (h : '\x7b' ∉ text) :
    shape text = match cut? ['@'] text with
      | some (target, rename) => .leaf target (some rename)
      | none => .leaf text none := by
  have hcut : cut? openGroup text = none := cut?_eq_none (by simp [openGroup]) h
  unfold shape
  simp only [hcut]
  split
  · simp at h
  · rfl

private theorem shape_renamed {target name : List Char}
    (htarget : '\x7b' ∉ target) (hmark : '@' ∉ target) (hname : '\x7b' ∉ name) :
    shape (target ++ '@' :: name) = .leaf target (some name) := by
  have hcut : cut? ([] ++ ['@']) (target ++ [] ++ '@' :: name) =
      some (target, name) :=
    cut?_append List.not_mem_nil hmark name
  rw [List.append_nil, List.nil_append] at hcut
  rw [shape_of_brace_notMem (by simp [htarget, hname]), hcut]

theorem shape_leaf {target : List Char} (htarget : '\x7b' ∉ target)
    (hmark : '@' ∉ target) (rename : Rename) :
    shape (target ++ rename.text) = .leaf target rename.target? := by
  cases rename with
  | none =>
      rw [text_none, List.append_nil, shape_of_brace_notMem htarget,
        cut?_eq_none (by simp) hmark]
      rfl
  | name segment =>
      exact text_name segment ▸ shape_renamed htarget hmark (segment.notMem rfl)
  | underscore => exact shape_renamed htarget hmark (by decide)

theorem cut?_openGroup (front : List Segment) (last : Segment)
    (rest : List Char) :
    cut? openGroup (lead (front ++ [last]) ++ '\x7b' :: rest) =
      some (lead front ++ last.letters, rest) := by
  have htext : lead (front ++ [last]) ++ '\x7b' :: rest =
      lead front ++ last.letters ++ [':', ':'] ++ '\x7b' :: rest := by simp
  have hfront : '\x7b' ∉ [':', ':'] := by decide
  rw [htext]
  exact cut?_append hfront (brace_notMem_path front last) rest

/-! ## Items of a group -/

/-- From the given number of open braces on, no comma of the text separates
items. -/
def Passes (least : Int) (text : List Char) : Prop :=
  ∀ depth, least ≤ depth → ∀ rest first others,
    pieces depth rest = first :: others →
      pieces depth (text ++ rest) = (text ++ first) :: others

namespace Passes

theorem nil (least : Int) : Passes least [] :=
  fun _ _ _ _ _ h => h

theorem append {least : Int} {first second : List Char}
    (hfirst : Passes least first) (hsecond : Passes least second) :
    Passes least (first ++ second) := by
  intro depth hdepth rest piece others h
  rw [List.append_assoc, List.append_assoc]
  exact hfirst depth hdepth _ _ _ (hsecond depth hdepth rest piece others h)

theorem mono {least other : Int} {text : List Char} (h : Passes least text)
    (hle : least ≤ other) : Passes other text :=
  fun depth hdepth => h depth (by omega)

theorem comma : Passes 1 [','] := by
  intro depth hdepth rest first others h
  have hne : depth ≠ 0 := by omega
  simp [pieces, hne, h, onFirst]

theorem plain {text : List Char} (hcomma : ',' ∉ text)
    (hopening : '\x7b' ∉ text) (hclosing : '\x7d' ∉ text)
    (least : Int) : Passes least text := by
  induction text with
  | nil => exact nil least
  | cons character text ih =>
      simp only [List.mem_cons, not_or] at hcomma hopening hclosing
      intro depth hdepth rest first others h
      have htail :=
        ih hcomma.2 hopening.2 hclosing.2 depth hdepth rest first others h
      simp [pieces, Ne.symm hcomma.1, Ne.symm hopening.1, Ne.symm hclosing.1,
        htail, onFirst]

private theorem braces {text : List Char} (h : Passes 1 text) :
    Passes 0 ('\x7b' :: (text ++ ['\x7d'])) := by
  intro depth hdepth rest first others hrest
  have hclose :
      pieces (depth + 1) ('\x7d' :: rest) = ('\x7d' :: first) :: others := by
    simp [pieces, hrest, onFirst]
  have hinner := h (depth + 1) (by omega) _ _ _ hclose
  simp [pieces, hinner, onFirst]

end Passes

private theorem passes_lead (front : List Segment)
    (least : Int) : Passes least (lead front) :=
  .plain (notMem_lead front rfl (by decide)) (notMem_lead front rfl (by decide))
    (notMem_lead front rfl (by decide)) least

private theorem passes_letters (segment : Segment)
    (least : Int) : Passes least segment.letters :=
  .plain (segment.notMem rfl) (segment.notMem rfl) (segment.notMem rfl) least

private theorem passes_rename (rename : Rename)
    (least : Int) : Passes least rename.text := by
  cases rename with
  | none => exact .nil least
  | name segment =>
      have hmark : Passes least ['@'] :=
        .plain (by decide) (by decide) (by decide) least
      exact text_name segment ▸ hmark.append (passes_letters segment least)
  | underscore => exact .plain (by decide) (by decide) (by decide) least

private theorem passes_itemsText {items : List UseTree}
    (h : ∀ item ∈ items, Passes 0 item.text) :
    Passes 1 (UseTree.itemsText items) := by
  match items with
  | [] => exact .nil 1
  | [item] =>
      exact itemsText_singleton item ▸ (h item (by simp)).mono (by decide)
  | item :: next :: rest =>
      have hitem : Passes 1 item.text := (h item (by simp)).mono (by decide)
      have hrest : Passes 1 (UseTree.itemsText (next :: rest)) :=
        passes_itemsText fun other hother =>
          h other (List.mem_cons_of_mem _ hother)
      exact itemsText_cons item next rest ▸ hitem.append
        (Passes.comma.append hrest)

private theorem passes_text (tree : UseTree) : Passes 0 tree.text := by
  induction tree with
  | leaf front last rename =>
      rw [text_leaf]
      exact ((passes_lead front 0).append (passes_letters last 0)).append
        (passes_rename rename 0)
  | glob front =>
      rw [text_glob]
      exact (passes_lead front 0).append
        (.plain (by decide) (by decide) (by decide) 0)
  | group front items comma ih =>
      have hcomma : Passes 1 (commaText comma) := by
        cases comma with
        | false => exact .nil 1
        | true => exact .comma
      rw [text_group]
      exact (passes_lead front 0).append
        (((passes_itemsText ih).append hcomma).braces)

private theorem text_ne_nil (tree : UseTree) : tree.text ≠ [] := by
  cases tree with
  | leaf front last rename => simp [text_leaf, last.ne_nil]
  | glob front => simp [text_glob]
  | group front items comma => simp [text_group]

private theorem pieces_text_comma (item : UseTree) (rest : List Char) :
    pieces 0 (item.text ++ ',' :: rest) = item.text :: pieces 0 rest := by
  have hcomma : pieces 0 (',' :: rest) = [] :: pieces 0 rest := by simp [pieces]
  simpa using passes_text item 0 (by decide) _ _ _ hcomma

private theorem items_itemsText (list : List UseTree) (comma : Bool) :
    items (UseTree.itemsText list ++ commaText comma) =
      list.map UseTree.text := by
  match list with
  | [] => cases comma <;> rfl
  | [item] =>
      have hlast : pieces 0 (item.text ++ []) = [item.text ++ []] :=
        passes_text item 0 (by decide) [] [] [] rfl
      cases comma with
      | false => simp_all [items, commaText, text_ne_nil]
      | true => simp [items, commaText, pieces_text_comma, pieces, text_ne_nil]
  | item :: next :: rest =>
      have ih := items_itemsText (next :: rest) comma
      rw [items] at ih
      simp [items, pieces_text_comma, text_ne_nil, ih]

theorem closeGroup_items (list : List UseTree) (comma : Bool) :
    closeGroup (UseTree.itemsText list ++ commaText comma ++ ['\x7d']) =
      list.map UseTree.text := by
  rw [closeGroup, dropEnd, List.getLast?_concat, if_pos rfl,
    List.dropLast_concat, items_itemsText]

end FuzzReach.Alias
