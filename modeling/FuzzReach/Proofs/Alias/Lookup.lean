import FuzzReach.Proofs.Alias.Factoring
import FuzzReach.Proofs.Alias.Items
import FuzzReach.Proofs.Extract.Items
import FuzzReach.Proofs.Lookup
import FuzzReach.Registry

/-!
# Aliases keep what a name means

Without renames, an alias stands for a path that ends with it.  A lookup that
may drop any number of segments ends with the last one, so it finds something
for the path exactly if it does for the alias.  All that is asked of the
argument of a `use` declaration is that no rename is marked in it and that its
colons come in pairs.
-/

namespace FuzzReach.Alias

open Text

/-! ## Texts without renames -/

/-- Every colon belongs to a separator, and no rename is marked. -/
inductive Plain : List Char → Prop where
  | nil : Plain []
  | separator {rest : List Char} (h : Plain rest) : Plain (':' :: ':' :: rest)
  | other {character : Char} {rest : List Char} (hcolon : character ≠ ':')
      (hmark : character ≠ '@') (h : Plain rest) : Plain (character :: rest)

namespace Plain

theorem append {first second : List Char} (hfirst : Plain first)
    (hsecond : Plain second) :
    Plain (first ++ second) := by
  induction hfirst with
  | nil => exact hsecond
  | separator _ ih => exact .separator ih
  | other hcolon hmark _ ih => exact .other hcolon hmark ih

theorem of_notMem {text : List Char} (hcolon : ':' ∉ text)
    (hmark : '@' ∉ text) : Plain text := by
  induction text with
  | nil => exact .nil
  | cons character rest ih =>
      simp only [List.mem_cons, not_or] at hcolon hmark
      exact .other (Ne.symm hcolon.1) (Ne.symm hmark.1) (ih hcolon.2 hmark.2)

private theorem mark_notMem {text : List Char}
    (h : Plain text) : '@' ∉ text := by
  induction h with
  | nil => simp
  | separator _ ih => simp [ih]
  | other _ hmark _ ih => simp [ih, Ne.symm hmark]

theorem of_append {before after : List Char} (h : Plain (before ++ after)) :
    (Plain before ∧ Plain after) ∨
      ∃ front back, before = front ++ [':'] ∧ after = ':' :: back ∧
      Plain front ∧ Plain back := by
  generalize htext : before ++ after = text at h
  induction h generalizing before with
  | nil =>
      obtain ⟨rfl, rfl⟩ := List.append_eq_nil_iff.mp htext
      exact Or.inl ⟨.nil, .nil⟩
  | separator hrest ih =>
      rcases before with _ | ⟨_, _ | ⟨_, before⟩⟩
      · cases htext
        exact Or.inl ⟨.nil, .separator hrest⟩
      · cases htext
        exact Or.inr ⟨[], _, rfl, rfl, .nil, hrest⟩
      · simp only [List.cons_append, List.cons.injEq] at htext
        obtain ⟨rfl, rfl, htext⟩ := htext
        rcases ih htext with
          ⟨hbefore, hafter⟩ | ⟨front, back, rfl, rfl, hfront, hback⟩
        · exact Or.inl ⟨.separator hbefore, hafter⟩
        · exact Or.inr ⟨_, back, rfl, rfl, .separator hfront, hback⟩
  | other hcolon hmark hrest ih =>
      cases before with
      | nil =>
          cases htext
          exact Or.inl ⟨.nil, .other hcolon hmark hrest⟩
      | cons _ before =>
          simp only [List.cons_append, List.cons.injEq] at htext
          obtain ⟨rfl, htext⟩ := htext
          rcases ih htext with
            ⟨hbefore, hafter⟩ | ⟨front, back, rfl, rfl, hfront, hback⟩
          · exact Or.inl ⟨.other hcolon hmark hbefore, hafter⟩
          · exact Or.inr ⟨_, back, rfl, rfl, .other hcolon hmark hfront, hback⟩

private theorem of_append_cons {mark : Char} (hmark : mark ≠ ':')
    {before after : List Char} (h : Plain (before ++ mark :: after)) :
    Plain before ∧ Plain after := by
  rcases of_append h with ⟨hbefore, hafter⟩ | ⟨front, back, -, hback, -⟩
  · cases hafter with
    | separator => exact absurd rfl hmark
    | other _ _ hafter => exact ⟨hbefore, hafter⟩
  · exact absurd (List.cons.inj hback).1 hmark

private theorem of_append_separator {before : List Char}
    (h : Plain (before ++ Name.separator)) :
    Plain before := by
  rcases of_append h with ⟨hbefore, -⟩ | ⟨front, back, -, hback, -, hcolon⟩
  · exact hbefore
  · -- the other colon would stand alone
    obtain ⟨-, rfl⟩ := List.cons.inj hback
    cases hcolon with
    | other hcolon => exact absurd rfl hcolon

end Plain

/-! ## Last segments -/

def IsLead (front : List Char) : Prop :=
  front = [] ∨ ∃ scope, Plain scope ∧ front = scope ++ Name.separator

/-- The path ends with the name, and the name is all of its last segment. -/
def IsLast (name path : List Char) : Prop :=
  ':' ∉ name ∧ ∃ front, IsLead front ∧ path = front ++ name

theorem IsLead.plain {front : List Char} (h : IsLead front) : Plain front := by
  rcases h with rfl | ⟨scope, hscope, rfl⟩
  · exact .nil
  · exact hscope.append (.separator .nil)

theorem IsLead.append {first second : List Char} (hfirst : IsLead first)
    (hsecond : IsLead second) :
    IsLead (first ++ second) := by
  rcases hsecond with rfl | ⟨scope, hscope, rfl⟩
  · rwa [List.append_nil]
  · exact Or.inr ⟨first ++ scope, hfirst.plain.append hscope,
      (List.append_assoc ..).symm⟩

private theorem Plain.isLead {scope : List Char}
    (h : Plain scope) : IsLead (scope ++ Name.separator) :=
  Or.inr ⟨scope, h, rfl⟩

private theorem Plain.exists_isLast {path : List Char}
    (h : Plain path) : ∃ name, IsLast name path := by
  induction h with
  | nil => exact ⟨[], List.not_mem_nil, [], Or.inl rfl, rfl⟩
  | separator hrest ih =>
      obtain ⟨name, hname, front, hfront, rfl⟩ := ih
      exact ⟨name, hname, Name.separator ++ front,
        Plain.nil.isLead.append hfront, rfl⟩
  | @other character _ hcolon hmark _ ih =>
      obtain ⟨name, hname, front, hfront, rfl⟩ := ih
      rcases hfront with rfl | ⟨scope, hscope, rfl⟩
      · exact ⟨character ::
          name, by simp [hname, Ne.symm hcolon], [], Or.inl rfl, rfl⟩
      · exact ⟨name, hname, _, (hscope.other hcolon hmark).isLead, rfl⟩

namespace IsLast

variable {name path : List Char}

theorem behind (h : IsLast name path) {front : List Char}
    (hfront : IsLead front) :
    IsLast name (front ++ path) := by
  obtain ⟨hname, inner, hinner, rfl⟩ := h
  exact ⟨hname, front ++ inner, hfront.append hinner,
    (List.append_assoc ..).symm⟩

theorem self (h : IsLast name path) : IsLast name name :=
  ⟨h.1, [], Or.inl rfl, rfl⟩

private theorem lastSegment_eq (h : IsLast name path) :
    Name.lastSegment path = name := by
  obtain ⟨hname, front, rfl | ⟨scope, -, rfl⟩, rfl⟩ := h
  · exact Name.lastSegment_of_notMem hname
  · rw [Name.separator, List.append_assoc]
    exact Name.lastSegment_behind scope hname

/-- Read from the left, too, the last segment is the name: no colon is left over
on the way. -/
theorem getLast?_segments (h : IsLast name path) :
    (Name.segments path).getLast? = some name := by
  obtain ⟨hname, front, hfront, rfl⟩ := h
  have hlast : (Name.segments name).getLast? = some name := by
    rw [Name.segments_of_notMem hname]
    rfl
  rcases hfront with rfl | ⟨scope, hscope, rfl⟩
  · exact hlast
  induction hscope with
  | nil =>
      exact (Name.getLast?_segments_of_some (cut?_of_start rfl)).trans hlast
  | separator _ ih =>
      exact (Name.getLast?_segments_of_some (cut?_of_start rfl)).trans ih
  | @other character rest hcolon _ _ ih =>
      obtain ⟨⟨segment, behind⟩, hcut⟩ : ∃ parts,
          cut? Name.separator (rest ++ Name.separator ++ name) = some parts :=
        Option.isSome_iff_exists.mp (isSome_cut?_iff.mpr ⟨rest, name, rfl⟩)
      have hstart : afterStart? Name.separator
          (character :: (rest ++ Name.separator ++ name)) = none := by
        simp [afterStart?, Name.separator, Ne.symm hcolon]
      have hlonger :
          cut? Name.separator (character :: (rest ++ Name.separator ++ name)) =
          some (character :: segment, behind) := by
        rw [cut?_cons hstart, hcut]
        rfl
      rw [Name.getLast?_segments_of_some hcut] at ih
      exact (Name.getLast?_segments_of_some hlonger).trans ih

end IsLast

/-! ## Expansion -/

private theorem plain_dropCrate {text : List Char}
    (h : Plain text) : Plain (dropCrate text) := by
  unfold dropCrate
  cases hrest : afterStart? "crate::".toList text with
  | none => exact h
  | some rest =>
      have htext : text = "crat".toList ++ 'e' :: ':' :: ':' :: rest := by
        rw [afterStart?_eq_some_iff.mp hrest]
        rfl
      cases (Plain.of_append_cons (by decide) (htext ▸ h)).2 with
      | separator hrest => exact hrest
      | other hcolon => exact absurd rfl hcolon

private theorem plain_dropEnd {text : List Char}
    (h : Plain text) : Plain (dropEnd '\x7d' text) := by
  unfold dropEnd
  split
  · next hlast =>
      rw [← List.dropLast_append_getLast? _ hlast] at h
      exact (Plain.of_append_cons (by decide) h).1
  · exact h

private theorem plain_of_mem_pieces {text : List Char} (h : Plain text)
    {depth : Int} {piece : List Char} (hpiece : piece ∈ pieces depth text) :
    Plain piece := by
  induction h generalizing depth piece with
  | nil =>
      rw [List.mem_singleton.mp hpiece]
      exact .nil
  | @separator rest _ ih =>
      obtain ⟨first, others, hrest⟩ :=
        List.exists_cons_of_ne_nil (pieces_ne_nil depth rest)
      have hpieces : pieces depth (':' :: ':' :: rest) =
          (':' :: ':' :: first) :: others := by
        simp [pieces, hrest, onFirst]
      rw [hpieces, List.mem_cons] at hpiece
      rcases hpiece with rfl | hpiece
      · exact .separator (ih (hrest ▸ List.mem_cons_self))
      · exact ih (hrest ▸ List.mem_cons_of_mem first hpiece)
  | @other character rest hcolon hmark _ ih =>
      rw [pieces] at hpiece
      split at hpiece
      · rcases List.mem_cons.mp hpiece with rfl | hpiece
        · exact .nil
        · exact ih hpiece
      · obtain ⟨first, others, hrest⟩ :=
          List.exists_cons_of_ne_nil (pieces_ne_nil
            (if character = '\x7b' then depth + 1
              else if character = '\x7d' then depth - 1 else depth) rest)
        dsimp only at hpiece
        rw [hrest, onFirst, List.mem_cons] at hpiece
        rcases hpiece with rfl | hpiece
        · exact .other hcolon hmark (ih (hrest ▸ List.mem_cons_self))
        · exact ih (hrest ▸ List.mem_cons_of_mem first hpiece)

private theorem plain_of_mem_closeGroup {text item : List Char} (h : Plain text)
    (hitem : item ∈ closeGroup text) : Plain item :=
  plain_of_mem_pieces (plain_dropEnd h) (List.mem_filter.mp hitem).1

def Shape.IsPlain : Shape → Prop
  | .group path items => Plain path ∧ ∀ item ∈ items, Plain item
  | .bare items => ∀ item ∈ items, Plain item
  | .leaf target rename => Plain target ∧ rename = none

private theorem isPlain_shape {text : List Char}
    (h : Plain text) : (shape text).IsPlain := by
  have hmark : cut? ['@'] text = none := cut?_eq_none (by simp) h.mark_notMem
  unfold shape
  split
  · next path rest hcut =>
      have htext : text = path ++ Name.separator ++ '\x7b' :: rest := by
        rw [eq_append_of_cut? hcut]
        simp [openGroup, Name.separator]
      rw [htext] at h
      obtain ⟨hpath, hrest⟩ := Plain.of_append_cons (by decide) h
      exact ⟨hpath.of_append_separator,
        fun item => plain_of_mem_closeGroup hrest⟩
  · split
    · next rest _ =>
        have hbrace : Plain ([] ++ '\x7b' :: rest) := h
        exact fun item =>
          plain_of_mem_closeGroup (Plain.of_append_cons (by decide) hbrace).2
    · rw [hmark]
      exact ⟨h, rfl⟩

private theorem isLast_of_mem_expand {path text : List Char}
    (hpath : IsLead path) (htext : Plain text) {pair : List Char × List Char}
    (h : pair ∈ expand path text) : IsLast pair.1 pair.2 := by
  induction path, text using expand.induct with
  | case1 path text front items hshape ih =>
      obtain ⟨hfront, hitems⟩ : (Shape.group front items).IsPlain :=
        hshape ▸ isPlain_shape (plain_dropCrate htext)
      rw [expand_group hshape, List.mem_flatMap] at h
      obtain ⟨item, hitem, hpair⟩ := h
      split at hpair
      · obtain ⟨last, hlast⟩ := hfront.exists_isLast
        rw [List.mem_singleton.mp hpair, hlast.lastSegment_eq]
        exact hlast.behind hpath
      · refine ih item hitem ?_ (hitems item hitem) hpair
        rw [List.append_assoc]
        exact hpath.append hfront.isLead
  | case2 path text items hshape ih =>
      have hitems : (Shape.bare items).IsPlain :=
        hshape ▸ isPlain_shape (plain_dropCrate htext)
      rw [expand_bare hshape, List.mem_flatMap] at h
      obtain ⟨item, hitem, hpair⟩ := h
      exact ih item hitem hpath (hitems item hitem) hpair
  | case3 path text target rename hshape =>
      obtain ⟨htarget, rfl⟩ : (Shape.leaf target rename).IsPlain :=
        hshape ▸ isPlain_shape (plain_dropCrate htext)
      rw [expand_leaf hshape, leaf] at h
      split at h
      · cases h
      · obtain ⟨last, hlast⟩ := htarget.exists_isLast
        rw [List.mem_singleton.mp h, Option.getD_none, hlast.lastSegment_eq]
        exact hlast.behind hpath

/-! ## Declarations -/

private theorem plain_mark {token : Token} (h : ∀ name, token ≠ .rename name) :
    Plain token.mark := by
  cases token with
  | crate => exact .of_notMem (by decide) (by decide)
  | word segment => exact .of_notMem (segment.notMem rfl) (segment.notMem rfl)
  | rename name => exact absurd rfl (h name)
  | separator => exact .separator .nil
  | star | opening | closing | comma => exact .of_notMem (by decide) (by decide)

def WithoutRenames (text : String) : Prop :=
  ∃ tokens, Spells false tokens text.toList ∧ ∀ name, .rename name ∉ tokens

theorem WithoutRenames.plain {text : String} (h : WithoutRenames text) :
    Plain (compact text.toList) := by
  obtain ⟨tokens, hspells, hrename⟩ := h
  rw [compact_of_spells hspells]
  clear hspells
  induction tokens with
  | nil => exact .nil
  | cons token tokens ih =>
      simp only [List.mem_cons, not_or] at hrename
      rw [List.flatMap_cons]
      exact (plain_mark fun name => Ne.symm (hrename name).1).append
        (ih fun name => (hrename name).2)

private theorem ofUses_eq_ofList (texts : List String) :
    ofUses texts = .ofList (texts.flatMap fun text => (ofUse text).entries) :=
  (List.foldl_flatMap ..).symm

private theorem isLast_of_get? {texts : List String}
    (h : ∀ text ∈ texts, Plain (compact text.toList)) {name target : String}
    (hget : (ofUses texts).get? name = some target) :
    IsLast name.toList target.toList := by
  rw [ofUses_eq_ofList] at hget
  obtain ⟨text, htext, hentry⟩ := List.mem_flatMap.mp
    (Table.mem_ofList (Table.get?_eq_some_iff.mp hget))
  obtain ⟨pair, hpair, heq⟩ := List.mem_map.mp (Table.mem_ofList hentry)
  cases heq
  have hlast := isLast_of_mem_expand (Or.inl rfl) (h text htext) hpair
  rwa [String.toList_ofList, String.toList_ofList]

end FuzzReach.Alias

/-! ## The arguments of a file -/

namespace FuzzReach.Extract

open Syntax

def useArguments (source : Source) (node : Node) : List String :=
  node.children.attach.flatMap fun ⟨item, _hitem⟩ =>
    match item.itemKind with
    | .use => (item.fieldText? "argument" source.bytes).toList
    | .module =>
        match _hbody : item.child? "body" with
        | none => []
        | some body => useArguments source body
    | _ => []
termination_by node.size
decreasing_by
  have := Node.size_lt_of_child? _hbody
  have := Node.size_lt_of_mem_children _hitem
  omega

private theorem aliasPairs_eq_flatMap (source : Source) (node : Node) :
    aliasPairs source node =
      (useArguments source node).flatMap fun argument =>
        (Alias.ofUse argument).entries := by
  induction node using useArguments.induct with
  | case1 node ih =>
      rw [aliasPairs_eq, useArguments, List.flatMap_assoc]
      conv_lhs => rw [← List.attach_map_subtype_val node.children]
      rw [List.flatMap_map]
      apply List.flatMap_congr
      rintro ⟨item, hitem⟩ -
      dsimp only [aliasItem]
      cases item.itemKind with
      | use => cases item.fieldText? "argument" source.bytes <;> simp
      | module =>
          cases hbody : item.child? "body" with
          | none => simp
          | some body => simp [ih item hitem body hbody]
      | _ => rfl

private theorem aliases_eq_ofUses (source : Source) :
    aliases source = Alias.ofUses (useArguments source source.root) := by
  rw [aliases, aliasPairs_eq_flatMap, Alias.ofUses_eq_ofList]

end FuzzReach.Extract

/-! ## Lookups -/

namespace FuzzReach.Alias

private theorem isSome_lookup?_eq {ν : Type} (table : Table String ν)
    {name target : String} (h : IsLast name.toList target.toList) :
    (table.lookup? .allSegments target).isSome =
      (table.lookup? .allSegments name).isSome := by
  have hends : ∀ other : String, IsLast name.toList other.toList →
      ((table.lookup? .allSegments other).isSome = true ↔
        Lookup.EndsKey table name.toList) := by
    intro other hother
    apply Table.isSome_lookup?_iff
    rw [Lookup.getLast?_candidates_allSegments, ← List.getLast?_eq_some_getLast,
      hother.getLast?_segments]
  rw [Bool.eq_iff_iff, hends target h, hends name h.self]

/-- The arguments of `use` declarations are taken in order.  If each of them has
no renames or at least is plain, then every alias is the last segment of what it
stands for, and a call finds a function under what is put for its name exactly
if it finds one under the name. -/
theorem aliases_keep_lookups (texts : List String)
    (htexts : ∀ text ∈ texts, WithoutRenames text ∨ Plain (compact text.toList))
    (registry : Registry) :
    let aliases := ofUses texts
    (∀ source, Extract.useArguments source source.root = texts →
      Extract.aliases source = aliases) ∧
      (∀ name target, aliases.get? name = some target →
        Name.lastSegment target.toList = name.toList) ∧
      ∀ finding, (registry.lookup? .allSegments
        (Call.siteOf aliases finding).callee).isSome =
        (registry.lookup? .allSegments finding.target).isSome := by
  intro aliases
  have hplain : ∀ text ∈ texts, Plain (compact text.toList) :=
    fun text htext => (htexts text htext).elim WithoutRenames.plain id
  refine ⟨?_, fun name target hget =>
    (isLast_of_get? hplain hget).lastSegment_eq, ?_⟩
  · rintro source rfl
    exact Extract.aliases_eq_ofUses source
  · intro finding
    rw [Call.siteOf]
    cases hget : aliases.get? finding.target with
    | none => rfl
    | some target =>
        exact isSome_lookup?_eq registry.table (isLast_of_get? hplain hget)

def declaring (names : List String) : Registry :=
  let functions : List Function :=
    names.map fun name => { name := name, path := "src/lib.rs" }
  .build [⟨"src/lib.rs", #[], .empty, functions⟩] ""

/-- `crate::fs::{read, copy}` -/
def copyUse : UseDeclaration where
  fromCrate := true
  tree :=
    let fs : Segment := ⟨"fs".toList, by decide, by decide, by decide⟩
    let read : Segment := ⟨"read".toList, by decide, by decide, by decide⟩
    let copy : Segment := ⟨"copy".toList, by decide, by decide, by decide⟩
    .group [fs] [.leaf [] read .none, .leaf [] copy .none] false

theorem aliases_keep_lookups_copyUse :
    let text := "crate::fs::\x7b read,\n copy \x7d"
    WithoutRenames text ∧ (ofUses [text]).get? "copy" = some "fs::copy" ∧
      Name.lastSegment "fs::copy".toList = "copy".toList ∧
      ((declaring ["io::copy"]).lookup? .allSegments
        (Call.siteOf (ofUses [text]) ⟨0, "copy", 1⟩).callee).isSome = true := by
  intro text
  have hspells : copyUse.Spells text := spells_of_reads (by decide +kernel)
  have hrename : ∀ name, .rename name ∉ copyUse.tokens := by
    simp [copyUse, UseDeclaration.tokens, UseTree.tokens, UseTree.itemTokens,
      leadTokens, Rename.tokens]
  have htext : WithoutRenames text := ⟨copyUse.tokens, hspells, hrename⟩
  have hget : (ofUses [text]).get? "copy" = some "fs::copy" := by decide +kernel
  obtain ⟨-, hlast, hfound⟩ :=
    aliases_keep_lookups [text] (by simp [htext]) (declaring ["io::copy"])
  refine ⟨htext, hget, hlast _ _ hget, (hfound _).trans ?_⟩
  decide +kernel

/-- `m::{f, h}` -/
def pairUse : UseDeclaration where
  fromCrate := false
  tree :=
    let m : Segment := ⟨['m'], by decide, by decide, by decide⟩
    let f : Segment := ⟨['f'], by decide, by decide, by decide⟩
    let h : Segment := ⟨['h'], by decide, by decide, by decide⟩
    .group [m] [.leaf [] f .none, .leaf [] h .none] false

/-- The word `as` of a comment between the items is taken for a rename, and the
call of a function is led to a name that means nothing. -/
theorem ofUse_comment :
    let before := "m::\x7bf, "
    let comment := "// same as g\n"
    let after := "h\x7d"
    let aliases := ofUse (before ++ comment ++ after)
    WithoutRenames (before ++ after) ∧
      aliases.entries = [("f", "m::f"), ("gh", "m:://same")] ∧
      Name.lastSegment "m:://same".toList = "//same".toList ∧
      ((declaring ["gh"]).lookup? .allSegments "gh").isSome = true ∧
      ((declaring ["gh"]).lookup? .allSegments
        (Call.siteOf aliases ⟨0, "gh", 1⟩).callee).isSome = false := by
  intro before comment after aliases
  have hspells : pairUse.Spells (before ++ after) :=
    spells_of_reads (by decide +kernel)
  have hrename : ∀ name, .rename name ∉ pairUse.tokens := by
    simp [pairUse, UseDeclaration.tokens, UseTree.tokens, UseTree.itemTokens,
      leadTokens, Rename.tokens]
  refine ⟨⟨pairUse.tokens, hspells, hrename⟩, ?_, ?_, ?_, ?_⟩
  all_goals decide +kernel

end FuzzReach.Alias
