import FuzzReach.Name
import FuzzReach.Table
import FuzzReach.Text.Blank

/-!
# Aliases from `use` declarations

A `use` declaration gives short names to qualified ones.  Its argument is read
as text: blanks are taken out, a rename `path as name` becomes `path@name`, and
what is left is cut at braces and commas.  On a malformed argument the same cuts
give what can be recovered.
-/

namespace FuzzReach.Alias

/-! ## Items of a group -/

/-- Cut at the commas outside braces; `depth` is the number of braces open
before the text. -/
def pieces (depth : Int) : List Char → List (List Char)
  | [] => [[]]
  | character :: rest =>
      if character = ',' ∧ depth = 0 then [] :: pieces depth rest
      else
        let next :=
          if character = '\x7b' then depth + 1
            else if character = '\x7d' then depth - 1 else depth
        Text.onFirst character (pieces next rest)

def items (text : List Char) : List (List Char) :=
  (pieces 0 text).filter fun piece => !piece.isEmpty

private theorem length_le_of_mem_onFirst {character : Char}
    {rest : List (List Char)} {bound : Nat}
    (h : ∀ piece ∈ rest, piece.length ≤ bound) {piece : List Char}
    (hmem : piece ∈ Text.onFirst character rest) :
    piece.length ≤ bound + 1 := by
  cases rest with
  | nil =>
      simp only [Text.onFirst, List.mem_singleton] at hmem
      simp [hmem]
  | cons first rest =>
      simp only [Text.onFirst, List.mem_cons] at hmem
      rcases hmem with rfl | hmem
      · have := h first (by simp)
        simp
        omega
      · have := h piece (by simp [hmem])
        omega

private theorem length_le_of_mem_pieces {depth : Int} {text piece : List Char}
    (h : piece ∈ pieces depth text) : piece.length ≤ text.length := by
  induction text generalizing depth piece with
  | nil =>
      simp only [pieces, List.mem_singleton] at h
      simp [h]
  | cons character rest ih =>
      rw [pieces] at h
      split at h
      · simp only [List.mem_cons] at h
        rcases h with rfl | h
        · simp
        · have := ih h
          simp
          omega
      · exact length_le_of_mem_onFirst (fun other hother => ih hother) h

private theorem length_le_of_mem_items {text item : List Char}
    (h : item ∈ items text) :
    item.length ≤ text.length :=
  length_le_of_mem_pieces (List.mem_filter.mp h).1

/-! ## Blanks and renames -/

/-- Put words together; an `as` between two words becomes `@`. -/
def joinWords : List (List Char) → List Char
  | [] => []
  | word :: ['a', 's'] :: next :: rest =>
      word ++ '@' :: joinWords (next :: rest)
  | word :: rest => word ++ joinWords rest

def compact (text : List Char) : List Char :=
  joinWords (Text.words text)

/-! ## Expansion -/

inductive Shape where
  | group (path : List Char) (items : List (List Char))
  | bare (items : List (List Char))
  | leaf (target : List Char) (rename : Option (List Char))

def openGroup : List Char := [':', ':', '\x7b']

def dropCrate (text : List Char) : List Char :=
  (Text.afterStart? "crate::".toList text).getD text

def closeGroup (text : List Char) : List (List Char) :=
  items (Text.dropEnd '\x7d' text)

def shape (text : List Char) : Shape :=
  match Text.cut? openGroup text with
  | some (path, rest) => .group path (closeGroup rest)
  | none =>
      match text with
      | '\x7b' :: rest => .bare (closeGroup rest)
      | _ =>
          match Text.cut? ['@'] text with
          | some (target, rename) => .leaf target (some rename)
          | none => .leaf text none

/-- The alias of a single path: its rename or its last segment.  The names `_`
and `*` bind nothing. -/
def leaf (path target : List Char) (rename : Option (List Char)) :
    List (List Char × List Char) :=
  let name := rename.getD (Name.lastSegment target)
  if name = [] ∨ name = ['_'] ∨ name = ['*'] then []
    else [(name, path ++ target)]

private theorem length_dropCrate_le (text : List Char) :
    (dropCrate text).length ≤ text.length := by
  unfold dropCrate
  cases h : Text.afterStart? "crate::".toList text with
  | none => simp
  | some rest =>
      have := Text.afterStart?_eq_some_iff.mp h
      simp [this]
      omega

private theorem length_dropEnd_le (mark : Char) (text : List Char) :
    (Text.dropEnd mark text).length ≤ text.length := by
  unfold Text.dropEnd
  split <;> simp

private theorem length_lt_of_mem_group {text path item : List Char}
    {items : List (List Char)} (h : shape text = .group path items)
    (hmem : item ∈ items) : item.length < text.length := by
  unfold shape at h
  split at h
  · next before rest hcut =>
      cases h
      have htext := Text.eq_append_of_cut? hcut
      have hitem := length_le_of_mem_items hmem
      have hend := length_dropEnd_le '\x7d' rest
      simp [htext, openGroup]
      omega
  · split at h
    · cases h
    · split at h <;> cases h

private theorem length_lt_of_mem_bare {text item : List Char}
    {items : List (List Char)} (h : shape text = .bare items)
    (hmem : item ∈ items) : item.length < text.length := by
  unfold shape at h
  split at h
  · cases h
  · split at h
    · next rest hcut =>
        cases h
        have hitem := length_le_of_mem_items hmem
        have hend := length_dropEnd_le '\x7d' rest
        simp
        omega
    · split at h <;> cases h

def expand (path text : List Char) : List (List Char × List Char) :=
  match _hshape : shape (dropCrate text) with
  | .group front items =>
      items.attach.flatMap fun ⟨item, _⟩ =>
        if item = "self".toList then [(Name.lastSegment front, path ++ front)]
        else expand (path ++ front ++ Name.separator) item
  | .bare items => items.attach.flatMap fun ⟨item, _⟩ => expand path item
  | .leaf target rename => leaf path target rename
termination_by text.length
decreasing_by
  · have := length_lt_of_mem_group _hshape (by assumption)
    have := length_dropCrate_le text
    omega
  · have := length_lt_of_mem_bare _hshape (by assumption)
    have := length_dropCrate_le text
    omega

theorem expand_group {path text front : List Char} {items : List (List Char)}
    (h : shape (dropCrate text) = .group front items) :
    expand path text = items.flatMap fun item =>
      if item = "self".toList then [(Name.lastSegment front, path ++ front)]
      else expand (path ++ front ++ Name.separator) item := by
  rw [expand]
  split
  · next h' =>
      cases h.symm.trans h'
      simp [List.flatMap_subtype]
  · next h' => cases h.symm.trans h'
  · next h' => cases h.symm.trans h'

theorem expand_bare {path text : List Char} {items : List (List Char)}
    (h : shape (dropCrate text) = .bare items) :
    expand path text = items.flatMap fun item => expand path item := by
  rw [expand]
  split
  · next h' => cases h.symm.trans h'
  · next h' =>
      cases h.symm.trans h'
      simp [List.flatMap_subtype]
  · next h' => cases h.symm.trans h'

theorem expand_leaf {path text target : List Char} {rename : Option (List Char)}
    (h : shape (dropCrate text) = .leaf target rename) :
    expand path text = leaf path target rename := by
  rw [expand]
  split
  · next h' => cases h.symm.trans h'
  · next h' => cases h.symm.trans h'
  · next h' =>
      cases h.symm.trans h'
      rfl

def ofUse (argument : String) : Table String String :=
  Table.ofList ((expand [] (compact argument.toList)).map fun (name, target) =>
    (String.ofList name, String.ofList target))

end FuzzReach.Alias
