import FuzzReach.Alias

/-!
# Use trees

The grammar behind the argument of a `use` declaration: what trees there are,
how they are spelled and which names they bind.  Blanks may stand between any
two tokens; words that would run together need them.
-/

namespace FuzzReach.Alias

def punctuation : List Char :=
  ['\x7b', '\x7d', ':', ',', '*', '@']

def isLetter (character : Char) : Bool :=
  !Text.isBlank character && !punctuation.contains character

def reserved : List (List Char) :=
  ["as".toList, "crate".toList, "_".toList]

/-- A word that can stand in a path.  `self` and `super` are such words too. -/
structure Segment where
  letters : List Char
  ne_nil : letters ≠ []
  allLetters : letters.all isLetter = true
  notReserved : letters ∉ reserved

theorem Segment.isLetter_of_mem (segment : Segment) :
    ∀ character ∈ segment.letters, isLetter character = true :=
  List.all_eq_true.mp segment.allLetters

inductive Rename where
  | none
  | name (segment : Segment)
  | underscore

/-- A path has a last segment.  In a glob and in front of a group there may be
no path at all. -/
inductive UseTree where
  | leaf (front : List Segment) (last : Segment) (rename : Rename)
  | glob (front : List Segment)
  | group (front : List Segment) (items : List UseTree) (comma : Bool)

structure UseDeclaration where
  fromCrate : Bool
  tree : UseTree

namespace UseTree

@[elab_as_elim, induction_eliminator]
theorem induction {motive : UseTree → Prop}
    (leaf : ∀ front last rename, motive (.leaf front last rename))
    (glob : ∀ front, motive (.glob front))
    (group : ∀ front items comma, (∀ item ∈ items, motive item) →
      motive (.group front items comma))
    (tree : UseTree) : motive tree :=
  match tree with
  | .leaf front last rename => leaf front last rename
  | .glob front => glob front
  | .group front items comma =>
      group front items comma fun item _hitem => induction leaf glob group item
termination_by tree
decreasing_by
  have := List.sizeOf_lt_of_mem _hitem
  simp only [UseTree.group.sizeOf_spec]
  omega

/-- In a group, the word `self` alone stands for the path of the group. -/
def isSelf : UseTree → Bool
  | .leaf [] last .none => last.letters = "self".toList
  | _ => false

end UseTree

/-! ## Spelling -/

inductive Token where
  | crate
  | word (segment : Segment)
  | rename (name : Option Segment)
  | separator
  | star
  | opening
  | closing
  | comma

namespace Token

def target : Option Segment → List Char
  | some segment => segment.letters
  | .none => ['_']

def mark : Token → List Char
  | .crate => "crate".toList
  | .word segment => segment.letters
  | .rename name => '@' :: target name
  | .separator => Name.separator
  | .star => ['*']
  | .opening => ['\x7b']
  | .closing => ['\x7d']
  | .comma => [',']

def isWord : Token → Bool
  | .crate | .word _ | .rename _ => true
  | _ => false

end Token

def IsGap (gap : List Char) : Prop :=
  ∀ character ∈ gap, Text.isBlank character = true

def Token.Spelled (text : List Char) : Token → Prop
  | .rename name =>
    ∃ gap, IsGap gap ∧ gap ≠ [] ∧ text = ['a', 's'] ++ gap ++ target name
  | token => text = token.mark

def Token.needsGap (afterWord : Bool) : Token → Bool
  | .rename _ => true
  | token => afterWord && token.isWord

/-- The text spells the tokens; `afterWord` tells whether a word stands right
before it. -/
inductive Spells : Bool → List Token → List Char → Prop where
  | done {afterWord : Bool} {gap : List Char} (hgap : IsGap gap) :
      Spells afterWord [] gap
  | next {afterWord : Bool} {gap text rest : List Char} {token : Token}
      {tokens : List Token}
      (hgap : IsGap gap) (hneeds : token.needsGap afterWord = true → gap ≠ [])
      (htoken : token.Spelled text) (hrest : Spells token.isWord tokens rest) :
      Spells afterWord (token :: tokens) (gap ++ text ++ rest)

def leadTokens (front : List Segment) : List Token :=
  front.flatMap fun segment => [.word segment, .separator]

def Rename.tokens : Rename → List Token
  | .none => []
  | .name segment => [.rename (some segment)]
  | .underscore => [.rename Option.none]

mutual

def UseTree.tokens : UseTree → List Token
  | .leaf front last rename => leadTokens front ++ .word last :: rename.tokens
  | .glob front => leadTokens front ++ [.star]
  | .group front items comma =>
      leadTokens front ++ .opening :: (UseTree.itemTokens items ++
        (if comma then [.comma] else []) ++ [.closing])

def UseTree.itemTokens : List UseTree → List Token
  | [] => []
  | [item] => item.tokens
  | item :: rest => item.tokens ++ .comma :: UseTree.itemTokens rest

end

def UseDeclaration.tokens (declaration : UseDeclaration) : List Token :=
  (if declaration.fromCrate then [.crate, .separator] else []) ++
    declaration.tree.tokens

def UseDeclaration.Spells (declaration : UseDeclaration)
    (text : String) : Prop :=
  Alias.Spells false declaration.tokens text.toList

/-! ## Reading a spelling -/

def Token.rest? (text : List Char) : Token → Option (List Char)
  | .rename name => do
      let rest ← Text.afterStart? ['a', 's'] text
      if rest.head?.any Text.isBlank
        then Text.afterStart? (target name) (Text.trimStart rest)
      else none
  | token => Text.afterStart? token.mark text

def reads (afterWord : Bool) : List Token → List Char → Bool
  | [], text => text.all Text.isBlank
  | token :: tokens, text =>
      (!token.needsGap afterWord || text.head?.any Text.isBlank) &&
        match token.rest? (Text.trimStart text) with
        | some rest => reads token.isWord tokens rest
        | none => false

private theorem isGap_takeWhile (text : List Char) :
    IsGap (text.takeWhile Text.isBlank) :=
  fun _ hmem => List.all_eq_true.mp List.all_takeWhile _ hmem

private theorem takeWhile_ne_nil {text : List Char}
    (h : text.head?.any Text.isBlank = true) :
    text.takeWhile Text.isBlank ≠ [] := by
  cases text with
  | nil => simp at h
  | cons character text =>
      have hblank : Text.isBlank character = true := by simpa using h
      simp [hblank]

private theorem Token.spelled_of_rest? {token : Token} {text rest : List Char}
    (h : token.rest? text = some rest) :
    ∃ word, token.Spelled word ∧ text = word ++ rest := by
  cases token with
  | rename name =>
      obtain ⟨afterAs, has, h⟩ := Option.bind_eq_some_iff.mp h
      split at h
      · next hblank =>
          refine ⟨_, ⟨afterAs.takeWhile Text.isBlank, isGap_takeWhile afterAs,
            takeWhile_ne_nil hblank, rfl⟩, ?_⟩
          have htarget := Text.afterStart?_eq_some_iff.mp h
          rw [Text.afterStart?_eq_some_iff.mp has, List.append_assoc,
            List.append_assoc, ← htarget, Text.trimStart,
            List.takeWhile_append_dropWhile]
      · cases h
  | _ => exact ⟨_, rfl, Text.afterStart?_eq_some_iff.mp h⟩

theorem spells_of_reads {afterWord : Bool} {tokens : List Token}
    {text : List Char} (h : reads afterWord tokens text = true) :
    Spells afterWord tokens text := by
  induction tokens generalizing afterWord text with
  | nil =>
      exact .done fun character hmem => List.all_eq_true.mp h character hmem
  | cons token tokens ih =>
      rw [reads, Bool.and_eq_true, Bool.or_eq_true] at h
      obtain ⟨hneeds, h⟩ := h
      split at h
      · next rest hrest =>
          obtain ⟨word, hword, htext⟩ := Token.spelled_of_rest? hrest
          have hsplit : text = text.takeWhile Text.isBlank ++ word ++ rest := by
            rw [List.append_assoc, ← htext, Text.trimStart,
              List.takeWhile_append_dropWhile]
          rw [hsplit]
          refine .next (isGap_takeWhile text) (fun hgap => ?_) hword (ih h)
          exact takeWhile_ne_nil (by simpa [hgap] using hneeds)
      · cases h

/-! ## Meaning -/

def Segment.name (segment : Segment) : String :=
  String.ofList segment.letters

def pathName (path : List Segment) : String :=
  Name.join (path.map Segment.name)

def Rename.bound? (last : Segment) : Rename → Option Segment
  | .none => some last
  | .name segment => some segment
  | .underscore => Option.none

mutual

def UseTree.bindings (path : List Segment) : UseTree → List (String × String)
  | .leaf front last rename =>
      (rename.bound? last).toList.map fun bound =>
        (bound.name, pathName (path ++ front ++ [last]))
  | .glob _ => []
  | .group front items _ => UseTree.itemBindings (path ++ front) front items

/-- The names bound by the items of a group; `path` leads to the group and ends
with `front`. -/
def UseTree.itemBindings (path front : List Segment) :
    List UseTree → List (String × String)
  | [] => []
  | item :: rest =>
      (if item.isSelf then front.getLast?.toList.map fun last =>
        (last.name, pathName path)
        else item.bindings path) ++ UseTree.itemBindings path front rest

end

/-- Every group has a path in front of it, and no `self` gets another name. -/
inductive UseTree.Prefixed : UseTree → Prop where
  | leaf {front : List Segment} {last : Segment} {rename : Rename}
      (hself : front = [] → last.letters = "self".toList →
        ∀ name, rename ≠ .name name) :
      Prefixed (.leaf front last rename)
  | glob {front : List Segment} : Prefixed (.glob front)
  | group {front : List Segment} {items : List UseTree} {comma : Bool}
      (hfront : front ≠ []) (hitems : ∀ item ∈ items, item.Prefixed) :
        Prefixed (.group front items comma)

end FuzzReach.Alias
