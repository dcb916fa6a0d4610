/-!
# Cutting a text at a mark

`afterStart?` drops a mark that opens the text, `cut?` cuts at the first
occurrence of a mark and `cutLast?` at the last one.
-/

namespace FuzzReach.Text

def afterStart? : List Char → List Char → Option (List Char)
  | [], text => some text
  | _ :: _, [] => none
  | first :: mark, character :: text =>
      if first = character then afterStart? mark text else none

theorem afterStart?_eq_some_iff {mark text rest : List Char} :
    afterStart? mark text = some rest ↔ text = mark ++ rest := by
  induction mark generalizing text with
  | nil => simp [afterStart?, eq_comm]
  | cons first mark ih =>
      cases text with
      | nil => simp [afterStart?]
      | cons character text =>
          by_cases h : first = character
          · simp [afterStart?, h, ih]
          · simp [afterStart?, h, eq_comm]

def cut? (mark : List Char) : List Char → Option (List Char × List Char)
  | [] => (afterStart? mark []).map fun after => ([], after)
  | character :: rest =>
      match afterStart? mark (character :: rest) with
      | some after => some ([], after)
      | none =>
          (cut? mark rest).map fun (before, after) =>
            (character :: before, after)

def cutLast? (mark : List Char) : List Char → Option (List Char × List Char)
  | [] => (afterStart? mark []).map fun after => ([], after)
  | character :: rest =>
      match cutLast? mark rest with
      | some (before, after) => some (character :: before, after)
      | none =>
          (afterStart? mark (character :: rest)).map fun after => ([], after)

theorem eq_append_of_cut? {mark text before after : List Char}
    (h : cut? mark text = some (before, after)) :
    text = before ++ mark ++ after := by
  induction text generalizing before with
  | nil =>
      obtain ⟨rest, hrest, heq⟩ := Option.map_eq_some_iff.mp h
      cases heq
      simpa using afterStart?_eq_some_iff.mp hrest
  | cons character text ih =>
      simp only [cut?] at h
      split at h
      · next rest hrest =>
          cases h
          simpa using afterStart?_eq_some_iff.mp hrest
      · next =>
          obtain ⟨⟨front, back⟩, hcut, heq⟩ := Option.map_eq_some_iff.mp h
          cases heq
          simpa using ih hcut

theorem eq_append_of_cutLast? {mark text before after : List Char}
    (h : cutLast? mark text = some (before, after)) :
    text = before ++ mark ++ after := by
  induction text generalizing before with
  | nil =>
      obtain ⟨rest, hrest, heq⟩ := Option.map_eq_some_iff.mp h
      cases heq
      simpa using afterStart?_eq_some_iff.mp hrest
  | cons character text ih =>
      simp only [cutLast?] at h
      split at h
      · next front back hcut =>
          cases h
          simpa using ih hcut
      · next =>
          obtain ⟨rest, hrest, heq⟩ := Option.map_eq_some_iff.mp h
          cases heq
          simpa using afterStart?_eq_some_iff.mp hrest

def before (mark text : List Char) : List Char :=
  ((cut? mark text).map Prod.fst).getD text

def afterLast (mark text : List Char) : List Char :=
  ((cutLast? mark text).map Prod.snd).getD text

def dropEnd (mark : Char) (text : List Char) : List Char :=
  if text.getLast? = some mark then text.dropLast else text

def contains (part text : List Char) : Bool :=
  (cut? part text).isSome

def endsWith (ending text : String) : Bool :=
  ending.toList.isSuffixOf text.toList

end FuzzReach.Text
