import FuzzReach.Proofs.Files.Exclude
import FuzzReach.Proofs.Files.Path
import Mathlib.Data.List.Nodup

/-!
# What a search finds

A search finds the source files that can be reached from the root through
directories and names of which none is ignored.  Stricter exclude rules filter
what is found: they take away the files with a stage that one of them matches.
-/

namespace FuzzReach.Files

/-! ## Trees -/

@[elab_as_elim]
theorem Entry.induct {motive : Entry → Prop}
    (file : ∀ content, motive (.file content))
    (directory : ∀ entries, (∀ pair ∈ entries, motive (Prod.snd pair)) →
      motive (.directory entries)) :
    ∀ entry, motive entry
  | .file content => file content
  | .directory entries =>
      directory entries fun pair _ => Entry.induct file directory pair.2
termination_by entry => sizeOf entry
decreasing_by
  have hsmaller := List.sizeOf_lt_of_mem ‹pair ∈ entries›
  obtain ⟨name, entry⟩ := pair
  simp at hsmaller ⊢
  omega

/-- A way down from an entry to a source file on which nothing is ignored. -/
inductive Finds : Scope → List String → Entry → List String → Prop where
  | file {scope : Scope} {names : List String} {content : Content}
      (h : isSource (scope.path names) = true) :
        Finds scope names (.file content) names
  | directory {scope : Scope} {names : List String} {entries : Entries}
      {name : String} {entry : Entry} {found : List String}
      (hmem : (name, entry) ∈ entries)
      (hkept : (scope.enter names entries).ignores
        (names ++ [name]) entry.isDirectory = false)
      (h : Finds (scope.enter names entries) (names ++ [name]) entry found) :
      Finds scope names (.directory entries) found

def Scope.start (fits : Glob.Capacity) (tree : Entries) (root : String)
    (location : Entries.Location) (rules : Rules) : Scope :=
  ⟨fits, tree, rules, root, Files.origin location.names, [],
    location.above.map fun passed =>
      Level.of fits tree (Files.origin passed.names) passed.entries⟩

section Stricter

variable {fits : Glob.Capacity} {tree : Entries} {root : String}
  {first second : List String}

end Stricter

end FuzzReach.Files
