/-!
# Depth-first walks

A walk takes pending items one at a time and notes each of them.  The first item
with a given key is expanded: the items that follow from it come next.  Later
items with that key, and items without a key, are only noted.  The keys still to
be seen are listed beforehand, which bounds the walk on any graph.
-/

namespace FuzzReach.Graph

structure Visit (α : Type) where
  item : α
  expanded : Bool

variable {α κ : Type} [DecidableEq κ]

def without (key : κ) (keys : List κ) : List κ :=
  keys.filter (· ≠ key)

theorem length_without_lt {key : κ} {keys : List κ} (h : key ∈ keys) :
    (without key keys).length < keys.length := by
  unfold without
  rw [List.length_filter_lt_length_iff_exists]
  exact ⟨key, h, by simp⟩

/-- Walk through `pending`; `unseen` are the keys that may still be expanded. -/
def trail (key? : α → Option κ) (next : α → List α) (unseen : List κ)
    (pending : List α) :
    List (Visit α) :=
  match pending with
  | [] => []
  | item :: rest =>
      match key? item with
      | none => ⟨item, false⟩ :: trail key? next unseen rest
      | some key =>
          if _hkey : key ∈ unseen then
            ⟨item, true⟩ :: trail key? next (without key unseen)
              (next item ++ rest)
          else ⟨item, false⟩ :: trail key? next unseen rest
termination_by (unseen.length, pending.length)
decreasing_by
  · exact Prod.Lex.right _ (by simp)
  · exact Prod.Lex.left _ _ (length_without_lt _hkey)
  · exact Prod.Lex.right _ (by simp)

def expansions (visits : List (Visit α)) : List α :=
  (visits.filter Visit.expanded).map Visit.item

def reach (next : κ → List κ) (nodes : List κ) (start : κ) : List κ :=
  expansions (trail some next nodes [start])

end FuzzReach.Graph
