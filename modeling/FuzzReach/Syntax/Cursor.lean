import FuzzReach.Syntax.Node

/-!
# Cursors

A cursor stands on a node of a tree and remembers the way down to it: for every
step the parent and the siblings still to the right.  Following `next?` from the
root visits the tree in pre-order without recursion on the tree.
-/

namespace FuzzReach.Syntax

structure Crumb where
  parent : Node
  after : List Node

structure Cursor where
  focus : Node
  trail : List Crumb

namespace Cursor

/-- On the root of a tree.  A cursor never leaves the tree that it started
on. -/
def ofRoot (root : Node) : Cursor :=
  ⟨root, []⟩

def firstChild? (cursor : Cursor) : Option Cursor :=
  match cursor.focus.children with
  | [] => none
  | child :: rest => some ⟨child, ⟨cursor.focus, rest⟩ :: cursor.trail⟩

def nextSibling? (cursor : Cursor) : Option Cursor :=
  match cursor.trail with
  | ⟨parent, sibling :: rest⟩ :: trail =>
      some ⟨sibling, ⟨parent, rest⟩ :: trail⟩
  | _ => none

def parent? (cursor : Cursor) : Option Cursor :=
  match cursor.trail with
  | [] => none
  | crumb :: trail => some ⟨crumb.parent, trail⟩

/-- The next sibling of the node at the end of a way down, or else of the
closest ancestor that has one. -/
def climb : List Crumb → Option Cursor
  | [] => none
  | ⟨parent, sibling :: rest⟩ :: trail =>
      some ⟨sibling, ⟨parent, rest⟩ :: trail⟩
  | ⟨_, []⟩ :: trail => climb trail

def next? (cursor : Cursor) : Option Cursor :=
  match cursor.firstChild? with
  | some child => some child
  | none => climb cursor.trail

/-! ## What is left to visit -/

def pending : List Crumb → Nat
  | [] => 0
  | crumb :: trail => Node.sizes crumb.after + pending trail

def remaining (cursor : Cursor) : Nat :=
  cursor.focus.size + pending cursor.trail

private theorem remaining_of_climb {trail : List Crumb} {cursor : Cursor}
    (h : climb trail = some cursor) : cursor.remaining = pending trail := by
  induction trail with
  | nil => cases h
  | cons crumb trail ih =>
      obtain ⟨parent, after⟩ := crumb
      cases after with
      | nil =>
          rw [ih h]
          simp [pending, Node.sizes]
      | cons sibling rest =>
          cases h
          simp [remaining, pending, Node.sizes]
          omega

private theorem remaining_of_next? {cursor next : Cursor}
    (h : cursor.next? = some next) :
    next.remaining + 1 = cursor.remaining := by
  obtain ⟨focus, trail⟩ := cursor
  have hsize := Node.size_eq focus
  unfold next? firstChild? at h
  cases hchildren : focus.children with
  | nil =>
      simp only [hchildren] at h
      rw [remaining_of_climb h]
      simp [remaining, hsize, hchildren, Node.sizes]
      omega
  | cons child rest =>
      simp only [hchildren, Option.some.injEq] at h
      subst h
      simp [remaining, pending, hsize, hchildren, Node.sizes]
      omega

/-! ## Counting -/

def countFrom (matching : String → Bool) (cursor : Cursor)
    (count : Nat) : Nat :=
  let count := if matching cursor.focus.kind then count + 1 else count
  match _hnext : cursor.next? with
  | some next => countFrom matching next count
  | none => count
termination_by cursor.remaining
decreasing_by
  have := remaining_of_next? _hnext
  omega

end Cursor

def Node.count (matching : String → Bool) (root : Node) : Nat :=
  Cursor.countFrom matching (Cursor.ofRoot root) 0

end FuzzReach.Syntax
