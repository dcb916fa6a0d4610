import FuzzReach.Proofs.Call.Shift
import Mathlib.Computability.StateTransition

/-!
# Events by recursion and by a stack

By recursion, a tree gives the event of its root and then the events of its
children, from left to right.  The loop keeps the nodes that it has still to
look at on a stack: each round takes the last one and puts its children there
from right to left, so that the leftmost child comes next.  The loop stops with
the events of the recursion behind those that it started with.
-/

namespace FuzzReach.Call

open Syntax

/-! ## Recursion -/

section Recursion

variable (bytes : Bytes) (offset : Offset)

mutual

def traverse : Node → List Event
  | ⟨kind, field, named, span, children⟩ =>
      (Event.ofNode? bytes offset
        ⟨kind, field, named, span, children⟩).toList ++
        traverseAll children

def traverseAll : List Node → List Event
  | [] => []
  | node :: rest => traverse node ++ traverseAll rest

end

private theorem traverse_eq (node : Node) :
    traverse bytes offset node =
      (Event.ofNode? bytes offset node).toList ++
        traverseAll bytes offset node.children := by
  cases node
  rw [traverse]

private theorem traverseAll_append (first second : List Node) :
    traverseAll bytes offset (first ++ second) =
      traverseAll bytes offset first ++ traverseAll bytes offset second := by
  induction first with
  | nil => simp [traverseAll]
  | cons node rest ih => simp [traverseAll, ih]

private theorem traverseAll_cons (node : Node) (rest : List Node) :
    traverseAll bytes offset (node :: rest) =
      (Event.ofNode? bytes offset node).toList ++
        traverseAll bytes offset (node.children ++ rest) := by
  rw [traverseAll, traverse_eq, traverseAll_append, List.append_assoc]

private theorem traverseAll_eq_filterMap (nodes : List Node) :
    traverseAll bytes offset nodes =
      (Node.preorders nodes).filterMap (Event.ofNode? bytes offset) := by
  induction nodes using Node.forest_induction with
  | nil => simp [traverseAll, Node.preorders]
  | cons node rest ih =>
      rw [traverseAll_cons, ih, Node.preorders_cons, List.filterMap_cons]
      cases Event.ofNode? bytes offset node <;> rfl

private theorem traverseAll_singleton (root : Node) :
    traverseAll bytes offset [root] = traverse bytes offset root := by
  simp [traverseAll]

private theorem gather_eq_append_traverse (root : Node) (found : Array Event) :
    (gather bytes offset [root] found).toList =
      found.toList ++ traverse bytes offset root := by
  rw [gather_eq, ← traverseAll_eq_filterMap, traverseAll_singleton]

private theorem traverse_eq_map_shift (root : Node) :
    traverse bytes offset root =
      (traverse bytes .zero root).map (Event.shift offset.byte offset.row) := by
  have hevents : ∀ offset,
      events bytes offset root = traverse bytes offset root := by
    intro offset
    rw [events, gather_eq_append_traverse]
    rfl
  have hoffset : Offset.zero.shift offset.byte offset.row = offset := by
    simp [Offset.shift, Offset.zero]
  rw [← hevents, ← hevents, ← events_offset, hoffset]

end Recursion

/-! ## A stack -/

/-- What the loop keeps from round to round: the nodes that it has still to look
at, the next one last, and the events found so far. -/
structure Worklist where
  stack : List Node
  found : List Event

namespace Worklist

variable (bytes : Bytes) (offset : Offset)

/-- One round takes the last node off the stack, notes its event and puts its
children on the stack from right to left.  There is none if the stack is
empty. -/
def round? (work : Worklist) : Option Worklist :=
  match work.stack.getLast? with
  | none => none
  | some node =>
      some {
        stack := work.stack.dropLast ++ node.children.reverse
        found := work.found ++ (Event.ofNode? bytes offset node).toList }

private theorem round?_top (stack : List Node) (node : Node)
    (found : List Event) :
    round? bytes offset ⟨stack ++ [node], found⟩ =
      some ⟨stack ++ node.children.reverse,
        found ++ (Event.ofNode? bytes offset node).toList⟩ := by
  simp [round?]

/-- The trees on top of the stack are worked off from left to right; what lies
below them stays. -/
theorem reaches_traverseAll (stack nodes : List Node) (found : List Event) :
    StateTransition.Reaches (round? bytes offset)
      ⟨stack ++ nodes.reverse, found⟩
      ⟨stack, found ++ traverseAll bytes offset nodes⟩ := by
  induction nodes using Node.forest_induction generalizing found with
  | nil =>
      simp only [List.reverse_nil, traverseAll, List.append_nil]
      exact .refl
  | cons node rest ih =>
      -- Reversed, the children lie above the rest just as they stand before it
      -- in the forest.
      have hround := round?_top bytes offset (stack ++ rest.reverse) node found
      have hrest := ih (found ++ (Event.ofNode? bytes offset node).toList)
      rw [List.append_assoc, ← List.reverse_cons, List.append_assoc,
        ← List.reverse_append] at hround
      rw [List.append_assoc, ← traverseAll_cons] at hrest
      exact .head hround hrest

private theorem eval_round? (root : Node) (found : List Event) :
    StateTransition.eval (round? bytes offset) ⟨[root], found⟩ =
      Part.some ⟨[], found ++ traverse bytes offset root⟩ := by
  have hreaches := reaches_traverseAll bytes offset [] [root] found
  rw [traverseAll_singleton] at hreaches
  exact Part.eq_some_iff.mpr (StateTransition.mem_eval.mpr ⟨hreaches, rfl⟩)

end Worklist

/-! ## Places as they are shown -/

private theorem positionNumber_add (position bytes : Nat) :
    positionNumber (position + bytes) =
      (positionNumber position + bytes) % 0x10000000000000000 :=
  (Nat.mod_add_mod ..).symm

private theorem lineNumber_add (line rows : Nat) :
    lineNumber (line + rows) =
      Int.bmod (lineNumber line + rows) 0x10000000000000000 := by
  unfold lineNumber
  rw [Int.natCast_add]
  exact Int.bmod_add_bmod.symm

structure Mark where
  position : Nat
  line : Int
  deriving DecidableEq, Repr

/-- A binding is shown without its place. -/
def Event.mark? : Event → Option Mark
  | .call _ position line => some ⟨positionNumber position, lineNumber line⟩
  | .bind _ _ => none
  | .invoke _ position line => some ⟨positionNumber position, lineNumber line⟩

-- Sums that do not fit into 64 bits wrap around.
def Mark.shift (bytes rows : Nat) (mark : Mark) : Mark :=
  ⟨(mark.position + bytes) % 0x10000000000000000,
    Int.bmod (mark.line + rows) 0x10000000000000000⟩

private theorem Event.mark?_shift (bytes rows : Nat) (event : Event) :
    (event.shift bytes rows).mark? =
      event.mark?.map (Mark.shift bytes rows) := by
  cases event with
  | call | invoke =>
      rw [Event.shift, mark?, mark?, Option.map_some, Mark.shift,
        positionNumber_add, lineNumber_add]
  | bind => rfl

/-! ## The loop and the recursion -/

/-- The loop stops with what was there and the events of the recursion behind
it.  With an offset these are the events without it, later by as many bytes and
rows. -/
theorem gather_traverses (bytes : Bytes) (offset : Offset) (root : Node)
    (found : Array Event) :
    StateTransition.eval (Worklist.round? bytes offset) ⟨[root], found.toList⟩ =
        Part.some ⟨[], (gather bytes offset [root] found).toList⟩ ∧
      (gather bytes offset [root] found).toList =
        found.toList ++ traverse bytes offset root ∧
      traverse bytes offset root =
        (traverse bytes .zero root).map (Event.shift offset.byte offset.row) ∧
      (traverse bytes offset root).map Event.mark? =
        (traverse bytes .zero root).map fun event =>
          event.mark?.map (Mark.shift offset.byte offset.row) := by
  have hgather := gather_eq_append_traverse bytes offset root found
  have hshift := traverse_eq_map_shift bytes offset root
  refine ⟨?_, hgather, hshift, ?_⟩
  · rw [hgather, Worklist.eval_round?]
  · rw [hshift, List.map_map]
    exact List.map_congr_left fun event _ => Event.mark?_shift _ _ event

end FuzzReach.Call
