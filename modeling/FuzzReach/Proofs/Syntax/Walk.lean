import FuzzReach.Proofs.Syntax.Count
import Mathlib.Algebra.GroupWithZero.Nat
import Mathlib.Computability.StateTransition

/-!
# Walks of a cursor

A walk enters a node, counts it and goes down to its first child.  It leaves a
node for the next sibling or else for the parent, which it then leaves in turn.
Between entering a node and leaving it, the walk has counted the tree below the
node and nothing else, so it has the number of that tree when it leaves the node
that it started on.
-/

namespace FuzzReach.Syntax

/-! ## Counts add up -/

namespace Node

private theorem countP_preorders (matching : String → Bool)
    (nodes : List Node) :
    ((preorders nodes).countP fun node => matching node.kind) =
      (nodes.map (count matching)).sum := by
  induction nodes with
  | nil => simp [preorders]
  | cons node rest ih => simp [preorders, ih, count_eq]

theorem count_eq_sum (matching : String → Bool) (node : Node) :
    node.count matching =
      (if matching node.kind then 1 else 0) +
        (node.children.map (count matching)).sum := by
  rw [count_eq, preorder_eq, List.countP_cons, countP_preorders, Nat.add_comm]

end Node

/-! ## Moves -/

/-- The numbers of siblings to the right of a way down tell the nodes of a tree
apart. -/
def Cursor.place (cursor : Cursor) : List Nat :=
  cursor.trail.map fun crumb => crumb.after.length

inductive Stage where
  | enter
  | leave

structure Walk where
  cursor : Cursor
  stage : Stage
  count : Nat

namespace Walk

def move? (matching : String → Bool) (start : Cursor)
    (walk : Walk) : Option Walk :=
  match walk.stage with
  | .enter =>
      let count := walk.count + if matching walk.cursor.focus.kind then 1 else 0
      match walk.cursor.firstChild? with
      | some child => some ⟨child, .enter, count⟩
      | none => some ⟨walk.cursor, .leave, count⟩
  | .leave =>
      if walk.cursor.place = start.place then none
      else
        match walk.cursor.nextSibling? with
        | some sibling => some ⟨sibling, .enter, walk.count⟩
        | none =>
            walk.cursor.parent?.map fun parent => ⟨parent, .leave, walk.count⟩

section Moves

variable (matching : String → Bool) {start : Cursor} {trail : List Crumb}
  (count : Nat)

private theorem move?_enter_leaf {node : Node} (h : node.children = []) :
    move? matching start ⟨⟨node, trail⟩, .enter, count⟩ =
      some ⟨⟨node, trail⟩, .leave,
        count + if matching node.kind then 1 else 0⟩ := by
  simp [move?, Cursor.firstChild?, h]

private theorem move?_enter_inner {node child : Node} {rest : List Node}
    (h : node.children = child :: rest) :
    move? matching start ⟨⟨node, trail⟩, .enter, count⟩ =
      some ⟨⟨child, ⟨node, rest⟩ :: trail⟩, .enter,
        count + if matching node.kind then 1 else 0⟩ := by
  simp [move?, Cursor.firstChild?, h]

private theorem place_ne_of_below (hbelow : start.trail.length ≤ trail.length)
    (node : Node)
    (crumb : Crumb) : Cursor.place ⟨node, crumb :: trail⟩ ≠ start.place := by
  intro heq
  have hlength := congrArg List.length heq
  simp only [Cursor.place, List.length_map, List.length_cons] at hlength
  omega

private theorem move?_leave_next (hbelow : start.trail.length ≤ trail.length)
    (parent node sibling : Node) (rest : List Node) :
    move? matching start ⟨⟨node, ⟨parent, sibling :: rest⟩ :: trail⟩, .leave,
      count⟩ =
      some ⟨⟨sibling, ⟨parent, rest⟩ :: trail⟩, .enter, count⟩ := by
  simp [move?, place_ne_of_below hbelow, Cursor.nextSibling?]

private theorem move?_leave_last (hbelow : start.trail.length ≤ trail.length)
    (parent node : Node) :
    move? matching start ⟨⟨node, ⟨parent, []⟩ :: trail⟩, .leave, count⟩ =
      some ⟨⟨parent, trail⟩, .leave, count⟩ := by
  simp [move?, place_ne_of_below hbelow, Cursor.nextSibling?, Cursor.parent?]

end Moves

/-! ## Runs -/

section Runs

variable (matching : String → Bool) (start : Cursor)

/-- Somewhere below the start, the walk enters a node and comes to leave it with
the number of its tree. -/
def Counts (node : Node) : Prop :=
  ∀ (trail : List Crumb) (count : Nat), start.trail.length ≤ trail.length →
    StateTransition.Reaches (move? matching start)
      ⟨⟨node, trail⟩, .enter, count⟩
      ⟨⟨node, trail⟩, .leave, count + node.count matching⟩

variable {matching start}

private theorem reaches_parent {child : Node} {rest : List Node}
    (h : ∀ node ∈ child :: rest, Counts matching start node) (parent : Node)
    {trail : List Crumb} (hbelow : start.trail.length ≤ trail.length)
    (count : Nat) :
    StateTransition.Reaches (move? matching start)
      ⟨⟨child, ⟨parent, rest⟩ :: trail⟩, .enter, count⟩
      ⟨⟨parent, trail⟩, .leave,
        count + ((child :: rest).map (Node.count matching)).sum⟩ := by
  -- A child is left with the crumb that it was entered with, which still has
  -- its later siblings.
  induction rest generalizing child count with
  | nil =>
      have hchild := h child (by simp) (⟨parent, []⟩ :: trail) count
        (Nat.le_succ_of_le hbelow)
      refine hchild.tail ?_
      rw [List.map_singleton, List.sum_singleton]
      exact move?_leave_last matching _ hbelow parent child
  | cons sibling rest ih =>
      obtain ⟨hfirst, hothers⟩ := List.forall_mem_cons.mp h
      have hchild := hfirst (⟨parent, sibling :: rest⟩ :: trail) count
        (Nat.le_succ_of_le hbelow)
      have hnext :=
        move?_leave_next matching (count + child.count matching) hbelow parent
          child sibling rest
      have hrest := ih hothers (count + child.count matching)
      rw [List.map_cons, List.sum_cons, ← Nat.add_assoc]
      exact (hchild.tail hnext).trans hrest

variable (matching start) in
theorem counts (node : Node) : Counts matching start node := by
  induction node using Node.tree_induction with
  | step node ih =>
      intro trail count hbelow
      rw [Node.count_eq_sum, ← Nat.add_assoc]
      cases hchildren : node.children with
      | nil => exact .single (move?_enter_leaf matching count hchildren)
      | cons child rest =>
          rw [hchildren] at ih
          exact .head (move?_enter_inner matching count hchildren)
            (reaches_parent ih node hbelow _)

end Runs

/-- The walk stops on the node that it started on, wherever that stands, and has
counted its tree. -/
theorem eval_move? (matching : String → Bool) (start : Cursor) :
    StateTransition.eval (move? matching start) ⟨start, .enter, 0⟩ =
      Part.some ⟨start, .leave, start.focus.count matching⟩ := by
  have hreaches :=
    counts matching start start.focus start.trail 0 (Nat.le_refl _)
  rw [Nat.zero_add] at hreaches
  exact Part.eq_some_iff.mpr
    (StateTransition.mem_eval.mpr ⟨hreaches, by simp [move?]⟩)

end Walk

end FuzzReach.Syntax
