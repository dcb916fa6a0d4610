import FuzzReach.Call.Event

/-!
# Events in pre-order

The events of some trees are those of their nodes in pre-order.  A node that
occurs in the pre-order listing is followed there by its own subtree.
-/

namespace FuzzReach

namespace Syntax.Node

theorem preorder_eq
    (node : Node) : node.preorder = node :: preorders node.children := by
  cases node
  rw [preorder]

theorem preorders_append (first second : List Node) :
    preorders (first ++ second) = preorders first ++ preorders second := by
  induction first with
  | nil => simp [preorders]
  | cons node rest ih => simp [preorders, ih]

theorem preorders_cons (node : Node) (rest : List Node) :
    preorders (node :: rest) = node :: preorders (node.children ++ rest) := by
  rw [preorders, preorder_eq, preorders_append]
  rfl

@[elab_as_elim]
theorem tree_induction {motive : Node → Prop} (node : Node)
    (step : ∀ node : Node, (∀ child ∈ node.children, motive child) →
      motive node) :
    motive node := by
  induction hsize : node.size using Nat.strongRecOn generalizing node with
  | ind size ih =>
      refine step node fun child hchild => ih child.size ?_ child rfl
      exact hsize ▸ size_lt_of_mem_children hchild

/-- A forest grows smaller when its first root is taken off and leaves its
children there. -/
@[elab_as_elim]
theorem forest_induction {motive : List Node → Prop} (nodes : List Node)
    (nil : motive []) (cons : ∀ node rest, motive (node.children ++ rest) →
      motive (node :: rest)) :
    motive nodes := by
  induction hsize : sizes nodes using Nat.strongRecOn generalizing nodes with
  | ind size ih =>
      cases nodes with
      | nil => exact nil
      | cons node rest =>
          refine cons node rest (ih (sizes (node.children ++ rest)) ?_ _ rfl)
          rw [← hsize, sizes_append, sizes, size_eq]
          omega

theorem subtree_of_preorders {trees before after : List Node} {node : Node}
    (h : preorders trees = before ++ node :: after) :
    ∃ later, after = preorders node.children ++ later := by
  induction trees using forest_induction generalizing before with
  | nil => simp [preorders] at h
  | cons head tail ih =>
      rw [preorders_cons] at h
      cases before with
      | nil =>
          obtain ⟨rfl, rfl⟩ := List.cons.inj h
          exact ⟨preorders tail, preorders_append _ _⟩
      | cons first rest => exact ih (List.cons.inj h).2

def childrenBefore (node : Node) (field : String) : List Node :=
  node.children.takeWhile fun child => child.field ≠ some field

private theorem children_eq_of_child? {node child : Node} {field : String}
    (h : node.child? field = some child) :
    ∃ after, node.children = node.childrenBefore field ++ child :: after := by
  obtain ⟨hfield, before, after, hchildren, hbefore⟩ :=
    List.find?_eq_some_iff_append.mp h
  refine ⟨after, ?_⟩
  rw [childrenBefore, hchildren,
    List.takeWhile_append_of_pos (by simpa using hbefore)]
  simp_all

theorem preorders_children_of_child? {node child : Node} {field : String}
    (h : node.child? field = some child) :
    ∃ rest, preorders node.children =
      preorders (node.childrenBefore field) ++ child ::
        (preorders child.children ++ rest) := by
  obtain ⟨after, hchildren⟩ := children_eq_of_child? h
  refine ⟨preorders after, ?_⟩
  rw [hchildren, preorders_append, preorders_cons, preorders_append]

end Syntax.Node

namespace Call

open Syntax

theorem gather_eq (bytes : Bytes) (offset : Offset) (pending : List Node)
    (found : Array Event) :
    (gather bytes offset pending found).toList =
      found.toList ++ (Node.preorders pending).filterMap
        (Event.ofNode? bytes offset) := by
  fun_induction gather bytes offset pending found with
  | case1 found => simp [Node.preorders]
  | case2 found node rest after ih =>
      rw [ih, Node.preorders_cons, List.filterMap_cons]
      cases hevent : Event.ofNode? bytes offset node with
      | none => simp [after, hevent]
      | some event => simp [after, hevent]

theorem flatMap_events (bytes : Bytes) (offset : Offset) (body : List Node) :
    body.flatMap (events bytes offset) =
      (Node.preorders body).filterMap (Event.ofNode? bytes offset) := by
  induction body with
  | nil => simp [Node.preorders]
  | cons node rest ih =>
      rw [List.flatMap_cons, ih, events, gather_eq]
      simp [Node.preorders]

end Call

end FuzzReach
