import FuzzReach.Proofs.Extract.Attribution
import FuzzReach.Proofs.Extract.Containers
import FuzzReach.Proofs.Syntax.Walk
import Mathlib.Algebra.Order.BigOperators.Group.List
import Mathlib.Data.List.Flatten

/-!
# Metrics of functions

Both metrics count the tree of a node and nothing beside or above it.  They add
up over children, so a function measures at least as much as the functions in
its body together.
-/

namespace FuzzReach.Extract

open Syntax

/-! ## Subtrees -/

private theorem filter_places_perm (tree : Node) (address : Address) :
    (tree.places.filter fun place => address <+: place).Perm
      (placesBelow tree address) := by
  -- No place is listed twice on either side, so it is enough to compare what is
  -- listed.
  refine (List.perm_ext_iff_of_nodup (tree.nodup_places.filter _)
    (nodup_placesBelow tree address)).mpr fun place => ?_
  rw [mem_placesBelow, List.mem_filter, Node.mem_places, decide_eq_true_eq,
    and_comm]

private theorem count_eq_countP_places {tree node : Node} {address : Address}
    (h : tree.at? address = some node) (matching : String → Bool) :
    node.count matching =
      (tree.places.filter fun place => address <+: place).countP fun place =>
        (tree.at? place).any fun below => matching below.kind := by
  have hbelow : placesBelow tree address = node.places.map (address ++ ·) := by
    simp [placesBelow, h]
  have hplace : ∀ rest,
      ((node.at? rest).map fun below => matching below.kind).getD false =
      (tree.at? (address ++ rest)).any fun below => matching below.kind := by
    intro rest
    rw [Node.at?_append, h, Option.bind_some]
    cases node.at? rest <;> rfl
  rw [(filter_places_perm tree address).countP_eq, hbelow, List.countP_map,
    Node.count_eq, ← Node.filterMap_at?_places, List.countP_filterMap]
  simp only [Function.comp_def, hplace]

/-! ## Functions -/

def declaredInside (source : Source) (path : String) (outer : Function)
    (node : Node) :
    List Function :=
  (innerFunctions node).filterMap (functionOf? source path [outer.name])

section Functions

variable {source : Source} {path : String} {scope : List String} {node : Node}
  {declared : Function}

private theorem metrics_of_functionOf?
    (h : functionOf? source path scope node = some declared) :
    declared.complexity = node.count isBranch ∧
      declared.instructions = node.count isExpression := by
  obtain ⟨name, -, h⟩ := Option.bind_eq_some_iff.mp h
  cases h
  exact ⟨rfl, rfl⟩

private theorem declaredInside_sublist
    (h : functionOf? source path scope node = some declared) :
    (declared :: declaredInside source path declared node).Sublist
      (function source path scope node) := by
  have hown : ∀ inner ∈ innerFunctions node,
      (functionOf? source path [declared.name] inner).toList.Sublist
        (function source path [declared.name] inner) := by
    intro inner _
    rw [function_eq]
    cases functionOf? source path [declared.name] inner with
    | none => exact List.Sublist.refl _
    | some function => exact (List.nil_sublist _).cons_cons function
  rw [function_eq, h, declaredInside, List.filterMap_eq_flatMap_toList]
  exact (List.Sublist.flatMap_right _ hown).cons_cons declared

private theorem sum_innerFunctions_le (matching : String → Bool) (node : Node) :
    ((innerFunctions node).map (Node.count matching)).sum ≤
      node.count matching := by
  have hitems : ((innerFunctions node).map (Node.count matching)).sum ≤
      ((bodyItems node).map (Node.count matching)).sum :=
    (List.filter_sublist.map _).sum_le_sum fun _ _ => Nat.zero_le _
  refine hitems.trans ?_
  unfold bodyItems
  split
  · exact Nat.zero_le _
  · next body hbody =>
      have hbelow := body.count_eq_sum matching
      have hnode := node.count_eq_sum matching
      have hchild :=
        List.single_le_sum (fun _ _ => Nat.zero_le _) (body.count matching)
          (List.mem_map_of_mem (f := Node.count matching)
            (List.mem_of_find?_eq_some hbody))
      omega

private theorem sum_declaredInside_le {measure : Function → Nat}
    {matching : String → Bool} (hmeasure : ∀ {scope node function},
      functionOf? source path scope node = some function →
      measure function = node.count matching)
    (h : functionOf? source path scope node = some declared) :
    ((declaredInside source path declared node).map measure).sum ≤
      measure declared := by
  -- An inner function without a name is counted in the body but not declared.
  have hsublist :
      ((declaredInside source path declared node).map measure).Sublist
      ((innerFunctions node).map (Node.count matching)) := by
    rw [declaredInside, List.map_filterMap, List.filterMap_eq_flatMap_toList,
      List.map_eq_flatMap]
    refine List.Sublist.flatMap_right _ fun inner _ => ?_
    cases hinner : functionOf? source path [declared.name] inner with
    | none => exact List.nil_sublist _
    | some function =>
        rw [Option.map_some, hmeasure hinner]
        exact List.Sublist.refl _
  rw [hmeasure h]
  exact (hsublist.sum_le_sum fun _ _ => Nat.zero_le _).trans
    (sum_innerFunctions_le matching node)

end Functions

/-- A count takes in the subtree of its node and stops there, so metrics add up
over children and from functions to the function around them. -/
theorem metrics_count_subtree {tree node : Node} {address : Address}
    (hnode : tree.at? address = some node) :
    (∀ (matching : String → Bool) (trail : List Crumb),
      StateTransition.eval (Walk.move? matching ⟨node, trail⟩)
        ⟨⟨node, trail⟩, .enter, 0⟩ =
        Part.some ⟨⟨node, trail⟩, .leave, node.count matching⟩) ∧
      (∀ matching : String → Bool, node.count matching =
        (tree.places.filter fun place => address <+: place).countP fun place =>
          (tree.at? place).any fun below => matching below.kind) ∧
      node.complexity =
        (if isBranch node.kind then 1 else 0) +
          (node.children.map Node.complexity).sum ∧
      node.instructions =
        (if isExpression node.kind then 1 else 0) +
          (node.children.map Node.instructions).sum ∧
      ∀ source path scope declared,
        functionOf? source path scope node = some declared →
        let inside := declaredInside source path declared node
        (declared :: inside).Sublist (function source path scope node) ∧
          (inside.map Function.complexity).sum ≤ declared.complexity ∧
          (inside.map Function.instructions).sum ≤ declared.instructions := by
  refine ⟨fun matching trail => Walk.eval_move? matching ⟨node, trail⟩,
    count_eq_countP_places hnode, node.count_eq_sum isBranch,
    node.count_eq_sum isExpression, ?_⟩
  intro source path scope declared hdeclared inside
  refine ⟨declaredInside_sublist hdeclared, ?_, ?_⟩
  · exact sum_declaredInside_le
      (fun h => (metrics_of_functionOf? h).1) hdeclared
  · exact sum_declaredInside_le
      (fun h => (metrics_of_functionOf? h).2) hdeclared

/-! ### A function in a function -/

def questionInner : Node :=
  ⟨"function_item", none, true, ⟨7, 17, 0, 0⟩,
    [⟨"identifier", some "name", true, ⟨10, 11, 0, 0⟩, []⟩,
     ⟨"block", some "body", true, ⟨13, 17, 0, 0⟩,
      [⟨"try_expression", none, true, ⟨14, 16, 0, 0⟩, []⟩]⟩]⟩

def questionOuter : Node :=
  ⟨"function_item", none, true, ⟨0, 20, 0, 0⟩,
    [⟨"identifier", some "name", true, ⟨3, 4, 0, 0⟩, []⟩,
     ⟨"block", some "body", true, ⟨6, 20, 0, 0⟩,
      [questionInner, ⟨"try_expression", none, true, ⟨17, 19, 0, 0⟩, []⟩]⟩]⟩

def questionLast : Node :=
  ⟨"function_item", none, true, ⟨20, 30, 0, 0⟩,
    [⟨"identifier", some "name", true, ⟨23, 24, 0, 0⟩, []⟩,
     ⟨"block", some "body", true, ⟨26, 30, 0, 0⟩,
      [⟨"try_expression", none, true, ⟨27, 29, 0, 0⟩, []⟩]⟩]⟩

def questions : Source where
  bytes := "fn o()\x7bfn i()\x7bx?\x7dy?\x7dfn s()\x7bz?\x7d".toUTF8.data
  root := ⟨"source_file", none, true, ⟨0, 30, 0, 0⟩,
    [questionOuter, questionLast]⟩
  fragments := []

/-- The walk has two branches when it is back at the first function, and leaves
out that of the next one. -/
theorem metrics_count_questions :
    questions.root.at? [0] = some questionOuter ∧
      questions.root.complexity = 3 ∧
      (let start : Cursor := ⟨questionOuter, [⟨questions.root, [questionLast]⟩]⟩
      StateTransition.eval (Walk.move? isBranch start) ⟨start, .enter, 0⟩ =
        Part.some ⟨start, .leave, 2⟩) ∧
      ∃ outer inner,
        functionOf? questions "q.rs" [] questionOuter = some outer ∧
        declaredInside questions "q.rs" outer questionOuter = [inner] ∧
        inner.name = "o::i" ∧
        inner.complexity = 1 ∧ inner.complexity ≤ outer.complexity := by
  have hnode : questions.root.at? [0] = some questionOuter := rfl
  obtain ⟨hwalk, -, -, -, hfunction⟩ := metrics_count_subtree hnode
  have houterName : questionOuter.fieldText? "name" questions.bytes =
      some "o" := by decide +kernel
  have hinnerName : questionInner.fieldText? "name" questions.bytes =
      some "i" := by decide +kernel
  obtain ⟨outer, houter, houterQualified⟩ :=
    exists_functionOf? "q.rs" [] houterName
  obtain ⟨inner, hinner, hinnerQualified⟩ :=
    exists_functionOf? "q.rs" [outer.name] hinnerName
  have hinside :
      declaredInside questions "q.rs" outer questionOuter = [inner] := by
    have hbody : innerFunctions questionOuter = [questionInner] := rfl
    simp [declaredInside, hbody, hinner]
  have hsum := (hfunction questions "q.rs" [] outer houter).2.1
  rw [hinside, List.map_singleton, List.sum_singleton] at hsum
  have hinnerCount : questionInner.count isBranch = 1 := by decide +kernel
  refine ⟨hnode, by decide +kernel, ?_, outer, inner, houter, hinside, ?_,
    ?_, hsum⟩
  · have hcount : questionOuter.count isBranch = 2 := by decide +kernel
    rw [← hcount]
    exact hwalk isBranch [⟨questions.root, [questionLast]⟩]
  · rw [hinnerQualified, houterQualified]
    decide +kernel
  · rw [(metrics_of_functionOf? hinner).1, hinnerCount]

end FuzzReach.Extract
