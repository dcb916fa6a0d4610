import FuzzReach.Extract

/-!
# Extraction item by item

Every walk of the extractor goes through the items of a body and puts what they
contribute in a row.
-/

namespace FuzzReach.Extract

open Syntax

variable (source : Source) (path : String) (scope : List String)

def implementationItem (item : Node) : List Function :=
  match item.itemKind with
  | .function => function source path scope item
  | .implementation => implementation source path scope item
  | _ => []

def traitItem (item : Node) : List Function :=
  if item.itemKind = .function then function source path scope item else []

def containerItem (item : Node) : List Function :=
  match item.itemKind with
  | .function => function source path scope item
  | .implementation => implementation source path scope item
  | .module =>
      match item.child? "body" with
      | none => []
      | some body => container source path (moduleScope source scope item) body
  | .trait => trait source path scope item
  | .statement =>
      (item.children.filter fun child =>
        child.kind = "macro_invocation").filterMap (entryOf? source path)
  | .invocation => (entryOf? source path item).toList
  | .definition => (definitionOf? source path item).toList
  | .use => []
  | .other => []

def aliasItem (item : Node) : List (String × String) :=
  match item.itemKind with
  | .use =>
      match item.fieldText? "argument" source.bytes with
      | some argument => (Alias.ofUse argument).entries
      | none => []
  | .module =>
      match item.child? "body" with
      | none => []
      | some body => aliasPairs source body
  | _ => []

theorem size_lt_of_mem_bodyItems {node item : Node}
    (h : item ∈ bodyItems node) :
    item.size < node.size := by
  unfold bodyItems at h
  split at h
  · cases h
  · next body hbody =>
      have := Node.size_lt_of_child? hbody
      have := Node.size_lt_of_mem_children h
      omega

theorem size_lt_of_mem_innerFunctions {node inner : Node}
    (h : inner ∈ innerFunctions node) :
    inner.size < node.size :=
  size_lt_of_mem_bodyItems (List.mem_filter.mp h).1

theorem function_eq (node : Node) :
    function source path scope node =
      match functionOf? source path scope node with
      | none => []
      | some declared =>
          declared :: (innerFunctions node).flatMap
            (function source path [declared.name]) := by
  rw [function]
  cases functionOf? source path scope node with
  | none => rfl
  | some declared => simp

theorem implementation_eq (node : Node) :
    implementation source path scope node =
      match node.child? "body" with
      | none => []
      | some body =>
          body.children.flatMap
            (implementationItem source path
              (typeScope source scope node "type")) := by
  rw [implementation]
  cases hbody : node.child? "body" with
  | none => rfl
  | some body =>
      simp only [List.flatMap_subtype, List.unattach_attach]
      rfl

theorem trait_eq (node : Node) :
    trait source path scope node =
      match node.child? "body" with
      | none => []
      | some body =>
          body.children.flatMap
            (traitItem source path (typeScope source scope node "name")) := rfl

theorem implementation_eq_flatMap (node : Node) :
    implementation source path scope node =
      (bodyItems node).flatMap
        (implementationItem source path
          (typeScope source scope node "type")) := by
  rw [implementation_eq, bodyItems]
  cases node.child? "body" <;> rfl

theorem trait_eq_flatMap (node : Node) :
    trait source path scope node =
      (bodyItems node).flatMap
        (traitItem source path (typeScope source scope node "name")) := by
  rw [trait_eq, bodyItems]
  cases node.child? "body" <;> rfl

theorem container_eq (node : Node) :
    container source path scope node =
      node.children.flatMap (containerItem source path scope) := by
  rw [container]
  refine (List.flatMap_subtype
    (g := containerItem source path scope) fun item hitem => ?_).trans
    (by rw [List.unattach_attach])
  dsimp only [containerItem]
  cases item.itemKind with
  | module => cases hbody : item.child? "body" <;> simp
  | _ => rfl

theorem aliasPairs_eq (node : Node) :
    aliasPairs source node = node.children.flatMap (aliasItem source) := by
  rw [aliasPairs]
  refine (List.flatMap_subtype
    (g := aliasItem source) fun item hitem => ?_).trans
    (by rw [List.unattach_attach])
  dsimp only [aliasItem]
  cases item.itemKind with
  | module => cases hbody : item.child? "body" <;> simp
  | _ => rfl

end FuzzReach.Extract
