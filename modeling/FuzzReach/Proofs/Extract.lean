import FuzzReach.Extract

/-!
# How functions come to be extracted

Whatever scopes it stands in, an extracted function was declared by a function
item, by the invocation that starts a fuzzing run or by a macro definition.
-/

namespace FuzzReach.Extract

open Syntax

variable {source : Source} {path : String} {function : Function}

inductive IsDeclared (source : Source) (path : String) (function : Function) :
    Prop where
  | item {scope : List String} {node : Node}
      (h : functionOf? source path scope node = some function)
  | entry {node : Node} (h : entryOf? source path node = some function)
  | definition {node : Node}
      (h : definitionOf? source path node = some function)

private theorem isDeclared_of_mem_function {scope : List String} {node : Node}
    (h : function ∈ Extract.function source path scope node) :
    IsDeclared source path function := by
  fun_induction Extract.function source path scope node with
  | case1 => simp at h
  | case2 scope node declared hdeclared ih =>
      rcases List.mem_cons.mp h with rfl | h
      · exact .item hdeclared
      · obtain ⟨⟨inner, hinner⟩, -, hmem⟩ := List.mem_flatMap.mp h
        exact ih inner hinner hmem

private theorem isDeclared_of_mem_implementation {scope : List String}
    {node : Node} (h : function ∈ implementation source path scope node) :
    IsDeclared source path function := by
  fun_induction implementation source path scope node with
  | case1 => simp at h
  | case2 scope node body hbody inside ih =>
      obtain ⟨⟨item, hitem⟩, -, hmem⟩ := List.mem_flatMap.mp h
      simp only at hmem
      split at hmem
      · exact isDeclared_of_mem_function hmem
      · exact ih item hitem hmem
      · simp at hmem

private theorem isDeclared_of_mem_trait {scope : List String} {node : Node}
    (h : function ∈ trait source path scope node) :
    IsDeclared source path function := by
  unfold trait at h
  split at h
  · simp at h
  · obtain ⟨item, -, hmem⟩ := List.mem_flatMap.mp h
    split at hmem
    · exact isDeclared_of_mem_function hmem
    · simp at hmem

private theorem isDeclared_of_mem_container {scope : List String} {node : Node}
    (h : function ∈ container source path scope node) :
    IsDeclared source path function := by
  fun_induction container source path scope node with
  | case1 scope node ih =>
      obtain ⟨⟨item, hitem⟩, -, hmem⟩ := List.mem_flatMap.mp h
      simp only at hmem
      split at hmem
      · exact isDeclared_of_mem_function hmem
      · exact isDeclared_of_mem_implementation hmem
      · split at hmem
        · simp at hmem
        · next body hbody => exact ih item hitem body hbody hmem
      · exact isDeclared_of_mem_trait hmem
      · obtain ⟨child, -, hentry⟩ := List.mem_filterMap.mp hmem
        exact .entry hentry
      · exact .entry (Option.mem_toList.mp hmem)
      · exact .definition (Option.mem_toList.mp hmem)
      · simp at hmem
      · simp at hmem

theorem isDeclared_of_mem_functions (h : function ∈ functions source path) :
    IsDeclared source path function :=
  isDeclared_of_mem_container h

/-! ## Entry points -/

@[simp] theorem name_withBody (source : Source) (node : Node)
    (group : Option Node) (function : Function) :
    (withBody source node group function).name = function.name := by
  simp only [withBody]
  split <;> rfl

@[simp] theorem isEntry_withBody (source : Source) (node : Node)
    (group : Option Node) (function : Function) :
    (withBody source node group function).isEntry = function.isEntry := by
  simp only [withBody]
  split <;> rfl

@[simp] theorem startLine_withBody (source : Source) (node : Node)
    (group : Option Node) (function : Function) :
    (withBody source node group function).startLine = function.startLine := by
  simp only [withBody]
  split <;> rfl

@[simp] theorem endLine_withBody (source : Source) (node : Node)
    (group : Option Node) (function : Function) :
    (withBody source node group function).endLine = function.endLine := by
  simp only [withBody]
  split <;> rfl

theorem IsDeclared.name_of_isEntry (h : IsDeclared source path function)
    (hentry : function.isEntry = true) : function.name = Name.entry := by
  cases h with
  | item h =>
      obtain ⟨name, -, h⟩ := Option.bind_eq_some_iff.mp h
      cases h
      simp [describe] at hentry
  | entry h =>
      unfold entryOf? at h
      split at h
      · cases h
        simp [describe]
      · cases h
  | definition h =>
      obtain ⟨nameNode, -, h⟩ := Option.bind_eq_some_iff.mp h
      obtain ⟨name, -, h⟩ := Option.bind_eq_some_iff.mp h
      cases h
      simpa [describe] using hentry

end FuzzReach.Extract
