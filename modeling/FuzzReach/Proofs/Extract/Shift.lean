import FuzzReach.Proofs.Call.Shift
import FuzzReach.Proofs.Extract.Items
import FuzzReach.SourceFile

/-!
# Extraction from moved sources

Putting something in front of a source changes nothing that is extracted from it
but the places: the functions stand on later lines and at later bytes, and so do
the events of their bodies, whether these were found in the tree of the file or
in the tree of a fragment.
-/

namespace FuzzReach.Extract

open Syntax Call

section Parts

variable (source : Source) (front : Bytes) (rows : Nat) (node : Node)

private theorem describe_shift (path name : String) :
    describe (source.shift front rows) path name (node.shift front.size rows) =
      (describe source path name node).shift front.size rows := by
  simp only [describe, Function.shift, Source.shift, text_shift, Node.startLine,
    Node.endLine, Node.span_shift, Span.shift, List.map_nil, Nat.add_right_comm]

private theorem parameters_shift :
    parameters (node.shift front.size rows) =
      (parameters node).map (Node.shift front.size rows) := by
  unfold parameters
  rw [Node.child?_shift]
  cases node.child? "parameters" with
  | none => rfl
  | some list => simp [List.filter_map, Function.comp_def]

private theorem argNames_shift :
    argNames (source.shift front rows) (node.shift front.size rows) =
      argNames source node := by
  simp only [argNames, parameters_shift, List.filterMap_map, Function.comp_def,
    Node.child?_shift, Option.map_map, Source.shift, patternName_shift]

private theorem argTypes_shift :
    argTypes (source.shift front rows) (node.shift front.size rows) =
      argTypes source node := by
  simp only [argTypes, parameters_shift, List.filterMap_map, Function.comp_def,
    Source.shift, fieldText?_shift]

private theorem returnType_shift :
    returnType (source.shift front rows) (node.shift front.size rows) =
      returnType source node := by
  simp only [returnType, Source.shift, fieldText?_shift]

private theorem bodyItems_shift :
    bodyItems (node.shift front.size rows) =
      (bodyItems node).map (Node.shift front.size rows) := by
  unfold bodyItems
  rw [Node.child?_shift]
  cases node.child? "body" <;> simp

private theorem isInner_shift :
    isInner (node.shift front.size rows) = isInner node := by
  simp [isInner]

private theorem innerFunctions_shift :
    innerFunctions (node.shift front.size rows) =
      (innerFunctions node).map (Node.shift front.size rows) := by
  simp only [innerFunctions, bodyItems_shift, List.filter_map,
    Function.comp_def, isInner_shift]

private theorem bodyEvents_shift :
    bodyEvents (source.shift front rows) (node.shift front.size rows) =
      (bodyEvents source node).map (Event.shift front.size rows) := by
  have hstatements : statements (node.shift front.size rows) =
      (statements node).map (Node.shift front.size rows) := by
    simp only [statements, bodyItems_shift, List.filter_map, Function.comp_def,
      isInner_shift, Node.kind_shift]
  rw [bodyEvents, hstatements]
  exact flatMap_events_shift _ _ _ _ _

private theorem functionOf?_shift (path : String) (scope : List String) :
    functionOf? (source.shift front rows) path scope
      (node.shift front.size rows) =
      (functionOf? source path scope node).map
        (Function.shift front.size rows) := by
  have hname : (node.shift front.size rows).fieldText? "name"
      (source.shift front rows).bytes =
      node.fieldText? "name" source.bytes :=
        fieldText?_shift front source.bytes rows node "name"
  simp only [functionOf?, hname, describe_shift, argNames_shift, argTypes_shift,
    returnType_shift, bodyEvents_shift]
  cases node.fieldText? "name" source.bytes with
  | none => rfl
  | some name => simp [Function.shift, Node.complexity, Node.instructions]

end Parts

/-! ## Macros -/

private theorem orElse_map {α β : Type} (change : α → β)
    (first second : Option α) :
    (first.map change <|> second.map change) =
      (first <|> second).map change := by
  cases first <;> rfl

section Macros

variable (source : Source) (front : Bytes) (rows : Nat) (node : Node)

private theorem withBody_shift (group : Option Node) (function : Function) :
    withBody (source.shift front rows) (node.shift front.size rows)
        (group.map (Node.shift front.size rows))
          (function.shift front.size rows) =
      (withBody source node group function).shift front.size rows := by
  cases group with
  | none => simp [withBody, Function.shift, Node.complexity, Node.instructions]
  | some group =>
      simp only [withBody, Option.map_some, Option.bind_eq_bind,
        Option.bind_some, fragmentBytes?_shift, fragment?_shift]
      cases source.fragmentBytes? group with
      | none => simp [Function.shift, Node.complexity, Node.instructions]
      | some bytes =>
          cases source.fragment? group with
          | none => simp [Function.shift, Node.complexity, Node.instructions]
          | some fragment =>
              -- The tree of the fragment stays, and its offset moves with the
              -- group.
              have hevents :=
                events_offset bytes ⟨group.span.firstRow, group.span.start⟩
                  front.size rows fragment.root
              simp [Function.shift, Fragment.shift, Span.shift]
              exact hevents

private theorem isGroup_shift :
    isGroup (node.shift front.size rows) = isGroup node := by
  simp [isGroup]

private theorem entryGroup?_shift :
    entryGroup? (source.shift front rows) (node.shift front.size rows) =
      (entryGroup? source node).map (Node.shift front.size rows) := by
  simp only [entryGroup?, Node.children_shift, List.filter_map,
    Function.comp_def, isGroup_shift, List.flatMap_map, startsWithBrace_shift,
    ← List.map_flatMap, List.getLast?_map]
  exact orElse_map _ _ _

private theorem definitionGroup?_shift :
    definitionGroup? (source.shift front rows) (node.shift front.size rows) =
      (definitionGroup? source node).map (Node.shift front.size rows) := by
  simp only [definitionGroup?, Node.children_shift, List.filter_map,
    Function.comp_def, Node.kind_shift, List.filterMap_map, Node.child?_shift]
  rw [← List.map_filterMap, List.filter_map, List.getLast?_map]
  simp only [Function.comp_def, startsWithBrace_shift]

private theorem entryOf?_shift (path : String) :
    entryOf? (source.shift front rows) path (node.shift front.size rows) =
      (entryOf? source path node).map (Function.shift front.size rows) := by
  have hname :
      macroName? (source.shift front rows).bytes (node.shift front.size rows) =
      macroName? source.bytes node :=
        macroName?_shift front source.bytes rows node
  simp only [entryOf?, hname, entryGroup?_shift, describe_shift]
  split
  · rw [Option.map_some, ← withBody_shift]
    rfl
  · rfl

private theorem definitionOf?_shift (path : String) :
    definitionOf? (source.shift front rows) path (node.shift front.size rows) =
      (definitionOf? source path node).map
        (Function.shift front.size rows) := by
  simp only [definitionOf?, Node.child?_shift, Node.childOfKind?_shift,
    orElse_map, definitionGroup?_shift, describe_shift]
  cases node.child? "name" <|> node.childOfKind? "identifier" with
  | none => rfl
  | some nameNode =>
      have htext : (nameNode.shift front.size rows).text
          (source.shift front rows).bytes =
          nameNode.text source.bytes :=
            text_shift front source.bytes rows nameNode
      simp only [Option.map_some, Option.bind_eq_bind, Option.bind_some, htext]
      cases nonempty? (nameNode.text source.bytes) with
      | none => rfl
      | some name =>
          simp only [Option.bind_some, Option.map_some, ← withBody_shift]
          rfl

end Macros

/-! ## Items -/

section Items

variable (source : Source) (front : Bytes) (rows : Nat) (path : String)

private theorem typeScope_shift (scope : List String) (node : Node)
    (field : String) :
    typeScope (source.shift front rows) scope
      (node.shift front.size rows) field =
      typeScope source scope node field := by
  simp only [typeScope, Source.shift, fieldText?_shift]

private theorem moduleScope_shift (scope : List String) (node : Node) :
    moduleScope (source.shift front rows) scope (node.shift front.size rows) =
      moduleScope source scope node := by
  simp only [moduleScope, Source.shift, fieldText?_shift]

private theorem flatMap_shift {α β : Type} (change : α → β) (items : List Node)
    {first : Node → List β} {second : Node → List α}
    (h : ∀ item ∈ items,
      first (item.shift front.size rows) = (second item).map change) :
    (items.map (Node.shift front.size rows)).flatMap first =
      (items.flatMap second).map change := by
  induction items with
  | nil => rfl
  | cons item rest ih =>
      obtain ⟨hitem, hrest⟩ := List.forall_mem_cons.mp h
      simp only [List.map_cons, List.flatMap_cons, List.map_append, hitem,
        ih hrest]

private theorem function_shift (scope : List String) (node : Node) :
    function (source.shift front rows) path scope (node.shift front.size rows) =
      (function source path scope node).map
        (Function.shift front.size rows) := by
  rw [function_eq, function_eq, functionOf?_shift]
  cases hdeclared : functionOf? source path scope node with
  | none => rfl
  | some declared =>
      simp only [Option.map_some, List.map_cons, innerFunctions_shift]
      congr 1
      refine flatMap_shift front rows _ _ fun inner hinner => ?_
      exact function_shift [declared.name] inner
termination_by node.size
decreasing_by exact size_lt_of_mem_innerFunctions hinner

private theorem implementation_shift (scope : List String) (node : Node) :
    implementation (source.shift front rows) path scope
      (node.shift front.size rows) =
      (implementation source path scope node).map
        (Function.shift front.size rows) := by
  rw [implementation_eq, implementation_eq, Node.child?_shift, typeScope_shift]
  cases hbody : node.child? "body" with
  | none => rfl
  | some body =>
      simp only [Option.map_some, Node.children_shift]
      refine flatMap_shift front rows _ _ fun item hitem => ?_
      unfold implementationItem
      rw [Node.itemKind_shift]
      cases item.itemKind with
      | function => exact function_shift source front rows path _ item
      | implementation => exact implementation_shift _ item
      | _ => rfl
termination_by node.size
decreasing_by
  have := Node.size_lt_of_child? hbody
  have := Node.size_lt_of_mem_children hitem
  omega

private theorem trait_shift (scope : List String) (node : Node) :
    trait (source.shift front rows) path scope (node.shift front.size rows) =
      (trait source path scope node).map (Function.shift front.size rows) := by
  rw [trait_eq, trait_eq, Node.child?_shift, typeScope_shift]
  cases node.child? "body" with
  | none => rfl
  | some body =>
      simp only [Option.map_some, Node.children_shift]
      refine flatMap_shift front rows _ _ fun item hitem => ?_
      unfold traitItem
      rw [Node.itemKind_shift]
      split
      · exact function_shift source front rows path _ item
      · rfl

private theorem container_shift (scope : List String) (node : Node) :
    container (source.shift front rows) path scope
      (node.shift front.size rows) =
      (container source path scope node).map
        (Function.shift front.size rows) := by
  rw [container_eq, container_eq, Node.children_shift]
  refine flatMap_shift front rows _ _ fun item hitem => ?_
  unfold containerItem
  rw [Node.itemKind_shift]
  cases item.itemKind with
  | function => exact function_shift source front rows path _ item
  | implementation => exact implementation_shift source front rows path _ item
  | module =>
      simp only [Node.child?_shift, moduleScope_shift]
      cases hbody : item.child? "body" with
      | none => rfl
      | some body => exact container_shift _ body
  | trait => exact trait_shift source front rows path _ item
  | statement =>
      simp only [Node.children_shift, List.filter_map, Function.comp_def,
        Node.kind_shift, List.filterMap_map, entryOf?_shift, List.map_filterMap]
  | invocation =>
      simp only [entryOf?_shift]
      cases entryOf? source path item <;> rfl
  | definition =>
      simp only [definitionOf?_shift]
      cases definitionOf? source path item <;> rfl
  | use => rfl
  | other => rfl
termination_by node.size
decreasing_by
  have := Node.size_lt_of_child? hbody
  have := Node.size_lt_of_mem_children hitem
  omega

private theorem aliasPairs_shift (node : Node) :
    aliasPairs (source.shift front rows) (node.shift front.size rows) =
      aliasPairs source node := by
  rw [aliasPairs_eq, aliasPairs_eq, Node.children_shift]
  refine (flatMap_shift front rows id _ fun item hitem => ?_).trans
    (List.map_id _)
  unfold aliasItem
  rw [Node.itemKind_shift, List.map_id]
  cases item.itemKind with
  | use => simp only [Source.shift, fieldText?_shift]
  | module =>
      simp only [Node.child?_shift]
      cases hbody : item.child? "body" with
      | none => rfl
      | some body => exact aliasPairs_shift body
  | _ => rfl
termination_by node.size
decreasing_by
  have := Node.size_lt_of_child? hbody
  have := Node.size_lt_of_mem_children hitem
  omega

end Items

end FuzzReach.Extract

namespace FuzzReach

/-- If something is put in front of a source and all nodes of its tree move
accordingly, the same functions are extracted in the same order, moved along
with their events, and the same aliases.  Against any functions the calls of a
moved function are resolved to the same names in the same order, on lines that
moved along, and its variables get the same types. -/
theorem SourceFile.ofSource_shift (path : String) (source : Syntax.Source)
    (front : Syntax.Bytes) (rows : Nat) :
    (ofSource path (source.shift front rows)).aliases =
      (ofSource path source).aliases ∧
      (ofSource path (source.shift front rows)).functions =
        (ofSource path source).functions.map (Function.shift front.size rows) ∧
      ∀ (function : Function) (aliases : Table String String) (lookup : String →
        Option Function),
        (Call.resolve (function.shift front.size rows) aliases lookup).sites =
            (Call.resolve function aliases lookup).sites.map
              (Call.Site.shift rows) ∧
          (Call.resolve (function.shift front.size rows) aliases
            lookup).locals =
            (Call.resolve function aliases lookup).locals := by
  refine ⟨?_, Extract.container_shift source front rows path [] source.root, ?_⟩
  · exact congrArg Table.ofList
      (Extract.aliasPairs_shift source front rows source.root)
  · intro function aliases lookup
    exact Call.resolve_shift front.size rows function aliases lookup

end FuzzReach
