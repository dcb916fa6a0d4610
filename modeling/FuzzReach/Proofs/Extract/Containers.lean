import FuzzReach.Proofs.Extract.Laminar
import FuzzReach.Proofs.Extract
import Mathlib.Data.List.Perm.Basic

/-!
# Containers

A container is a file or the body of a module, an implementation, a trait or a
function.  The extracted functions are those that the containers declare, and
their names are the names that stand there, functions behind the scope of their
container and macros as they are.
-/

namespace FuzzReach.Extract

open Syntax Call

/-! ## Containers -/

def functionName? (source : Source) (item : Node) : Option String :=
  if item.itemKind = .function then item.fieldText? "name" source.bytes
    else none

def entryName? (source : Source) (node : Node) : Option String :=
  if macroName? source.bytes node = some Name.entry then some Name.entry
    else none

def definitionName? (source : Source) (node : Node) : Option String := do
  let nameNode ← node.child? "name" <|> node.childOfKind? "identifier"
  nonempty? (nameNode.text source.bytes)

/-- A file counts as a module without a name. -/
structure Container where
  owner : ItemKind
  scope : List String
  items : List Node

namespace Container

variable (source : Source)

def functionNames (container : Container) : List String :=
  container.items.filterMap (functionName? source)

/-- The names of the macros that an item declares.  Only files and modules
declare macros. -/
def macroNamesOf (container : Container) (item : Node) : List String :=
  if container.owner ≠ .module then [] else
  match item.itemKind with
  | .statement =>
      (item.children.filter fun child =>
        child.kind = "macro_invocation").filterMap (entryName? source)
  | .invocation => (entryName? source item).toList
  | .definition => (definitionName? source item).toList
  | _ => []

def macroNames (container : Container) : List String :=
  container.items.flatMap (container.macroNamesOf source)

def qualifiedNames (container : Container) : List String :=
  (container.functionNames source).map (Name.qualify container.scope)

def scopeNames (container : Container) : List String :=
  container.items.filterMap fun item =>
    if item.itemKind = .module ∨
      item.itemKind = .trait then item.fieldText? "name" source.bytes
    else none

/-- The scope of the items in an item's body.  The bodies of functions and
traits hold functions only, and implementations hold functions and
implementations. -/
def innerScope? (container : Container) (item : Node) : Option (List String) :=
  match item.itemKind with
  | .function =>
      (item.fieldText? "name" source.bytes).map fun name =>
        [Name.qualify container.scope name]
  | .implementation =>
      if container.owner = .module ∨ container.owner = .implementation then
        some (typeScope source container.scope item "type")
      else none
  | .module =>
      if container.owner = .module
        then some (moduleScope source container.scope item) else none
  | .trait =>
      if container.owner = .module
        then some (typeScope source container.scope item "name")
      else none
  | _ => none

def opened? (container : Container) (item : Node) : Option Container :=
  (container.innerScope? source item).map fun scope =>
    ⟨item.itemKind, scope, bodyItems item⟩

def opened (container : Container) : List Container :=
  container.items.filterMap (container.opened? source)

variable {source}

private theorem sizes_lt_of_mem_opened {container inner : Container}
    (h : inner ∈ container.opened source) :
    Node.sizes inner.items < Node.sizes container.items := by
  obtain ⟨item, hitem, hopened⟩ := List.mem_filterMap.mp h
  have hbody : Node.sizes (bodyItems item) < item.size := by
    unfold bodyItems
    split
    · exact item.size_pos
    · next body hbody =>
        have := Node.size_lt_of_child? hbody
        have := body.size_eq
        omega
  obtain ⟨scope, -, rfl⟩ := Option.map_eq_some_iff.mp hopened
  exact Nat.lt_of_lt_of_le hbody (Node.size_le_sizes_of_mem hitem)

end Container

def containersFrom (source : Source) (container : Container) : List Container :=
  container :: (container.opened source).attach.flatMap fun ⟨inner, _hinner⟩ =>
    containersFrom source inner
termination_by Node.sizes container.items
decreasing_by exact Container.sizes_lt_of_mem_opened _hinner

def containers (source : Source) : List Container :=
  containersFrom source ⟨.module, [], source.root.children⟩

theorem containersFrom_eq (source : Source) (container : Container) :
    containersFrom source container =
      container :: (container.opened source).flatMap
        (containersFrom source) := by
  rw [containersFrom]
  simp

/-! ## The functions of a walk -/

section Walks

variable (source : Source) (path : String)

def Container.contribution (container : Container)
    (item : Node) : List Function :=
  match container.owner with
  | .module => containerItem source path container.scope item
  | .implementation => implementationItem source path container.scope item
  | _ => traitItem source path container.scope item

def Container.walk (container : Container) : List Function :=
  container.items.flatMap (container.contribution source path)

def ownFunction? (scope : List String) (item : Node) : Option Function :=
  if item.itemKind = .function then functionOf? source path scope item else none

def Container.macrosOf (container : Container) (item : Node) : List Function :=
  if container.owner ≠ .module then [] else
  match item.itemKind with
  | .statement =>
      (item.children.filter fun child =>
        child.kind = "macro_invocation").filterMap (entryOf? source path)
  | .invocation => (entryOf? source path item).toList
  | .definition => (definitionOf? source path item).toList
  | _ => []

/-- What an item declares itself, without the functions in its body. -/
def Container.declaredBy (container : Container)
    (item : Node) : List Function :=
  (ownFunction? source path container.scope item).toList ++
    container.macrosOf source path item

def Container.declared (container : Container) : List Function :=
  container.items.flatMap (container.declaredBy source path)

variable {source path}

private theorem Container.walk_module (scope : List String)
    (items : List Node) :
    walk source path ⟨.module, scope, items⟩ =
      items.flatMap (containerItem source path scope) := rfl

private theorem Container.walk_implementation (scope : List String)
    (items : List Node) :
    walk source path ⟨.implementation, scope, items⟩ =
      items.flatMap (implementationItem source path scope) := rfl

private theorem Container.contribution_of_ne {container : Container}
    (hmodule : container.owner ≠ .module)
    (himplementation : container.owner ≠ .implementation) :
    container.contribution source path =
      traitItem source path container.scope := by
  funext item
  unfold contribution
  split <;> simp_all

private theorem Container.walk_of_ne {container : Container}
    (hmodule : container.owner ≠ .module)
    (himplementation : container.owner ≠ .implementation) :
    container.walk source path =
      container.items.flatMap (traitItem source path container.scope) := by
  rw [walk, contribution_of_ne hmodule himplementation]

theorem exists_functionOf? (path : String) (scope : List String) {item : Node}
    {name : String} (h : item.fieldText? "name" source.bytes = some name) :
    ∃ declared, functionOf? source path scope item = some declared ∧
      declared.name = Name.qualify scope name :=
  ⟨_, by simp only [functionOf?, h]; rfl, rfl⟩

private theorem function_eq_append {container : Container} {item : Node}
    (hkind : item.itemKind = .function) :
    function source path container.scope item =
      (functionOf? source path container.scope item).toList ++
        (container.opened? source item).toList.flatMap
          (Container.walk source path) := by
  rw [function_eq, Container.opened?, Container.innerScope?, hkind]
  cases hname : item.fieldText? "name" source.bytes with
  | none => simp [functionOf?, hname]
  | some name =>
      obtain ⟨declared, hdeclared, hqualified⟩ :=
        exists_functionOf? path container.scope hname
      simp only [hdeclared, flatMap_innerFunctions, hqualified]
      simp [Container.walk_of_ne]

private theorem Container.opened?_eq_none {container : Container} {item : Node}
    (howner : container.owner ≠ .module) (hkind : item.itemKind ≠ .function)
    (h : item.itemKind = .implementation → container.owner ≠ .implementation) :
    container.opened? source item = none := by
  unfold opened? innerScope?
  split <;> simp_all

private theorem containerItem_eq_append {container : Container} {item : Node}
    (howner : container.owner = .module) (hkind : item.itemKind ≠ .function) :
    containerItem source path container.scope item =
      container.macrosOf source path item ++
        (container.opened? source item).toList.flatMap
          (Container.walk source path) := by
  unfold containerItem Container.macrosOf Container.opened?
    Container.innerScope?
  cases hitem : item.itemKind with
  | function => exact absurd hitem hkind
  | implementation =>
      simp [howner, implementation_eq_flatMap, Container.walk_implementation]
  | module =>
      cases hbody : item.child? "body" <;>
        simp [howner, hbody, bodyItems, container_eq, Container.walk_module]
  | trait => simp [howner, trait_eq_flatMap, Container.walk_of_ne]
  | statement | invocation | definition => simp [howner]
  | use | other => simp

/-- An item gives what it declares itself, and then the walk of the container
that it opens. -/
theorem Container.contribution_eq_append (container : Container) (item : Node) :
    container.contribution source path item =
      container.declaredBy source path item ++
        (container.opened? source item).toList.flatMap (walk source path) := by
  by_cases hkind : item.itemKind = .function
  · have hfunction : container.contribution source path item =
        function source path container.scope item := by
      unfold contribution
      split <;> simp [containerItem, implementationItem, traitItem, hkind]
    have hmacros : container.macrosOf source path item = [] := by
      simp [macrosOf, hkind]
    rw [hfunction, function_eq_append hkind, declaredBy, ownFunction?,
      if_pos hkind, hmacros, List.append_nil]
  rw [declaredBy, ownFunction?, if_neg hkind, Option.toList_none,
    List.nil_append]
  by_cases hmodule : container.owner = .module
  · rw [← containerItem_eq_append hmodule hkind, contribution, hmodule]
  rw [macrosOf, if_pos hmodule, List.nil_append]
  by_cases himplementation : container.owner = .implementation
  · simp only [contribution, himplementation, implementationItem]
    by_cases hinner : item.itemKind = .implementation
    · simp [hinner, himplementation, implementation_eq_flatMap, opened?,
        innerScope?, walk_implementation]
    · rw [opened?_eq_none hmodule hkind fun h => absurd h hinner]
      split <;> simp_all
  · rw [contribution_of_ne hmodule himplementation,
      opened?_eq_none hmodule hkind fun _ => himplementation]
    simp [traitItem, hkind]

private theorem Container.walk_perm (container : Container) :
    (container.walk source path).Perm
      ((containersFrom source container).flatMap (declared source path)) := by
  induction hsize :
    Node.sizes container.items using Nat.strongRecOn generalizing container with
  | ind size ih =>
      have hopened : (container.items.flatMap fun item =>
          (container.opened? source item).toList.flatMap (walk source path)) =
            (container.opened source).flatMap (walk source path) := by
        rw [opened, List.filterMap_eq_flatMap_toList, List.flatMap_assoc]
      have hinner : ((container.opened source).flatMap (walk source path)).Perm
          ((container.opened source).flatMap fun inner =>
            (containersFrom source inner).flatMap (declared source path)) := by
        refine .flatMap_left _ fun inner hmem => ?_
        exact ih _ (hsize ▸ sizes_lt_of_mem_opened hmem) inner rfl
      have hwalk :
          container.walk source path = container.items.flatMap fun item =>
          container.declaredBy source path item ++
            (container.opened? source item).toList.flatMap (walk source path) :=
        List.flatMap_congr fun item _ => container.contribution_eq_append item
      -- Item by item, own functions and inner functions take turns; moved
      -- apart, they are the two halves.
      rw [hwalk, containersFrom_eq, List.flatMap_cons, List.flatMap_assoc]
      refine (List.flatMap_append_perm ..).symm.trans ?_
      rw [hopened]
      exact .append_left _ hinner

private theorem functions_perm (source : Source) (path : String) :
    (functions source path).Perm
      ((containers source).flatMap (Container.declared source path)) := by
  have hwalk : functions source path =
      Container.walk source path ⟨.module, [], source.root.children⟩ :=
    container_eq source path [] source.root
  rw [hwalk]
  exact Container.walk_perm _

theorem mem_functions_iff {function : Function} :
    function ∈ functions source path ↔
      ∃ container ∈ containers source, ∃ item ∈ container.items,
        function ∈ container.declaredBy source path item := by
  rw [(functions_perm source path).mem_iff]
  simp only [List.mem_flatMap, Container.declared]

/-! ## The names of a walk -/

def ownName? (source : Source) (scope : List String)
    (item : Node) : Option String :=
  (functionName? source item).map (Name.qualify scope)

private theorem map_name_ownFunction? (scope : List String) (item : Node) :
    (ownFunction? source path scope item).map Function.name =
      ownName? source scope item := by
  unfold ownFunction? ownName? functionName?
  split
  · cases hname : item.fieldText? "name" source.bytes with
    | none => simp [functionOf?, hname]
    | some name =>
        obtain ⟨declared, hdeclared, hqualified⟩ :=
          exists_functionOf? path scope hname
        simp [hdeclared, hqualified]
  · rfl

private theorem map_name_entryOf? (node : Node) :
    (entryOf? source path node).map Function.name = entryName? source node := by
  unfold entryOf? entryName?
  split <;> simp [describe]

private theorem map_name_definitionOf? (node : Node) :
    (definitionOf? source path node).map Function.name =
      definitionName? source node := by
  unfold definitionOf? definitionName?
  cases node.child? "name" <|> node.childOfKind? "identifier" with
  | none => rfl
  | some nameNode =>
      cases hname :
        nonempty? (nameNode.text source.bytes) <;> simp [hname, describe]

private theorem Container.map_name_macrosOf (container : Container)
    (item : Node) :
    (container.macrosOf source path item).map Function.name =
      container.macroNamesOf source item := by
  unfold macrosOf macroNamesOf
  split
  · rfl
  · split
    · simp [List.map_filterMap, map_name_entryOf?]
    · simp [← Option.toList_map, map_name_entryOf?]
    · simp [← Option.toList_map, map_name_definitionOf?]
    · rfl

def Container.names (source : Source) (container : Container) : List String :=
  container.qualifiedNames source ++ container.macroNames source

private theorem Container.names_perm (container : Container) :
    ((container.declared source path).map Function.name).Perm
      (container.names source) := by
  have hitems : (container.declared source path).map Function.name =
      container.items.flatMap fun item =>
        (ownName? source container.scope item).toList ++
          container.macroNamesOf source item := by
    simp only [declared, declaredBy, List.map_flatMap, List.map_append,
      ← Option.toList_map, map_name_ownFunction?, map_name_macrosOf]
  have hqualified : container.qualifiedNames source =
      container.items.flatMap fun item =>
        (ownName? source container.scope item).toList := by
    rw [qualifiedNames, functionNames, List.map_filterMap,
      List.filterMap_eq_flatMap_toList]
    rfl
  rw [hitems, names, hqualified, macroNames]
  exact (List.flatMap_append_perm ..).symm

theorem names_functions_perm (source : Source) (path : String) :
    ((functions source path).map Function.name).Perm
      ((containers source).flatMap (Container.names source)) := by
  refine ((functions_perm source path).map Function.name).trans ?_
  rw [List.map_flatMap]
  exact .flatMap_left _ fun container _ => container.names_perm

end Walks

/-! ## The items of a container -/

private theorem Container.exists_of_mem_opened {source : Source}
    {container inner : Container} (h : inner ∈ container.opened source) :
    ∃ item ∈ container.items, inner.items = bodyItems item := by
  obtain ⟨item, hitem, hopened⟩ := List.mem_filterMap.mp h
  obtain ⟨scope, -, rfl⟩ := Option.map_eq_some_iff.mp hopened
  exact ⟨item, hitem, rfl⟩

theorem mem_preorder_of_mem_bodyItems {node item : Node}
    (h : item ∈ bodyItems node) :
    item ∈ node.preorder := by
  unfold bodyItems at h
  split at h
  · cases h
  · next body hbody =>
      apply Node.preorder_subset_of_mem_children
        (Node.mem_children_of_child? hbody)
      exact Node.preorder_subset_of_mem_children h item.mem_preorder_self

private theorem exists_mem_preorder_of_mem_containersFrom {source : Source}
    {container inner : Container} (h : inner ∈ containersFrom source container)
    {item : Node} (hitem : item ∈ inner.items) :
    ∃ above ∈ container.items, item ∈ above.preorder := by
  induction hsize :
    Node.sizes container.items using Nat.strongRecOn generalizing container with
  | ind size ih =>
      rw [containersFrom_eq, List.mem_cons] at h
      rcases h with rfl | h
      · exact ⟨item, hitem, item.mem_preorder_self⟩
      · obtain ⟨opened, hopened, hinner⟩ := List.mem_flatMap.mp h
        obtain ⟨owner, howner, hitems⟩ := Container.exists_of_mem_opened hopened
        obtain ⟨above, habove, hbelow⟩ :=
          ih _ (hsize ▸ Container.sizes_lt_of_mem_opened hopened) hinner rfl
        rw [hitems] at habove
        have hbody := mem_preorder_of_mem_bodyItems habove
        exact ⟨owner, howner, Node.preorder_subset_of_mem_preorder hbody hbelow⟩

theorem mem_preorder_of_mem_containers {source : Source} {container : Container}
    (h : container ∈ containers source) {item : Node}
    (hitem : item ∈ container.items) :
    item ∈ source.root.preorder := by
  obtain ⟨above, habove, hbelow⟩ :=
    exists_mem_preorder_of_mem_containersFrom h hitem
  exact Node.preorder_subset_of_mem_children habove hbelow

end FuzzReach.Extract
