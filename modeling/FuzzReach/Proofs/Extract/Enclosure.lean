import FuzzReach.Proofs.Call.Events
import FuzzReach.Proofs.Extract
import FuzzReach.Proofs.Extract.Items

/-!
# Where functions are declared

An item stands in the body of another item, which stands in the body of a third
one, up to the root of the tree.  Modules, implementations and traits on that
way give a scope its names.
-/

namespace FuzzReach.Syntax

def Span.Inside (inner outer : Span) : Prop :=
  outer.start ≤ inner.start ∧ inner.stop ≤ outer.stop

instance (inner outer : Span) : Decidable (inner.Inside outer) :=
  inferInstanceAs (Decidable (_ ∧ _))

theorem Span.Inside.trans {first second third : Span}
    (hfirst : first.Inside second) (hsecond : second.Inside third) :
    first.Inside third :=
  ⟨Nat.le_trans hsecond.1 hfirst.1, Nat.le_trans hfirst.2 hsecond.2⟩

def Span.Before (first second : Span) : Prop :=
  first.stop ≤ second.start

instance (first second : Span) : Decidable (first.Before second) :=
  inferInstanceAs (Decidable (_ ≤ _))

def ItemKind.spelling : ItemKind → String
  | .function => "function_item"
  | .implementation => "impl_item"
  | .module => "mod_item"
  | .trait => "trait_item"
  | .statement => "expression_statement"
  | .invocation => "macro_invocation"
  | .definition => "macro_definition"
  | .use => "use_declaration"
  | .other => ""

namespace Node

private theorem mem_preorders {node : Node} {nodes : List Node} :
    node ∈ preorders nodes ↔ ∃ tree ∈ nodes, node ∈ tree.preorder := by
  induction nodes with
  | nil => simp [preorders]
  | cons tree rest ih => simp [preorders, ih]

theorem mem_preorder {node root : Node} :
    node ∈ root.preorder ↔ node = root ∨ ∃ child ∈ root.children,
      node ∈ child.preorder := by
  rw [preorder_eq, List.mem_cons, mem_preorders]

theorem mem_preorder_self (node : Node) : node ∈ node.preorder :=
  mem_preorder.mpr (.inl rfl)

theorem preorder_subset_of_mem_children {node child : Node}
    (h : child ∈ node.children) :
    child.preorder ⊆ node.preorder :=
  fun _ hother => mem_preorder.mpr (.inr ⟨child, h, hother⟩)

theorem preorder_subset_of_mem_preorder {node root : Node}
    (h : node ∈ root.preorder) :
    node.preorder ⊆ root.preorder := by
  induction root using tree_induction with
  | step root ih =>
      rcases mem_preorder.mp h with rfl | ⟨child, hchild, hnode⟩
      · exact List.Subset.refl _
      · exact List.Subset.trans (ih child hchild hnode)
          (preorder_subset_of_mem_children hchild)

/-- What a parser guarantees of the places of nodes: children stand in order
inside their parent and do not overlap, and functions and macros are not
empty. -/
def WellPlaced (root : Node) : Prop :=
  ∀ node ∈ root.preorder,
    (∀ child ∈ node.children, child.span.Inside node.span) ∧
    node.children.Pairwise (fun first second => first.span.Before second.span) ∧
    (node.kind ∈ ["function_item", "macro_invocation", "macro_definition"] →
      node.span.start < node.span.stop)

instance (root : Node) : Decidable root.WellPlaced :=
  inferInstanceAs (Decidable (∀ node ∈ root.preorder, _ ∧ _ ∧ (_ → _)))

namespace WellPlaced

variable {node child : Node}

theorem inside (h : node.WellPlaced) (hchild : child ∈ node.children) :
    child.span.Inside node.span :=
  (h node node.mem_preorder_self).1 child hchild

theorem ordered (h : node.WellPlaced) :
    node.children.Pairwise fun first second => first.span.Before second.span :=
  (h node node.mem_preorder_self).2.1

theorem nonempty (h : node.WellPlaced)
    (hkind : node.kind ∈
      ["function_item", "macro_invocation", "macro_definition"]) :
    node.span.start < node.span.stop :=
  (h node node.mem_preorder_self).2.2 hkind

theorem of_mem_children (h : node.WellPlaced) (hchild : child ∈ node.children) :
    child.WellPlaced :=
  fun other hother => h other (preorder_subset_of_mem_children hchild hother)

end WellPlaced

theorem mem_children_of_child? {node child : Node} {field : String}
    (h : node.child? field = some child) : child ∈ node.children :=
  List.mem_of_find?_eq_some h

theorem itemKind_eq_iff {node : Node} {item : ItemKind}
    (hitem : item ≠ .other) :
    node.itemKind = item ↔ node.kind = item.spelling := by
  unfold itemKind
  generalize node.kind = kind
  constructor
  · rintro rfl
    revert hitem
    fun_cases ItemKind.ofKind kind <;> simp [ItemKind.spelling]
  · rintro rfl
    cases item with
    | other => exact absurd rfl hitem
    | _ => rfl

end Node

end FuzzReach.Syntax

namespace FuzzReach.Extract

open Syntax Call

/-- The items around an item, outermost first: each stands in the body of the
one before it, and the item itself in the body of the last one. -/
inductive Enclosed (root : Node) : List Node → Node → Prop where
  | top {item : Node} (hitem : item ∈ root.children) : Enclosed root [] item
  | member {above : List Node} {owner body item : Node}
      (howner : Enclosed root above owner)
      (hbody : owner.child? "body" = some body) (hitem : item ∈ body.children) :
      Enclosed root (above ++ [owner]) item

def scopeName? (source : Source) (item : Node) : Option String :=
  match item.itemKind with
  | .module => item.fieldText? "name" source.bytes
  | .implementation => (item.fieldText? "type" source.bytes).map TypeText.base
  | .trait => (item.fieldText? "name" source.bytes).map TypeText.base
  | _ => none

def scopeOf (source : Source) (above : List Node) : List String :=
  above.filterMap (scopeName? source)

private theorem scopeOf_append_singleton (source : Source) (above : List Node)
    (owner : Node) :
    scopeOf source (above ++ [owner]) = scopeOf source above ++
      (scopeName? source owner).toList := by
  rw [scopeOf, List.filterMap_append]
  cases h : scopeName? source owner <;> simp [scopeOf, h]

theorem moduleScope_scopeOf {source : Source} {above : List Node} {owner : Node}
    (h : owner.itemKind = .module) :
    moduleScope source (scopeOf source above) owner =
      scopeOf source (above ++ [owner]) := by
  rw [scopeOf_append_singleton]
  simp only [moduleScope, scopeName?, h]
  cases owner.fieldText? "name" source.bytes <;> simp

theorem typeScope_scopeOf {source : Source} {above : List Node} {owner : Node}
    {field : String} (h : scopeName? source owner =
      (owner.fieldText? field source.bytes).map TypeText.base) :
    typeScope source (scopeOf source above) owner field =
      scopeOf source (above ++ [owner]) := by
  rw [scopeOf_append_singleton, h, typeScope]
  cases owner.fieldText? field source.bytes <;> simp

/-! ## Functions and their nodes -/

structure IsItem (source : Source) (above : List Node) (node : Node)
    (declared : String) (function : Function) : Prop where
  enclosed : Enclosed source.root above node
  kind : node.kind = "function_item"
  named : node.fieldText? "name" source.bytes = some declared
  start : function.start = node.span.start
  stop : function.stop = node.span.stop
  isMacro : function.isMacro = false

theorem Enclosed.mem_preorder {root item : Node} {above : List Node}
    (h : Enclosed root above item) : item ∈ root.preorder := by
  induction h with
  | top hitem =>
      exact Node.preorder_subset_of_mem_children hitem
        (Node.mem_preorder_self _)
  | member _ hbody hitem ih =>
      apply Node.preorder_subset_of_mem_preorder ih
      apply Node.preorder_subset_of_mem_children
        (Node.mem_children_of_child? hbody)
      exact Node.preorder_subset_of_mem_children hitem
        (Node.mem_preorder_self _)

theorem IsItem.of_functionOf? {source : Source} {path : String}
    {above : List Node} {node : Node} {scope : List String}
    {function : Function} (henclosed : Enclosed source.root above node)
    (hkind : node.kind = "function_item")
    (h : functionOf? source path scope node = some function) :
    ∃ declared, IsItem source above node declared function ∧
      function.name = Name.qualify scope declared := by
  obtain ⟨declared, hdeclared, h⟩ := Option.bind_eq_some_iff.mp h
  cases h
  exact ⟨declared, ⟨henclosed, hkind, hdeclared, rfl, rfl, rfl⟩, rfl⟩

/-- A function that stands in no other one is named by the scope that it stands
in. -/
def IsOutermost (source : Source) (function : Function) : Prop :=
  ∃ above node declared, IsItem source above node declared function ∧
    (∀ owner ∈ above, owner.kind ≠ "function_item") ∧
    function.name = Name.qualify (scopeOf source above) declared

/-- A function that stands in the body of another one is named after it. -/
def IsInner (source : Source) (outer inner : Function) : Prop :=
  ∃ above owner node outerName innerName,
    IsItem source above owner outerName outer ∧
    IsItem source (above ++ [owner]) node innerName inner ∧
    inner.name = outer.name ++ "::" ++ innerName

theorem IsOutermost.isMacro {source : Source} {function : Function}
    (h : IsOutermost source function) : function.isMacro = false := by
  obtain ⟨_, _, _, hitem, -⟩ := h
  exact hitem.isMacro

theorem IsInner.isMacro {source : Source} {outer inner : Function}
    (h : IsInner source outer inner) : inner.isMacro = false := by
  obtain ⟨_, _, _, _, _, -, hitem, -⟩ := h
  exact hitem.isMacro

structure IsMacro (source : Source) (node : Node) (function : Function) :
    Prop where
  listed : node ∈ source.root.preorder
  start : function.start = node.span.start
  stop : function.stop = node.span.stop
  isMacro : function.isMacro = true
  name :
    (node.kind = "macro_invocation" ∧
      macroName? source.bytes node = some Name.entry ∧
      function.name = Name.entry) ∨
    (node.kind = "macro_definition" ∧
      ∃ nameNode, (node.child? "name" <|> node.childOfKind? "identifier") =
        some nameNode ∧
        function.name = nameNode.text source.bytes)

theorem withBody_place (source : Source) (node : Node) (group : Option Node)
    (function : Function) :
    (withBody source node group function).start = function.start ∧
      (withBody source node group function).stop = function.stop ∧
      (withBody source node group function).isMacro = function.isMacro := by
  simp only [withBody]
  split <;> exact ⟨rfl, rfl, rfl⟩

theorem IsMacro.of_entryOf? {source : Source} {path : String} {node : Node}
    {function : Function} (hlisted : node ∈ source.root.preorder)
    (hkind : node.kind = "macro_invocation")
    (h : entryOf? source path node = some function) :
    IsMacro source node function := by
  unfold entryOf? at h
  split at h
  · next hcalled =>
      cases h
      obtain ⟨hstart, hstop, hisMacro⟩ :=
        withBody_place source node (entryGroup? source node)
          { describe source path Name.entry node with
            isMacro := true, isEntry := true }
      exact ⟨hlisted, hstart, hstop, hisMacro,
        .inl ⟨hkind, hcalled, by simp [describe]⟩⟩
  · cases h

theorem IsMacro.of_definitionOf? {source : Source} {path : String} {node : Node}
    {function : Function} (hlisted : node ∈ source.root.preorder)
    (hkind : node.kind = "macro_definition")
    (h : definitionOf? source path node = some function) :
    IsMacro source node function := by
  obtain ⟨nameNode, hnameNode, h⟩ := Option.bind_eq_some_iff.mp h
  obtain ⟨name, hname, h⟩ := Option.bind_eq_some_iff.mp h
  cases h
  obtain ⟨hstart, hstop, hisMacro⟩ :=
    withBody_place source node (definitionGroup? source node)
      { describe source path name node with
        isMacro := true, isEntry := name = Name.entry }
  have htext : name = nameNode.text source.bytes := by
    unfold nonempty? at hname
    split at hname
    · cases hname
    · exact (Option.some.inj hname).symm
  exact ⟨hlisted, hstart, hstop, hisMacro,
    .inr ⟨hkind, nameNode, hnameNode, by simp [describe, htext]⟩⟩

end FuzzReach.Extract
