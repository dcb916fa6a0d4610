import FuzzReach.Proofs.Extract.Forest
import Mathlib.Data.List.Basic

/-!
# The order of extracted functions

Every walk lists a forest of functions inside the item that it starts at, whose
outermost functions are named by the scopes around them.  So do the extracted
functions of a source.
-/

namespace FuzzReach.Extract

open Syntax

section Walks

variable {source : Source} {path : String}

def IsTop (source : Source) (function : Function) : Prop :=
  IsOutermost source function ∨ ∃ node, IsMacro source node function

private theorem mem_innerFunctions {node inner : Node} :
    inner ∈ innerFunctions node ↔
      ∃ body, node.child? "body" = some body ∧ inner ∈ body.children ∧
        inner.kind = "function_item" := by
  cases hbody : node.child? "body" with
  | none => simp [innerFunctions, bodyItems, hbody]
  | some body => simp [innerFunctions, bodyItems, isInner, hbody]

theorem flatMap_innerFunctions (scope : List String) (node : Node) :
    (innerFunctions node).flatMap (function source path scope) =
      (bodyItems node).flatMap (traitItem source path scope) := by
  unfold innerFunctions
  induction bodyItems node with
  | nil => rfl
  | cons item items ih =>
      have hkind : isInner item = true ↔ item.itemKind = .function := by
        rw [Node.itemKind_eq_iff (by simp), isInner, decide_eq_true_iff]
        rfl
      by_cases hinner : isInner item = true
      · simp [hinner, ih, traitItem, hkind.mp hinner]
      · simp [hinner, ih, traitItem, hkind.not.mp hinner]

private theorem ordered_innerFunctions {node : Node} (h : node.WellPlaced) :
    (innerFunctions node).Pairwise fun first second =>
      first.span.Before second.span := by
  cases hbody : node.child? "body" with
  | none => simp [innerFunctions, bodyItems, hbody]
  | some body =>
      have hordered :=
        (h.of_mem_children (Node.mem_children_of_child? hbody)).ordered
      simpa only [innerFunctions, bodyItems, hbody]
        using hordered.filter isInner

private theorem function_listing {above : List Node} {scope : List String}
    {node : Node} {top : Function → Prop} (hplaced : node.WellPlaced)
    (henclosed : Enclosed source.root above node)
    (hkind : node.kind = "function_item")
    (htop : ∀ declared, functionOf? source path scope node = some declared →
      top declared) :
    Listing (IsInner source) top node.span
      (function source path scope node) := by
  induction hsize :
    node.size using Nat.strongRecOn generalizing above scope node top with
  | ind size ih =>
      rw [function_eq]
      cases hdeclared : functionOf? source path scope node with
      | none => exact .nil _
      | some outer =>
          obtain ⟨outerName, houter, -⟩ :=
            IsItem.of_functionOf? henclosed hkind hdeclared
          refine .cons (htop outer hdeclared)
            (hplaced.nonempty (by simp [hkind])) houter.start
            houter.stop (.flatMap (ordered_innerFunctions hplaced) ?_ ?_)
          · intro item hitem
            obtain ⟨body, hbody, hitem, -⟩ := mem_innerFunctions.mp hitem
            have hmem := Node.mem_children_of_child? hbody
            exact ((hplaced.of_mem_children hmem).inside hitem).trans
              (hplaced.inside hmem)
          · -- The functions of the body are named after `outer`, whatever
            -- `outer` stands in.
            intro item hitem
            have hsmaller := size_lt_of_mem_innerFunctions hitem
            obtain ⟨body, hbody, hitem, hinner⟩ := mem_innerFunctions.mp hitem
            have hmem := Node.mem_children_of_child? hbody
            have hmember := henclosed.member hbody hitem
            refine ih item.size (by omega)
              ((hplaced.of_mem_children hmem).of_mem_children hitem)
              hmember hinner (fun inner hinner' => ?_) rfl
            obtain ⟨innerName, hinner, hname⟩ :=
              IsItem.of_functionOf? hmember hinner hinner'
            exact ⟨above, node, item, outerName, innerName, houter,
              hinner, hname⟩

/-- An item that the walks reach without going through a function. -/
structure Reached (source : Source) (above : List Node)
    (item : Node) : Prop where
  placed : item.WellPlaced
  enclosed : Enclosed source.root above item
  outside : ∀ owner ∈ above, owner.kind ≠ "function_item"

theorem Reached.member {above : List Node} {owner body item : Node}
    (h : Reached source above owner) (hkind : owner.itemKind ≠ .function)
    (hbody : owner.child? "body" = some body) (hitem : item ∈ body.children) :
    Reached source (above ++ [owner]) item where
  placed := (h.placed.of_mem_children
    (Node.mem_children_of_child? hbody)).of_mem_children hitem
  enclosed := h.enclosed.member hbody hitem
  outside := by
    have howner : owner.kind ≠ "function_item" := fun hfunction =>
      hkind ((Node.itemKind_eq_iff (by simp)).mpr hfunction)
    simpa [or_imp, forall_and] using ⟨h.outside, howner⟩

abbrev Lists (source : Source) (item : Node)
    (functions : List Function) : Prop :=
  Listing (IsInner source) (IsTop source) item.span functions

private theorem function_lists {above : List Node} {item : Node}
    (h : Reached source above item) (hkind : item.itemKind = .function) :
    Lists source item (function source path (scopeOf source above) item) := by
  have hkind := (Node.itemKind_eq_iff (by simp)).mp hkind
  refine function_listing h.placed h.enclosed hkind fun declared hdeclared => ?_
  obtain ⟨name, hitem, hname⟩ :=
    IsItem.of_functionOf? h.enclosed hkind hdeclared
  exact .inl ⟨above, item, name, hitem, h.outside, hname⟩

theorem Lists.body {owner body : Node} {contribution : Node → List Function}
    (hplaced : owner.WellPlaced) (hbody : owner.child? "body" = some body)
    (h : ∀ item ∈ body.children, Lists source item (contribution item)) :
    Lists source owner (body.children.flatMap contribution) := by
  have hmem := Node.mem_children_of_child? hbody
  exact (Listing.children (hplaced.of_mem_children hmem) h).widen
    (hplaced.inside hmem)

private theorem implementation_lists {above : List Node} {node : Node}
    (h : Reached source above node) (hkind : node.itemKind = .implementation) :
    Lists source node
      (implementation source path (scopeOf source above) node) := by
  induction hsize : node.size using Nat.strongRecOn generalizing above node with
  | ind size ih =>
      rw [implementation_eq]
      cases hbody : node.child? "body" with
      | none => exact .nil _
      | some body =>
          refine Lists.body h.placed hbody fun item hitem => ?_
          have hreached := h.member (by simp [hkind]) hbody hitem
          have hsmaller := Node.size_lt_of_child? hbody
          have hsmaller' := Node.size_lt_of_mem_children hitem
          rw [typeScope_scopeOf (by simp [scopeName?, hkind]),
            implementationItem]
          split
          · next hitem => exact function_lists hreached hitem
          · next hitem => exact ih item.size (by omega) hreached hitem rfl
          · exact .nil _

private theorem trait_lists {above : List Node} {node : Node}
    (h : Reached source above node) (hkind : node.itemKind = .trait) :
    Lists source node (trait source path (scopeOf source above) node) := by
  rw [trait_eq]
  cases hbody : node.child? "body" with
  | none => exact .nil _
  | some body =>
      refine Lists.body h.placed hbody fun item hitem => ?_
      have hreached := h.member (by simp [hkind]) hbody hitem
      rw [typeScope_scopeOf (by simp [scopeName?, hkind]), traitItem]
      split
      · next hitem => exact function_lists hreached hitem
      · exact .nil _

private theorem macro_lists {node : Node} {function : Option Function}
    (hplaced : node.WellPlaced)
    (h : ∀ declared, function = some declared → IsMacro source node declared) :
    Lists source node function.toList := by
  cases function with
  | none => exact .nil _
  | some declared =>
      have hisMacro := h declared rfl
      refine .cons (.inr ⟨node, hisMacro⟩)
        (hplaced.nonempty ?_) hisMacro.start hisMacro.stop (.nil _)
      rcases hisMacro.name with ⟨hkind, -⟩ | ⟨hkind, -⟩ <;> simp [hkind]

private theorem statement_lists {above : List Node} {item : Node}
    (h : Reached source above item) :
    Lists source item
      ((item.children.filter fun child =>
        child.kind = "macro_invocation").filterMap (entryOf? source path)) := by
  rw [List.filterMap_eq_flatMap_toList]
  refine .flatMap (h.placed.ordered.filter _)
    (fun child hchild => h.placed.inside (List.mem_filter.mp hchild).1)
      fun child hchild => ?_
  obtain ⟨hchild, hkind⟩ := List.mem_filter.mp hchild
  refine macro_lists
    (h.placed.of_mem_children hchild) fun declared hdeclared => ?_
  refine .of_entryOf? ?_ (by simpa using hkind) hdeclared
  exact Node.preorder_subset_of_mem_preorder h.enclosed.mem_preorder
    (Node.preorder_subset_of_mem_children hchild child.mem_preorder_self)

private theorem container_lists {above : List Node} {node : Node}
    (hplaced : node.WellPlaced)
    (h : ∀ item ∈ node.children, Reached source above item) :
    Lists source node (container source path (scopeOf source above) node) := by
  induction hsize : node.size using Nat.strongRecOn generalizing above node with
  | ind size ih =>
      rw [container_eq]
      refine Listing.children hplaced fun item hitem => ?_
      have hreached := h item hitem
      have hlisted := hreached.enclosed.mem_preorder
      have hsmaller := Node.size_lt_of_mem_children hitem
      unfold containerItem
      split
      · next hkind => exact function_lists hreached hkind
      · next hkind => exact implementation_lists hreached hkind
      · next hkind =>
          split
          · exact .nil _
          · next body hbody =>
              have hmem := Node.mem_children_of_child? hbody
              have hsmaller' := Node.size_lt_of_child? hbody
              rw [moduleScope_scopeOf hkind]
              refine (ih body.size (by omega)
                (hreached.placed.of_mem_children hmem)
                (fun inner hinner => ?_) rfl).widen
                  (hreached.placed.inside hmem)
              exact hreached.member (by simp [hkind]) hbody hinner
      · next hkind => exact trait_lists hreached hkind
      · exact statement_lists hreached
      · next hkind =>
          exact macro_lists hreached.placed fun _ hdeclared =>
            .of_entryOf? hlisted ((Node.itemKind_eq_iff (by simp)).mp hkind)
              hdeclared
      · next hkind =>
          exact macro_lists hreached.placed fun _ hdeclared =>
            .of_definitionOf? hlisted
              ((Node.itemKind_eq_iff (by simp)).mp hkind) hdeclared
      · exact .nil _
      · exact .nil _

end Walks

private theorem functions_forest {source : Source} (path : String)
    (h : source.root.WellPlaced) :
    Forest (IsInner source) (IsTop source) (functions source path) := by
  have hitems : ∀ item ∈ source.root.children, Reached source [] item :=
    fun item hitem => ⟨h.of_mem_children hitem, .top hitem, by simp⟩
  exact (container_lists h hitems).forest

/-- Functions are listed in the order of their declarations, those inside a
function in one stretch right after it.  Scopes name the outermost functions,
functions name those inside them, and macros keep their names. -/
theorem functions_laminar (source : Source) (path : String)
    (h : source.root.WellPlaced) :
    (functions source path).Pairwise (fun first second =>
      first.start ≤ second.start ∧
      (first.stop ≤ second.start ∨ second.Inside first)) ∧
    ∀ before function after,
      functions source path = before ++ function :: after →
      function.start < function.stop ∧
      (∀ other ∈ before, other.Inside function →
        other.start = function.start ∧ other.stop = function.stop) ∧
      (∃ inner later, after = inner ++ later ∧
        (∀ other ∈ inner, other.Inside function) ∧
        ∀ other ∈ later, function.stop ≤ other.start) ∧
      (function.isMacro = true → ∃ node, IsMacro source node function) ∧
      (function.isMacro = false → function.enclosing? before = none →
        IsOutermost source function) ∧
      ∀ outer, function.enclosing? before = some outer →
        IsInner source outer function := by
  have hforest := functions_forest path h
  refine ⟨hforest.start_le.and hforest.pairwise,
    fun before function after hsplit => ?_⟩
  have henclosing := hforest.enclosing hsplit
  refine ⟨hforest.positive function (by simp [hsplit]),
    fun other hother hinside => hforest.eq_of_inside hsplit hother hinside,
    hforest.stretch hsplit, fun hisMacro => ?_, fun hisMacro hnone => ?_,
    fun outer houter => ?_⟩
  · split at henclosing
    · refine henclosing.resolve_left fun houtermost => ?_
      simp [houtermost.isMacro] at hisMacro
    · simp [henclosing.isMacro] at hisMacro
  · rw [hnone] at henclosing
    rcases henclosing with houtermost | ⟨node, hnode⟩
    · exact houtermost
    · simp [hnode.isMacro] at hisMacro
  · rw [houter] at henclosing
    exact henclosing

def nestedScopes : Source where
  bytes :=
    "mod m \x7b impl A<T> \x7b fn f() \x7b fn g() \x7b\x7d \x7d \x7d \x7d".toUTF8.data
  root :=
    ⟨"source_file", none, true, ⟨0, 44, 0, 0⟩,
      [⟨"mod_item", none, true, ⟨0, 44, 0, 0⟩,
        [⟨"identifier", some "name", true, ⟨4, 5, 0, 0⟩, []⟩,
         ⟨"declaration_list", some "body", true, ⟨6, 44, 0, 0⟩,
          [⟨"impl_item", none, true, ⟨8, 42, 0, 0⟩,
            [⟨"generic_type", some "type", true, ⟨13, 17, 0, 0⟩, []⟩,
             ⟨"declaration_list", some "body", true, ⟨18, 42, 0, 0⟩,
              [⟨"function_item", none, true, ⟨20, 40, 0, 0⟩,
                [⟨"identifier", some "name", true, ⟨23, 24, 0, 0⟩, []⟩,
                 ⟨"block", some "body", true, ⟨27, 40, 0, 0⟩,
                  [⟨"function_item", none, true, ⟨29, 38, 0, 0⟩,
                    [⟨"identifier", some "name", true, ⟨32, 33, 0, 0⟩, []⟩,
                     ⟨"block", some "body", true, ⟨36, 38, 0, 0⟩,
                       []⟩]⟩]⟩]⟩]⟩]⟩]⟩]⟩]⟩
  fragments := []

theorem functions_nestedScopes :
    nestedScopes.root.WellPlaced ∧
      ∃ outer inner, functions nestedScopes "m.rs" = [outer, inner] ∧
        outer.name = "m::A::f" ∧ IsOutermost nestedScopes outer ∧
        inner.name = "m::A::f::g" ∧ IsInner nestedScopes outer inner := by
  have hplaced : nestedScopes.root.WellPlaced := by decide +kernel
  have hlist : (functions nestedScopes "m.rs").map
      (fun function =>
        (function.name, function.start, function.stop, function.isMacro)) =
        [("m::A::f", 20, 40, false), ("m::A::f::g", 29, 38, false)] := by
          decide +kernel
  have hlength : (functions nestedScopes "m.rs").length = 2 := by
    simpa using congrArg List.length hlist
  obtain ⟨outer, inner, hfunctions⟩ := List.length_eq_two.mp hlength
  simp only [hfunctions, List.map_cons, List.map_nil, List.cons.injEq,
    Prod.mk.injEq] at hlist
  obtain ⟨⟨houter, hstart, hstop, hfirst⟩, ⟨hinner, hstart', hstop', -⟩, -⟩ :=
    hlist
  have hlaminar := (functions_laminar nestedScopes "m.rs" hplaced).2
  have henclosing : inner.enclosing? [outer] = some outer := by
    simp [Function.enclosing?, Function.Inside, hstart, hstop, hstart', hstop']
  obtain ⟨-, -, -, -, houtermost, -⟩ := hlaminar [] outer [inner] hfunctions
  obtain ⟨-, -, -, -, -, hinside⟩ := hlaminar [outer] inner [] hfunctions
  exact ⟨hplaced, outer, inner, hfunctions, houter,
    houtermost hfirst rfl, hinner,
    hinside outer henclosing⟩

end FuzzReach.Extract
