import FuzzReach.Proofs.Extract.Laminar
import FuzzReach.Proofs.Syntax.Address
import Mathlib.Data.List.Forall2

/-!
# Which function an event belongs to

Every function that is not a macro has a function item as its home.  Its events
come from the subtrees of the statements of its body, and functions declared in
the body keep their own.  The statements of all functions are apart from each
other, so no node counts twice.
-/

namespace FuzzReach.Extract

open Syntax Call

/-! ## Statements and their addresses -/

def bodyIndex (item : Node) : Nat :=
  item.children.findIdx fun child => child.field = some "body"

/-- The statement is a direct child of the body of the function item at `home`,
is searched for calls, and is not a function itself. -/
def IsStatementAt (root : Node) (home address : Address) : Prop :=
  ∃ item body index statement,
    root.at? home = some item ∧ item.child? "body" = some body ∧
    body.children[index]? = some statement ∧ statement.kind ≠ "function_item" ∧
    isBodyStatement statement.kind = true ∧
      address = home ++ [bodyIndex item, index]

def statementsAt (root : Node) (home : Address) : List Address :=
  match root.at? home with
  | none => []
  | some item =>
      ((bodyItems item).zipIdx.filter fun numbered =>
        !isInner numbered.1 && isBodyStatement numbered.1.kind).map
          fun numbered =>
          home ++ [bodyIndex item, numbered.2]

def eventAt? (source : Source) (address : Address) : Option Event :=
  (source.root.at? address).bind (Event.ofNode? source.bytes .zero)

def placesBelow (root : Node) (address : Address) : List Address :=
  match root.at? address with
  | none => []
  | some node => node.places.map (address ++ ·)

def contributors (source : Source) (home : Address) : List Address :=
  ((statementsAt source.root home).flatMap (placesBelow source.root)).filter
    fun address =>
    (eventAt? source address).isSome

private theorem getElem?_bodyIndex
    (item : Node) : item.children[bodyIndex item]? = item.child? "body" :=
  List.find?_eq_getElem?_findIdx.symm

private theorem at?_body {root item body : Node} {home : Address}
    (hitem : root.at? home = some item)
    (hbody : item.child? "body" = some body) :
    root.at? (home ++ [bodyIndex item]) = some body := by
  simp [Node.at?_append, hitem, Node.at?, getElem?_bodyIndex, hbody]

private theorem at?_child {root node child : Node} {address : Address}
    {index : Nat} (hnode : root.at? address = some node)
    (hchild : node.children[index]? = some child) :
    root.at? (address ++ [index]) = some child := by
  simp [Node.at?_append, hnode, Node.at?, hchild]

private theorem mem_statementsAt {root : Node} {home address : Address} :
    address ∈ statementsAt root home ↔ IsStatementAt root home address := by
  unfold statementsAt IsStatementAt
  cases root.at? home with
  | none => simp
  | some item =>
      cases hbody : item.child? "body" with
      | none => simp [bodyItems, hbody]
      | some body =>
          simp only [bodyItems, hbody, List.mem_map, List.mem_filter,
            Bool.and_eq_true, Bool.not_eq_true', isInner,
            decide_eq_false_iff_not, Option.some.injEq]
          constructor
          · rintro ⟨⟨statement, index⟩, ⟨hmem, hkind, hsearched⟩, rfl⟩
            exact ⟨item, body, index, statement, rfl, hbody,
              List.mem_zipIdx_iff_getElem?.mp hmem,
              hkind, hsearched, rfl⟩
          · rintro ⟨_, _, index, statement, rfl, hbody', hstatement, hkind,
              hsearched, rfl⟩
            cases hbody.symm.trans hbody'
            exact ⟨(statement, index),
              ⟨List.mem_zipIdx_iff_getElem?.mpr hstatement, hkind, hsearched⟩,
              rfl⟩

private theorem prefix_of_isStatementAt {root : Node} {home address : Address}
    (h : IsStatementAt root home address) : home <+: address := by
  obtain ⟨_, _, _, _, -, -, -, -, -, rfl⟩ := h
  exact List.prefix_append _ _

private theorem pairwise_statementsAt (root : Node) (home : Address) :
    (statementsAt root home).Pairwise Address.Apart := by
  unfold statementsAt
  split
  · exact .nil
  · next item _ =>
      rw [List.pairwise_map]
      have hindices : (bodyItems item).zipIdx.Pairwise fun first second =>
          first.2 ≠ second.2 := by
        rw [← List.pairwise_map, List.zipIdx_map_snd]
        exact List.nodup_range'
      refine (hindices.filter _).imp fun {first second} hne => ?_
      have hbegins (index : Nat) :
          home ++ [bodyIndex item] ++ [index] <+:
            home ++ [bodyIndex item, index] := by simp
      exact Address.apart_of_ne hne (hbegins first.2) (hbegins second.2)

theorem mem_placesBelow {root : Node} {base address : Address} :
    address ∈ placesBelow root base ↔ base <+: address ∧
      (root.at? address).isSome = true := by
  unfold placesBelow
  constructor
  · intro hmem
    split at hmem
    · simp at hmem
    · next node hnode =>
        obtain ⟨rest, hrest, rfl⟩ := List.mem_map.mp hmem
        have hsome := Node.mem_places.mp hrest
        exact ⟨List.prefix_append _ _, by simpa [Node.at?_append,
          hnode] using hsome⟩
  · rintro ⟨⟨rest, rfl⟩, hsome⟩
    rw [Node.at?_append] at hsome
    cases hnode : root.at? base with
    | none => simp [hnode] at hsome
    | some node =>
        rw [hnode] at hsome
        exact List.mem_map_of_mem (Node.mem_places.mpr hsome)

theorem nodup_placesBelow (root : Node) (address : Address) :
    (placesBelow root address).Nodup := by
  unfold placesBelow
  split
  · exact List.nodup_nil
  · exact (Node.nodup_places _).map fun _ _ heq => List.append_cancel_left heq

private theorem nodup_flatMap_contributors {source : Source}
    {homes : List Address}
    (h : (homes.flatMap (statementsAt source.root)).Pairwise Address.Apart) :
    (homes.flatMap (contributors source)).Nodup := by
  have hplaces : homes.flatMap (contributors source) =
      ((homes.flatMap (statementsAt source.root)).flatMap
        (placesBelow source.root)).filter
        fun address => (eventAt? source address).isSome := by
    rw [List.flatMap_assoc, List.filter_flatMap]
    rfl
  rw [hplaces]
  refine .filter _
    (List.nodup_flatMap.mpr
      ⟨fun statement _ => nodup_placesBelow _ statement, ?_⟩)
  refine h.imp fun hapart address hfirst hsecond => ?_
  exact hapart.not_both (mem_placesBelow.mp hfirst).1
    (mem_placesBelow.mp hsecond).1

private theorem mem_contributors {source : Source} {home address : Address} :
    address ∈ contributors source home ↔
      (∃ statement, IsStatementAt source.root home statement ∧
        statement <+: address) ∧
        (eventAt? source address).isSome = true := by
  have hplace : (eventAt? source address).isSome = true →
      (source.root.at? address).isSome = true := by
    unfold eventAt?
    cases source.root.at? address <;> simp
  simp only [contributors, List.mem_filter, List.mem_flatMap, mem_statementsAt,
    mem_placesBelow]
  constructor
  · rintro ⟨⟨statement, hstatement, hbelow, -⟩, hevent⟩
    exact ⟨⟨statement, hstatement, hbelow⟩, hevent⟩
  · rintro ⟨⟨statement, hstatement, hbelow⟩, hevent⟩
    exact ⟨⟨statement, hstatement, hbelow, hplace hevent⟩, hevent⟩

/-! ## Homes -/

def DeclaredAt (source : Source) (path : String) (function : Function)
    (home : Address) : Prop :=
  ∃ scope item, source.root.at? home = some item ∧ item.kind = "function_item" ∧
    functionOf? source path scope item = some function

/-- Two homes that have no statement in common, nor statements inside each
other. -/
structure Separate (root : Node) (first second : Address) : Prop where
  ne : first ≠ second
  apart : ∀ statement other, IsStatementAt root first statement →
    IsStatementAt root second other →
    statement.Apart other

structure Homed (source : Source) (path : String) (base : Address)
    (functions : List Function) (homes : List Address) : Prop where
  declared : List.Forall₂ (DeclaredAt source path)
    (functions.filter fun f => !f.isMacro) homes
  below : ∀ home ∈ homes, base <+: home
  separate : homes.Pairwise (Separate source.root)

section Walks

variable {source : Source} {path : String} {base : Address}

private theorem Separate.of_ne {first second : Address} {index other : Nat}
    (hne : index ≠ other) (hfirst : base ++ [index] <+: first)
    (hsecond : base ++ [other] <+: second) :
    Separate source.root first second where
  ne := by
    rintro rfl
    exact (Address.apart_of_ne hne hfirst hsecond).1 (List.prefix_refl _)
  apart := fun _ _ hstatement hother =>
    Address.apart_of_ne hne (hfirst.trans (prefix_of_isStatementAt hstatement))
      (hsecond.trans (prefix_of_isStatementAt hother))

private theorem Homed.of_isMacro {functions : List Function}
    (h : ∀ function ∈ functions, function.isMacro = true) :
    Homed source path base functions [] where
  declared := by
    rw [List.filter_eq_nil_iff.mpr (by simpa using h)]
    exact .nil
  below := by simp
  separate := .nil

theorem Homed.nil : Homed source path base [] [] :=
  .of_isMacro (by simp)

theorem Homed.widen {outer : Address} {functions : List Function}
    {homes : List Address} (h : Homed source path base functions homes)
    (houter : outer <+: base) :
    Homed source path outer functions homes where
  declared := h.declared
  below := fun home hhome => houter.trans (h.below home hhome)
  separate := h.separate

theorem Homed.append {first second : List Function}
    {homes others : List Address} (hfirst : Homed source path base first homes)
    (hsecond : Homed source path base second others)
    (hseparate : ∀ home ∈ homes, ∀ other ∈ others,
      Separate source.root home other) :
    Homed source path base (first ++ second) (homes ++ others) where
  declared := by
    rw [List.filter_append]
    exact List.rel_append hfirst.declared hsecond.declared
  below := by
    intro home hhome
    rcases List.mem_append.mp hhome with hhome | hhome
    · exact hfirst.below home hhome
    · exact hsecond.below home hhome
  separate := List.pairwise_append.mpr
    ⟨hfirst.separate, hsecond.separate, hseparate⟩

/-- The items in a row, the first of which has the number `start`, keep their
homes apart.  Each home is below an item that contributes. -/
theorem exists_homed_from {contribution : Node → List Function}
    {items : List Node} (start : Nat)
    (h : ∀ index item, items[index]? = some item →
      ∃ homes, Homed source path (base ++ [start + index])
        (contribution item) homes) :
    ∃ homes, Homed source path base (items.flatMap contribution) homes ∧
      ∀ home ∈ homes, ∃ index item, items[index]? = some item ∧
      contribution item ≠ [] ∧
        base ++ [start + index] <+: home := by
  have hnext (index : Nat) : start + (index + 1) = start + 1 + index := by omega
  induction items generalizing start with
  | nil => exact ⟨[], .nil, by simp⟩
  | cons item items ih =>
      obtain ⟨homes, hhomed⟩ := h 0 item rfl
      have hitems : ∀ index other, items[index]? = some other → ∃ homes,
          Homed source path (base ++ [start + 1 + index])
            (contribution other) homes := by
        intro index other hother
        rw [← hnext]
        exact h (index + 1) other hother
      obtain ⟨others, hothers, hbelow⟩ := ih (start + 1) hitems (by omega)
      have hitem : ∀ home ∈ homes, contribution item ≠ [] := by
        rintro home hhome hnil
        have hlength := hhomed.declared.length_eq
        simp [hnil, List.ne_nil_of_mem hhome, eq_comm] at hlength
      refine ⟨homes ++ others,
        (hhomed.widen (List.prefix_append _ _)).append hothers ?_, ?_⟩
      · intro home hhome other hother
        obtain ⟨index, -, -, -, hindex⟩ := hbelow other hother
        exact .of_ne (by omega) (hhomed.below home hhome) hindex
      · intro home hhome
        rcases List.mem_append.mp hhome with hhome | hhome
        · exact ⟨0, item, rfl, hitem home hhome, hhomed.below home hhome⟩
        · obtain ⟨index, other, hother, hne, hindex⟩ := hbelow home hhome
          exact ⟨index + 1, other, hother, hne, by rwa [hnext]⟩

private theorem exists_homed_flatMap {contribution : Node → List Function}
    {items : List Node} (h : ∀ index item, items[index]? = some item →
      ∃ homes, Homed source path (base ++ [index]) (contribution item) homes) :
    ∃ homes, Homed source path base (items.flatMap contribution) homes ∧
      ∀ home ∈ homes, ∃ index item, items[index]? = some item ∧
      contribution item ≠ [] ∧
        base ++ [index] <+: home := by
  simpa using exists_homed_from 0
    fun index item hitem => by simpa using h index item hitem

private theorem at?_bodyItem {root item child : Node} {home : Address}
    {index : Nat} (hitem : root.at? home = some item)
    (hchild : (bodyItems item)[index]? = some child) :
    root.at? (home ++ [bodyIndex item] ++ [index]) = some child := by
  unfold bodyItems at hchild
  split at hchild
  · simp at hchild
  · next body hbody => exact at?_child (at?_body hitem hbody) hchild

/-- A home is apart from the homes in its own body, which are not below its
statements. -/
theorem Separate.of_inner {root item inner : Node} {home innerHome : Address}
    {index : Nat} (hitem : root.at? home = some item)
    (hinner : (bodyItems item)[index]? = some inner)
    (hkind : inner.kind = "function_item")
    (hbelow : home ++ [bodyIndex item] ++ [index] <+: innerHome) :
    Separate root home innerHome where
  ne := by
    rintro rfl
    have hlength := hbelow.length_le
    simp only [List.length_append, List.length_singleton] at hlength
    omega
  apart := by
    rintro statement other
      ⟨_, body, number, node, hitem', hbody, hnode, hother, -, rfl⟩ hstatement
    cases hitem.symm.trans hitem'
    have hne : number ≠ index := by
      rintro rfl
      simp only [bodyItems, hbody] at hinner
      cases hinner.symm.trans hnode
      exact hother hkind
    have hbegins : home ++ [bodyIndex item] ++ [number] <+:
        home ++ [bodyIndex item, number] := by
      simp
    exact Address.apart_of_ne hne hbegins
      (hbelow.trans (prefix_of_isStatementAt hstatement))

private theorem exists_homed_function {scope : List String} {home : Address}
    {node : Node} (hnode : source.root.at? home = some node)
    (hkind : node.itemKind = .function) :
    ∃ homes, Homed source path home
      (function source path scope node) homes := by
  induction hsize :
    node.size using Nat.strongRecOn generalizing scope home node with
  | ind size ih =>
      rw [function_eq]
      cases hdeclared : functionOf? source path scope node with
      | none => exact ⟨[], .nil⟩
      | some outer =>
          have houter : DeclaredAt source path outer home :=
            ⟨scope, node, hnode, (Node.itemKind_eq_iff (by simp)).mp hkind,
              hdeclared⟩
          have hisMacro : outer.isMacro = false := by
            obtain ⟨_, -, hdeclared⟩ := Option.bind_eq_some_iff.mp hdeclared
            cases hdeclared
            rfl
          have hitems : ∀ index item, (bodyItems node)[index]? = some item →
              ∃ homes, Homed source path (home ++ [bodyIndex node] ++ [index])
                (traitItem source path [outer.name] item) homes := by
            intro index item hitem
            unfold traitItem
            split
            · next hkind =>
                have hsmaller :=
                  size_lt_of_mem_bodyItems (List.mem_of_getElem? hitem)
                exact ih item.size (by omega)
                  (at?_bodyItem hnode hitem) hkind rfl
            · exact ⟨[], .nil⟩
          obtain ⟨homes, hhomed, hinner⟩ := exists_homed_flatMap hitems
          have hself : Homed source path home [outer] [home] :=
            ⟨by simpa [hisMacro] using houter, by simp, by simp⟩
          dsimp only
          rw [flatMap_innerFunctions]
          refine ⟨[home] ++ homes,
            hself.append (hhomed.widen (List.prefix_append _ _)) ?_⟩
          -- An item of the body that has a home below it is a function, so it
          -- is no statement.
          simp only [List.mem_singleton, forall_eq]
          intro innerHome hinnerHome
          obtain ⟨index, inner, hitem, hcontributes, hbelow⟩ :=
            hinner innerHome hinnerHome
          have hfunction : inner.itemKind = .function := by
            by_contra hother
            simp [traitItem, hother] at hcontributes
          exact .of_inner hnode hitem
            ((Node.itemKind_eq_iff (by simp)).mp hfunction) hbelow

private theorem exists_homed_body {contribution : Node → List Function}
    {home : Address} {node : Node}
    (h : ∀ index item, (bodyItems node)[index]? = some item →
      ∃ homes, Homed source path (home ++ [bodyIndex node] ++ [index])
        (contribution item) homes) :
    ∃ homes, Homed source path home
      ((bodyItems node).flatMap contribution) homes := by
  obtain ⟨homes, hhomed, -⟩ := exists_homed_flatMap h
  exact ⟨homes, hhomed.widen (List.prefix_append _ _)⟩

private theorem exists_homed_implementation {scope : List String}
    {home : Address} {node : Node} (hnode : source.root.at? home = some node) :
    ∃ homes, Homed source path home
      (implementation source path scope node) homes := by
  induction hsize :
    node.size using Nat.strongRecOn generalizing scope home node with
  | ind size ih =>
      rw [implementation_eq_flatMap]
      refine exists_homed_body fun index item hitem => ?_
      have hplace := at?_bodyItem hnode hitem
      have hsmaller := size_lt_of_mem_bodyItems (List.mem_of_getElem? hitem)
      unfold implementationItem
      split
      · next hkind => exact exists_homed_function hplace hkind
      · exact ih item.size (by omega) hplace rfl
      · exact ⟨[], .nil⟩

private theorem exists_homed_trait {scope : List String} {home : Address}
    {node : Node} (hnode : source.root.at? home = some node) :
    ∃ homes, Homed source path home (trait source path scope node) homes := by
  rw [trait_eq_flatMap]
  refine exists_homed_body fun index item hitem => ?_
  unfold traitItem
  split
  · next hkind => exact exists_homed_function (at?_bodyItem hnode hitem) hkind
  · exact ⟨[], .nil⟩

private theorem isMacro_of_entryOf? {node : Node} {function : Function}
    (h : entryOf? source path node = some function) :
    function.isMacro = true := by
  unfold entryOf? at h
  split at h
  · cases h
    exact (withBody_place ..).2.2
  · cases h

private theorem isMacro_of_definitionOf? {node : Node} {function : Function}
    (h : definitionOf? source path node = some function) :
    function.isMacro = true := by
  obtain ⟨_, -, h⟩ := Option.bind_eq_some_iff.mp h
  obtain ⟨_, -, h⟩ := Option.bind_eq_some_iff.mp h
  cases h
  exact (withBody_place ..).2.2

private theorem exists_homed_container {scope : List String} {home : Address}
    {node : Node} (hnode : source.root.at? home = some node) :
    ∃ homes, Homed source path home
      (container source path scope node) homes := by
  induction hsize :
    node.size using Nat.strongRecOn generalizing scope home node with
  | ind size ih =>
      rw [container_eq]
      have hitems : ∀ index item, node.children[index]? = some item →
          ∃ homes, Homed source path (home ++ [index])
            (containerItem source path scope item)
            homes := by
        intro index item hitem
        have hplace := at?_child hnode hitem
        have hsmaller :=
          Node.size_lt_of_mem_children (List.mem_of_getElem? hitem)
        unfold containerItem
        split
        · next hkind => exact exists_homed_function hplace hkind
        · exact exists_homed_implementation hplace
        · split
          · exact ⟨[], .nil⟩
          · next body hbody =>
              have hsmaller' := Node.size_lt_of_child? hbody
              obtain ⟨homes, hhomed⟩ :=
                ih body.size (by omega) (at?_body hplace hbody) rfl
              exact ⟨homes, hhomed.widen (List.prefix_append _ _)⟩
        · exact exists_homed_trait hplace
        · refine ⟨[], .of_isMacro fun function hfunction => ?_⟩
          obtain ⟨_, -, hentry⟩ := List.mem_filterMap.mp hfunction
          exact isMacro_of_entryOf? hentry
        · refine ⟨[], .of_isMacro fun function hfunction => ?_⟩
          exact isMacro_of_entryOf? (Option.mem_toList.mp hfunction)
        · refine ⟨[], .of_isMacro fun function hfunction => ?_⟩
          exact isMacro_of_definitionOf? (Option.mem_toList.mp hfunction)
        · exact ⟨[], .nil⟩
        · exact ⟨[], .nil⟩
      obtain ⟨homes, hhomed, -⟩ := exists_homed_flatMap hitems
      exact ⟨homes, hhomed⟩

end Walks

/-! ## Events -/

private theorem filterMap_placesBelow {source : Source} {address : Address}
    {node : Node} (hnode : source.root.at? address = some node) :
    (placesBelow source.root address).filterMap (eventAt? source) =
      events source.bytes .zero node := by
  have hevent : (fun rest => eventAt? source (address ++ rest)) =
      fun rest => (node.at? rest).bind (Event.ofNode? source.bytes .zero) := by
    funext rest
    simp [eventAt?, Node.at?_append, hnode]
  have hevents : events source.bytes .zero node =
      node.preorder.filterMap (Event.ofNode? source.bytes .zero) := by
    simpa [Node.preorders] using flatMap_events source.bytes .zero [node]
  rw [hevents, ← Node.filterMap_at?_places, List.filterMap_filterMap]
  simp only [placesBelow, hnode, List.filterMap_map]
  exact congrArg (node.places.filterMap ·) hevent

private theorem DeclaredAt.events_eq {source : Source} {path : String}
    {function : Function} {home : Address}
    (h : DeclaredAt source path function home) :
    function.events =
      (contributors source home).filterMap (eventAt? source) := by
  obtain ⟨scope, item, hitem, -, hdeclared⟩ := h
  have hevents : function.events = bodyEvents source item := by
    obtain ⟨_, -, hdeclared⟩ := Option.bind_eq_some_iff.mp hdeclared
    cases hdeclared
    rfl
  have hstatements :
      statements item = ((bodyItems item).zipIdx.filter fun numbered =>
      !isInner numbered.1 && isBodyStatement numbered.1.kind).map Prod.fst := by
    rw [statements]
    nth_rewrite 1 [← List.zipIdx_map_fst 0 (bodyItems item)]
    rw [List.filter_map]
    rfl
  have hcontributors : (contributors source home).filterMap (eventAt? source) =
      (statementsAt source.root home).flatMap fun statement =>
        (placesBelow source.root statement).filterMap (eventAt? source) := by
    rw [contributors, List.filterMap_filter, ← List.filterMap_flatMap]
    congr 1
    funext address
    cases heq : eventAt? source address <;> simp
  -- Both sides now go over the same numbered items of the body.
  rw [hevents, hcontributors, bodyEvents, hstatements]
  simp only [statementsAt, hitem, List.flatMap_map]
  refine List.flatMap_congr fun numbered hnumbered => ?_
  obtain ⟨hmem, -⟩ := List.mem_filter.mp hnumbered
  have hplace := at?_bodyItem hitem (List.mem_zipIdx_iff_getElem?.mp hmem)
  exact (filterMap_placesBelow (by simpa using hplace)).symm

/-- Every function that is no macro has a home of its own.  The statements of
all homes are apart, so no node contributes to two functions, or twice to one;
and what a home gets are the events of the nodes in its statements. -/
theorem events_attributed_once (source : Source) (path : String) :
    ∃ homes : List Address,
      List.Forall₂ (fun function home => DeclaredAt source path function home ∧
          function.events =
            (contributors source home).filterMap (eventAt? source))
        ((functions source path).filter fun function =>
          !function.isMacro) homes ∧
      homes.Nodup ∧
      (homes.flatMap (statementsAt source.root)).Pairwise Address.Apart ∧
      (homes.flatMap (contributors source)).Nodup ∧
      (∀ home address, address ∈ statementsAt source.root home ↔
        IsStatementAt source.root home address) ∧
      ∀ home address, address ∈ contributors source home ↔
        (∃ statement, IsStatementAt source.root home statement ∧
          statement <+: address) ∧
          (eventAt? source address).isSome = true := by
  obtain ⟨homes, hhomed⟩ : ∃ homes,
    Homed source path [] (functions source path) homes :=
    exists_homed_container rfl
  have hapart :
      (homes.flatMap (statementsAt source.root)).Pairwise Address.Apart := by
    refine List.pairwise_flatMap.mpr
      ⟨fun home _ => pairwise_statementsAt _ home, ?_⟩
    refine hhomed.separate.imp
      fun hseparate statement hstatement other hother => ?_
    exact hseparate.apart statement other (mem_statementsAt.mp hstatement)
      (mem_statementsAt.mp hother)
  refine ⟨homes, ?_, hhomed.separate.imp Separate.ne, hapart,
    nodup_flatMap_contributors hapart,
    fun _ _ => mem_statementsAt, fun _ _ => mem_contributors⟩
  exact hhomed.declared.imp fun function home hdeclared =>
    ⟨hdeclared, hdeclared.events_eq⟩

end FuzzReach.Extract
