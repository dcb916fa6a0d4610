import FuzzReach.Proofs.Call.Events
import Mathlib.Data.List.Nodup

/-!
# Addresses of nodes

Equal subtrees can stand at several places of a tree.  The address of a node
tells them apart: it is the list of the numbers of the children on the way down
from the root.  A subtree is what lies at the addresses that start with the
address of its root.
-/

namespace FuzzReach.Syntax

abbrev Address := List Nat

/-- Neither address leads on to the other one, so their subtrees have no node in
common. -/
def Address.Apart (first second : Address) : Prop :=
  ¬first <+: second ∧ ¬second <+: first

theorem Address.Apart.not_both {first second address : Address}
    (h : first.Apart second) (hfirst : first <+: address) :
    ¬second <+: address := by
  intro hsecond
  rcases List.prefix_or_prefix_of_prefix hfirst hsecond with hforth | hback
  · exact h.1 hforth
  · exact h.2 hback

theorem Address.apart_of_ne {base first second : Address} {index other : Nat}
    (hne : index ≠ other) (hfirst : base ++ [index] <+: first)
    (hsecond : base ++ [other] <+: second) :
    first.Apart second := by
  have hsplit : ∀ {index other : Nat} {first second : Address}, index ≠ other →
      base ++ [index] <+: first → base ++ [other] <+: second →
        ¬first <+: second := by
    intro index other first second hne hfirst hsecond hforth
    have hboth :=
      List.prefix_of_prefix_length_le (hfirst.trans hforth) hsecond (by simp)
    exact hne (by simpa using hboth.eq_of_length (by simp))
  exact ⟨hsplit hne hfirst hsecond, hsplit hne.symm hsecond hfirst⟩

namespace Node

def at? (node : Node) : Address → Option Node
  | [] => some node
  | index :: rest => node.children[index]?.bind fun child => child.at? rest

mutual

def places : Node → List Address
  | ⟨_, _, _, _, children⟩ => [] :: placesFrom 0 children

def placesFrom (index : Nat) : List Node → List Address
  | [] => []
  | node :: rest => node.places.map (index :: ·) ++ placesFrom (index + 1) rest

end

private theorem places_eq
    (node : Node) : node.places = [] :: placesFrom 0 node.children := by
  cases node
  rw [places]

theorem at?_append (node : Node) (first second : Address) :
    node.at? (first ++ second) = (node.at? first).bind fun below =>
      below.at? second := by
  induction first generalizing node with
  | nil => rfl
  | cons index rest ih =>
      simp only [List.cons_append, at?, ih, Option.bind_assoc]

private theorem mem_placesFrom {index : Nat} {nodes : List Node}
    {address : Address} :
    address ∈ placesFrom index nodes ↔
      ∃ offset child rest, nodes[offset]? = some child ∧ rest ∈ child.places ∧
        address = (index + offset) :: rest := by
  induction nodes generalizing index with
  | nil => simp [placesFrom]
  | cons node nodes ih =>
      rw [placesFrom, List.mem_append, ih]
      constructor
      · rintro (hmem | ⟨offset, child, rest, hchild, hrest, rfl⟩)
        · obtain ⟨rest, hrest, rfl⟩ := List.mem_map.mp hmem
          exact ⟨0, node, rest, rfl, hrest, rfl⟩
        · exact ⟨offset + 1, child, rest, hchild, hrest, by simp; omega⟩
      · rintro ⟨_ | offset, child, rest, hchild, hrest, rfl⟩
        · cases hchild
          exact .inl (List.mem_map_of_mem hrest)
        · exact .inr ⟨offset, child, rest, hchild, hrest, by simp; omega⟩

theorem mem_places {node : Node} {address : Address} :
    address ∈ node.places ↔ (node.at? address).isSome = true := by
  induction address generalizing node with
  | nil => simp [places_eq, at?]
  | cons index rest ih =>
      rw [places_eq, List.mem_cons, mem_placesFrom, at?, Option.isSome_bind]
      constructor
      · rintro (hnil | ⟨offset, child, _, hchild, hrest, heq⟩)
        · cases hnil
        · obtain ⟨rfl, rfl⟩ := List.cons.inj heq
          simpa [hchild] using ih.mp hrest
      · intro hsome
        cases hchild : node.children[index]? with
        | none => simp [hchild] at hsome
        | some child =>
            rw [hchild] at hsome
            exact .inr ⟨index, child, rest, hchild, ih.mpr hsome, by simp⟩

theorem nodup_places (node : Node) : node.places.Nodup := by
  induction node using tree_induction with
  | step node ih =>
      have hfrom : ∀ (nodes : List Node) (index : Nat),
          (∀ child ∈ nodes, child.places.Nodup) →
          (placesFrom index nodes).Nodup := by
        intro nodes
        induction nodes with
        | nil => simp [placesFrom]
        | cons child nodes ihnodes =>
            intro index hnodes
            rw [placesFrom, List.nodup_append]
            refine ⟨?_, ihnodes _ fun other hother =>
              hnodes other (by simp [hother]), ?_⟩
            · exact (hnodes child (by simp)).map List.cons_injective
            · intro first hfirst second hsecond heq
              obtain ⟨rest, -, rfl⟩ := List.mem_map.mp hfirst
              obtain ⟨offset, _, _, -, -, rfl⟩ := mem_placesFrom.mp hsecond
              have := (List.cons.inj heq).1
              omega
      rw [places_eq, List.nodup_cons]
      refine ⟨?_, hfrom _ _ ih⟩
      simp [mem_placesFrom]

/-- Read off at the listed addresses, the nodes come in pre-order. -/
theorem filterMap_at?_places
    (node : Node) : node.places.filterMap node.at? = node.preorder := by
  induction node using tree_induction with
  | step node ih =>
      have hfrom : ∀ before after : List Node, node.children = before ++ after →
          (placesFrom before.length after).filterMap node.at? =
            preorders after := by
        intro before after
        induction after generalizing before with
        | nil => simp [placesFrom, preorders]
        | cons child after ihafter =>
            intro hchildren
            have hlast := ihafter (before ++ [child]) (by simpa using hchildren)
            have hchild :
                (child.places.map (before.length :: ·)).filterMap node.at? =
                child.preorder := by
              rw [List.filterMap_map, ← ih child (by simp [hchildren])]
              congr 1
              funext rest
              simp [at?, hchildren]
            rw [placesFrom, preorders, List.filterMap_append, hchild]
            simpa using hlast
      rw [places_eq, preorder_eq]
      exact congrArg (node :: ·) (hfrom [] node.children rfl)

end Node

end FuzzReach.Syntax
