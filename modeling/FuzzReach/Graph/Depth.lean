import FuzzReach.Graph.Trail
import FuzzReach.Table

/-!
# Depths in a graph

The depth of a node is the length of the longest chain below it.  Nodes that
reach each other form a group and are settled together, after everything below
them: a step from a node to itself counts one, a step to another member of its
group counts one more than the longest chain that leaves the group, which is
taken to be at least one.
-/

namespace FuzzReach.Graph

variable {κ : Type} [DecidableEq κ]

/-! ## Groups -/

def byReach (next : κ → List κ) (nodes : List κ) : List (κ × List κ) :=
  (nodes.map fun node => (node, reach next nodes node)).mergeSort
    fun first second =>
    first.2.length ≤ second.2.length

def group (all : List (κ × List κ)) (node : κ × List κ) : List κ :=
  (all.filter fun other => other.1 ∈ node.2 ∧ node.1 ∈ other.2).map Prod.fst

/-- The group of every node, a group below another one always before it. -/
def groups (next : κ → List κ) (nodes : List κ) : List (List κ) :=
  let all := byReach next nodes
  all.map (group all)

/-! ## Settling -/

def maximum (numbers : List Nat) : Nat :=
  numbers.foldr max 0

def below (settled : Table κ Nat) (target : κ) : Nat :=
  match settled.get? target with
  | some depth => depth + 1
  | none => 1

def exit (next : κ → List κ) (settled : Table κ Nat) (members : List κ) : Nat :=
  maximum (((members.flatMap next).filter (· ∉ members)).map (below settled))

def stepDepth (settled : Table κ Nat) (members : List κ) (exit : Nat)
    (node target : κ) : Nat :=
  if target = node then 1
  else if target ∈ members then 1 + max exit 1
  else below settled target

def settleGroup (next : κ → List κ) (settled : Table κ Nat) (members : List κ) :
    Table κ Nat :=
  if members.any settled.contains then settled
  else
    let exit := exit next settled members
    settled.insertAll (members.map fun node =>
      (node, maximum ((next node).map (stepDepth settled members exit node))))

def unsettled (next : κ → List κ) (nodes : List κ) (settled : Table κ Nat)
    (root : κ) : List κ :=
  reach next (nodes.filter fun node => !settled.contains node) root

def settle (next : κ → List κ) (nodes : List κ) (settled : Table κ Nat)
    (root : κ) :
    Table κ Nat :=
  if settled.contains root then settled
  else
    (groups next (unsettled next nodes settled root)).foldl
      (settleGroup next) settled

def depthIn (settled : Table κ Nat) (node : κ) : Nat :=
  (settled.get? node).getD 0

end FuzzReach.Graph
