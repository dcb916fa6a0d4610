/-!
# Syntax trees

A node has a kind, the name of the field it fills in its parent, the part of the
source that it covers, and its children in order.  Tokens without a rule of
their own are nodes that are not `named`.
-/

namespace FuzzReach.Syntax

/-- The part of a source that a node covers: bytes from `start` on and before
`stop`, and the rows of its first and last byte, counted from zero. -/
structure Span where
  start : Nat
  stop : Nat
  firstRow : Nat
  lastRow : Nat
  deriving DecidableEq, Repr

structure Node where
  kind : String
  field : Option String
  named : Bool
  span : Span
  children : List Node

namespace Node

mutual

def size : Node → Nat
  | ⟨_, _, _, _, children⟩ => sizes children + 1

def sizes : List Node → Nat
  | [] => 0
  | node :: rest => size node + sizes rest

end

theorem size_eq (node : Node) : node.size = sizes node.children + 1 := by
  cases node
  rw [size]

theorem size_pos (node : Node) : 0 < node.size := by
  rw [size_eq]
  omega

@[simp] theorem sizes_append (first second : List Node) :
    sizes (first ++ second) = sizes first + sizes second := by
  induction first with
  | nil => simp [sizes]
  | cons node rest ih =>
      simp only [List.cons_append, sizes, ih]
      omega

theorem size_le_sizes_of_mem {node : Node} {nodes : List Node}
    (h : node ∈ nodes) :
    node.size ≤ sizes nodes := by
  induction nodes with
  | nil => cases h
  | cons other rest ih =>
      rw [sizes]
      rcases List.mem_cons.mp h with rfl | h
      · omega
      · have := ih h
        omega

theorem size_lt_of_mem_children {node child : Node}
    (h : child ∈ node.children) :
    child.size < node.size := by
  have := size_le_sizes_of_mem h
  have := size_eq node
  omega

/-! ## Children -/

def child? (node : Node) (field : String) : Option Node :=
  node.children.find? fun child => child.field = some field

def childOfKind? (node : Node) (kind : String) : Option Node :=
  node.children.find? fun child => child.kind = kind

def namedChildren (node : Node) : List Node :=
  node.children.filter fun child => child.named

theorem size_lt_of_child? {node child : Node} {field : String}
    (h : node.child? field = some child) : child.size < node.size :=
  size_lt_of_mem_children (List.mem_of_find?_eq_some h)

/-! ## Lines -/

def startLine (node : Node) : Nat :=
  node.span.firstRow + 1

def endLine (node : Node) : Nat :=
  node.span.lastRow + 1

end Node

/-! ## Trees in pre-order -/

/-- A node as it stands in a pre-order listing: its own data and the number of
its children, which follow with their subtrees. -/
structure Item where
  kind : String
  field : Option String
  named : Bool
  span : Span
  arity : Nat

/-- Read one more item of a listing from right to left: its children are the
first trees of what was read so far. -/
def Item.gather (item : Item) (trees : Option (List Node)) :
    Option (List Node) := do
  let trees ← trees
  if trees.length < item.arity then none
  else
    some (⟨item.kind, item.field, item.named, item.span,
      trees.take item.arity⟩ ::
      trees.drop item.arity)

def Node.ofPreorder? (items : List Item) : Option Node :=
  match items.foldr Item.gather (some []) with
  | some [root] => some root
  | _ => none

mutual

def Node.preorder : Node → List Node
  | ⟨kind, field, named, span, children⟩ =>
      ⟨kind, field, named, span, children⟩ :: Node.preorders children

def Node.preorders : List Node → List Node
  | [] => []
  | node :: rest => node.preorder ++ Node.preorders rest

end

end FuzzReach.Syntax
