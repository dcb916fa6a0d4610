import FuzzReach.Proofs.Syntax.Count
import FuzzReach.Syntax.Kind

/-!
# Moved trees

A source moves if something is put in front of it: every node then covers later
bytes and later rows, and covers the same text as before.  The trees of
fragments count from the start of their group and stay as they are.
-/

namespace FuzzReach.Syntax

def Span.shift (bytes rows : Nat) (span : Span) : Span :=
  ⟨span.start + bytes, span.stop + bytes, span.firstRow + rows,
    span.lastRow + rows⟩

mutual

def Node.shift (bytes rows : Nat) : Node → Node
  | ⟨kind, field, named, span, children⟩ =>
      ⟨kind, field, named, span.shift bytes rows,
        Node.shifts bytes rows children⟩

def Node.shifts (bytes rows : Nat) : List Node → List Node
  | [] => []
  | node :: rest => node.shift bytes rows :: Node.shifts bytes rows rest

end

def Fragment.shift (bytes : Nat) (fragment : Fragment) : Fragment :=
  ⟨fragment.start + bytes, fragment.stop + bytes, fragment.root⟩

/-- The source behind `front`, which ends on row `rows`. -/
def Source.shift (front : Bytes) (rows : Nat) (source : Source) : Source where
  bytes := front ++ source.bytes
  root := source.root.shift front.size rows
  fragments := source.fragments.map (Fragment.shift front.size)

namespace Node

section Parts

variable (bytes rows : Nat) (node : Node)

private theorem shifts_eq_map (nodes : List Node) :
    shifts bytes rows nodes = nodes.map (shift bytes rows) := by
  induction nodes with
  | nil => simp [shifts]
  | cons node rest ih => simp [shifts, ih]

@[simp] theorem kind_shift : (node.shift bytes rows).kind = node.kind := by
  cases node
  simp [shift]

@[simp] theorem field_shift : (node.shift bytes rows).field = node.field := by
  cases node
  simp [shift]

@[simp] theorem named_shift : (node.shift bytes rows).named = node.named := by
  cases node
  simp [shift]

@[simp] theorem span_shift :
    (node.shift bytes rows).span = node.span.shift bytes rows := by
  cases node
  simp [shift]

@[simp] theorem children_shift :
    (node.shift bytes rows).children =
      node.children.map (shift bytes rows) := by
  cases node
  simp [shift, shifts_eq_map]

@[simp] theorem itemKind_shift :
    (node.shift bytes rows).itemKind = node.itemKind := by
  simp [itemKind]

@[simp] theorem child?_shift (field : String) :
    (node.shift bytes rows).child? field =
      (node.child? field).map (shift bytes rows) := by
  simp only [child?, children_shift, List.find?_map, Function.comp_def,
    field_shift]

@[simp] theorem childOfKind?_shift (kind : String) :
    (node.shift bytes rows).childOfKind? kind =
      (node.childOfKind? kind).map (shift bytes rows) := by
  simp only [childOfKind?, children_shift, List.find?_map, Function.comp_def,
    kind_shift]

@[simp] theorem namedChildren_shift :
    (node.shift bytes rows).namedChildren =
      node.namedChildren.map (shift bytes rows) := by
  simp [namedChildren, List.filter_map, Function.comp_def]

end Parts

/-! ## Listing and counting -/

theorem preorders_shift (bytes rows : Nat) (nodes : List Node) :
    preorders (nodes.map (shift bytes rows)) =
      (preorders nodes).map (shift bytes rows) := by
  induction nodes using forest_induction with
  | nil => simp [preorders]
  | cons node rest ih =>
      rw [List.map_cons, preorders_cons, preorders_cons, children_shift,
        ← List.map_append, ih, List.map_cons]

@[simp] theorem count_shift (matching : String → Bool) (bytes rows : Nat)
    (root : Node) :
    (root.shift bytes rows).count matching = root.count matching := by
  have hroot := preorders_shift bytes rows [root]
  simp only [List.map_cons, List.map_nil, preorders, List.append_nil] at hroot
  rw [count_eq, count_eq, hroot, List.countP_map]
  simp [Function.comp_def]

end Node

/-! ## Texts -/

section Texts

variable (front bytes : Bytes) (rows : Nat) (node : Node)

private theorem slice?_shift (start stop : Nat) :
    slice? (front ++ bytes) (start + front.size) (stop + front.size) =
      slice? bytes start stop := by
  have hbounds : (start + front.size ≤ stop + front.size ∧
      stop + front.size ≤ (front ++ bytes).size) ↔ start ≤ stop ∧
        stop ≤ bytes.size := by
    rw [Array.size_append]
    omega
  unfold slice?
  simp only [hbounds]
  split
  · simp [Array.extract_append]
  · rfl

theorem text_shift :
    (node.shift front.size rows).text (front ++ bytes) = node.text bytes := by
  simp [Node.text, textBetween, Span.shift, slice?_shift]

theorem fieldText?_shift (field : String) :
    (node.shift front.size rows).fieldText? field (front ++ bytes) =
      node.fieldText? field bytes := by
  simp [Node.fieldText?, Function.comp_def, text_shift]

end Texts

/-! ## Fragments -/

section Fragments

variable (source : Source) (front : Bytes) (rows : Nat) (node : Node)

theorem startsWithBrace_shift :
    (source.shift front rows).startsWithBrace (node.shift front.size rows) =
      source.startsWithBrace node := by
  simp [Source.startsWithBrace, Source.shift, Span.shift, Array.getElem?_append]

theorem fragmentBytes?_shift :
    (source.shift front rows).fragmentBytes? (node.shift front.size rows) =
      source.fragmentBytes? node := by
  simp [Source.fragmentBytes?, Source.shift, Span.shift, slice?_shift]

theorem fragment?_shift :
    (source.shift front rows).fragment? (node.shift front.size rows) =
      (source.fragment? node).map (Fragment.shift front.size) := by
  simp only [Source.fragment?, Source.shift, Fragment.shift, Span.shift,
    Node.span_shift, List.find?_map, Function.comp_def,
    Nat.add_right_cancel_iff]

end Fragments

end FuzzReach.Syntax
