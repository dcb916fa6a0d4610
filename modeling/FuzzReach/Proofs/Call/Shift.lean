import FuzzReach.Call.Resolution
import FuzzReach.Proofs.Call.Callee
import FuzzReach.Proofs.Call.Events
import FuzzReach.Proofs.Syntax.Shift

/-!
# Calls of moved functions

What is called and what variables are bound to is read off texts, which stay the
same when a source moves.  Positions and lines of events grow by as much as the
source moved, whether the nodes moved or the offset of the fragment that they
belong to.  All events of a function move alike, so its call sites keep their
order.
-/

namespace FuzzReach

namespace Call

open Syntax

/-! ## Callees and bindings -/

section Syntax

variable (front bytes : Bytes) (rows : Nat)

private theorem Receiver.ofPlain_shift (node : Node) :
    Receiver.ofPlain (front ++ bytes) (node.shift front.size rows) =
      Receiver.ofPlain bytes node := by
  simp only [Receiver.ofPlain, Node.kind_shift, text_shift]

private theorem Callee.typed?_shift (node : Node) :
    Callee.typed? (front ++ bytes) (node.shift front.size rows) =
      Callee.typed? bytes node := by
  -- A receiver that is a call brings a smaller callee with it.
  induction hsize : node.size using Nat.strongRecOn generalizing node with
  | ind size ih =>
      by_cases hkind : node.kind = "field_expression"
      · have hreceiver : ∀ value, node.child? "value" = some value →
            Receiver.ofNode (front ++ bytes) (value.shift front.size rows) =
              Receiver.ofNode bytes value := by
          intro value hvalue
          have hcall :
              Callee.ofCall? (front ++ bytes) (value.shift front.size rows) =
              Callee.ofCall? bytes value := by
            rw [Callee.ofCall?, Callee.ofCall?, Node.child?_shift]
            cases hfunction : value.child? "function" with
            | none => rfl
            | some function =>
                have := Node.size_lt_of_child? hvalue
                have := Node.size_lt_of_child? hfunction
                exact ih function.size (by omega) function rfl
          simp only [Receiver.ofNode, Node.kind_shift, hcall,
            Receiver.ofPlain_shift]
        rw [typed?_field (by simpa using hkind), typed?_field hkind,
          fieldText?_shift, Node.child?_shift]
        cases hvalue : node.child? "value" with
        | none => rfl
        | some value => simp [hreceiver value hvalue]
      · rw [Callee.typed?, Callee.typed?]
        simp only [Node.kind_shift, text_shift]
        split <;> simp_all

private theorem Callee.ofCall?_shift (node : Node) :
    Callee.ofCall? (front ++ bytes) (node.shift front.size rows) =
      Callee.ofCall? bytes node := by
  simp only [Callee.ofCall?, Node.child?_shift, Option.bind_map,
    Function.comp_def, Callee.typed?_shift]

private theorem Callee.ofNode?_shift (node : Node) :
    Callee.ofNode? (front ++ bytes) (node.shift front.size rows) =
      Callee.ofNode? bytes node := by
  simp only [Callee.ofNode?, Node.kind_shift, Callee.typed?_shift,
    Node.child?_shift]
  cases node.child? "function" <;> simp [text_shift]

private theorem Binding.ofValue?_shift (node : Node) :
    Binding.ofValue? (front ++ bytes) (node.shift front.size rows) =
      Binding.ofValue? bytes node := by
  simp only [Binding.ofValue?, Node.kind_shift, text_shift, fieldText?_shift,
    Callee.ofCall?_shift]

private theorem Binding.ofNode?_shift (node : Node) :
    Binding.ofNode? (front ++ bytes) (node.shift front.size rows) =
      Binding.ofNode? bytes node := by
  simp only [Binding.ofNode?, Node.kind_shift, Node.child?_shift,
    Option.bind_map, Function.comp_def, Binding.ofValue?_shift]

theorem patternName_shift (node : Node) :
    patternName (front ++ bytes) (node.shift front.size rows) =
      patternName bytes node := by
  simp only [patternName, Node.kind_shift, text_shift, Node.namedChildren_shift,
    List.find?_map, Function.comp_def]
  cases node.namedChildren.find? fun child =>
    child.kind = "identifier" <;> simp [text_shift]

theorem macroName?_shift (node : Node) :
    macroName? (front ++ bytes) (node.shift front.size rows) =
      macroName? bytes node := by
  simp only [macroName?, Node.child?_shift, Node.childOfKind?_shift]
  cases node.child? "macro" <;> cases node.childOfKind?
    "identifier" <;> simp [text_shift]

end Syntax

/-! ## Events -/

def Event.shift (bytes rows : Nat) : Event → Event
  | .call callee position line => .call callee (position + bytes) (line + rows)
  | .bind name value => .bind name value
  | .invoke name position line => .invoke name (position + bytes) (line + rows)

def Offset.shift (bytes rows : Nat) (offset : Offset) : Offset :=
  ⟨offset.row + rows, offset.byte + bytes⟩

section Events

variable (bytes : Bytes) (offset : Offset)

private theorem Event.ofNode?_offset (more rows : Nat) (node : Node) :
    Event.ofNode? bytes (offset.shift more rows) node =
      (Event.ofNode? bytes offset node).map (Event.shift more rows) := by
  simp only [Event.ofNode?]
  split
  · cases node.child? "function" with
    | none => rfl
    | some function =>
        cases hcallee : Callee.ofNode? bytes function <;>
          simp [hcallee, Event.shift, Offset.position, Offset.line,
            Offset.shift]
        omega
  · cases node.child? "pattern" <;> cases node.child? "value" with
    | none => rfl
    | some value =>
        cases hbinding :
          Binding.ofNode? bytes value <;> simp [hbinding, Event.shift]
  · cases hname : macroName? bytes node <;>
      simp [Event.shift, Offset.position, Offset.line, Offset.shift]
    omega
  · rfl

section Moved

variable (front : Bytes) (rows : Nat) (node : Node)

private theorem Offset.position_shift :
    offset.position (node.shift front.size rows) =
      (offset.shift front.size rows).position node := by
  simp [Offset.position, Offset.shift, Span.shift]
  omega

private theorem Offset.line_shift :
    offset.line (node.shift front.size rows) =
      (offset.shift front.size rows).line node := by
  simp [Offset.line, Offset.shift, Span.shift]
  omega

/-- It is the same to move a node and to move the offset that it is read
with. -/
theorem Event.ofNode?_shift :
    Event.ofNode? (front ++ bytes) offset (node.shift front.size rows) =
      Event.ofNode? bytes (offset.shift front.size rows) node := by
  simp only [Event.ofNode?, Node.kind_shift, Node.child?_shift,
    macroName?_shift, Offset.position_shift, Offset.line_shift]
  split
  · cases node.child? "function" with
    | none => simp
    | some function =>
        simp [Callee.ofNode?_shift, Offset.position_shift, Offset.line_shift]
  · cases node.child? "pattern" <;> cases node.child? "value" <;>
      simp [Binding.ofNode?_shift, patternName_shift]
  · rfl
  · rfl

end Moved

theorem flatMap_events_shift (front : Bytes) (rows : Nat) (body : List Node) :
    (body.map (Node.shift front.size rows)).flatMap
      (events (front ++ bytes) offset) =
      (body.flatMap (events bytes offset)).map
        (Event.shift front.size rows) := by
  rw [flatMap_events, flatMap_events, Node.preorders_shift, List.filterMap_map,
    List.map_filterMap]
  simp only [Function.comp_def, Event.ofNode?_shift, Event.ofNode?_offset]

theorem events_offset (more rows : Nat) (root : Node) :
    events bytes (offset.shift more rows) root =
      (events bytes offset root).map (Event.shift more rows) := by
  have hnode : Event.ofNode? bytes (offset.shift more rows) = fun node =>
      (Event.ofNode? bytes offset node).map (Event.shift more rows) :=
    funext (Event.ofNode?_offset bytes offset more rows)
  simp [events, gather_eq, List.map_filterMap, hnode]

end Events

/-! ## Replay -/

def Finding.shift (bytes rows : Nat) (finding : Finding) : Finding :=
  ⟨finding.position + bytes, finding.target, finding.line + rows⟩

private theorem replay_shift (bytes rows : Nat) (tracker : Tracker)
    (events : List Event) :
    replay tracker (events.map (Event.shift bytes rows)) =
      ((replay tracker events).1.map (Finding.shift bytes rows),
        (replay tracker events).2) := by
  induction events generalizing tracker with
  | nil => rfl
  | cons event rest ih =>
      cases event with
      | call callee position line =>
          simp only [List.map_cons, Event.shift, replay, ih]
          cases tracker.target? callee <;> rfl
      | bind name value =>
          simpa only [List.map_cons, Event.shift, replay] using ih _
      | invoke name position line =>
          simp only [List.map_cons, Event.shift, replay, ih]
          cases tracker.invoked? name <;> rfl

private theorem Finding.le_shift (bytes rows : Nat) (first second : Finding) :
    Finding.le (first.shift bytes rows) (second.shift bytes rows) =
      Finding.le first second := by
  rw [Bool.eq_iff_iff]
  simp only [Finding.le, Bool.or_eq_true, Bool.and_eq_true, decide_eq_true_eq]
  simp [Finding.shift]

private theorem Finding.shift_inj {bytes rows : Nat} {first second : Finding} :
    first.shift bytes rows = second.shift bytes rows ↔ first = second := by
  cases first
  cases second
  simp [Finding.shift]

private theorem dropRepeats_shift (bytes rows : Nat) (found : List Finding) :
    dropRepeats (found.map (Finding.shift bytes rows)) =
      (dropRepeats found).map (Finding.shift bytes rows) := by
  fun_induction dropRepeats found with
  | case1 second rest ih => simpa [dropRepeats] using ih
  | case2 first second rest hne ih =>
      simpa [dropRepeats, Finding.shift_inj, hne] using ih
  | case3 rest hshort =>
      match rest with
      | [] => rfl
      | [finding] => rfl
      | first :: second :: rest => exact absurd rfl (hshort first second rest)

private theorem arrange_shift (bytes rows : Nat) (found : List Finding) :
    arrange (found.map (Finding.shift bytes rows)) =
      (arrange found).map (Finding.shift bytes rows) := by
  have hsort : (found.map (Finding.shift bytes rows)).mergeSort Finding.le =
      (found.mergeSort Finding.le).map (Finding.shift bytes rows) :=
    (List.map_mergeSort fun first _ second _ =>
      (Finding.le_shift bytes rows first second).symm).symm
  rw [arrange, hsort, dropRepeats_shift, arrange]

def Site.shift (rows : Nat) (site : Site) : Site :=
  ⟨site.callee, site.line + rows⟩

end Call

def Function.shift (bytes rows : Nat) (function : Function) : Function :=
  { function with
    startLine := function.startLine + rows
    endLine := function.endLine + rows
    start := function.start + bytes
    stop := function.stop + bytes
    events := function.events.map (Call.Event.shift bytes rows) }

theorem Call.resolve_shift (bytes rows : Nat) (function : Function)
    (aliases : Table String String) (lookup : String → Option Function) :
    (resolve (function.shift bytes rows) aliases lookup).sites =
        (resolve function aliases lookup).sites.map (Site.shift rows) ∧
      (resolve (function.shift bytes rows) aliases lookup).locals =
        (resolve function aliases lookup).locals := by
  simp only [resolve, Function.shift, replay_shift, arrange_shift, List.map_map]
  exact ⟨rfl, trivial⟩

end FuzzReach
