import FuzzReach.Call.Event
import FuzzReach.Proofs.Call.Replay

/-!
# Method calls

A method call is read off three nodes: the call, the access to the method in
front of its arguments, and what the method is called on.  The receiver of a
method is a call itself if that last node is one.  A method call always finds
something, its target.
-/

namespace FuzzReach.Call

open Syntax

/-! ## Typed callees -/

def Receiver.ofNode (bytes : Bytes) (node : Node) : Receiver :=
  if node.kind = "call_expression" then
    ((Callee.ofCall? bytes node).map .call).getD .untypedCall
  else .ofPlain bytes node

theorem Callee.typed?_field {bytes : Bytes} {node : Node}
    (hkind : node.kind = "field_expression") :
    Callee.typed? bytes node =
      ((node.fieldText? "field" bytes).bind nonempty?).map
        (.field (((node.child? "value").map (Receiver.ofNode bytes)).getD
          .unknown)) := by
  rw [Callee.typed?]
  simp only [hkind]
  cases (node.fieldText? "field" bytes).bind nonempty? with
  | none => rfl
  | some name =>
      cases hvalue : node.child? "value" with
      | none => simp
      | some value =>
          by_cases hcall : value.kind = "call_expression"
          · simp only [hcall, if_true, Receiver.ofNode, Callee.ofCall?,
              Option.map_some, Option.getD_some]
            split
            · next hnone => simp [hnone]
            · next function hfunction =>
                rw [hfunction, Option.bind_some]
                cases Callee.typed? bytes function <;> rfl
          · simp [Receiver.ofNode, hcall]

private theorem Callee.kind_ne_of_typed? {bytes : Bytes} {node : Node}
    {callee : Callee} (h : Callee.typed? bytes node = some callee) :
    node.kind ≠ "generic_function" := by
  intro hkind
  simp [Callee.typed?, hkind] at h

theorem Callee.ne_empty_of_typed? {bytes : Bytes} {node : Node}
    {callee : Callee} (h : Callee.typed? bytes node = some callee) :
    callee ≠ .path "" := by
  rintro rfl
  unfold Callee.typed? at h
  split at h
  · simp [nonempty?] at h
  · simp [nonempty?] at h
  · repeat' split at h
    all_goals simp at h
  · cases h

theorem Event.ofNode?_of_typed? {bytes : Bytes} {node function : Node}
    {callee : Callee} (hkind : node.kind = "call_expression")
    (hfunction : node.child? "function" = some function)
    (htyped : Callee.typed? bytes function = some callee) (offset : Offset) :
    Event.ofNode? bytes offset node =
      some (.call callee (offset.position function)
        (offset.line function)) := by
  have hcallee : Callee.ofNode? bytes function = some callee := by
    rw [Callee.ofNode?, if_neg (Callee.kind_ne_of_typed? htyped), htyped]
  simp [Event.ofNode?, hkind, hfunction, hcallee]

/-! ## Methods -/

/-- A method is called by its bare name or behind a type, which is neither empty
nor `void`. -/
theorem Tracker.fieldName_eq_or (tracker : Tracker) (receiver : Receiver)
    (name : String) :
    tracker.fieldName receiver name = name ∨
      ∃ type, tracker.receiverType? receiver = some type ∧ type ≠ "" ∧
      type ≠ TypeText.void ∧
        tracker.fieldName receiver name = type ++ "::" ++ name := by
  rw [fieldName, memberName_eq]
  cases hqualifier : qualifier? (tracker.receiverType? receiver) with
  | none => exact .inl rfl
  | some type =>
      obtain ⟨htype, hvoid⟩ := Option.filter_eq_some_iff.mp hqualifier
      obtain ⟨hfound, hne⟩ := bind_nonempty?_eq_some_iff.mp htype
      exact .inr ⟨type, hfound, hne, by simpa using hvoid, rfl⟩

/-- The expression `value.method(..)`, without generic arguments. -/
structure MethodCall (bytes : Bytes) where
  node : Node
  isCall : node.kind = "call_expression"
  access : Node
  hasAccess : node.child? "function" = some access
  isAccess : access.kind = "field_expression"
  value : Node
  hasValue : access.child? "value" = some value
  method : String
  hasMethod : access.fieldText? "field" bytes = some method
  named : method ≠ ""

namespace MethodCall

variable {bytes : Bytes} (call : MethodCall bytes)

def receiver : Receiver :=
  .ofNode bytes call.value

def callee : Callee :=
  .field call.receiver call.method

def event (offset : Offset) : Event :=
  .call call.callee (offset.position call.access) (offset.line call.access)

private theorem typed?_access :
    Callee.typed? bytes call.access = some call.callee := by
  have hmethod : (call.access.fieldText? "field" bytes).bind nonempty? =
      some call.method := by
    rw [call.hasMethod, Option.bind_some, nonempty?, if_neg call.named]
  rw [Callee.typed?_field call.isAccess, hmethod, call.hasValue]
  rfl

theorem ofNode?_node (offset : Offset) :
    Event.ofNode? bytes offset call.node = some (call.event offset) :=
  Event.ofNode?_of_typed? call.isCall call.hasAccess call.typed?_access offset

theorem receiver_ofNode :
    Receiver.ofNode bytes call.node = .call call.callee := by
  have hcallee : Callee.ofCall? bytes call.node = some call.callee := by
    rw [Callee.ofCall?, call.hasAccess, Option.bind_some, typed?_access]
  rw [Receiver.ofNode, if_pos call.isCall, hcallee]
  rfl

variable (tracker : Tracker)

def target : String :=
  tracker.fieldName call.receiver call.method

private theorem target_ne_empty : call.target tracker ≠ "" := by
  unfold target
  rcases tracker.fieldName_eq_or call.receiver call.method with
    hbare | ⟨type, -, -, -, hqualified⟩
  · rw [hbare]
    exact call.named
  · simp [hqualified]

theorem finds_iff (offset : Offset) {finding : Finding} :
    Finds tracker (call.event offset) finding ↔
      finding = ⟨offset.position call.access, call.target tracker,
        offset.line call.access⟩ := by
  have htarget : tracker.target? call.callee = some (call.target tracker) :=
    nonempty?_eq_some_iff.mpr ⟨rfl, call.target_ne_empty tracker⟩
  rw [← finding?_eq_some_iff, event, Tracker.finding?, htarget, Option.map_some,
    Option.some.injEq, eq_comm]

end MethodCall

end FuzzReach.Call
