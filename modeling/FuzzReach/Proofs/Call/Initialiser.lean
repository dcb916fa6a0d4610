import FuzzReach.Lookup
import FuzzReach.Proofs.Call.Callee
import FuzzReach.Proofs.Call.Events
import FuzzReach.Proofs.Call.Reading

/-!
# Calls that initialise a variable

A declaration binds its variable before the call in its initialiser is replayed,
so that the call reads the variables as they are after the binding.  Its target
is the one from before the binding exactly if both read the call alike, and so
whenever the declaration leaves alone the variable that the call reads.
-/

namespace FuzzReach.Call

open Syntax

private theorem Tracker.returnType?_fieldName {tracker : Tracker}
    {receiver : Receiver} {name type : String}
    (h : tracker.callType? (.field receiver name) = some type) :
    tracker.returnType? (tracker.fieldName receiver name) = some type := by
  simp only [Tracker.callType?, Tracker.memberType?] at h
  unfold Tracker.fieldName Tracker.memberName
  cases hreceiver : (tracker.receiverType? receiver).bind nonempty? with
  | none => simp [hreceiver] at h
  | some owner => simpa [hreceiver] using h

/-! ## Declarations -/

/-- A declaration in a body whose initialiser is a call, or a reference to one,
with a callee that has a type. -/
structure CallBinding (bytes : Bytes) (body : List Node) where
  earlier : List Node
  declaration : Node
  later : List Node
  listed : Node.preorders body = earlier ++ declaration :: later
  isDeclaration : declaration.kind = "let_declaration"
  pattern : Node
  hasPattern : declaration.child? "pattern" = some pattern
  value : Node
  hasValue : declaration.child? "value" = some value
  callee : Callee
  isCall : Binding.ofNode? bytes value = some (.call callee)

namespace CallBinding

variable {bytes : Bytes} {body : List Node} (binding : CallBinding bytes body)

def name : String :=
  patternName bytes binding.pattern

def call : Node :=
  if binding.value.kind = "reference_expression" then
    (binding.value.child? "value").getD binding.value
  else binding.value

def between : List Node :=
  Node.preorders (binding.declaration.childrenBefore "value") ++
    if binding.value.kind = "reference_expression" then
      binding.value :: Node.preorders (binding.value.childrenBefore "value")
    else []

private theorem ofValue?_call :
    Binding.ofValue? bytes binding.call = some (.call binding.callee) := by
  have h := binding.isCall
  unfold Binding.ofNode? at h
  unfold call
  split at h
  · next hkind =>
      obtain ⟨inner, hinner, hvalue⟩ := Option.bind_eq_some_iff.mp h
      simpa [hkind, hinner] using hvalue
  · next hkind => simpa [hkind] using h

private theorem exists_function : binding.call.kind = "call_expression" ∧
    ∃ function, binding.call.child? "function" = some function ∧
      Callee.typed? bytes function = some binding.callee := by
  have h := binding.ofValue?_call
  unfold Binding.ofValue? at h
  split at h
  · cases h
  · obtain ⟨type, -, htype⟩ := Option.map_eq_some_iff.mp h
    cases htype
  · next hkind =>
      obtain ⟨callee, hcallee, hsame⟩ := Option.map_eq_some_iff.mp h
      cases hsame
      exact ⟨hkind, Option.bind_eq_some_iff.mp hcallee⟩
  · cases h

private theorem callee_ne : binding.callee ≠ .path "" := by
  obtain ⟨-, function, -, htyped⟩ := binding.exists_function
  exact Callee.ne_empty_of_typed? htyped

private theorem exists_event (offset : Offset) : ∃ position line,
    Event.ofNode? bytes offset binding.call =
      some (.call binding.callee position line) := by
  obtain ⟨hkind, function, hfunction, htyped⟩ := binding.exists_function
  exact ⟨_, _, Event.ofNode?_of_typed? hkind hfunction htyped offset⟩

private theorem ofNode?_declaration (offset : Offset) :
    Event.ofNode? bytes offset binding.declaration =
      some (.bind binding.name (.call binding.callee)) := by
  simp [Event.ofNode?, binding.isDeclaration, binding.hasPattern,
    binding.hasValue, binding.isCall, name]

private theorem later_eq : ∃ remaining,
    binding.later = binding.between ++ binding.call :: remaining := by
  obtain ⟨later, hlater⟩ := Node.subtree_of_preorders binding.listed
  obtain ⟨rest, hrest⟩ := Node.preorders_children_of_child? binding.hasValue
  unfold between call
  split
  · -- The reference itself and what stands before its operand are listed on
    -- the way to the call.
    next hkind =>
      have h := binding.isCall
      rw [Binding.ofNode?, if_pos hkind] at h
      obtain ⟨inner, hinner, -⟩ := Option.bind_eq_some_iff.mp h
      obtain ⟨beside, hbeside⟩ := Node.preorders_children_of_child? hinner
      refine ⟨Node.preorders inner.children ++ beside ++ rest ++ later, ?_⟩
      simp [hlater, hrest, hinner, hbeside]
  · refine ⟨Node.preorders binding.value.children ++ rest ++ later, ?_⟩
    simp [hlater, hrest]

private theorem exists_flatMap_events (offset : Offset) :
    ∃ remaining position line,
      binding.later = binding.between ++ binding.call :: remaining ∧
      Event.ofNode? bytes offset binding.call =
        some (.call binding.callee position line) ∧
      body.flatMap (events bytes offset) =
        binding.earlier.filterMap (Event.ofNode? bytes offset) ++
          .bind binding.name (.call binding.callee) ::
            (binding.between.filterMap (Event.ofNode? bytes offset) ++
              .call binding.callee position line ::
                remaining.filterMap (Event.ofNode? bytes offset)) := by
  obtain ⟨remaining, hlater⟩ := binding.later_eq
  obtain ⟨position, line, hevent⟩ := binding.exists_event offset
  refine ⟨remaining, position, line, hlater, hevent, ?_⟩
  rw [flatMap_events, binding.listed, hlater]
  simp [List.filterMap_append, hevent, binding.ofNode?_declaration offset]

private theorem target?_of_unbound {tracker : Tracker} {events : List Event}
    (h : ∀ name, binding.callee.variable? = some name →
      name ∉ binding.name :: Tracker.boundNames events) :
    ((tracker.learn binding.name (.call binding.callee)).learnAll events).target?
        binding.callee =
      tracker.target? binding.callee := by
  have hsetting := (Tracker.sameSetting_learnAll _ events).trans
    (tracker.sameSetting_learn binding.name (.call binding.callee))
  refine hsetting.sameTypes.target?_eq fun name hname => ?_
  obtain ⟨hother, hbetween⟩ :=
    List.ne_and_not_mem_of_not_mem_cons (h name hname)
  exact (Tracker.get?_learnAll_of_notMem hbetween).trans
    (Tracker.get?_learn_of_ne hother)

/-- The call of an initialiser is resolved after the declaration and all that
the listing has before the call have been learnt. -/
theorem resolve_initialiser (function : Function)
    (aliases : Table String String) (lookup : String → Option Function)
    (offset : Offset) :
    let eventsOf := List.filterMap (Event.ofNode? bytes offset)
    let start := Tracker.start lookup aliases function.name function.locals
    let before := start.learnAll (eventsOf binding.earlier)
    let bound := before.learn binding.name (.call binding.callee)
    let inForce := bound.learnAll (eventsOf binding.between)
    (∃ remaining position line,
      binding.later = binding.between ++ binding.call :: remaining ∧
      Event.ofNode? bytes offset binding.call =
        some (.call binding.callee position line) ∧
      (resolve { function with
        events := body.flatMap (events bytes offset) } aliases
          lookup).sites =
        (arrange ((replay start (eventsOf binding.earlier)).1 ++
          ((replay bound (eventsOf binding.between)).1 ++
            ((inForce.target? binding.callee).toList.map
              (fun target => ⟨position, target, line⟩) ++
              (replay inForce (eventsOf remaining)).1)))).map
                (siteOf aliases)) ∧
    (∀ receiver name type, binding.callee = .field receiver name →
      before.callType? binding.callee = some type →
        before.returnType? (before.fieldName receiver name) = some type) ∧
    (inForce.target? binding.callee = before.target? binding.callee ↔
      inForce.ReadsAlike before binding.callee) ∧
    ((∀ name, binding.callee.variable? = some name →
        name ∉ binding.name :: Tracker.boundNames (eventsOf binding.between)) →
      inForce.target? binding.callee = before.target? binding.callee) := by
  intro eventsOf start before bound inForce
  refine ⟨?_, ?_, Tracker.target?_eq_iff binding.callee_ne,
    binding.target?_of_unbound⟩
  · obtain ⟨remaining, position, line, hlater, hevent, hevents⟩ :=
      binding.exists_flatMap_events offset
    refine ⟨remaining, position, line, hlater, hevent, ?_⟩
    simp only [resolve, hevents]
    rw [replay_append, replay, replay_append, replay_call]
  · intro receiver name type hcallee htype
    rw [hcallee] at htype
    exact Tracker.returnType?_fieldName htype

end CallBinding

/-! ## A variable initialised from its own old value -/

def shadowingCallee : Node :=
  ⟨"field_expression", some "function", true, ⟨8, 14, 0, 0⟩,
    [⟨"identifier", some "value", true, ⟨8, 9, 0, 0⟩, []⟩,
      ⟨".", none, false, ⟨9, 10, 0, 0⟩, []⟩,
      ⟨"field_identifier", some "field", true, ⟨10, 14, 0, 0⟩, []⟩]⟩

def shadowingCall : Node :=
  ⟨"call_expression", some "value", true, ⟨8, 16, 0, 0⟩,
    [shadowingCallee,
      ⟨"arguments", some "arguments", true, ⟨14, 16, 0, 0⟩,
        [⟨"(", none, false, ⟨14, 15, 0, 0⟩, []⟩,
          ⟨")", none, false, ⟨15, 16, 0, 0⟩, []⟩]⟩]⟩

/-- The tree of `let x = x.next();`. -/
def shadowing : Node :=
  ⟨"let_declaration", none, true, ⟨0, 17, 0, 0⟩,
    [⟨"let", none, false, ⟨0, 3, 0, 0⟩, []⟩,
      ⟨"identifier", some "pattern", true, ⟨4, 5, 0, 0⟩, []⟩,
      ⟨"=", none, false, ⟨6, 7, 0, 0⟩, []⟩,
      shadowingCall,
      ⟨";", none, false, ⟨16, 17, 0, 0⟩, []⟩]⟩

def shadowingBytes : Bytes := "let x = x.next();".toUTF8.data

def shadowingFunction : Function :=
  { name := "run", path := "src/lib.rs", locals := .ofList [("x", "A")],
    events := [shadowing].flatMap (events shadowingBytes .zero) }

def shadowingLookup : String → Option Function :=
  Table.lookup? (.ofList [("A::next",
    { name := "A::next", path := "src/lib.rs", returnType := "B" })])
      .allSegments

def shadowingStart : Tracker :=
  .start shadowingLookup .empty shadowingFunction.name shadowingFunction.locals

private theorem typed?_shadowingCallee :
    Callee.typed? shadowingBytes shadowingCallee =
      some (.field (.path "x") "next") := by
  have hvariable : textBetween shadowingBytes 8 9 = "x" := by decide +kernel
  have hmethod :
      (shadowingCallee.fieldText? "field" shadowingBytes).bind nonempty? =
      some "next" := by decide +kernel
  have hreceiver : shadowingCallee.child? "value" =
      some ⟨"identifier", some "value", true, ⟨8, 9, 0, 0⟩, []⟩ := rfl
  rw [Callee.typed?_field rfl, hmethod, hreceiver]
  simp [Receiver.ofNode, Receiver.ofPlain, Node.text, hvariable]

def shadowingBinding : CallBinding shadowingBytes [shadowing] where
  earlier := []
  declaration := shadowing
  later := Node.preorders shadowing.children
  listed := by simp [Node.preorders_cons]
  isDeclaration := rfl
  pattern := ⟨"identifier", some "pattern", true, ⟨4, 5, 0, 0⟩, []⟩
  hasPattern := rfl
  value := shadowingCall
  hasValue := rfl
  callee := .field (.path "x") "next"
  isCall := by
    have hfunction : shadowingCall.child? "function" = some shadowingCallee :=
      rfl
    have hcall : Callee.ofCall? shadowingBytes shadowingCall =
        some (.field (.path "x") "next") := by
      rw [Callee.ofCall?, hfunction, Option.bind_some, typed?_shadowingCallee]
    have hkind : shadowingCall.kind = "call_expression" := rfl
    simp [Binding.ofNode?, Binding.ofValue?, hkind, hcall]

/-- The old `x` calls `A::next`, which the binding uses; `B::next` is
recorded. -/
theorem resolve_shadowing :
    (resolve shadowingFunction .empty shadowingLookup).sites =
      [⟨"B::next", 1⟩] ∧
      shadowingStart.target? shadowingBinding.callee = some "A::next" := by
  have hfound : (replay shadowingStart shadowingFunction.events).1 =
      [⟨14, "B::next", 1⟩] := by
    rw [shadowingFunction, flatMap_events]
    decide +kernel
  have hsites : (arrange [⟨14, "B::next", 1⟩]).map (siteOf .empty) =
      [⟨"B::next", 1⟩] := by
    simp [arrange, dropRepeats, siteOf]
  constructor
  · have hresolve : (resolve shadowingFunction .empty shadowingLookup).sites =
        (arrange (replay shadowingStart shadowingFunction.events).1).map
          (siteOf .empty) := rfl
    rw [hresolve, hfound, hsites]
  · decide +kernel

theorem not_readsAlike_shadowing :
    ¬ ((shadowingStart.learn shadowingBinding.name
      (.call shadowingBinding.callee)).learnAll
        (shadowingBinding.between.filterMap
          (Event.ofNode? shadowingBytes .zero))).ReadsAlike
      shadowingStart shadowingBinding.callee := by
  have hiff :=
    (shadowingBinding.resolve_initialiser shadowingFunction .empty
      shadowingLookup .zero).2.2.1
  refine fun halike => absurd (hiff.mpr halike) ?_
  decide +kernel

end FuzzReach.Call
