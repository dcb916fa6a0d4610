import FuzzReach.Proofs.Call.Callee
import FuzzReach.Proofs.Extract.Containers
import FuzzReach.Proofs.Lookup
import FuzzReach.Registry

/-!
# Calls of siblings

Inside a method `self` has the type that the names of the methods beside it
start with.  So a call of a sibling on `self` is recorded under the very name of
the sibling, whatever is registered.
-/

namespace FuzzReach.Extract

open Syntax Call

/-! ## Methods of one container -/

def Container.Declares (container : Container) (source : Source)
    (path name : String) (function : Function) : Prop :=
  ∃ item ∈ container.items, item.itemKind = .function ∧
    item.fieldText? "name" source.bytes = some name ∧
    functionOf? source path container.scope item = some function

namespace Container.Declares

variable {container : Container} {source : Source} {path name : String}
  {function : Function}

private theorem name_eq (h : container.Declares source path name function) :
    function.name = Name.qualify container.scope name := by
  obtain ⟨item, -, -, hname, hfunction⟩ := h
  obtain ⟨declared, hdeclared, hqualified⟩ :=
    exists_functionOf? path container.scope hname
  rw [hfunction, Option.some.injEq] at hdeclared
  rw [hdeclared, hqualified]

private theorem mem_functions (h : container.Declares source path name function)
    (hcontainer : container ∈ containers source) :
    function ∈ functions source path := by
  obtain ⟨item, hitem, hkind, -, hfunction⟩ := h
  refine mem_functions_iff.mpr ⟨container, hcontainer, item, hitem, ?_⟩
  rw [Container.declaredBy, ownFunction?, if_pos hkind, hfunction]
  exact List.mem_append_left _ (Option.mem_toList.mpr rfl)

end Container.Declares

end FuzzReach.Extract

namespace FuzzReach.Call

open Syntax

/-! ## Calls on `self` -/

private theorem MethodCall.target_of_self {bytes : Bytes}
    {call : MethodCall bytes} {tracker : Tracker}
    (hself : call.value.kind = "self") (hne : tracker.owner ≠ "")
    (hvoid : tracker.owner ≠ TypeText.void) :
    call.target tracker = tracker.owner ++ "::" ++ call.method := by
  have hreceiver : call.receiver = .self := by
    simp [receiver, Receiver.ofNode, Receiver.ofPlain, hself]
  simp [target, hreceiver, Tracker.fieldName, Tracker.memberName,
    Tracker.receiverType?, nonempty?, TypeText.member, hne, hvoid]

private theorem mem_sites_of_finds {function : Function}
    {aliases : Table String String}
    {lookup : String → Option Function} {event : Event} {finding : Finding}
    (hevent : event ∈ function.events)
    (hfinds : ∀ locals, Finds ((Tracker.start lookup aliases function.name
      function.locals).withLocals locals) event finding)
    (halias : aliases.get? finding.target = none) :
    ⟨finding.target, finding.line⟩ ∈
      (resolve function aliases lookup).sites := by
  obtain ⟨earlier, later, hevents⟩ := List.append_of_mem hevent
  have hfound : finding ∈ arrange (replay
      (Tracker.start lookup aliases function.name function.locals)
      function.events).1 := by
    rw [mem_arrange_iff, mem_replay_iff_isFound]
    exact ⟨earlier, event, later, _, hevents, variables_learnAll _ earlier,
      hfinds _⟩
  refine List.mem_map.mpr ⟨finding, hfound, ?_⟩
  rw [siteOf, halias, Option.getD_none]

end FuzzReach.Call

namespace FuzzReach.Extract

open Syntax Call

/-! ## Siblings -/

/-- A call of a sibling on `self` is recorded under the sibling's name and no
other, and a registry that has the name finds it there without dropping a
segment. -/
theorem self_call_finds_sibling {source : Source} {path : String}
    {container : Container} {callerName siblingName : String}
    {caller sibling : Function} (hcontainer : container ∈ containers source)
    (hcaller : container.Declares source path callerName caller)
    (hsibling : container.Declares source path siblingName sibling)
    (hne : Name.join container.scope ≠ "")
    (hvoid : Name.join container.scope ≠ TypeText.void)
    (hcolon : ':' ∉ callerName.toList) (call : MethodCall source.bytes)
    (hself : call.value.kind = "self") (hmethod : call.method = siblingName)
    (hevent : call.event .zero ∈ caller.events) (registry : Registry)
    (place : Place) :
    let file := SourceFile.ofSource path source
    let start :=
      Tracker.start registry.function? file.aliases caller.name caller.locals
    let line := call.access.startLine
    caller ∈ file.functions ∧ sibling ∈ file.functions ∧
      (∀ locals finding,
        Finds (start.withLocals locals) (call.event .zero) finding ↔
        finding = ⟨call.access.span.stop, sibling.name, line⟩) ∧
      (file.aliases.get? sibling.name = none →
        ⟨sibling.name, line⟩ ∈ (registry.resolve ⟨place, file, caller⟩).sites) ∧
      ∀ tolerance declaration, registry.get? sibling.name = some declaration →
        registry.lookup? tolerance sibling.name = some declaration := by
  intro file start line
  have hscope : container.scope ≠ [] := by
    intro hnil
    exact hne (by rw [hnil]; rfl)
  have howner : start.owner = Name.join container.scope := by
    rw [← Name.owner_qualify hscope hcolon, ← hcaller.name_eq]
    rfl
  have hname : sibling.name = start.owner ++ "::" ++ call.method := by
    rw [hsibling.name_eq, Name.qualify_of_ne_nil hscope, howner, hmethod]
  have hfinds : ∀ locals finding,
      Finds (start.withLocals locals) (call.event .zero) finding ↔
      finding = ⟨call.access.span.stop, sibling.name, line⟩ := by
    intro locals finding
    have htarget : call.target (start.withLocals locals) = sibling.name := by
      rw [hname]
      exact MethodCall.target_of_self hself (howner ▸ hne) (howner ▸ hvoid)
    rw [call.finds_iff, htarget]
    simp [Offset.zero, Offset.position, Offset.line, line, Node.startLine]
  refine ⟨hcaller.mem_functions hcontainer, hsibling.mem_functions hcontainer,
    hfinds, ?_, ?_⟩
  · exact mem_sites_of_finds hevent fun locals => (hfinds locals _).mpr rfl
  · exact fun tolerance declaration => Table.lookup?_of_get?

/-! ### A method that calls the next one -/

def counterAccess : Node :=
  ⟨"field_expression", some "function", true, ⟨31, 37, 0, 0⟩,
    [⟨"self", some "value", true, ⟨31, 35, 0, 0⟩, []⟩,
      ⟨".", none, false, ⟨35, 36, 0, 0⟩, []⟩,
      ⟨"field_identifier", some "field", true, ⟨36, 37, 0, 0⟩, []⟩]⟩

def counterCall : Node :=
  ⟨"call_expression", none, true, ⟨31, 39, 0, 0⟩,
    [counterAccess, ⟨"arguments", some "arguments", true, ⟨37, 39, 0, 0⟩, []⟩]⟩

def counterFirst : Node :=
  ⟨"function_item", none, true, ⟨17, 42, 0, 0⟩,
    [⟨"identifier", some "name", true, ⟨20, 21, 0, 0⟩, []⟩,
     ⟨"block", some "body", true, ⟨29, 42, 0, 0⟩,
      [⟨"expression_statement", none, true, ⟨31, 40, 0, 0⟩, [counterCall]⟩]⟩]⟩

def counterSecond : Node :=
  ⟨"function_item", none, true, ⟨43, 57, 0, 0⟩,
    [⟨"identifier", some "name", true, ⟨46, 47, 0, 0⟩, []⟩,
     ⟨"block", some "body", true, ⟨55, 57, 0, 0⟩, []⟩]⟩

def counterMethods : Node :=
  ⟨"impl_item", none, true, ⟨8, 59, 0, 0⟩,
    [⟨"type_identifier", some "type", true, ⟨13, 14, 0, 0⟩, []⟩,
     ⟨"declaration_list", some "body", true, ⟨15, 59, 0, 0⟩,
       [counterFirst, counterSecond]⟩]⟩

def counterModule : Node :=
  ⟨"mod_item", none, true, ⟨0, 61, 0, 0⟩,
    [⟨"identifier", some "name", true, ⟨4, 5, 0, 0⟩, []⟩,
     ⟨"declaration_list", some "body", true, ⟨6, 61, 0, 0⟩, [counterMethods]⟩]⟩

def counter : Source where
  bytes :=
    ("mod m \x7b impl A \x7b fn a(&self) \x7b self.t(); \x7d " ++
      "fn t(&self) \x7b\x7d \x7d \x7d").toUTF8.data
  root := ⟨"source_file", none, true, ⟨0, 61, 0, 0⟩, [counterModule]⟩
  fragments := []

def counterSelfCall : MethodCall counter.bytes where
  node := counterCall
  isCall := rfl
  access := counterAccess
  hasAccess := rfl
  isAccess := rfl
  value := ⟨"self", some "value", true, ⟨31, 35, 0, 0⟩, []⟩
  hasValue := rfl
  method := "t"
  hasMethod := by decide +kernel
  named := by decide

def counterContainer : Container :=
  ⟨.implementation, ["m", "A"], [counterFirst, counterSecond]⟩

private theorem mem_containers_counter :
    counterContainer ∈ containers counter := by
  have hmodule : moduleScope counter [] counterModule = ["m"] := by
    decide +kernel
  have htype : typeScope counter ["m"] counterMethods "type" = ["m", "A"] := by
    decide +kernel
  have houter :
      Container.opened? counter ⟨.module, [], [counterModule]⟩ counterModule =
      some ⟨.module, ["m"], [counterMethods]⟩ := by
    rw [← hmodule]
    rfl
  have hinner : Container.opened? counter
      ⟨.module, ["m"], [counterMethods]⟩ counterMethods =
      some counterContainer := by
    rw [counterContainer, ← htype]
    rfl
  rw [containers, containersFrom_eq]
  refine List.mem_cons_of_mem _ (List.mem_flatMap.mpr
    ⟨_, List.mem_filterMap.mpr
      ⟨counterModule, List.mem_singleton_self _, houter⟩, ?_⟩)
  rw [containersFrom_eq]
  refine List.mem_cons_of_mem _ (List.mem_flatMap.mpr
    ⟨_, List.mem_filterMap.mpr
      ⟨counterMethods, List.mem_singleton_self _, hinner⟩, ?_⟩)
  rw [containersFrom_eq]
  exact List.mem_cons_self

theorem self_call_finds_counter :
    ∃ caller sibling, caller.name = "m::A::a" ∧ sibling.name = "m::A::t" ∧
      caller ∈ functions counter "m.rs" ∧ sibling ∈ functions counter "m.rs" ∧
      ∀ registry place, ⟨"m::A::t", 1⟩ ∈
        (Registry.resolve registry
          ⟨place, .ofSource "m.rs" counter, caller⟩).sites := by
  have hfirst : counterFirst.fieldText? "name" counter.bytes = some "a" := by
    decide +kernel
  have hsecond : counterSecond.fieldText? "name" counter.bytes = some "t" := by
    decide +kernel
  obtain ⟨caller, hcaller, hcallerName⟩ :=
    exists_functionOf? "m.rs" ["m", "A"] hfirst
  obtain ⟨sibling, hsibling, hsiblingName⟩ :=
    exists_functionOf? "m.rs" ["m", "A"] hsecond
  have hevents : caller.events = bodyEvents counter counterFirst := by
    simp only [functionOf?, hfirst] at hcaller
    cases hcaller
    rfl
  have hevent : counterSelfCall.event .zero ∈ caller.events := by
    rw [hevents, bodyEvents, flatMap_events]
    refine List.mem_filterMap.mpr
      ⟨counterCall, ?_, counterSelfCall.ofNode?_node .zero⟩
    have hstatements : statements counterFirst =
        [⟨"expression_statement", none, true, ⟨31, 40, 0, 0⟩, [counterCall]⟩] :=
          rfl
    simp [hstatements, Node.preorders_cons]
  have hself := self_call_finds_sibling mem_containers_counter
    ⟨counterFirst, by simp [counterContainer], rfl, hfirst, hcaller⟩
    ⟨counterSecond, by simp [counterContainer], rfl, hsecond, hsibling⟩
    (by decide +kernel) (by decide +kernel)
      (by decide) counterSelfCall rfl rfl hevent
  refine ⟨caller, sibling, hcallerName, hsiblingName, ?_, ?_,
    fun registry place => ?_⟩
  · exact (hself ⟨[], .empty⟩ ⟨0, 0⟩).1
  · exact (hself ⟨[], .empty⟩ ⟨0, 0⟩).2.1
  · have hsite := (hself registry place).2.2.2.1
    rw [hsiblingName] at hsite
    exact hsite (by decide +kernel)

end FuzzReach.Extract
