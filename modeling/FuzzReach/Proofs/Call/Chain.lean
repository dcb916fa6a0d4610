import FuzzReach.Lookup
import FuzzReach.Proofs.Call.Callee
import FuzzReach.Proofs.Call.Events
import Mathlib.Data.List.Chain

/-!
# Chains of method calls

In `r.f(..).g(..).h(..)` every method is called on what the one before it
returns.  The calls of a chain are all read with the same variables, and each
gives the next one its type.  Where a link has no type to give, the links after
it keep their bare names.

A method that is called on `void` has a known type without being qualified by
it.  Its bare name is looked up like any other, and what that finds types the
next link.
-/

namespace FuzzReach.Call

open Syntax

variable {bytes : Bytes}

/-! ## Links -/

namespace MethodCall

variable (link : MethodCall bytes) (tracker : Tracker)

/-- Nothing is declared in front of what the method is called on; a parser puts
nothing there. -/
def Leads : Prop :=
  ∀ node ∈ Node.preorders (link.node.childrenBefore "function" ++
    link.access.childrenBefore "value"), node.kind ≠ "let_declaration"

/-- The type of what the method is called on is known.  It may be `void`. -/
def OnType (type : String) : Prop :=
  tracker.receiverType? link.receiver = some type ∧ type ≠ ""

/-- The name of the link is formed from a known type, and its function returns a
type. -/
def Yields (result : String) : Prop :=
  ∃ type function, link.OnType tracker type ∧
    tracker.lookup (link.target tracker) = some function ∧
    function.returnType = result ∧ result ≠ ""

variable {link tracker}

private theorem target_of_onType {type : String}
    (h : link.OnType tracker type) :
    link.target tracker = TypeText.member type link.method := by
  rw [target, Tracker.fieldName, Tracker.memberName,
    bind_nonempty?_eq_some_iff.mpr h]

private theorem target_of_untyped (h : ∀ type, ¬ link.OnType tracker type) :
    link.target tracker = link.method := by
  have htype : (tracker.receiverType? link.receiver).bind nonempty? = none := by
    rw [Option.eq_none_iff_forall_ne_some]
    exact fun type hsome => h type (bind_nonempty?_eq_some_iff.mp hsome)
  rw [target, Tracker.fieldName, Tracker.memberName, htype]

private theorem target_of_void (h : link.OnType tracker TypeText.void) :
    link.target tracker = link.method := by
  rw [target_of_onType h, TypeText.member, if_pos rfl]

theorem yields_iff {result : String} :
    link.Yields tracker result ↔
      tracker.memberType? (tracker.receiverType? link.receiver) link.method =
        some result := by
  constructor
  · rintro ⟨type, function, htype, hlookup, rfl, hne⟩
    rw [target_of_onType htype] at hlookup
    simp [Tracker.memberType?, Tracker.returnType?, htype.1, nonempty?, htype.2,
      hlookup, hne]
  · intro h
    obtain ⟨type, htype, hreturn⟩ := Option.bind_eq_some_iff.mp h
    have honType : link.OnType tracker type :=
      bind_nonempty?_eq_some_iff.mp htype
    obtain ⟨function, hlookup, hresult⟩ := Option.bind_eq_some_iff.mp hreturn
    obtain ⟨rfl, hne⟩ := nonempty?_eq_some_iff.mp hresult
    refine ⟨type, function, honType, ?_, rfl, hne⟩
    rwa [target_of_onType honType]

/-- One step along a chain: a link has the type that the link before it yields,
and no other. -/
theorem onType_iff_yields {first second : MethodCall bytes}
    (h : second.value = first.node) {type : String} :
    second.OnType tracker type ↔ first.Yields tracker type := by
  have hreceiver : second.receiver = .call first.callee := by
    rw [receiver, h, first.receiver_ofNode]
  rw [yields_iff, OnType, hreceiver, callee, Tracker.receiverType?,
    Tracker.callType?]
  constructor
  · exact And.left
  · intro htype
    obtain ⟨-, -, -, -, -, hne⟩ := yields_iff.mpr htype
    exact ⟨htype, hne⟩

private theorem exists_children_eq (hleads : link.Leads) : ∃ between rest,
    Node.preorders link.node.children = between ++ link.value :: rest ∧
      ∀ node ∈ between, node.kind ≠ "let_declaration" := by
  obtain ⟨beside, hbeside⟩ := Node.preorders_children_of_child? link.hasAccess
  obtain ⟨rest, hrest⟩ := Node.preorders_children_of_child? link.hasValue
  refine ⟨Node.preorders (link.node.childrenBefore "function") ++ link.access ::
    Node.preorders (link.access.childrenBefore "value"),
    Node.preorders link.value.children ++ rest ++
      beside, by simp [hbeside, hrest], ?_⟩
  intro node hnode
  simp only [Leads, Node.preorders_append, List.mem_append] at hleads
  rcases List.mem_append.mp hnode with hbefore | hafter
  · exact hleads node (.inl hbefore)
  · rcases List.mem_cons.mp hafter with rfl | hinner
    · rw [link.isAccess]
      decide
    · exact hleads node (.inr hinner)

end MethodCall

/-! ## Chains -/

/-- The expression that calls the methods of `links` one after the other, the
first of them on `receiver`. -/
inductive Chain (receiver : Node) : List (MethodCall bytes) → Node → Prop where
  | receiver : Chain receiver [] receiver
  | link {links link} (h : Chain receiver links link.value)
      (hleads : link.Leads) :
      Chain receiver (links ++ [link]) link.node

/-- Every link has the type that the link before it yields, and is named by it.
A link on `void` keeps its bare name, and the chain goes on behind it with what
that name finds. -/
structure TypedByLink (tracker : Tracker) (links : List (MethodCall bytes)) :
    Prop where
  qualified : ∀ link ∈ links, ∀ type, link.OnType tracker type →
    type ≠ TypeText.void → link.target tracker = type ++ "::" ++ link.method
  bare : ∀ link ∈ links,
    (∀ type, link.OnType tracker type → type = TypeText.void) →
      link.target tracker = link.method
  next : ∀ before first second after result,
    links = before ++ first :: second :: after →
      first.Yields tracker result →
      second.OnType tracker result ∧
        second.target tracker =
          if result = TypeText.void then second.method
            else result ++ "::" ++ second.method
  broken : ∀ before first after, links = before ++ first :: after →
    (∀ result, ¬ first.Yields tracker result) →
      ∀ link ∈ after, (∀ type, ¬ link.OnType tracker type) ∧
        link.target tracker = link.method
  onVoid : ∀ before first second after result,
    links = before ++ first :: second :: after →
      first.OnType tracker TypeText.void →
      (second.OnType tracker result ↔
        ∃ function, tracker.lookup first.method = some function ∧
          function.returnType = result ∧ result ≠ "")

namespace Chain

variable {receiver expression : Node} {links : List (MethodCall bytes)}

private theorem eq_of_getLast? (h : Chain receiver links expression)
    {link : MethodCall bytes} (hlast : link ∈ links.getLast?) :
    link.node = expression := by
  cases h with
  | receiver => simp at hlast
  | link => simp_all

private theorem linked (h : Chain receiver links expression) :
    links.IsChain fun first second => second.value = first.node := by
  induction h with
  | receiver => exact .nil
  | link h hleads ih =>
      refine List.isChain_append.mpr
        ⟨ih, .singleton _, fun last hlast link hlink => ?_⟩
      obtain rfl : _ = link := by simpa using hlink
      exact (h.eq_of_getLast? hlast).symm

private theorem untyped_of_broken {tracker : Tracker} {first : MethodCall bytes}
    {after : List (MethodCall bytes)}
    (hlinked : (first :: after).IsChain fun first second =>
      second.value = first.node)
    (hbroken : ∀ result, ¬ first.Yields tracker result) :
    ∀ link ∈ after, ∀ type, ¬ link.OnType tracker type := by
  induction after generalizing first with
  | nil => simp
  | cons second after ih =>
      obtain ⟨hvalue, hlater⟩ := List.isChain_cons_cons.mp hlinked
      have hsecond : ∀ type, ¬ second.OnType tracker type := fun type honType =>
        hbroken type ((MethodCall.onType_iff_yields hvalue).mp honType)
      intro link hlink
      rcases List.mem_cons.mp hlink with rfl | hlink
      · exact hsecond
      · exact ih hlater
          (fun result ⟨type, _, honType, _⟩ => hsecond type honType) link hlink

private theorem onType_iff_of_split (h : Chain receiver links expression)
    {tracker : Tracker} {before after : List (MethodCall bytes)}
    {first second : MethodCall bytes}
    (hsplit : links = before ++ first :: second :: after) {type : String} :
    second.OnType tracker type ↔ first.Yields tracker type := by
  subst hsplit
  exact MethodCall.onType_iff_yields
    (List.isChain_append_cons_cons.mp h.linked).2.1

private theorem typedByLink (h : Chain receiver links expression)
    (tracker : Tracker) :
    TypedByLink tracker links where
  qualified := by
    intro link _ type honType hvoid
    rw [MethodCall.target_of_onType honType, TypeText.member, if_neg hvoid]
  bare := by
    intro link _ hvoid
    by_cases honType : link.OnType tracker TypeText.void
    · exact MethodCall.target_of_void honType
    · exact MethodCall.target_of_untyped fun type htype =>
        honType (hvoid type htype ▸ htype)
  next := by
    intro before first second after result hsplit hyields
    have honType := (h.onType_iff_of_split hsplit).mpr hyields
    refine ⟨honType, ?_⟩
    rw [MethodCall.target_of_onType honType, TypeText.member]
  broken := by
    rintro before first after rfl hbroken link hlink
    have hlinked := (List.isChain_append.mp h.linked).2.1
    have huntyped := untyped_of_broken hlinked hbroken link hlink
    exact ⟨huntyped, MethodCall.target_of_untyped huntyped⟩
  onVoid := by
    intro before first second after result hsplit hvoid
    rw [h.onType_iff_of_split hsplit, MethodCall.Yields,
      MethodCall.target_of_void hvoid]
    constructor
    · rintro ⟨-, function, -, hfunction⟩
      exact ⟨function, hfunction⟩
    · rintro ⟨function, hfunction⟩
      exact ⟨TypeText.void, function, hvoid, hfunction⟩

private theorem exists_listed (h : Chain receiver links expression)
    {trees earlier later : List Node}
    (hlisted : Node.preorders trees = earlier ++ expression :: later) :
    ∀ link ∈ links, ∃ between rest,
      Node.preorders trees = earlier ++ between ++ link.node :: rest ∧
        ∀ node ∈ between, node.kind ≠ "let_declaration" := by
  induction h generalizing earlier later with
  | receiver => simp
  | @link links outer h hleads ih =>
      intro link hlink
      rcases List.mem_append.mp hlink with hinner | houter
      · obtain ⟨beyond, hbeyond⟩ := Node.subtree_of_preorders hlisted
        obtain ⟨inside, rest, hchildren, hinside⟩ :=
          MethodCall.exists_children_eq hleads
        have hvalue : Node.preorders trees =
            (earlier ++ outer.node :: inside) ++ outer.value ::
              (rest ++ beyond) := by
          simp [hlisted, hbeyond, hchildren]
        obtain ⟨between, rest, hlink, hbetween⟩ := ih hvalue link hinner
        refine ⟨outer.node :: inside ++ between, rest, by simp [hlink], ?_⟩
        intro node hnode
        rcases List.mem_append.mp hnode with hnode | hnode
        · rcases List.mem_cons.mp hnode with rfl | hnode
          · rw [outer.isCall]
            decide
          · exact hinside node hnode
        · exact hbetween node hnode
      · obtain rfl : link = outer := by simpa using houter
        exact ⟨[], later, by simpa using hlisted, by simp⟩

end Chain

/-! ## Resolution -/

private theorem Tracker.learnEvent_of_ne {offset : Offset} {node : Node}
    {event : Event} (hkind : node.kind ≠ "let_declaration")
    (h : Event.ofNode? bytes offset node = some event) (tracker : Tracker) :
    tracker.learnEvent event = tracker := by
  unfold Event.ofNode? at h
  split at h
  · obtain ⟨_, -, h⟩ := Option.bind_eq_some_iff.mp h
    obtain ⟨_, -, h⟩ := Option.bind_eq_some_iff.mp h
    cases h
    rfl
  · next hlet => exact absurd hlet hkind
  · obtain ⟨_, -, h⟩ := Option.bind_eq_some_iff.mp h
    cases h
    rfl
  · cases h

private theorem Tracker.learnAll_of_ne {nodes : List Node}
    (h : ∀ node ∈ nodes, node.kind ≠ "let_declaration") (tracker : Tracker)
    (offset : Offset) :
    tracker.learnAll (nodes.filterMap (Event.ofNode? bytes offset)) =
      tracker := by
  induction nodes with
  | nil => rfl
  | cons node rest ih =>
      obtain ⟨hnode, hrest⟩ := List.forall_mem_cons.mp h
      cases hevent : Event.ofNode? bytes offset node with
      | none => rw [List.filterMap_cons_none hevent, ih hrest]
      | some event =>
          rw [List.filterMap_cons_some hevent, learnAll, List.foldl_cons,
            learnEvent_of_ne hnode hevent]
          exact ih hrest

private theorem Chain.isFound {receiver expression : Node}
    {links : List (MethodCall bytes)} (h : Chain receiver links expression)
    {body earlier later : List Node}
    (hlisted : Node.preorders body = earlier ++ expression :: later)
    (start : Tracker) (offset : Offset) {locals : Table String String}
    (hlocals :
      Variables start (earlier.filterMap (Event.ofNode? bytes offset)) locals)
    {link : MethodCall bytes} (hlink : link ∈ links) :
    IsFound start (body.flatMap (events bytes offset))
      ⟨offset.position link.access, link.target (start.withLocals locals),
        offset.line link.access⟩ := by
  obtain ⟨between, rest, hplace, hbetween⟩ := h.exists_listed hlisted link hlink
  refine ⟨(earlier ++ between).filterMap (Event.ofNode? bytes offset),
    link.event offset, rest.filterMap (Event.ofNode? bytes offset), locals,
    ?_, ?_, (link.finds_iff _ offset).mpr rfl⟩
  · rw [flatMap_events, hplace, List.filterMap_append,
      List.filterMap_cons_some (link.ofNode?_node offset)]
  · -- What lies between the whole chain and the link binds no variable.
    rw [variables_iff] at hlocals ⊢
    rw [List.filterMap_append, Tracker.learnAll, List.foldl_append]
    exact hlocals.trans (congrArg Tracker.locals
      (Tracker.learnAll_of_ne hbetween (start.learnAll _) offset).symm)

/-- The calls of a chain are all read with the variables that are known where
the chain stands, and each of them gives the next one its type, also one on
`void`.  No call of a method is qualified by an empty type or by `void`. -/
theorem resolve_chain {receiver expression : Node}
    {links : List (MethodCall bytes)} (hchain : Chain receiver links expression)
    {body earlier later : List Node}
    (hlisted : Node.preorders body = earlier ++ expression :: later)
    (function : Function) (aliases : Table String String)
    (lookup : String → Option Function) (offset : Offset) :
    let start := Tracker.start lookup aliases function.name function.locals
    let calling := { function with
      events := body.flatMap (events bytes offset) }
    ∃ (calls : List Finding) (locals : Table String String),
      (∀ finding, finding ∈ calls ↔ IsFound start calling.events finding) ∧
      (resolve calling aliases lookup).sites = calls.map (siteOf aliases) ∧
      Variables start (earlier.filterMap (Event.ofNode? bytes offset)) locals ∧
      (∀ link ∈ links,
        ⟨offset.position link.access, link.target (start.withLocals locals),
          offset.line link.access⟩ ∈ calls) ∧
      TypedByLink (start.withLocals locals) links ∧
      ∀ known called method,
        (start.withLocals known).fieldName called method = method ∨
          ∃ type, (start.withLocals known).receiverType? called = some type ∧
            type ≠ "" ∧ type ≠ TypeText.void ∧
            (start.withLocals known).fieldName called method =
              type ++ "::" ++ method := by
  intro start calling
  have hmem : ∀ finding, finding ∈ arrange (replay start calling.events).1 ↔
      IsFound start calling.events finding := fun finding => by
    rw [mem_arrange_iff, mem_replay_iff_isFound]
  have hlocals :=
    variables_learnAll start (earlier.filterMap (Event.ofNode? bytes offset))
  refine ⟨arrange (replay start calling.events).1, _, hmem, rfl, hlocals,
    fun link hlink => ?_,
    hchain.typedByLink _, fun known => Tracker.fieldName_eq_or _⟩
  exact (hmem _).mpr (hchain.isFound hlisted start offset hlocals hlink)

/-! ### A chain that ends in a function without a result -/

def scanBytes : Bytes := "x.a().b().c()".toUTF8.data

def scanAccess (value : Node) : Node :=
  let dot := value.span.stop
  ⟨"field_expression", some "function", true, ⟨0, dot + 2, 0, 0⟩,
    [value,
      ⟨".", none, false, ⟨dot, dot + 1, 0, 0⟩, []⟩,
      ⟨"field_identifier", some "field", true, ⟨dot + 1, dot + 2, 0, 0⟩, []⟩]⟩

def scanCall (value : Node) : Node :=
  let stop := (scanAccess value).span.stop
  ⟨"call_expression", some "value", true, ⟨0, stop + 2, 0, 0⟩,
    [scanAccess value,
      ⟨"arguments", some "arguments", true, ⟨stop, stop + 2, 0, 0⟩, []⟩]⟩

def scanned : Node :=
  ⟨"identifier", some "value", true, ⟨0, 1, 0, 0⟩, []⟩

def scanLink (value : Node) (method : String)
    (hvalue : (scanAccess value).child? "value" = some value)
    (hmethod : (scanAccess value).fieldText? "field" scanBytes = some method)
    (named : method ≠ "") : MethodCall scanBytes where
  node := scanCall value
  isCall := rfl
  access := scanAccess value
  hasAccess := rfl
  isAccess := rfl
  value := value
  hasValue := hvalue
  method := method
  hasMethod := hmethod
  named := named

def scanFirst : MethodCall scanBytes :=
  scanLink scanned "a" rfl (by decide +kernel) (by decide)

def scanSecond : MethodCall scanBytes :=
  scanLink scanFirst.node "b" rfl (by decide +kernel) (by decide)

def scanThird : MethodCall scanBytes :=
  scanLink scanSecond.node "c" rfl (by decide +kernel) (by decide)

def scanner : Function :=
  { name := "run", path := "src/lib.rs", locals := .ofList [("x", "A")] }

def scanLookup : String → Option Function :=
  Table.lookup? (.ofList
    [("A::a", { name := "A::a", path := "src/lib.rs", returnType := "B" }),
      ("B::b", { name := "B::b", path := "src/lib.rs",
                 returnType := TypeText.void })]) .allSegments

private theorem chain_scan :
    Chain scanned [scanFirst, scanSecond, scanThird] scanThird.node := by
  have hfirst : scanFirst.Leads := by unfold MethodCall.Leads; decide +kernel
  have hsecond : scanSecond.Leads := by unfold MethodCall.Leads; decide +kernel
  have hthird : scanThird.Leads := by unfold MethodCall.Leads; decide +kernel
  have hleading : Chain scanned [scanFirst] scanFirst.node :=
    .link .receiver hfirst
  have hmiddle : Chain scanned [scanFirst, scanSecond] scanSecond.node :=
    .link hleading hsecond
  exact .link hmiddle hthird

theorem resolve_scan :
    let calling := { scanner with
      events := [scanThird.node].flatMap (events scanBytes .zero) }
    let sites := (resolve calling .empty scanLookup).sites
    Chain scanned [scanFirst, scanSecond, scanThird] scanThird.node ∧
      ⟨"A::a", 1⟩ ∈ sites ∧ ⟨"B::b", 1⟩ ∈ sites ∧ ⟨"c", 1⟩ ∈ sites := by
  intro calling sites
  let start := Tracker.start scanLookup .empty "run" scanner.locals
  have hlisted : Node.preorders [scanThird.node] =
      [] ++ scanThird.node :: Node.preorders scanThird.node.children := by
    simp [Node.preorders_cons]
  obtain ⟨calls, locals, -, hsites, hlocals, hcalls, htyped, -⟩ :=
    resolve_chain chain_scan hlisted scanner .empty scanLookup .zero
  obtain rfl := variables_iff.mp hlocals
  have hrecorded : ∀ link ∈ [scanFirst, scanSecond, scanThird],
      ⟨link.target start, 1⟩ ∈ sites := by
    intro link hlink
    rw [show sites = calls.map (siteOf .empty) from hsites, List.mem_map]
    refine ⟨_, hcalls link hlink, ?_⟩
    simp only [List.mem_cons, List.not_mem_nil, or_false] at hlink
    rcases hlink with rfl | rfl | rfl <;> rfl
  -- The second call has the type that the first yields, and yields `void` to
  -- the third.
  have hfirst : scanFirst.target start = "A::a" := by
    decide +kernel
  have hsecond : scanSecond.target start = "B::b" :=
    (htyped.next [] scanFirst scanSecond [scanThird] "B" rfl
      (MethodCall.yields_iff.mpr (by decide +kernel))).2
  have hthird : scanThird.target start = "c" :=
    (htyped.next [scanFirst] scanSecond scanThird [] TypeText.void rfl
      (MethodCall.yields_iff.mpr (by decide +kernel))).2
  refine ⟨chain_scan, ?_, ?_, ?_⟩
  · rw [← hfirst]
    exact hrecorded scanFirst (by simp)
  · rw [← hsecond]
    exact hrecorded scanSecond (by simp)
  · rw [← hthird]
    exact hrecorded scanThird (by simp)

def reopenLookup : String → Option Function :=
  Table.lookup? (.ofList
    [("A::a", { name := "A::a", path := "src/lib.rs",
                returnType := TypeText.void }),
      ("X::b", { name := "X::b", path := "src/lib.rs", returnType := "R" })])
    .allSegments

/-- No type qualifies `b`, and yet it gives `c` the type `R`. -/
theorem resolve_reopened :
    let calling := { scanner with
      events := [scanThird.node].flatMap (events scanBytes .zero) }
    let start := Tracker.start reopenLookup .empty "run" scanner.locals
    (resolve calling .empty reopenLookup).sites =
        [⟨"A::a", 1⟩, ⟨"b", 1⟩, ⟨"R::c", 1⟩] ∧
      scanSecond.target start = scanSecond.method ∧
      scanThird.target start ≠ scanThird.method := by
  intro calling start
  have hfound : (replay start calling.events).1 =
      [⟨11, "R::c", 1⟩, ⟨7, "b", 1⟩, ⟨3, "A::a", 1⟩] := by
    rw [show calling.events = _ from flatMap_events ..]
    decide +kernel
  have hsites : (arrange [⟨11, "R::c", 1⟩, ⟨7, "b", 1⟩, ⟨3, "A::a", 1⟩]).map
      (siteOf .empty) = [⟨"A::a", 1⟩, ⟨"b", 1⟩, ⟨"R::c", 1⟩] := by
    simp [arrange, List.mergeSort, Finding.le, dropRepeats, siteOf]
  have hresolve : (resolve calling .empty reopenLookup).sites =
      (arrange (replay start calling.events).1).map (siteOf .empty) := rfl
  refine ⟨by rw [hresolve, hfound, hsites], ?_, ?_⟩
  · decide +kernel
  · decide +kernel

end FuzzReach.Call
