import FuzzReach.Proofs.Extract.Enclosure

/-!
# Forests of functions

A list of functions can be a forest in pre-order: every function is followed by
the functions inside it, and then by those that start after its end.  Its order,
the stretches that its functions cover and the closest function around each of
them follow from that alone.
-/

namespace FuzzReach

open Syntax

def Function.Inside (inner outer : Function) : Prop :=
  outer.start ≤ inner.start ∧ inner.stop ≤ outer.stop

instance (inner outer : Function) : Decidable (inner.Inside outer) :=
  inferInstanceAs (Decidable (_ ∧ _))

def Function.enclosing? (listed : List Function) (function : Function) :
    Option Function :=
  (listed.filter fun outer => function.Inside outer).getLast?

namespace Function

variable {function : Function} {listed : List Function}

private theorem enclosing?_append (function : Function)
    (first second : List Function) :
    function.enclosing? (first ++ second) =
      (function.enclosing? second).or (function.enclosing? first) := by
  simp only [enclosing?, List.filter_append, List.getLast?_append]

private theorem not_inside_of_stop_le {outer : Function}
    (hpositive : function.start < function.stop)
    (h : outer.stop ≤ function.start) : ¬ function.Inside outer := by
  rintro ⟨-, hstop⟩
  omega

private theorem enclosing?_eq_none (hpositive : function.start < function.stop)
    (h : ∀ outer ∈ listed, outer.stop ≤ function.start) :
    function.enclosing? listed = none := by
  rw [enclosing?, List.getLast?_eq_none_iff, List.filter_eq_nil_iff]
  intro outer houter
  simpa using not_inside_of_stop_le hpositive (h outer houter)

end Function

namespace Extract

/-- A forest of functions in pre-order.  The outermost functions have the
property `top`, and a function inside another one is related to the closest
function around it by `below`. -/
inductive Forest (below : Function → Function → Prop) :
    (Function → Prop) → List Function → Prop where
  | nil {top : Function → Prop} : Forest below top []
  | cons {top : Function → Prop} {outer : Function} {inner rest : List Function}
      (htop : top outer) (hpositive : outer.start < outer.stop)
      (hinner : Forest below (below outer) inner)
      (hinside : ∀ function ∈ inner, function.Inside outer)
      (hrest : Forest below top rest)
      (hafter : ∀ function ∈ rest, outer.stop ≤ function.start) :
      Forest below top (outer :: (inner ++ rest))

theorem split_append {α : Type} {first second before after : List α} {value : α}
    (h : first ++ second = before ++ value :: after) :
    (∃ middle, first = before ++ value :: middle) ∨
      ∃ middle, before = first ++ middle ∧
      second = middle ++ value :: after := by
  rcases List.append_eq_append_iff.mp h with
    hlater | ⟨_ | ⟨head, middle⟩, hfirst, hrest⟩
  · exact .inr hlater
  · exact .inr ⟨[], by simpa using hfirst.symm, by simpa using hrest.symm⟩
  · cases hrest
    exact .inl ⟨middle, hfirst⟩

namespace Forest

variable {below : Function → Function → Prop} {top : Function → Prop}
  {functions first second : List Function}

theorem positive (h : Forest below top functions) :
    ∀ function ∈ functions, function.start < function.stop := by
  induction h with
  | nil => simp
  | cons _ hpositive _ _ _ _ ihinner ihrest =>
      simp only [List.mem_cons, List.mem_append]
      rintro function (rfl | hinner | hrest)
      · exact hpositive
      · exact ihinner function hinner
      · exact ihrest function hrest

theorem append (hfirst : Forest below top first)
    (hsecond : Forest below top second)
    (hafter : ∀ before ∈ first, ∀ after ∈ second, before.stop ≤ after.start) :
    Forest below top (first ++ second) := by
  induction hfirst with
  | nil => exact hsecond
  | @cons top outer inner rest htop hpositive hinner hinside hrest hafter' _
      ihrest =>
      rw [List.cons_append, List.append_assoc]
      refine .cons htop hpositive hinner hinside
        (ihrest hsecond fun before hbefore => hafter before (by simp [hbefore]))
          fun function h => ?_
      rcases List.mem_append.mp h with h | h
      · exact hafter' function h
      · exact hafter outer List.mem_cons_self function h

theorem pairwise (h : Forest below top functions) :
    functions.Pairwise fun first second => first.stop ≤ second.start ∨
      second.Inside first := by
  induction h with
  | nil => exact .nil
  | @cons top outer inner rest _ hpositive _ hinside _ hafter ihinner ihrest =>
      refine .cons (fun function h => ?_)
        (List.pairwise_append.mpr ⟨ihinner, ihrest, ?_⟩)
      · rcases List.mem_append.mp h with h | h
        · exact .inr (hinside function h)
        · exact .inl (hafter function h)
      · intro before hbefore after hafter'
        have := (hinside before hbefore).2
        have := hafter after hafter'
        left
        omega

/-- The closest listed function around a function decides which of the two
properties it has. -/
theorem enclosing (h : Forest below top functions)
    {before after : List Function} {function : Function}
    (hsplit : functions = before ++ function :: after) :
    match function.enclosing? before with
    | none => top function
    | some outer => below outer function := by
  induction h generalizing before after with
  | nil => simp at hsplit
  | @cons top outer inner rest htop _ _ hinside hrest hafter ihinner ihrest =>
      cases before with
      | nil =>
          cases hsplit
          exact htop
      | cons head before =>
          obtain ⟨rfl, htail⟩ : outer = head ∧
            inner ++ rest = before ++ function :: after := by
            simpa using hsplit
          rw [← List.singleton_append, Function.enclosing?_append]
          rcases split_append htail with
            ⟨middle, hinner⟩ | ⟨middle, rfl, hlater⟩
          · -- The function stands inside `outer`, which counts if there is no
            -- closer one.
            have houter : function.enclosing? [outer] = some outer := by
              simp [Function.enclosing?, hinside function (by simp [hinner])]
            have := ihinner hinner
            cases hcloser : function.enclosing? before <;> simp_all
          · -- It stands after `outer` and everything inside, none of which
            -- counts.
            have hpositive := hrest.positive function (by simp [hlater])
            have hout := hafter function (by simp [hlater])
            have hnone : function.enclosing? inner = none := by
              apply Function.enclosing?_eq_none hpositive
              intro other hother
              have := (hinside other hother).2
              omega
            have houter : function.enclosing? [outer] = none :=
              Function.enclosing?_eq_none hpositive (by simpa using hout)
            rw [Function.enclosing?_append, hnone, houter, Option.or_none,
              Option.or_none]
            exact ihrest hlater

theorem stretch (h : Forest below top functions) {before after : List Function}
    {outer : Function} (hsplit : functions = before ++ outer :: after) :
    ∃ inner later, after = inner ++ later ∧
      (∀ function ∈ inner, function.Inside outer) ∧
      ∀ function ∈ later, outer.stop ≤ function.start := by
  have hpositive := h.positive
  have hpairwise := h.pairwise
  subst hsplit
  replace hpairwise := (List.pairwise_append.mp hpairwise).2.1
  replace hpositive : ∀ function ∈ after, function.start < function.stop :=
    fun function hmem => hpositive function (by simp [hmem])
  clear h
  induction after with
  | nil => exact ⟨[], [], by simp⟩
  | cons next after ih =>
      obtain ⟨houter, hnext⟩ := List.pairwise_cons.mp hpairwise
      rcases houter next List.mem_cons_self with hstop | hinside
      · refine ⟨[], next :: after, by simp, by simp, fun function hmem => ?_⟩
        rcases List.mem_cons.mp hmem with rfl | hmem
        · exact hstop
        · have hless := hpositive next List.mem_cons_self
          rcases (List.pairwise_cons.mp hnext).1 function hmem with
            hlater | hlater
          · omega
          · have := hlater.1
            omega
      · obtain ⟨inner, later, rfl, hinner, hlater⟩ := ih
          (hpairwise.sublist
            ((List.sublist_cons_self next after).cons_cons outer))
          fun function hmem =>
            hpositive function (List.mem_cons_of_mem next hmem)
        refine ⟨next :: inner, later, rfl, ?_, hlater⟩
        simpa using ⟨hinside, hinner⟩

theorem eq_of_inside (h : Forest below top functions)
    {before after : List Function} {outer function : Function}
    (hsplit : functions = before ++ outer :: after)
    (hfunction : function ∈ before) (hinside : function.Inside outer) :
    function.start = outer.start ∧ function.stop = outer.stop := by
  have hpositive := h.positive function (by simp [hsplit, hfunction])
  have hpairwise := h.pairwise
  rw [hsplit] at hpairwise
  obtain ⟨hstart, hstop⟩ := hinside
  rcases (List.pairwise_append.mp hpairwise).2.2 function hfunction outer
    List.mem_cons_self with
    hafter | ⟨hstart', hstop'⟩
  · omega
  · omega

theorem start_le (h : Forest below top functions) :
    functions.Pairwise fun first second => first.start ≤ second.start := by
  refine h.pairwise.imp_of_mem fun {first second} hfirst _ horder => ?_
  have hpositive := h.positive first hfirst
  rcases horder with hstop | hinside
  · omega
  · exact hinside.1

end Forest

/-! ## Forests in a span -/

structure Listing (below : Function → Function → Prop) (top : Function → Prop)
    (span : Span) (functions : List Function) : Prop where
  forest : Forest below top functions
  inSpan : ∀ function ∈ functions, span.start ≤ function.start ∧
    function.stop ≤ span.stop

namespace Listing

variable {below : Function → Function → Prop} {top : Function → Prop}

theorem nil (span : Span) : Listing below top span [] :=
  ⟨.nil, by simp⟩

theorem widen {inner outer : Span} {functions : List Function}
    (h : Listing below top inner functions) (hinside : inner.Inside outer) :
    Listing below top outer functions := by
  refine ⟨h.forest, fun function hmem => ?_⟩
  obtain ⟨hstart, hstop⟩ := h.inSpan function hmem
  exact ⟨Nat.le_trans hinside.1 hstart, Nat.le_trans hstop hinside.2⟩

theorem cons {span : Span} {outer : Function} {inner : List Function}
    (htop : top outer) (hpositive : span.start < span.stop)
    (hstart : outer.start = span.start) (hstop : outer.stop = span.stop)
    (h : Listing below (below outer) span inner) :
    Listing below top span (outer :: inner) := by
  have hinside : ∀ function ∈ inner, function.Inside outer :=
    fun function hmem => by
    rw [Function.Inside, hstart, hstop]
    exact h.inSpan function hmem
  constructor
  · have hforest : Forest below top (outer :: (inner ++ [])) :=
      .cons htop (by omega) h.forest hinside .nil (by simp)
    rwa [List.append_nil] at hforest
  · simp only [List.mem_cons, forall_eq_or_imp]
    exact ⟨by omega, h.inSpan⟩

theorem flatMap {items : List Node} {span : Span}
    {contribution : Node → List Function}
    (hordered : items.Pairwise fun first second =>
      first.span.Before second.span)
        (hinside : ∀ item ∈ items, item.span.Inside span) (h : ∀ item ∈ items,
          Listing below top item.span (contribution item)) :
    Listing below top span (items.flatMap contribution) := by
  induction items with
  | nil => exact nil span
  | cons item items ih =>
      obtain ⟨hitem, hitems⟩ := List.pairwise_cons.mp hordered
      have hhead := h item List.mem_cons_self
      have htail :=
        ih hitems (fun other hmem =>
          hinside other (List.mem_cons_of_mem item hmem))
          fun other hmem => h other (List.mem_cons_of_mem item hmem)
      rw [List.flatMap_cons]
      constructor
      · refine hhead.forest.append htail.forest
          fun before hbefore after hafter => ?_
        obtain ⟨other, hother, hafter⟩ := List.mem_flatMap.mp hafter
        have hstop := (hhead.inSpan before hbefore).2
        have hstart :=
          ((h other (List.mem_cons_of_mem item hother)).inSpan after hafter).1
        have hbetween : item.span.stop ≤ other.span.start := hitem other hother
        omega
      · intro function hmem
        rcases List.mem_append.mp hmem with hmem | hmem
        · exact (hhead.widen (hinside item List.mem_cons_self)).inSpan
            function hmem
        · exact htail.inSpan function hmem

theorem children {node : Node} {contribution : Node → List Function}
    (hplaced : node.WellPlaced) (h : ∀ item ∈ node.children,
      Listing below top item.span (contribution item)) :
    Listing below top node.span (node.children.flatMap contribution) :=
  flatMap hplaced.ordered (fun _ hitem => hplaced.inside hitem) h

end Listing

end Extract

end FuzzReach
