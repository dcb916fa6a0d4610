import FuzzReach.Proofs.Reachable

/-!
# The order of reachable names

A walk keeps a list of what is still to be looked at, in which a name can stand
many times.  Still it reaches the names in the order of the recursive search,
which follows the calls of one name to their end before it turns to the next.
Names that are left out of the list, because they were reached before, do not
matter.
-/

namespace FuzzReach.Graph

/-! ## Recursive search -/

/-- The recursive search of nodes one after the other, with the nodes reached
before and after it.  A node that was not reached yet is recorded, and what
follows from it is searched at once. -/
inductive Search {κ : Type} (next : κ → List κ) :
    List κ → List κ → List κ → Prop where
  | done {reached : List κ} : Search next reached [] reached
  | skip {reached rest final : List κ} {node : κ} (hreached : node ∈ reached)
      (hrest : Search next reached rest final) :
        Search next reached (node :: rest) final
  | visit {reached rest middle final : List κ} {node : κ}
      (hnew : node ∉ reached)
      (hinner : Search next (reached ++ [node]) (next node) middle)
      (hrest : Search next middle rest final) :
        Search next reached (node :: rest) final

namespace Search

variable {κ : Type} {next : κ → List κ} {reached nodes others final : List κ}

private theorem exists_middle
    (h : Search next reached (nodes ++ others) final) :
    ∃ middle, Search next reached nodes middle ∧
      Search next middle others final := by
  induction nodes generalizing reached with
  | nil => exact ⟨reached, .done, h⟩
  | cons node nodes ih =>
      cases h with
      | skip hreached hrest =>
          obtain ⟨middle, hnodes, hothers⟩ := ih hrest
          exact ⟨middle, .skip hreached hnodes, hothers⟩
      | visit hnew hinner hrest =>
          obtain ⟨middle, hnodes, hothers⟩ := ih hrest
          exact ⟨middle, .visit hnew hinner hnodes, hothers⟩

theorem unique {other : List κ} (h : Search next reached nodes final)
    (h' : Search next reached nodes other) : final = other := by
  induction h generalizing other with
  | done =>
      cases h'
      rfl
  | skip hreached _ ih =>
      cases h' with
      | skip _ hrest => exact ih hrest
      | visit hnew => exact absurd hreached hnew
  | visit hnew _ _ ihinner ihrest =>
      cases h' with
      | skip hreached => exact absurd hreached hnew
      | visit _ hinner hrest =>
          obtain rfl := ihinner hinner
          exact ihrest hrest

end Search

/-! ## Walks -/

section Walk

variable {α κ : Type} [DecidableEq κ] {key : α → κ} {next : α → List α}
  {unseen : List κ} {pending : List α}

/-- A walk expands its items in the order of the recursive search, as long as
what follows from an item is determined by its key. -/
theorem search_trail {follow : κ → List κ} {reached : List κ} (holds : α → Prop)
    (hpending : ∀ item ∈ pending, holds item)
    (hnext : ∀ item, holds item → key item ∈ unseen →
      (next item).map key = follow (key item) ∧ ∀ follower ∈ next item,
        holds follower)
    (hreached : ∀ item, holds item → (key item ∈ reached ↔ key item ∉ unseen)) :
    Search follow reached (pending.map key)
      (reached ++ (expansions
        (trail (fun item => some (key item)) next unseen pending)).map
          key) := by
  fun_induction trail (fun item => some (key item)) next unseen pending
    generalizing reached with
  | case1 => simpa using Search.done
  | case2 => contradiction
  | case3 unseen first rest firstKey hkey hunseen ih =>
      obtain rfl := Option.some.inj hkey
      have hfirst := hpending first List.mem_cons_self
      obtain ⟨hfollow, hfollowers⟩ := hnext first hfirst hunseen
      have hnew : key first ∉ reached :=
        fun hmem => (hreached first hfirst).mp hmem hunseen
      have hlisted : ∀ item ∈ next first ++ rest, holds item := by
        intro item hitem
        rcases List.mem_append.mp hitem with hitem | hitem
        · exact hfollowers item hitem
        · exact hpending item (List.mem_cons_of_mem _ hitem)
      have hrecorded : ∀ item, holds item →
          (key item ∈ reached ++ [key first] ↔
            key item ∉ without (key first) unseen) := by
        intro item hitem
        rw [List.mem_append, hreached item hitem, List.mem_singleton,
          mem_without]
        tauto
      have hrest := ih hlisted
        (fun item hitem hmem => hnext item hitem (mem_without.mp hmem).1)
          hrecorded
      -- What follows stands in front of the rest of the list, so it is searched
      -- to its end first.
      rw [List.map_append, hfollow] at hrest
      obtain ⟨middle, hinner, houter⟩ := hrest.exists_middle
      rw [List.append_assoc] at houter
      exact .visit hnew hinner houter
  | case4 unseen first rest firstKey hkey hunseen ih =>
      obtain rfl := Option.some.inj hkey
      have hfirst := hpending first List.mem_cons_self
      exact .skip ((hreached first hfirst).mpr hunseen)
        (ih (fun item hitem => hpending item (List.mem_cons_of_mem _ hitem))
          hnext hreached)

/-! ## Leaving out early -/

/-- The keys that a walk expands, in order, if it lists only those followers
whose key has not been expanded so far.  The key of a listed item may still be
expanded before its turn comes. -/
def sparing (key : α → κ) (next : α → List α) (unseen : List κ)
    (pending : List α) : List κ :=
  match pending with
  | [] => []
  | item :: rest =>
      if _hkey : key item ∈ unseen then
        key item :: sparing key next (without (key item) unseen)
          ((next item).filter
            (fun follower => key follower ∈ without (key item) unseen) ++ rest)
      else sparing key next unseen rest
termination_by (unseen.length, pending.length)
decreasing_by
  · exact Prod.Lex.left _ _ (length_without_lt _hkey)
  · exact Prod.Lex.right _ (by simp)

private theorem sparing_append {stale : List α}
    (hstale : ∀ item ∈ stale, key item ∉ unseen) (pending : List α) :
    sparing key next unseen (stale ++ pending) =
      sparing key next unseen pending := by
  induction stale with
  | nil => rfl
  | cons item stale ih =>
      rw [List.cons_append, sparing, dif_neg (hstale item List.mem_cons_self)]
      exact ih fun other hother => hstale other (List.mem_cons_of_mem _ hother)

private theorem sparing_eq_expansions {kept : List α}
    (h : kept.filter (fun item => key item ∈ unseen) =
      pending.filter fun item => key item ∈ unseen) :
    sparing key next unseen kept =
      (expansions (trail (fun item => some (key item)) next unseen pending)).map
        key := by
  fun_induction trail (fun item => some (key item)) next unseen pending
    generalizing kept with
  | case1 unseen =>
      have hstale : ∀ item ∈ kept, key item ∉ unseen := by simpa using h
      rw [← List.append_nil kept, sparing_append hstale, sparing]
      rfl
  | case2 => contradiction
  | case3 unseen first rest firstKey hkey hunseen ih =>
      obtain rfl := Option.some.inj hkey
      rw [List.filter_cons_of_pos (by simpa using hunseen),
        List.filter_eq_cons_iff] at h
      obtain ⟨stale, others, rfl, hstale, -, hothers⟩ := h
      have hrest :
          others.filter (fun item => key item ∈ without (key first) unseen) =
          rest.filter fun item => key item ∈ without (key first) unseen := by
        have hless :=
          congrArg (List.filter fun item => key item ≠ key first) hothers
        simpa [List.filter_filter, mem_without, Bool.and_comm] using hless
      rw [sparing_append (by simpa using hstale), sparing, dif_pos hunseen,
        expansions_cons_expanded, List.map_cons, ih]
      rw [List.filter_append, List.filter_append, hrest, List.filter_filter]
      simp
  | case4 unseen first rest firstKey hkey hunseen ih =>
      obtain rfl := Option.some.inj hkey
      rw [List.filter_cons_of_neg (by simpa using hunseen)] at h
      exact ih h

end Walk

end FuzzReach.Graph

namespace FuzzReach.CallGraph

variable {graph : CallGraph} {start : Start}

def calledBy (graph : CallGraph) (start : Start)
    (name : String) : List String :=
  ((graph.meaning? start name).map graph.callees).getD []

private theorem map_name_successors {item : Start}
    (h : item.declaration = graph.meaning? start item.name) :
    (graph.successors item).map Start.name =
      graph.calledBy start item.name := by
  rw [calledBy, ← h, successors]
  cases item.declaration with
  | none => rfl
  | some declaration => simp [Function.comp_def]

private theorem mem_vocabulary_of_lookup? {name : String}
    {declaration : Declaration}
    (h : graph.registry.lookup? .allSegments name = some declaration)
    {callee : String} (hcallee : callee ∈ graph.callees declaration) :
    callee ∈ graph.vocabulary start :=
  List.mem_cons_of_mem _ <| List.mem_append_right _ <|
    List.mem_flatMap.mpr ⟨declaration, Registry.mem_declarations_of_lookup? h,
      hcallee⟩

private theorem search_reachedBelow (graph : CallGraph) (start : Start) :
    Graph.Search (graph.calledBy start) [start.name]
      (graph.calledBy start start.name)
      (start.name :: (graph.reachedBelow start).map Start.name) := by
  have hstart : start.declaration = graph.meaning? start start.name :=
    (meaning?_start graph start).symm
  rw [← map_name_successors hstart]
  refine Graph.search_trail (fun item => item.name ∈ graph.vocabulary start ∧
    item.declaration = graph.registry.lookup? .allSegments item.name) ?_ ?_ ?_
  · intro item hitem
    exact ⟨List.mem_cons_of_mem _
      (List.mem_append_left _ (List.mem_map_of_mem hitem)),
      declaration_of_mem_successors hitem⟩
  · rintro item ⟨-, hmeaning⟩ hunseen
    refine ⟨map_name_successors ?_, fun follower hfollower => ?_⟩
    · rw [meaning?_of_ne (Graph.mem_without.mp hunseen).2, hmeaning]
    · obtain ⟨declaration, hdeclaration, site, hsite, rfl⟩ :=
        mem_successors_iff.mp hfollower
      exact ⟨mem_vocabulary_of_lookup? (hmeaning.symm.trans hdeclaration)
        (List.mem_map_of_mem hsite), rfl⟩
  · rintro item ⟨hlisted, -⟩
    rw [List.mem_singleton, Graph.mem_without]
    tauto

/-- Reachable names are listed in the order of the recursive search that records
a name, takes the function it stands for and searches the names of its calls in
order.  Whether names that were reached already are left out of the pending ones
makes no difference. -/
theorem reachable_in_search_order (graph : CallGraph)
    (file : Option (SourceFile × Nat)) (function : Option String)
    (start : Start) (hstart : graph.start? file function = some start) :
    let names := (graph.reachable file function).map Start.name
    (∀ order, Graph.Search (graph.calledBy start) [] [start.name] order ↔
      order = names) ∧
      Graph.sparing Start.name graph.successors (graph.vocabulary start)
        [start] = names := by
  intro names
  have hnames : names = (graph.reachedFrom start).map Start.name := by
    simp [names, reachable, hstart]
  have hsearch : Graph.Search (graph.calledBy start) [] [start.name] names := by
    rw [hnames, reachedFrom_eq_cons]
    exact .visit List.not_mem_nil (search_reachedBelow graph start) .done
  refine ⟨fun order =>
    ⟨fun horder => horder.unique hsearch, fun horder => horder ▸ hsearch⟩, ?_⟩
  rw [hnames]
  exact Graph.sparing_eq_expansions rfl

def repeatedCalls : CallGraph :=
  ⟨.build [⟨"src/lib.rs", #[], .empty,
    [{ name := "a", path := "src/lib.rs", events :=
        [.call (.path "b") 10 1, .call (.path "c") 12 1,
          .call (.path "ext") 14 1,
          .call (.path "b") 16 1] },
      { name := "b", path := "src/lib.rs",
        events := [.call (.path "a") 30 2, .call (.path "ext") 34 2,
          .call (.path "c") 38 2] },
      { name := "c", path := "src/lib.rs",
        events := [.call (.path "b") 50 3] }]⟩] "", .empty⟩

theorem reachable_in_search_order_repeatedCalls :
    let start : Start := ⟨"a", repeatedCalls.registry.lookup? .allSegments "a"⟩
    repeatedCalls.start? none (some "a") = some start ∧
      repeatedCalls.calledBy start "a" = ["b", "c", "ext", "b"] ∧
      Graph.Search (repeatedCalls.calledBy start) [] ["a"]
        ["a", "b", "ext", "c"] := by
  have hnames : (repeatedCalls.reachable none (some "a")).map Start.name =
      ["a", "b", "ext", "c"] := by cbv
  refine ⟨rfl, by cbv, ?_⟩
  exact ((reachable_in_search_order repeatedCalls none (some "a") _ rfl).1
    _).mpr hnames.symm

end FuzzReach.CallGraph
