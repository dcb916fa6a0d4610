import FuzzReach.Proofs.Call.Replay
import FuzzReach.Proofs.Extract.Containers

/-!
# Lines of calls

If the rows of every node lie within those of its parent, and the rows of every
fragment within those of its group, then the calls of a function lie on its own
lines.  This includes macros, whose calls are read from a fragment that counts
its rows anew.
-/

namespace FuzzReach.Syntax

/-! ## Nested rows -/

def Node.RowsNested (root : Node) : Prop :=
  ∀ node ∈ root.preorder, node.span.firstRow ≤ node.span.lastRow ∧
    ∀ child ∈ node.children,
      node.span.firstRow ≤ child.span.firstRow ∧
        child.span.lastRow ≤ node.span.lastRow

instance (root : Node) : Decidable root.RowsNested :=
  inferInstanceAs
    (Decidable (∀ node ∈ root.preorder, _ ∧ ∀ child ∈ node.children, _))

/-- What a parser guarantees of rows.  A fragment counts its rows from the first
row of the group that it was made from. -/
structure Source.RowsNested (source : Source) : Prop where
  tree : source.root.RowsNested
  fragments : ∀ group ∈ source.root.preorder,
    ∀ fragment ∈ source.fragment? group,
      fragment.root.RowsNested ∧
        group.span.firstRow + fragment.root.span.lastRow ≤ group.span.lastRow

namespace Node.RowsNested

variable {root node : Node}

private theorem of_mem_preorder (h : root.RowsNested)
    (hnode : node ∈ root.preorder) : node.RowsNested :=
  fun other hother => h other (preorder_subset_of_mem_preorder hnode hother)

private theorem rows_mem (h : root.RowsNested) (hnode : node ∈ root.preorder) :
    root.span.firstRow ≤ node.span.firstRow ∧
      node.span.lastRow ≤ root.span.lastRow := by
  induction root using tree_induction with
  | step root ih =>
      rcases mem_preorder.mp hnode with rfl | ⟨child, hchild, hbelow⟩
      · omega
      · have hinner := h.of_mem_preorder
          (preorder_subset_of_mem_children hchild child.mem_preorder_self)
        have hbetween := (h root root.mem_preorder_self).2 child hchild
        have hrows := ih child hchild hinner hbelow
        omega

private theorem firstRow_mem (h : root.RowsNested)
    (hnode : node ∈ root.preorder) :
    root.span.firstRow ≤ node.span.firstRow ∧
      node.span.firstRow ≤ root.span.lastRow := by
  have hforwards := (h node hnode).1
  have hrows := h.rows_mem hnode
  omega

end Node.RowsNested

end FuzzReach.Syntax

namespace FuzzReach.Call

open Syntax

/-! ## Lines of events -/

def Event.line? : Event → Option Nat
  | .call _ _ line => some line
  | .invoke _ _ line => some line
  | .bind .. => none

private theorem Event.exists_line_eq {bytes : Bytes} {offset : Offset}
    {node : Node} {event : Event} {line : Nat}
    (h : Event.ofNode? bytes offset node = some event)
    (hline : event.line? = some line) :
    ∃ inner ∈ node.preorder, line = offset.line inner := by
  unfold Event.ofNode? at h
  split at h
  · obtain ⟨function, hfunction, h⟩ := Option.bind_eq_some_iff.mp h
    obtain ⟨callee, -, h⟩ := Option.bind_eq_some_iff.mp h
    cases h
    cases hline
    have hchild := Node.mem_children_of_child? hfunction
    exact ⟨function, Node.preorder_subset_of_mem_children hchild
      function.mem_preorder_self, rfl⟩
  · obtain ⟨pattern, -, h⟩ := Option.bind_eq_some_iff.mp h
    obtain ⟨value, -, h⟩ := Option.bind_eq_some_iff.mp h
    obtain ⟨binding, -, h⟩ := Option.bind_eq_some_iff.mp h
    cases h
    cases hline
  · obtain ⟨name, -, h⟩ := Option.bind_eq_some_iff.mp h
    cases h
    cases hline
    exact ⟨node, node.mem_preorder_self, rfl⟩
  · cases h

private theorem exists_line_eq_of_mem_events {bytes : Bytes} {offset : Offset}
    {root : Node} {event : Event} {line : Nat}
    (h : event ∈ events bytes offset root) (hline : event.line? = some line) :
    ∃ node ∈ root.preorder, line = offset.line node := by
  have hlisted : event ∈ [root].flatMap (events bytes offset) := by
    simpa using h
  rw [flatMap_events] at hlisted
  obtain ⟨node, hnode, hevent⟩ := List.mem_filterMap.mp hlisted
  obtain ⟨inner, hinner, hline⟩ := Event.exists_line_eq hevent hline
  have hbelow : node ∈ root.preorder := by simpa [Node.preorders] using hnode
  exact ⟨inner, Node.preorder_subset_of_mem_preorder hbelow hinner, hline⟩

private theorem Finds.line_eq {tracker : Tracker} {event : Event}
    {finding : Finding} (h : Finds tracker event finding) :
    event.line? = some finding.line := by
  cases h <;> rfl

end FuzzReach.Call

namespace FuzzReach

open Call

def Function.LinesWithin (function : Function) : Prop :=
  ∀ event ∈ function.events, ∀ line, event.line? = some line →
    function.startLine ≤ line ∧ line ≤ function.endLine

theorem Function.LinesWithin.sites {function : Function}
    (h : function.LinesWithin) {aliases : Table String String}
    {lookup : String → Option Function} {site : Site}
    (hsite : site ∈ (resolve function aliases lookup).sites) :
    function.startLine ≤ site.line ∧ site.line ≤ function.endLine := by
  obtain ⟨finding, hfinding, rfl⟩ := List.mem_map.mp hsite
  rw [mem_arrange_iff, mem_replay_iff_isFound] at hfinding
  obtain ⟨earlier, event, later, locals, hevents, -, hfinds⟩ := hfinding
  exact h event (by simp [hevents]) finding.line hfinds.line_eq

namespace Extract

open Syntax

variable {source : Source} {path : String} {function : Function}

/-! ## Functions -/

private theorem linesWithin_of_functionOf? {scope : List String} {node : Node}
    (hnested : node.RowsNested)
    (h : functionOf? source path scope node = some function) :
    function.LinesWithin := by
  obtain ⟨name, -, h⟩ := Option.bind_eq_some_iff.mp h
  cases h
  intro event hevent line hline
  obtain ⟨statement, hstatement, hevent⟩ := List.mem_flatMap.mp hevent
  obtain ⟨inner, hinner, rfl⟩ := exists_line_eq_of_mem_events hevent hline
  have hbelow := mem_preorder_of_mem_bodyItems (List.mem_filter.mp hstatement).1
  have hrows :=
    hnested.firstRow_mem (Node.preorder_subset_of_mem_preorder hbelow hinner)
  simp only [describe, Node.startLine, Node.endLine, Offset.line, Offset.zero]
  omega

/-! ## Macros -/

private theorem mem_preorder_of_entryGroup? {node group : Node}
    (h : entryGroup? source node = some group) : group ∈ node.preorder := by
  have hargument : ∀ {argument : Node},
      argument ∈ node.children.filter isGroup →
      argument ∈ node.preorder := fun hargument =>
    Node.preorder_subset_of_mem_children (List.mem_filter.mp hargument).1
      (Node.mem_preorder_self _)
  simp only [entryGroup?, Option.orElse_eq_orElse, Option.orElse_eq_or,
    Option.or_eq_some_iff] at h
  rcases h with hinner | ⟨-, hlast⟩
  · obtain ⟨argument, hmem, hgroup⟩ :=
      List.mem_flatMap.mp (List.mem_of_getLast? hinner)
    apply Node.preorder_subset_of_mem_preorder (hargument hmem)
    exact Node.preorder_subset_of_mem_children (List.mem_filter.mp hgroup).1
      (Node.mem_preorder_self _)
  · exact hargument (List.mem_of_getLast? hlast)

private theorem mem_preorder_of_definitionGroup? {node group : Node}
    (h : definitionGroup? source node = some group) :
    group ∈ node.preorder := by
  obtain ⟨hbody, -⟩ := List.mem_filter.mp (List.mem_of_getLast? h)
  obtain ⟨rule, hrule, hright⟩ := List.mem_filterMap.mp hbody
  apply Node.preorder_subset_of_mem_children (List.mem_filter.mp hrule).1
  exact Node.preorder_subset_of_mem_children
    (Node.mem_children_of_child? hright) (Node.mem_preorder_self _)

private theorem exists_fragment_of_mem_withBody {node : Node}
    {group : Option Node} (hempty : function.events = []) {event : Event}
    (h : event ∈ (withBody source node group function).events) :
    ∃ place ∈ group, ∃ fragment ∈ source.fragment? place, ∃ bytes,
      event ∈ events bytes
        ⟨place.span.firstRow, place.span.start⟩ fragment.root := by
  simp only [withBody] at h
  split at h
  · next place bytes root hfragment =>
      obtain ⟨_, hplace, hfragment⟩ := Option.bind_eq_some_iff.mp hfragment
      obtain ⟨_, -, hfragment⟩ := Option.bind_eq_some_iff.mp hfragment
      obtain ⟨fragment, hfound, hsame⟩ := Option.bind_eq_some_iff.mp hfragment
      cases hsame
      exact ⟨place, hplace, fragment, hfound, bytes, h⟩
  · simp [hempty] at h

/-- The rows of a fragment, put behind the first row of its group, are rows of
the macro. -/
theorem linesWithin_withBody (hnested : source.RowsNested) {node : Node}
    (hnode : node ∈ source.root.preorder) {group : Option Node}
    (hgroup : ∀ place ∈ group, place ∈ node.preorder)
    (hempty : function.events = [])
    (hstart : function.startLine = node.startLine)
    (hend : function.endLine = node.endLine) :
    (withBody source node group function).LinesWithin := by
  intro event hevent line hline
  obtain ⟨place, hplace, fragment, hfragment, bytes, hevent⟩ :=
    exists_fragment_of_mem_withBody hempty hevent
  obtain ⟨inner, hinner, rfl⟩ := exists_line_eq_of_mem_events hevent hline
  have hbelow := hgroup place hplace
  obtain ⟨hroot, hfits⟩ := hnested.fragments place
    (Node.preorder_subset_of_mem_preorder hnode hbelow) fragment hfragment
  have hwithin := hroot.firstRow_mem hinner
  have hrows := (hnested.tree.of_mem_preorder hnode).rows_mem hbelow
  rw [startLine_withBody, endLine_withBody, hstart, hend]
  simp only [Node.startLine, Node.endLine, Offset.line]
  omega

private theorem linesWithin_of_entryOf? (hnested : source.RowsNested)
    {node : Node} (hnode : node ∈ source.root.preorder)
    (h : entryOf? source path node = some function) :
    function.LinesWithin := by
  unfold entryOf? at h
  split at h
  · cases h
    exact linesWithin_withBody hnested hnode
      (fun _ => mem_preorder_of_entryGroup?) rfl rfl rfl
  · cases h

private theorem linesWithin_of_definitionOf? (hnested : source.RowsNested)
    {node : Node} (hnode : node ∈ source.root.preorder)
    (h : definitionOf? source path node = some function) :
    function.LinesWithin := by
  obtain ⟨nameNode, -, h⟩ := Option.bind_eq_some_iff.mp h
  obtain ⟨name, -, h⟩ := Option.bind_eq_some_iff.mp h
  cases h
  exact linesWithin_withBody hnested hnode
    (fun _ => mem_preorder_of_definitionGroup?) rfl rfl rfl

/-! ## Sources -/

theorem Container.declaredBy_cases {container : Container} {item : Node}
    (h : function ∈ container.declaredBy source path item) :
    functionOf? source path container.scope item = some function ∨
      ∃ node ∈ item.preorder, entryOf? source path node = some function ∨
        definitionOf? source path node = some function := by
  rcases List.mem_append.mp h with hown | hisMacro
  · rw [ownFunction?] at hown
    split at hown
    · exact .inl (Option.mem_toList.mp hown)
    · cases hown
  · right
    unfold macrosOf at hisMacro
    split at hisMacro
    · cases hisMacro
    · split at hisMacro
      · obtain ⟨child, hchild, hentry⟩ := List.mem_filterMap.mp hisMacro
        have hbelow :=
          Node.preorder_subset_of_mem_children (List.mem_filter.mp hchild).1
            child.mem_preorder_self
        exact ⟨child, hbelow, .inl hentry⟩
      · exact ⟨item, item.mem_preorder_self,
          .inl (Option.mem_toList.mp hisMacro)⟩
      · exact ⟨item, item.mem_preorder_self,
          .inr (Option.mem_toList.mp hisMacro)⟩
      · cases hisMacro

/-- The events and the call sites of every extracted function stand on its own
lines. -/
theorem calls_within_lines {source : Source} (hnested : source.RowsNested)
    (path : String) :
    ∀ function ∈ functions source path,
      (∀ event ∈ function.events, ∀ line, event.line? = some line →
        function.startLine ≤ line ∧ line ≤ function.endLine) ∧
      ∀ aliases lookup, ∀ site ∈ (resolve function aliases lookup).sites,
        function.startLine ≤ site.line ∧ site.line ≤ function.endLine := by
  intro function hfunction
  obtain ⟨container, hcontainer, item, hitem, hdeclared⟩ :=
    mem_functions_iff.mp hfunction
  have hplaced := mem_preorder_of_mem_containers hcontainer hitem
  have hlines : function.LinesWithin := by
    rcases Container.declaredBy_cases hdeclared with
      hown | ⟨node, hnode, hisMacro⟩
    · exact linesWithin_of_functionOf?
        (hnested.tree.of_mem_preorder hplaced) hown
    · have hbelow := Node.preorder_subset_of_mem_preorder hplaced hnode
      rcases hisMacro with hentry | hdefinition
      · exact linesWithin_of_entryOf? hnested hbelow hentry
      · exact linesWithin_of_definitionOf? hnested hbelow hdefinition
  exact ⟨hlines, fun aliases lookup site => hlines.sites⟩

/-- A fuzzing run over three rows.  Its body was parsed again, from the opening
brace on. -/
def threeRows : Source where
  bytes := "fuzz_target!(|data| \x7b\n  run(data);\n\x7d);".toUTF8.data
  root :=
    ⟨"source_file", none, true, ⟨0, 38, 0, 2⟩,
      [⟨"expression_statement", none, true, ⟨0, 38, 0, 2⟩,
        [⟨"macro_invocation", none, true, ⟨0, 37, 0, 2⟩,
          [⟨"identifier", some "macro", true, ⟨0, 11, 0, 0⟩, []⟩,
           ⟨"token_tree", none, true, ⟨12, 37, 0, 2⟩,
            [⟨"token_tree", none, true, ⟨20, 36, 0, 2⟩, []⟩]⟩]⟩]⟩]⟩
  fragments :=
    [⟨20, 36,
      ⟨"source_file", none, true, ⟨0, 16, 0, 2⟩,
        [⟨"block", none, true, ⟨0, 16, 0, 2⟩,
          [⟨"expression_statement", none, true, ⟨4, 14, 1, 1⟩,
            [⟨"call_expression", none, true, ⟨4, 13, 1, 1⟩,
              [⟨"identifier", some "function", true, ⟨4, 7, 1, 1⟩, []⟩,
               ⟨"arguments", some "arguments", true, ⟨7, 13, 1, 1⟩,
                 []⟩]⟩]⟩]⟩]⟩⟩]

theorem calls_within_threeRows :
    threeRows.RowsNested ∧
      ∃ run ∈ functions threeRows "run.rs",
        (run.startLine, run.endLine) = (1, 3) ∧
        run.events.map Event.line? = [some 2] ∧
        ∀ aliases lookup, ∀ site ∈ (resolve run aliases lookup).sites,
          1 ≤ site.line ∧ site.line ≤ 3 := by
  have hnested : threeRows.RowsNested := ⟨by decide +kernel, by decide +kernel⟩
  have hlist : (functions threeRows "run.rs").map (fun function =>
      (function.startLine, function.endLine, function.events.map Event.line?)) =
        [(1, 3, [some 2])] := by decide +kernel
  obtain ⟨run, hrun, hparts⟩ :=
    List.mem_map.mp (hlist ▸ List.mem_singleton_self _)
  simp only [Prod.mk.injEq] at hparts
  obtain ⟨hstart, hend, hevents⟩ := hparts
  refine ⟨hnested, run, hrun, by rw [hstart, hend], hevents, ?_⟩
  rw [← hstart, ← hend]
  exact (calls_within_lines hnested "run.rs" run hrun).2

end Extract

end FuzzReach
