import FuzzReach.Proofs.CallTree
import FuzzReach.Text.Blank
import Mathlib.Algebra.GroupWithZero.Nat

/-!
# The shape of a call tree

A call tree is written line by line and its branches can be read back from the
levels alone.  Each function is expanded where it first comes up, and the lines
one level below the line of an expanded function, up to the next line that is
not deeper, are its calls in order.
-/

namespace FuzzReach.Graph

variable {α κ : Type} [DecidableEq κ] {key? : α → Option κ} {next : α → List α}
  {unseen : List κ} {pending : List α}

/-! ## Steps of a walk -/

def Visit.followers (next : α → List α) (visit : Visit α) : List α :=
  if visit.expanded then next visit.item else []

private theorem exists_trail_cons (key? : α → Option κ) (next : α → List α)
    (unseen : List κ) (item : α) (rest : List α) :
    ∃ expanded left, trail key? next unseen (item :: rest) =
      ⟨item, expanded⟩ ::
        trail key? next left
          (Visit.followers next ⟨item, expanded⟩ ++ rest) := by
  rw [trail]
  split
  · exact ⟨false, unseen, rfl⟩
  · split
    · exact ⟨true, _, rfl⟩
    · exact ⟨false, unseen, rfl⟩

private theorem item_mem_of_mem_head? {visit : Visit α}
    (h : visit ∈ (trail key? next unseen pending).head?) :
    visit.item ∈ pending := by
  cases pending with
  | nil =>
      rw [trail] at h
      cases h
  | cons item rest =>
      obtain ⟨expanded, left, hcons⟩ :=
        exists_trail_cons key? next unseen item rest
      rw [hcons] at h
      cases h
      exact List.mem_cons_self

private theorem exists_trail_append (key? : α → Option κ) (next : α → List α)
    (unseen : List κ) (first second : List α) :
    ∃ left, trail key? next unseen (first ++ second) =
      trail key? next unseen first ++ trail key? next left second := by
  fun_induction trail key? next unseen first with
  | case1 unseen => exact ⟨unseen, rfl⟩
  | case2 unseen item rest hkey ih =>
      obtain ⟨left, hleft⟩ := ih
      refine ⟨left, ?_⟩
      rw [List.cons_append, trail, hkey, List.cons_append, ← hleft]
  | case3 unseen item rest key hkey hunseen ih =>
      obtain ⟨left, hleft⟩ := ih
      refine ⟨left, ?_⟩
      rw [List.append_assoc] at hleft
      rw [List.cons_append, trail.eq_def, List.cons_append, ← hleft]
      simp [hkey, hunseen]
  | case4 unseen item rest key hkey hunseen ih =>
      obtain ⟨left, hleft⟩ := ih
      refine ⟨left, ?_⟩
      rw [List.cons_append, trail.eq_def, List.cons_append, ← hleft]
      simp [hkey, hunseen]

private theorem length_trail :
    (trail key? next unseen pending).length = pending.length +
      ((expansions (trail key? next unseen pending)).map fun item =>
        (next item).length).sum := by
  fun_induction trail key? next unseen pending with
  | case1 => rfl
  | case2 unseen item rest hkey ih =>
      simp only [List.length_cons, expansions_cons_noted, ih]
      omega
  | case3 unseen item rest key hkey hunseen ih =>
      simp only [List.length_cons, expansions_cons_expanded, List.map_cons,
        List.sum_cons, ih, List.length_append]
      omega
  | case4 unseen item rest key hkey hunseen ih =>
      simp only [List.length_cons, expansions_cons_noted, ih]
      omega

theorem expanded_iff {before after : List (Visit α)} {visit : Visit α}
    (h : trail key? next unseen pending = before ++ visit :: after) :
    visit.expanded = true ↔
      ∃ key ∈ unseen, key? visit.item = some key ∧
        ∀ earlier ∈ before, key? earlier.item ≠ some key := by
  fun_induction trail key? next unseen pending generalizing before with
  | case1 => simp at h
  | case2 unseen item rest hkey ih =>
      rcases List.cons_eq_append_iff.mp h with
        ⟨rfl, hvisit⟩ | ⟨others, rfl, hrest⟩
      · obtain ⟨rfl, -⟩ := List.cons.inj hvisit
        simp [hkey]
      · simp [ih hrest, hkey]
  | case3 unseen item rest key hkey hunseen ih =>
      rcases List.cons_eq_append_iff.mp h with
        ⟨rfl, hvisit⟩ | ⟨others, rfl, hrest⟩
      · obtain ⟨rfl, -⟩ := List.cons.inj hvisit
        simp [hkey, hunseen]
      · simp only [ih hrest, mem_without, List.forall_mem_cons, hkey, ne_eq,
          Option.some.injEq]
        grind
  | case4 unseen item rest key hkey hunseen ih =>
      rcases List.cons_eq_append_iff.mp h with
        ⟨rfl, hvisit⟩ | ⟨others, rfl, hrest⟩
      · obtain ⟨rfl, -⟩ := List.cons.inj hvisit
        simpa [hkey] using hunseen
      · simp only [ih hrest, List.forall_mem_cons, hkey, ne_eq,
          Option.some.injEq]
        grind

/-! ## Levels -/

section Levels

variable {level : α → Nat}
  (hlevel : ∀ item, ∀ follower ∈ next item, level follower = level item + 1)

include hlevel

private theorem level_of_mem_followers {visit : Visit α} {item : α}
    (h : item ∈ visit.followers next) :
    level item = level visit.item + 1 := by
  unfold Visit.followers at h
  split at h
  · exact hlevel _ item h
  · cases h

private theorem le_level_of_mem_trail {bound : Nat}
    (hpending : ∀ item ∈ pending, bound ≤ level item) {visit : Visit α}
    (h : visit ∈ trail key? next unseen pending) :
    bound ≤ level visit.item := by
  refine trail_induction (fun item => bound ≤ level item) hpending ?_ visit h
  intro item hitem _ _ _ follower hfollower
  rw [hlevel item follower hfollower]
  omega

private theorem filter_level_trail {base : Nat}
    (hpending : ∀ item ∈ pending, level item = base) :
    ((trail key? next unseen pending).filter fun visit =>
      level visit.item = base).map Visit.item =
      pending := by
  induction pending generalizing unseen with
  | nil =>
      rw [trail]
      rfl
  | cons item rest ih =>
      obtain ⟨expanded, left, hcons⟩ :=
        exists_trail_cons key? next unseen item rest
      obtain ⟨later, happend⟩ :=
        exists_trail_append key? next left
          (Visit.followers next ⟨item, expanded⟩) rest
      obtain ⟨hitem, hrest⟩ := List.forall_mem_cons.mp hpending
      have hdeeper :
          (trail key? next left (Visit.followers next ⟨item, expanded⟩)).filter
          (fun visit => level visit.item = base) = [] := by
        refine List.filter_eq_nil_iff.mpr fun visit hvisit => ?_
        have := le_level_of_mem_trail hlevel
          (fun follower hfollower =>
            (level_of_mem_followers hlevel hfollower).ge) hvisit
        simp only [hitem] at this
        simp
        omega
      rw [hcons, List.filter_cons_of_pos (by simpa using hitem), happend,
        List.filter_append, hdeeper, List.nil_append, List.map_cons, ih hrest]

/-- The part of a walk behind a visit: first all that follows from it, then what
was pending next, which is not deeper. -/
theorem exists_eq_of_trail {before after : List (Visit α)} {visit : Visit α}
    (hpending : pending.Pairwise fun first later => level later ≤ level first)
    (h : trail key? next unseen pending = before ++ visit :: after) :
    ∃ left later rest, (∀ item ∈ rest, level item ≤ level visit.item) ∧
      after = trail key? next left (visit.followers next) ++
        trail key? next later rest := by
  induction before generalizing unseen pending with
  | nil =>
      cases pending with
      | nil =>
          rw [trail] at h
          cases h
      | cons item rest =>
          obtain ⟨expanded, left, hcons⟩ :=
            exists_trail_cons key? next unseen item rest
          obtain ⟨rfl, rfl⟩ := List.cons.inj (hcons.symm.trans h)
          obtain ⟨later, happend⟩ :=
            exists_trail_append key? next left
              (Visit.followers next ⟨item, expanded⟩) rest
          exact ⟨left, later, rest, (List.pairwise_cons.mp hpending).1, happend⟩
  | cons first before ih =>
      cases pending with
      | nil =>
          rw [trail] at h
          cases h
      | cons item rest =>
          obtain ⟨expanded, left, hcons⟩ :=
            exists_trail_cons key? next unseen item rest
          obtain ⟨hitem, hrest⟩ := List.pairwise_cons.mp hpending
          refine ih ?_ (List.cons.inj (hcons.symm.trans h)).2
          refine List.pairwise_append.mpr ⟨?_, hrest, ?_⟩
          · refine List.pairwise_of_forall_mem_list
              fun follower hfollower other hother => ?_
            rw [level_of_mem_followers hlevel hfollower,
              level_of_mem_followers hlevel hother]
          · intro follower hfollower other hother
            have hdeeper : level follower = level item + 1 :=
              level_of_mem_followers hlevel hfollower
            have := hitem other hother
            omega

private theorem level_le_of_adjacent {before after : List (Visit α)}
    {first second : Visit α}
    (hpending : pending.Pairwise fun first later => level later ≤ level first)
    (h : trail key? next unseen pending = before ++ first :: second :: after) :
    level second.item ≤ level first.item + 1 := by
  obtain ⟨left, later, rest, hrest, hafter⟩ :=
    exists_eq_of_trail hlevel hpending h
  have hhead :
      (trail key? next left (first.followers next) ++
        trail key? next later rest).head? =
      some second := by
    rw [← hafter]
    rfl
  rw [List.head?_append, Option.or_eq_some_iff] at hhead
  rcases hhead with hinner | ⟨-, houter⟩
  · exact (level_of_mem_followers hlevel (item_mem_of_mem_head? hinner)).le
  · exact Nat.le_succ_of_le (hrest _ (item_mem_of_mem_head? houter))

/-- The items one level below a visit, up to the next one that is not deeper,
are its followers. -/
theorem followers_of_trail {before after : List (Visit α)} {visit : Visit α}
    (hpending : pending.Pairwise fun first later => level later ≤ level first)
    (h : trail key? next unseen pending = before ++ visit :: after) :
    ((after.takeWhile fun later => level visit.item < level later.item).filter
      fun later => level later.item = level visit.item + 1).map Visit.item =
        visit.followers next := by
  obtain ⟨left, later, rest, hrest, rfl⟩ := exists_eq_of_trail hlevel hpending h
  have hfollowers : ∀ item ∈ visit.followers next,
      level item = level visit.item + 1 :=
    fun item hitem => level_of_mem_followers hlevel hitem
  have hinner : ∀ other ∈ trail key? next left (visit.followers next),
      decide (level visit.item < level other.item) = true := by
    intro other hother
    have := le_level_of_mem_trail hlevel
      (fun item hitem => (hfollowers item hitem).ge) hother
    exact decide_eq_true (by omega)
  have houter : (trail key? next later rest).takeWhile
      (fun other => level visit.item < level other.item) = [] := by
    cases htrail : trail key? next later rest with
    | nil => rfl
    | cons first others =>
        have hfirst : first ∈ (trail key? next later rest).head? := by
          simp [htrail]
        have := hrest first.item (item_mem_of_mem_head? hfirst)
        exact List.takeWhile_cons_of_neg (by simpa using this)
  rw [List.takeWhile_append_of_pos hinner, houter, List.append_nil]
  exact filter_level_trail hlevel hfollowers

end Levels

end FuzzReach.Graph

/-! ## The text -/

namespace FuzzReach

theorem Text.split_append {mark : Char} {piece : List Char} (h : mark ∉ piece)
    (rest : List Char) :
    split mark (piece ++ mark :: rest) = piece :: split mark rest := by
  induction piece with
  | nil => simp [split]
  | cons character piece ih =>
      simp only [List.mem_cons, not_or] at h
      rw [List.cons_append, split, if_neg (Ne.symm h.1), ih h.2, onFirst]

namespace TreeLine

def call (line : TreeLine) : String × Option Nat × String :=
  (line.calledAs, line.number, line.caller)

def body (line : TreeLine) : List Char :=
  List.replicate (2 * line.level) ' ' ++ line.shown.toList ++ ' ' ::
    line.caller.toList ++
    ' ' :: line.numberText.toList

private theorem toList_indent
    (level : Nat) : (indent level).toList = List.replicate (2 * level) ' ' := by
  induction level with
  | zero => rfl
  | succ level ih =>
      rw [indent, String.toList_append, ih, Nat.mul_succ, Nat.add_comm,
        List.replicate_add]
      rfl

private theorem toList_render (line : TreeLine) :
    line.render.toList = line.body ++ ['\n'] := by
  simp [render, body, toList_indent]

private theorem toList_renderAll (visits : List (Graph.Visit TreeLine)) :
    (renderAll visits).toList = visits.flatMap fun visit =>
      visit.item.body ++ ['\n'] := by
  simp only [renderAll, String.toList_join, List.flatMap_map, toList_render]

private theorem break_notMem_numberText (line : TreeLine) :
    '\n' ∉ line.numberText.toList := by
  unfold numberText
  split
  · next number =>
      intro hmem
      rw [Nat.toString_eq_ofList_toDigits, String.toList_ofList] at hmem
      exact absurd (Nat.isDigit_of_mem_toDigits (by decide) (by decide) hmem)
        (by decide)
  · decide

def IsUnbroken (line : TreeLine) : Prop :=
  '\n' ∉ line.shown.toList ∧ '\n' ∉ line.caller.toList

private theorem IsUnbroken.notMem_body {line : TreeLine} (h : line.IsUnbroken) :
    '\n' ∉ line.body := by
  have hnumber := line.break_notMem_numberText
  simp [body, h.1, h.2, hnumber]

private theorem split_renderAll {visits : List (Graph.Visit TreeLine)}
    (h : ∀ visit ∈ visits, visit.item.IsUnbroken) :
    Text.split '\n' (renderAll visits).toList =
      visits.map (fun visit => visit.item.body) ++ [[]] := by
  rw [toList_renderAll]
  induction visits with
  | nil => rfl
  | cons visit visits ih =>
      obtain ⟨hvisit, hvisits⟩ := List.forall_mem_cons.mp h
      rw [List.flatMap_cons, List.append_assoc, List.cons_append,
        List.nil_append, Text.split_append hvisit.notMem_body, ih hvisits]
      rfl

end TreeLine

/-! ## Call trees -/

namespace CallGraph

def expandedFunctions (tree : List (Graph.Visit TreeLine)) : List Declaration :=
  (Graph.expansions tree).filterMap TreeLine.declaration

/-- The lines right below a line, read off the levels of the lines behind it. -/
def linesUnder (line : TreeLine) (after : List (Graph.Visit TreeLine)) :
    List TreeLine :=
  ((after.takeWhile fun visit => line.level < visit.item.level).filter
    fun visit => visit.item.level = line.level + 1).map Graph.Visit.item

private theorem level_of_mem_linesBelow {graph : CallGraph} (line : TreeLine) :
    ∀ below ∈ graph.linesBelow line, below.level = line.level + 1 := by
  intro below hbelow
  obtain ⟨declaration, -, site, -, rfl⟩ := mem_linesBelow_iff.mp hbelow
  rfl

private theorem nodup_name_expandedFunctions (graph : CallGraph)
    (root : TreeLine) :
    ((expandedFunctions (graph.treeFrom root)).map Declaration.name).Nodup := by
  have hkeys :
      ((Graph.expansions (graph.treeFrom root)).map TreeLine.key?).Nodup :=
    Graph.nodup_keys_expansions
  have hnames : (expandedFunctions (graph.treeFrom root)).map Declaration.name =
      ((Graph.expansions (graph.treeFrom root)).map TreeLine.key?).filterMap
        id := by
    rw [expandedFunctions, List.map_filterMap, List.filterMap_map]
    rfl
  rw [hnames]
  refine hkeys.filterMap ?_
  rintro first second name hfirst hsecond
  rw [Option.mem_def] at hfirst hsecond
  exact hfirst.trans hsecond.symm

private theorem linesBelow_of_none {graph : CallGraph} {line : TreeLine}
    (h : line.declaration = none) :
    graph.linesBelow line = [] := by
  rw [linesBelow, h]

private theorem map_call_linesBelow {graph : CallGraph} {line : TreeLine}
    {declaration : Declaration} (h : line.declaration = some declaration) :
    (graph.linesBelow line).map TreeLine.call =
      (graph.sites declaration).map fun site =>
        (site.callee, some site.line, declaration.file.path) := by
  rw [linesBelow, h, List.map_map]
  rfl

private theorem length_treeFrom (graph : CallGraph) (root : TreeLine) :
    (graph.treeFrom root).length =
      1 + ((expandedFunctions (graph.treeFrom root)).map
        fun declaration => (graph.sites declaration).length).sum := by
  have hcalls : ∀ lines : List TreeLine,
      (lines.map fun line => (graph.linesBelow line).length).sum =
      ((lines.filterMap TreeLine.declaration).map
        fun declaration => (graph.sites declaration).length).sum := by
    intro lines
    induction lines with
    | nil => rfl
    | cons line lines ih =>
        cases hline : line.declaration with
        | none => simp [hline, linesBelow_of_none hline, ih]
        | some declaration =>
            have hlength : (graph.linesBelow line).length =
                (graph.sites declaration).length := by
              simpa using congrArg List.length (map_call_linesBelow hline)
            simp [hline, hlength, ih]
  rw [expandedFunctions, ← hcalls]
  exact Graph.length_trail

private theorem key?_mem_unseen {graph : CallGraph}
    (hnamed : graph.registry.Named) {root : TreeLine}
    {visit : Graph.Visit TreeLine} (h : visit ∈ graph.treeFrom root) :
    ∀ key, visit.item.key? = some key →
      key ∈ root.key?.toList ++ graph.registry.table.keys := by
  refine Graph.trail_induction (fun line => ∀ key, line.key? = some key →
    key ∈ root.key?.toList ++ graph.registry.table.keys) ?_ ?_ visit h
  · intro line hline key hkey
    rw [List.mem_singleton.mp hline] at hkey
    exact List.mem_append_left _ (Option.mem_toList.mpr hkey)
  · intro line _ _ _ _ below hbelow key hkey
    obtain ⟨declaration, -, site, -, rfl⟩ := mem_linesBelow_iff.mp hbelow
    obtain ⟨met, hmet, rfl⟩ := Option.map_eq_some_iff.mp hkey
    simp only [Option.ite_none_right_eq_some] at hmet
    have hcontains :=
      hnamed.contains_of_mem (Registry.mem_declarations_of_lookup? hmet.2)
    exact List.mem_append_right _ (Table.contains_iff.mp hcontains)

theorem linesUnder_treeFrom {graph : CallGraph} {root : TreeLine}
    {before after : List (Graph.Visit TreeLine)} {visit : Graph.Visit TreeLine}
    (h : graph.treeFrom root = before ++ visit :: after) :
    linesUnder visit.item after = visit.followers graph.linesBelow :=
  Graph.followers_of_trail level_of_mem_linesBelow
    (List.pairwise_singleton _ _) h

theorem exists_treeFrom_cons (graph : CallGraph) (root : TreeLine) :
    ∃ expanded below, graph.treeFrom root = ⟨root, expanded⟩ :: below ∧
      ∀ visit ∈ below, root.level + 1 ≤ visit.item.level := by
  obtain ⟨expanded, left, hcons⟩ :=
    Graph.exists_trail_cons TreeLine.key? graph.linesBelow
      (root.key?.toList ++ graph.registry.table.keys) root []
  refine ⟨expanded, _, hcons, fun visit hvisit => ?_⟩
  refine Graph.le_level_of_mem_trail level_of_mem_linesBelow
    (fun line hline => ?_) hvisit
  rw [List.append_nil] at hline
  exact (Graph.level_of_mem_followers level_of_mem_linesBelow hline).ge

/-- A call tree starts with the root, which alone is on level zero, and goes
down one level at a time.  It expands each function once at most, where the
function first comes up, and has a line for the root and for every call of an
expanded function.  The lines right below the line of an expanded function are
its calls in order, with the function's own file; below other lines there are
none.

A line is what one visit writes.  If no name and no file has a line break in it,
the text has these lines and no others; a call path that is broken over two
lines gives the text further ones. -/
theorem callTree_lists_calls (files : List SourceFile) (harness : String)
    (known : Table Place Call.Resolution) (file : Option (SourceFile × Nat))
    (function : Option String) (root : TreeLine)
    (hroot : root? ⟨.build files harness, known⟩ file function = some root) :
    let graph : CallGraph := ⟨.build files harness, known⟩
    let tree := graph.callTree file function
    ((expandedFunctions tree).map Declaration.name).Nodup ∧
      tree.length = 1 + ((expandedFunctions tree).map
        fun declaration => (graph.sites declaration).length).sum ∧
      (∃ lines, tree.map Graph.Visit.item = root :: lines ∧ root.level = 0 ∧
        ∀ line ∈ lines, 1 ≤ line.level) ∧
      (∀ before first second after, tree = before ++ first :: second :: after →
        second.item.level ≤ first.item.level + 1) ∧
      (∀ before visit after, tree = before ++ visit :: after →
        (visit.expanded = true ↔ ∃ name, visit.item.key? = some name ∧
          ∀ earlier ∈ before, earlier.item.key? ≠ some name) ∧
        (visit.expanded = true → ∃ declaration,
          visit.item.declaration = some declaration ∧
          (linesUnder visit.item after).map TreeLine.call =
            (graph.sites declaration).map
            fun site => (site.callee, some site.line, declaration.file.path)) ∧
        (visit.expanded = false → linesUnder visit.item after = [])) ∧
      ((∀ visit ∈ tree, visit.item.IsUnbroken) →
        Text.split '\n' (TreeLine.renderAll tree).toList =
          tree.map (fun visit => visit.item.body) ++ [[]]) := by
  intro graph tree
  have htree : tree = graph.treeFrom root := by
    simp [tree, callTree, graph, hroot]
  have hzero : root.level = 0 := by
    obtain ⟨start, -, rfl⟩ := Option.map_eq_some_iff.mp hroot
    rfl
  rw [htree]
  refine ⟨nodup_name_expandedFunctions graph root, length_treeFrom graph root,
    ?_, ?_, ?_,
    TreeLine.split_renderAll⟩
  · obtain ⟨expanded, below, hcons, hbelow⟩ := exists_treeFrom_cons graph root
    refine ⟨below.map Graph.Visit.item, by rw [hcons, List.map_cons], hzero, ?_⟩
    intro line hline
    obtain ⟨visit, hvisit, rfl⟩ := List.mem_map.mp hline
    have := hbelow visit hvisit
    omega
  · intro before first second after h
    exact Graph.level_le_of_adjacent level_of_mem_linesBelow
      (List.pairwise_singleton _ _) h
  · intro before visit after h
    have hlisted := key?_mem_unseen (Registry.build_named files harness)
      (show visit ∈ graph.treeFrom root by simp [h])
    have hunder := linesUnder_treeFrom h
    have hexpanded := Graph.expanded_iff h
    refine ⟨?_, fun hvisit => ?_, fun hvisit => ?_⟩
    · rw [hexpanded]
      exact ⟨fun ⟨name, _, hname⟩ => ⟨name, hname⟩,
        fun ⟨name, hname⟩ => ⟨name, hlisted name hname.1, hname⟩⟩
    · obtain ⟨name, -, hname, -⟩ := hexpanded.mp hvisit
      obtain ⟨declaration, hdeclaration, -⟩ := Option.map_eq_some_iff.mp hname
      refine ⟨declaration, hdeclaration, ?_⟩
      rw [hunder, Graph.Visit.followers, if_pos hvisit,
        map_call_linesBelow hdeclaration]
    · rw [hunder, Graph.Visit.followers, hvisit]
      rfl

def macroCalls : CallGraph :=
  ⟨.build [⟨"src/lib.rs", #[], .empty,
    [{ name := "a", path := "src/lib.rs",
        events := [.call (.path "b") 10 1, .call (.path "b") 16 2] },
      { name := "b", path := "src/lib.rs",
        events := [.call (.path "a") 30 3, .invoke "m" 34 4] },
      { name := "m", path := "src/lib.rs", isMacro := true,
        events := [.call (.path "a") 50 5] }]⟩] "", .empty⟩

theorem callTree_lists_macroCalls :
    let tree := macroCalls.callTree none (some "a")
    (∃ root, macroCalls.root? none (some "a") = some root) ∧
      tree.map (fun visit => visit.item.level) = [0, 1, 2, 2, 3, 1] ∧
      tree.length = 1 + ((expandedFunctions tree).map
        fun declaration => (macroCalls.sites declaration).length).sum := by
  have hlevels : (macroCalls.callTree none (some "a")).map
      (fun visit => visit.item.level) =
      [0, 1, 2, 2, 3, 1] := by cbv
  exact ⟨⟨_, rfl⟩, hlevels,
    (callTree_lists_calls macroCalls.registry.files "" .empty none
      (some "a") _ rfl).2.1⟩

end CallGraph

end FuzzReach
