import FuzzReach.Proofs.Depth.PathRule

/-!
# Two functions that call each other

The depth of a member of a pair takes the longest exit of either member.  The
path rule counts an exit of the other member one higher than an exit of the
member itself, since the step to the other member comes before it.  The two
agree exactly if the member itself does not have the longest exit.
-/

namespace FuzzReach.Graph

variable {κ : Type}

def IsPair (calls : κ → κ → Prop) (first second : κ) : Prop :=
  first ≠ second ∧ ∀ other, Mutual calls first other ↔ other = first ∨
    other = second

private theorem le_maximum {number : Nat} {numbers : List Nat}
    (h : number ∈ numbers) :
    number ≤ maximum numbers := by
  rcases isMaximum_maximum numbers with ⟨hempty, -⟩ | hgreatest
  · exact absurd h (Set.eq_empty_iff_forall_notMem.mp hempty number)
  · exact hgreatest.2 h

theorem maximum_le_iff {numbers : List Nat} {bound : Nat} :
    maximum numbers ≤ bound ↔ ∀ number ∈ numbers, number ≤ bound := by
  refine ⟨fun h number hnumber => (le_maximum hnumber).trans h, fun h => ?_⟩
  rcases isMaximum_maximum numbers with ⟨-, hzero⟩ | hgreatest
  · omega
  · exact h _ hgreatest.1

private theorem maximum_map_le_maximum_map {nodes : List κ}
    {first second : κ → Nat} (h : ∀ node ∈ nodes, first node ≤ second node) :
    maximum (nodes.map first) ≤ maximum (nodes.map second) := by
  rw [maximum_le_iff, List.forall_mem_map]
  exact fun node hnode =>
    (h node hnode).trans (le_maximum (List.mem_map_of_mem hnode))

section Pair

variable {next : κ → List κ} {nodes : List κ} {first second : κ}

theorem IsPair.mutual (h : IsPair (Step next) first second) :
    Mutual (Step next) first second :=
  (h.2 second).mpr (.inr rfl)

theorem IsPair.symm (h : IsPair (Step next) first second) :
    IsPair (Step next) second first := by
  refine ⟨h.1.symm, fun other => ?_⟩
  rw [or_comm, ← h.2]
  exact ⟨h.mutual.trans, h.mutual.symm.trans⟩

/-- A step to another member of the group leads to the partner: there is no
third node that it could lead to. -/
theorem IsPair.step (h : IsPair (Step next) first second) :
    Step next first second := by
  obtain ⟨target, hstep, hne, hgroup⟩ := h.mutual.exists_step_ne h.1
  rcases (h.2 target).mp hgroup with rfl | rfl
  · exact absurd rfl hne
  · exact hstep

theorem IsPair.below (h : IsPair (Step next) first second) {target : κ}
    (hstep : target ∈ next first) (hfirst : target ≠ first)
    (hsecond : target ≠ second) :
    Below (Step next) target first := by
  refine below_of_exit (Mutual.refl _ _) hstep fun hmutual => ?_
  rcases (h.2 target).mp hmutual with heq | heq
  · exact hfirst heq
  · exact hsecond heq

variable [DecidableEq κ]

def pairExit (next : κ → List κ) (depth : κ → Nat) (node partner : κ) : Nat :=
  maximum (((next node).filter fun target => target ≠ node ∧
    target ≠ partner).map fun target =>
    1 + depth target)

private theorem maximum_of_step_partner {depth : κ → Nat} {count : Nat}
    (hstep : second ∈ next first) (hne : first ≠ second) (hcount : 1 ≤ count) :
    maximum ((next first).map fun target =>
        if target = first then 1 else if target = second then count
          else 1 + depth target) =
      max count (pairExit next depth first second) := by
  apply Nat.le_antisymm
  · rw [maximum_le_iff, List.forall_mem_map]
    intro target htarget
    split
    · omega
    · split
      · omega
      · next hfirst hsecond =>
          have hexit : 1 + depth target ≤ pairExit next depth first second :=
            le_maximum (List.mem_map.mpr
              ⟨target, by simp [htarget, hfirst, hsecond], rfl⟩)
          omega
  · refine Nat.max_le.mpr ⟨?_, ?_⟩
    · exact le_maximum (List.mem_map.mpr ⟨second, hstep, by simp [hne.symm]⟩)
    · rw [pairExit, maximum_le_iff, List.forall_mem_map]
      intro target htarget
      simp only [List.mem_filter, decide_eq_true_eq] at htarget
      exact le_maximum
        (List.mem_map.mpr ⟨target, htarget.1, by simp [htarget.2]⟩)

/-! ## Exits -/

/-- Behind an exit the pair does not come up again. -/
theorem IsPair.pathDepth_exit (h : IsPair (Step next) first second)
    {path : List κ} (hpath : ∀ node ∈ path, node = first ∨ node = second)
    {target : κ} (hstep : target ∈ next first) (hfirst : target ≠ first)
    (hsecond : target ≠ second) :
    pathDepth next nodes path target = pathDepth next nodes [] target := by
  apply pathDepth_of_unreached
  intro node hnode hback
  have hmutual : Mutual (Step next) first node :=
    (h.2 node).mpr (hpath node hnode)
  exact (h.below hstep hfirst hsecond).2 (hback.trans hmutual.2)

private theorem pairExit_le_pairExit {shallow deep : κ → Nat}
    (hle : ∀ target ∈ next first, target ≠ first → target ≠ second →
      shallow target ≤ deep target) :
    pairExit next shallow first second ≤ pairExit next deep first second := by
  apply maximum_map_le_maximum_map
  intro target htarget
  simp only [List.mem_filter, decide_eq_true_eq] at htarget
  have := hle target htarget.1 htarget.2.1 htarget.2.2
  omega

/-! ## Both depths -/

/-- On the way through `first`, a step from `second` back to it ends. -/
theorem IsPair.pathDepth_partner (h : IsPair (Step next) first second)
    (hnodes : ∀ node, ∀ target ∈ next node, target ∈ nodes) :
    pathDepth next nodes [first] second =
      max 1 (pairExit next (pathDepth next nodes []) second first) := by
  rw [pathDepth_eq hnodes,
    ← maximum_of_step_partner h.symm.step h.1.symm (Nat.le_refl 1)]
  congr 1
  apply List.map_congr_left
  intro target htarget
  by_cases hsecond : target = second
  · simp [hsecond]
  · by_cases hfirst : target = first
    · simp [hfirst]
    · have hpath : pathDepth next nodes [second, first] target =
          pathDepth next nodes [] target :=
        h.symm.pathDepth_exit (by simp) htarget hsecond hfirst
      simp [hfirst, hsecond, hpath]

theorem IsPair.pathDepth_eq (h : IsPair (Step next) first second)
    (hnodes : ∀ node, ∀ target ∈ next node, target ∈ nodes) :
    pathDepth next nodes [] first =
      max (1 + max 1 (pairExit next (pathDepth next nodes []) second first))
        (pairExit next (pathDepth next nodes []) first second) := by
  rw [Graph.pathDepth_eq hnodes, ← h.pathDepth_partner hnodes,
    ← maximum_of_step_partner h.step h.1 (Nat.le_add_right 1 _)]
  congr 1
  apply List.map_congr_left
  intro target htarget
  by_cases hfirst : target = first
  · simp [hfirst]
  · by_cases hsecond : target = second
    · simp [hsecond, h.1.symm]
    · have hpath : pathDepth next nodes [first] target =
          pathDepth next nodes [] target :=
        h.pathDepth_exit (by simp) htarget hfirst hsecond
      simp [hfirst, hsecond, hpath]

private theorem maximum_append (numbers others : List Nat) :
    maximum (numbers ++ others) = max (maximum numbers) (maximum others) := by
  induction numbers with
  | nil => simp [maximum]
  | cons number rest ih =>
      simp only [maximum, List.cons_append, List.foldr_cons] at ih ⊢
      rw [ih, max_assoc]

private theorem IsPair.exit_eq (h : IsPair (Step next) first second)
    {depth : κ → Nat} {exit : Nat}
    (hexit : IsMaximum (exitCounts (Step next) depth first) exit) :
    exit = max (pairExit next depth first second)
      (pairExit next depth second first) := by
  rw [pairExit, pairExit, ← maximum_append]
  refine hexit.unique ?_
  have hcounts : exitCounts (Step next) depth first = {count | count ∈
      ((next first).filter fun target => target ≠ first ∧ target ≠ second).map
          (fun target => 1 + depth target) ++
        ((next second).filter fun target => target ≠ second ∧
          target ≠ first).map (fun target => 1 + depth target)} := by
    ext count
    simp only [exitCounts, h.2, Set.mem_ofPred_eq, List.mem_append,
      List.mem_map, List.mem_filter, decide_eq_true_eq, not_or]
    constructor
    · rintro ⟨member, target, rfl | rfl, hstep, ⟨hfirst, hsecond⟩, rfl⟩
      · exact .inl ⟨target, ⟨hstep, hfirst, hsecond⟩, Nat.add_comm _ _⟩
      · exact .inr ⟨target, ⟨hstep, hsecond, hfirst⟩, Nat.add_comm _ _⟩
    · rintro (⟨target, ⟨hstep, hfirst, hsecond⟩, rfl⟩ | ⟨target,
        ⟨hstep, hsecond, hfirst⟩, rfl⟩)
      · exact ⟨first, target, .inl rfl, hstep, ⟨hfirst, hsecond⟩,
          Nat.add_comm _ _⟩
      · exact ⟨second, target, .inr rfl, hstep, ⟨hfirst, hsecond⟩,
          Nat.add_comm _ _⟩
  rw [hcounts]
  exact isMaximum_maximum _

private theorem IsPair.depth_eq (h : IsPair (Step next) first second)
    {depth : κ → Nat} (hdepth : IsDepthAt (Step next) depth first) :
    depth first =
      1 + max 1 (max (pairExit next depth first second)
        (pairExit next depth second first)) := by
  obtain ⟨exit, hexit, hfirst⟩ := hdepth.eq_maximum
  have hcounts : (next first).map (stepCount (Step next) depth exit first) =
      (next first).map fun target =>
        if target = first then 1 else if target = second then 1 + max 1 exit
        else 1 + depth target := by
    apply List.map_congr_left
    intro target _
    by_cases heq : target = first
    · simp [stepCount, heq]
    · simp [stepCount, heq, h.2, Nat.add_comm]
  rw [hfirst, hcounts,
    maximum_of_step_partner h.step h.1 (Nat.le_add_right 1 _), h.exit_eq hexit]
  omega

/-! ## Comparing them -/

private theorem pathDepth_le_depth
    (hnodes : ∀ node, ∀ target ∈ next node, target ∈ nodes)
    {inside : Set κ} (hfinite : inside.Finite)
    (hclosed : ∀ node ∈ inside, ∀ target, Step next node target →
      target ∈ inside)
    {depth : κ → Nat}
    (hdepth : ∀ node ∈ inside, IsDepthAt (Step next) depth node)
    (hpairs : ∀ node ∈ inside,
      Alone (Step next) node ∨ ∃ partner, IsPair (Step next) node partner) :
    ∀ node ∈ inside, pathDepth next nodes [] node ≤ depth node := by
  refine below_induction hfinite hclosed fun node hnode hbelow => ?_
  rcases hpairs node hnode with halone | ⟨partner, hpair⟩
  · rw [(hdepth node hnode).eq_of_alone halone,
      pathDepth_of_alone hnodes halone]
    apply maximum_map_le_maximum_map
    intro target htarget
    by_cases hself : target = node
    · simp [hself]
    · have houtside : ¬Mutual (Step next) node target := fun hmutual =>
        hself (halone target hmutual)
      have := hbelow target (below_of_exit (Mutual.refl _ _) htarget houtside)
      simp only [hself, if_false]
      omega
  · rw [hpair.depth_eq (hdepth node hnode), hpair.pathDepth_eq hnodes]
    have hown : pairExit next (pathDepth next nodes []) node partner ≤
        pairExit next depth node partner :=
      pairExit_le_pairExit fun target hstep hfirst hsecond =>
        hbelow target (hpair.below hstep hfirst hsecond)
    have hother : pairExit next (pathDepth next nodes []) partner node ≤
        pairExit next depth partner node := by
      apply pairExit_le_pairExit
      intro target hstep hfirst hsecond
      have hexit := hpair.symm.below hstep hfirst hsecond
      exact hbelow target ⟨hpair.mutual.1.trans hexit.1, fun hback =>
        hexit.2 (hback.trans hpair.mutual.1)⟩
    omega

end Pair

end FuzzReach.Graph

namespace FuzzReach.CallGraph

def pairExit (graph : CallGraph) (depth : String → Nat)
    (member partner : String) : Nat :=
  Graph.pairExit (nextIn graph.adjacency) depth member partner

/-- No three functions lead to each other. -/
def RecursesInPairs (graph : CallGraph) : Prop :=
  ∀ first second third, Graph.Mutual graph.Calls first second →
    Graph.Mutual graph.Calls first third → first = second ∨ first = third ∨
      second = third

private theorem RecursesInPairs.isPair {graph : CallGraph}
    (h : graph.RecursesInPairs) {first second : String} (hne : first ≠ second)
    (hmutual : Graph.Mutual graph.Calls first second) :
    Graph.IsPair graph.Calls first second := by
  refine ⟨hne, fun other => ⟨fun hother => ?_, ?_⟩⟩
  · rcases h first second other hmutual hother with heq | heq | heq
    · exact absurd heq hne
    · exact .inl heq.symm
    · exact .inr heq.symm
  · rintro (rfl | rfl)
    · exact Graph.Mutual.refl _ _
    · exact hmutual

private theorem RecursesInPairs.alone_or_isPair {graph : CallGraph}
    (h : graph.RecursesInPairs) (name : String) :
    Graph.Alone graph.Calls name ∨ ∃ partner,
      Graph.IsPair graph.Calls name partner := by
  by_cases halone : Graph.Alone graph.Calls name
  · exact .inl halone
  · simp only [Graph.Alone, not_forall] at halone
    obtain ⟨partner, hmutual, hne⟩ := halone
    exact .inr ⟨partner, h.isPair (Ne.symm hne) hmutual⟩

private theorem RecursesInPairs.pathDepth_le {graph : CallGraph}
    (hnamed : graph.registry.Named) (h : graph.RecursesInPairs) {name : String}
    (hname : graph.registry.table.contains name = true) :
    graph.pathDepth [] name ≤ graph.depth name := by
  refine Graph.pathDepth_le_depth
    (fun name _ => mem_keys_of_mem_nextIn hnamed name)
    graph.finite_registered ?_ ?_ ?_ name hname
  · intro name hname target hstep
    exact mem_nextIn_adjacency.mp hstep |>.contains hnamed
  · intro name hname
    rw [step_nextIn_eq_calls]
    exact isDepthAt_depth hnamed hname
  · intro name _
    rw [step_nextIn_eq_calls]
    exact h.alone_or_isPair name

/-- Where no three functions lead to each other, a function that leads to
another one and back has at least the depth of the path rule.  It has exactly
that depth if its own longest exit is not longer than one and than that of the
other function, and if the path rule does not shorten the longest exit of the
other function. -/
theorem pair_depth_eq_pathDepth_iff (files : List SourceFile) (harness : String)
    (known : Table Place Call.Resolution) :
    let graph : CallGraph := ⟨.build files harness, known⟩
    graph.RecursesInPairs → ∀ first second, first ≠ second →
      Graph.Mutual graph.Calls first second →
      graph.pathDepth [] first ≤ graph.depth first ∧
      (graph.depth first = graph.pathDepth [] first ↔
        graph.pairExit graph.depth first second ≤
          max 1 (graph.pairExit graph.depth second first) ∧
        max 1 (graph.pairExit (graph.pathDepth []) second first) =
          max 1 (graph.pairExit graph.depth second first)) := by
  intro graph hpairs first second hne hmutual
  have hnamed : graph.registry.Named := Registry.build_named files harness
  have hnodes : ∀ name, ∀ callee ∈ nextIn graph.adjacency name,
      callee ∈ graph.adjacency.keys :=
    fun name _ => mem_keys_of_mem_nextIn hnamed name
  have hexit : ∀ member partner,
      graph.pairExit (graph.pathDepth []) member partner ≤
      graph.pairExit graph.depth member partner := fun member partner =>
    Graph.pairExit_le_pairExit fun callee hcallee _ _ =>
      hpairs.pathDepth_le hnamed
        ((mem_nextIn_adjacency.mp hcallee).contains hnamed)
  obtain ⟨callee, hcalls⟩ := hmutual.exists_step hne
  have hname : graph.registry.table.contains first = true :=
    hcalls.contains_caller
  have hpair := hpairs.isPair hne hmutual
  have hdepth := isDepthAt_depth hnamed hname
  rw [← step_nextIn_eq_calls] at hpair hdepth
  have hgroup : graph.depth first =
      1 + max 1 (max (graph.pairExit graph.depth first second)
      (graph.pairExit graph.depth second first)) := hpair.depth_eq hdepth
  have hrule : graph.pathDepth [] first =
      max (1 + max 1 (graph.pairExit (graph.pathDepth []) second first))
        (graph.pairExit (graph.pathDepth []) first second) :=
          hpair.pathDepth_eq hnodes
  have hown := hexit first second
  have hother := hexit second first
  rw [hgroup, hrule]
  omega

def exitChain : CallGraph :=
  ⟨.build [⟨"src/lib.rs", #[], .empty,
    [{ name := "y", path := "src/lib.rs" },
      { name := "x", path := "src/lib.rs", events := [.call (.path "y") 20 2] },
      { name := "b", path := "src/lib.rs",
        events := [.call (.path "a") 40 3, .call (.path "x") 50 3] },
      { name := "a", path := "src/lib.rs",
        events := [.call (.path "b") 60 4] }]⟩] "", .empty⟩

theorem edges_exitChain :
    exitChain.edges = [("x", "y"), ("b", "a"), ("b", "x"), ("a", "b")] := by cbv

private theorem recursesInPairs_exitChain : exitChain.RecursesInPairs := by
  have hmembers : ∀ first second, Graph.Mutual exitChain.Calls first second →
      first ≠ second →
      first ∈ ["a", "b"] ∧ second ∈ ["a", "b"] := by
    intro first second hmutual hne
    obtain ⟨hfirst, hsecond, hsame⟩ := mutual_of_edges edges_exitChain
      (fun name => if name ∈ ["a", "b"] then 2 else ["y", "x"].idxOf name)
        (by decide) hmutual hne
    simp only [List.map_cons, List.map_nil, List.mem_cons, List.not_mem_nil,
      or_false]
      at hfirst hsecond
    grind
  intro first second third hsecond hthird
  by_contra! hne
  have := hmembers first second hsecond hne.1
  have := hmembers first third hthird hne.2.1
  grind

theorem mutual_exitChain : Graph.Mutual exitChain.Calls "a" "b" := by
  constructor
  · exact .single (mem_edges_iff.mp (by simp [edges_exitChain]))
  · exact .single (mem_edges_iff.mp (by simp [edges_exitChain]))

theorem pair_depth_exitChain :
    exitChain.RecursesInPairs ∧ "a" ≠ "b" ∧
      Graph.Mutual exitChain.Calls "a" "b" ∧
      exitChain.depth "a" = 3 ∧
      exitChain.depth "a" = exitChain.pathDepth [] "a" := by
  have hown : exitChain.pairExit exitChain.depth "a" "b" = 0 := by cbv
  have hother : exitChain.pairExit exitChain.depth "b" "a" = 2 := by cbv
  have hrule : exitChain.pairExit (exitChain.pathDepth []) "b" "a" = 2 := by cbv
  have hagree : exitChain.depth "a" = exitChain.pathDepth [] "a" ↔
      exitChain.pairExit exitChain.depth "a" "b" ≤
        max 1 (exitChain.pairExit exitChain.depth "b" "a") ∧
      max 1 (exitChain.pairExit (exitChain.pathDepth []) "b" "a") =
        max 1 (exitChain.pairExit exitChain.depth "b" "a") :=
    (pair_depth_eq_pathDepth_iff exitChain.registry.files "" .empty
      recursesInPairs_exitChain
      "a" "b" (by decide) mutual_exitChain).2
  rw [hown, hother, hrule] at hagree
  exact ⟨recursesInPairs_exitChain, by decide, mutual_exitChain, by cbv,
    hagree.mpr (by decide)⟩

/-- The function with the longer exit of its own is one deeper than the path
rule says. -/
theorem pair_depth_ne_exitChain :
    exitChain.RecursesInPairs ∧ "b" ≠ "a" ∧
      Graph.Mutual exitChain.Calls "b" "a" ∧
      exitChain.depth "b" = 3 ∧ exitChain.pathDepth [] "b" = 2 :=
  ⟨recursesInPairs_exitChain, by decide, mutual_exitChain.symm, by cbv, by cbv⟩

end FuzzReach.CallGraph
