import FuzzReach.Graph.Depth
import FuzzReach.Proofs.Depth.Equation
import FuzzReach.Proofs.Table
import FuzzReach.Proofs.Trail
import Mathlib.Data.Finset.Card

/-!
# Settled depths solve the depth equations

Between two queries the settled nodes are closed under steps and their depths
solve the depth equations.  Settling a group keeps this, provided that the group
is a whole group and that everything it calls outside itself is settled.  The
groups below a root come in such an order.
-/

namespace FuzzReach.Graph

variable {κ : Type} [DecidableEq κ]

def Step (next : κ → List κ) (source target : κ) : Prop :=
  target ∈ next source

structure Settled (next : κ → List κ) (settled : Table κ Nat) : Prop where
  closed : ∀ node, settled.contains node = true →
    ∀ target ∈ next node, settled.contains target = true
  isDepth : ∀ node, settled.contains node = true →
    IsDepthAt (Step next) (depthIn settled) node

/-- The members are all nodes that reach each other with one of them. -/
def IsGroup (next : κ → List κ) (members : List κ) : Prop :=
  ∃ node ∈ members, ∀ other, other ∈ members ↔ Mutual (Step next) node other

/-- Everything that the members call outside their group is settled. -/
def Grounded (next : κ → List κ) (settled : Table κ Nat)
    (members : List κ) : Prop :=
  ∀ node ∈ members, ∀ target ∈ next node, target ∉ members →
    settled.contains target = true

/-! ## Settled nodes -/

omit [DecidableEq κ] in
theorem IsGroup.mem_iff {next : κ → List κ} {members : List κ}
    (h : IsGroup next members) {node : κ} (hnode : node ∈ members) (other : κ) :
    other ∈ members ↔ Mutual (Step next) node other := by
  obtain ⟨first, -, hmembers⟩ := h
  have hfirst := (hmembers node).mp hnode
  rw [hmembers]
  exact ⟨fun hother => hfirst.symm.trans hother,
    fun hother => hfirst.trans hother⟩

theorem Settled.empty (next : κ → List κ) : Settled next .empty := by
  constructor
  · intro node h
    simp at h
  · intro node h
    simp at h

theorem Settled.contains_of_reaches {next : κ → List κ} {settled : Table κ Nat}
    (h : Settled next settled) {node other : κ}
    (hnode : settled.contains node = true)
    (hpath : Relation.ReflTransGen (Step next) node other) :
    settled.contains other = true :=
  mem_of_reflTransGen {node | settled.contains node = true} h.closed hnode hpath

theorem Settled.agree {next : κ → List κ} {first second : Table κ Nat}
    (hfirst : Settled next first) (hsecond : Settled next second) {node : κ}
    (h : first.contains node = true) (h' : second.contains node = true) :
    depthIn first node = depthIn second node := by
  let inside : Set κ :=
    {node | first.contains node = true ∧ second.contains node = true}
  have hfinite : inside.Finite := by
    refine first.keys.finite_toSet.subset fun node hnode => ?_
    exact Table.contains_iff.mp hnode.1
  have hclosed : ∀ node ∈ inside, ∀ target, Step next node target →
      target ∈ inside :=
    fun node hnode target hstep =>
      ⟨hfirst.closed node hnode.1 target hstep,
        hsecond.closed node hnode.2 target hstep⟩
  exact depth_unique hfinite hclosed
    (fun node hnode => hfirst.isDepth node hnode.1)
    (fun node hnode => hsecond.isDepth node hnode.2) node ⟨h, h'⟩

/-! ## Settling one group -/

theorem isMaximum_maximum (numbers : List Nat) :
    IsMaximum {number | number ∈ numbers} (maximum numbers) := by
  induction numbers with
  | nil => exact Or.inl ⟨by simp, rfl⟩
  | cons number rest ih =>
      right
      have hvalue : maximum (number :: rest) = max number (maximum rest) := rfl
      rw [hvalue]
      constructor
      · rcases Nat.le_total number (maximum rest) with h | h
        · rw [max_eq_right h]
          rcases ih with ⟨-, hzero⟩ | hgreatest
          · have hnumber : maximum rest = number := by omega
            simp [hnumber]
          · exact List.mem_cons_of_mem _ hgreatest.1
        · rw [max_eq_left h]
          exact List.mem_cons_self
      · intro other hother
        rcases List.mem_cons.mp hother with rfl | hother
        · exact le_max_left _ _
        · rcases ih with ⟨hempty, -⟩ | hgreatest
          · have : other ∈ ({number | number ∈ rest} : Set Nat) := hother
            rw [hempty] at this
            exact absurd this (Set.notMem_empty _)
          · exact (hgreatest.2 hother).trans (le_max_right _ _)

private theorem below_eq {settled : Table κ Nat} {target : κ}
    (h : settled.contains target = true) :
    below settled target = depthIn settled target + 1 := by
  obtain ⟨depth, hdepth⟩ := Option.isSome_iff_exists.mp h
  simp [below, depthIn, hdepth]

section Group

variable {next : κ → List κ} {settled : Table κ Nat} {members : List κ}

private theorem get?_settleGroup (hfresh : members.any settled.contains = false)
    (node : κ) :
    (settleGroup next settled members).get? node =
      if node ∈ members then
        some (maximum ((next node).map
          (stepDepth settled members (exit next settled members) node)))
      else settled.get? node := by
  rw [settleGroup, hfresh]
  exact Table.get?_insertAll_map settled members _ node

private theorem contains_settleGroup
    (hfresh : members.any settled.contains = false) (node : κ) :
    (settleGroup next settled members).contains node = true ↔
      settled.contains node = true ∨ node ∈ members := by
  rw [Table.contains, get?_settleGroup hfresh]
  by_cases h : node ∈ members
  · simp [h]
  · simp [h, Table.contains]

private theorem depthIn_settleGroup_of_notMem
    (hfresh : members.any settled.contains = false) {node : κ}
    (h : node ∉ members) :
    depthIn (settleGroup next settled members) node = depthIn settled node := by
  simp [depthIn, get?_settleGroup hfresh, h]

private theorem depthIn_settleGroup_of_mem
    (hfresh : members.any settled.contains = false) {node : κ}
    (h : node ∈ members) :
    depthIn (settleGroup next settled members) node =
      maximum ((next node).map
        (stepDepth settled members (exit next settled members) node)) := by
  simp [depthIn, get?_settleGroup hfresh, h]

variable {depth : κ → Nat} {node : κ}

private theorem isMaximum_exit (hgroup : IsGroup next members)
    (hground : Grounded next settled members)
    (houtside : ∀ target ∉ members, depth target = depthIn settled target)
    (hnode : node ∈ members) :
    IsMaximum (exitCounts (Step next) depth node)
      (exit next settled members) := by
  have hcounts : exitCounts (Step next) depth node =
      {count | count ∈ ((members.flatMap next).filter (· ∉ members)).map
        (below settled)} := by
    ext count
    simp only [exitCounts, Set.mem_ofPred_eq, List.mem_map, List.mem_filter,
      List.mem_flatMap, decide_eq_true_eq]
    constructor
    · rintro ⟨member, target, hmember, hstep, hexit, rfl⟩
      rw [← hgroup.mem_iff hnode] at hmember hexit
      refine ⟨target, ⟨⟨member, hmember, hstep⟩, hexit⟩, ?_⟩
      rw [below_eq (hground member hmember target hstep hexit),
        houtside target hexit]
    · rintro ⟨target, ⟨⟨member, hmember, hstep⟩, hexit⟩, rfl⟩
      refine ⟨member, target, (hgroup.mem_iff hnode member).mp hmember,
        hstep, ?_, ?_⟩
      · rwa [← hgroup.mem_iff hnode]
      · rw [below_eq (hground member hmember target hstep hexit),
          houtside target hexit]
  rw [hcounts]
  exact isMaximum_maximum _

private theorem stepDepth_eq_stepCount (hgroup : IsGroup next members)
    (hground : Grounded next settled members)
    (houtside : ∀ target ∉ members, depth target = depthIn settled target)
    (hnode : node ∈ members) {target : κ} (htarget : target ∈ next node)
    (exit : Nat) :
    stepDepth settled members exit node target =
      stepCount (Step next) depth exit node target := by
  unfold stepDepth stepCount
  by_cases hself : target = node
  · simp [hself]
  · by_cases hmember : target ∈ members
    · have hmutual := (hgroup.mem_iff hnode target).mp hmember
      simp [hself, hmember, hmutual, max_comm]
    · have hmutual : ¬Mutual (Step next) node target := by
        rwa [← hgroup.mem_iff hnode]
      simp [hself, hmember, hmutual, below_eq
        (hground node hnode target htarget hmember), houtside target hmember]

private theorem isMaximum_stepDepth (hgroup : IsGroup next members)
    (hground : Grounded next settled members)
    (houtside : ∀ target ∉ members, depth target = depthIn settled target)
    (hnode : node ∈ members) (exit : Nat) :
    IsMaximum (stepCounts (Step next) depth exit node)
      (maximum ((next node).map (stepDepth settled members exit node))) := by
  have hcounts : stepCounts (Step next) depth exit node =
      {count | count ∈
        (next node).map (stepDepth settled members exit node)} := by
    ext count
    simp only [stepCounts, Set.mem_ofPred_eq, List.mem_map]
    constructor
    · rintro ⟨target, htarget, rfl⟩
      exact ⟨target, htarget,
        stepDepth_eq_stepCount hgroup hground houtside hnode htarget exit⟩
    · rintro ⟨target, htarget, rfl⟩
      exact ⟨target, htarget,
        stepDepth_eq_stepCount hgroup hground houtside hnode htarget exit⟩
  rw [hcounts]
  exact isMaximum_maximum _

private theorem Settled.contains_of_any (hsettled : Settled next settled)
    (hgroup : IsGroup next members)
    (hany : members.any settled.contains = true) :
    ∀ node ∈ members, settled.contains node = true := by
  intro node hnode
  obtain ⟨member, hmember, hcontains⟩ := List.any_eq_true.mp hany
  have hmutual := (hgroup.mem_iff hmember node).mp hnode
  exact hsettled.contains_of_reaches hcontains hmutual.1

private theorem settled_settleGroup_of_fresh (hsettled : Settled next settled)
    (hgroup : IsGroup next members) (hground : Grounded next settled members)
    (hfresh : members.any settled.contains = false) :
    Settled next (settleGroup next settled members) := by
  have hold : ∀ node, settled.contains node = true → node ∉ members := by
    intro node hnode hmember
    have hany : members.any settled.contains = true :=
      List.any_eq_true.mpr ⟨node, hmember, hnode⟩
    rw [hfresh] at hany
    cases hany
  have houtside : ∀ target ∉ members,
      depthIn (settleGroup next settled members) target =
        depthIn settled target :=
    fun target htarget => depthIn_settleGroup_of_notMem hfresh htarget
  constructor
  · intro node hnode target htarget
    rw [contains_settleGroup hfresh] at hnode ⊢
    by_cases hmember : target ∈ members
    · exact Or.inr hmember
    · rcases hnode with hnode | hnode
      · exact Or.inl (hsettled.closed node hnode target htarget)
      · exact Or.inl (hground node hnode target htarget hmember)
  · intro node hnode
    rcases (contains_settleGroup hfresh node).mp hnode with hnode | hnode
    · refine (hsettled.isDepth node hnode).congr
        (houtside node (hold node hnode)).symm ?_
      intro other hother
      have hother := hsettled.contains_of_reaches hnode hother.1
      exact (houtside other (hold other hother)).symm
    · refine ⟨exit next settled members,
        isMaximum_exit hgroup hground houtside hnode, ?_⟩
      rw [depthIn_settleGroup_of_mem hfresh hnode]
      exact isMaximum_stepDepth hgroup hground houtside hnode _

theorem settleGroup_spec (hsettled : Settled next settled)
    (hgroup : IsGroup next members) (hground : Grounded next settled members) :
    Settled next (settleGroup next settled members) ∧
      ∀ node, (settleGroup next settled members).contains node = true ↔
        settled.contains node = true ∨ node ∈ members := by
  cases hany : members.any settled.contains with
  | true =>
      have hsame : settleGroup next settled members = settled := by
        simp [settleGroup, hany]
      rw [hsame]
      refine ⟨hsettled, fun node => ⟨Or.inl, ?_⟩⟩
      rintro (hnode | hnode)
      · exact hnode
      · exact hsettled.contains_of_any hgroup hany node hnode
  | false =>
      exact ⟨settled_settleGroup_of_fresh hsettled hgroup hground hany,
        contains_settleGroup hany⟩

end Group

/-! ## Settling groups in order -/

/-- The groups of some nodes, each after everything that it calls outside
itself. -/
structure CalleesFirst (next : κ → List κ) (nodes : List κ)
    (groups : List (List κ)) : Prop where
  isGroup : ∀ members ∈ groups, IsGroup next members
  inside : ∀ members ∈ groups, ∀ node ∈ members, node ∈ nodes
  covers : ∀ node ∈ nodes, ∃ members ∈ groups, node ∈ members
  earlier : ∀ before members after, groups = before ++ members :: after →
    ∀ node ∈ members, ∀ target ∈ next node, target ∈ nodes → target ∉ members →
      ∃ other ∈ before, target ∈ other

structure Unsettled (next : κ → List κ) (settled : Table κ Nat)
    (nodes : List κ) : Prop where
  fresh : ∀ node ∈ nodes, settled.contains node = false
  closed : ∀ node ∈ nodes, ∀ target ∈ next node,
    target ∈ nodes ∨ settled.contains target = true

section Order

variable {next : κ → List κ} {settled : Table κ Nat} {nodes : List κ}
  {groups : List (List κ)}

private theorem grounded_of_calleesFirst
    (hgroups : CalleesFirst next nodes groups)
    (hnodes : Unsettled next settled nodes) {before after : List (List κ)}
    {members : List κ}
    (heq : groups = before ++ members :: after) {known : Table κ Nat}
    (hknown : ∀ node, known.contains node = true ↔
      settled.contains node = true ∨ ∃ other ∈ before, node ∈ other) :
    Grounded next known members := by
  intro node hnode target htarget houtside
  have hmembers : members ∈ groups := by simp [heq]
  rw [hknown]
  have hmem := hgroups.inside members hmembers node hnode
  rcases hnodes.closed node hmem target htarget with hinside | hsettled
  · exact Or.inr
      (hgroups.earlier before members after heq node hnode target htarget
        hinside houtside)
  · exact Or.inl hsettled

/-- After every part of the groups, exactly their members are settled besides
the old nodes. -/
theorem foldl_settleGroup_spec (hgroups : CalleesFirst next nodes groups)
    (hsettled : Settled next settled) (hnodes : Unsettled next settled nodes)
    (before after : List (List κ)) (heq : groups = before ++ after) :
    Settled next (before.foldl (settleGroup next) settled) ∧
      ∀ node, (before.foldl (settleGroup next) settled).contains node = true ↔
        settled.contains node = true ∨ ∃ members ∈ before, node ∈ members := by
  induction before using List.reverseRecOn generalizing after with
  | nil => simpa using hsettled
  | append_singleton before members ih =>
      have heq' : groups = before ++ members :: after := by simpa using heq
      obtain ⟨hbefore, hcontains⟩ := ih (members :: after) heq'
      have hground := grounded_of_calleesFirst hgroups hnodes heq' hcontains
      have hgroup := hgroups.isGroup members (by simp [heq'])
      obtain ⟨hafter, hmembers⟩ := settleGroup_spec hbefore hgroup hground
      rw [List.foldl_append, List.foldl_cons, List.foldl_nil]
      refine ⟨hafter, fun node => ?_⟩
      rw [hmembers, hcontains]
      simp only [List.mem_append, List.mem_singleton, or_assoc, exists_or,
        or_and_right, exists_eq_left]

theorem grounded_foldl_settleGroup (hgroups : CalleesFirst next nodes groups)
    (hsettled : Settled next settled) (hnodes : Unsettled next settled nodes)
    {before after : List (List κ)} {members : List κ}
    (heq : groups = before ++ members :: after) :
    Grounded next (before.foldl (settleGroup next) settled) members :=
  grounded_of_calleesFirst hgroups hnodes heq
    (foldl_settleGroup_spec hgroups hsettled hnodes before _ heq).2

end Order

/-! ## The groups below a root -/

section Root

variable {next : κ → List κ} {settled : Table κ Nat} {nodes : List κ}

theorem unsettled_spec
    (hnodes : ∀ node ∈ nodes, ∀ target ∈ next node, target ∈ nodes)
    (settled : Table κ Nat) (root : κ) :
    Unsettled next settled (unsettled next nodes settled root) := by
  have hmem : ∀ node, node ∈ nodes.filter (fun node => !settled.contains node) ↔
      node ∈ nodes ∧ settled.contains node = false := by simp
  constructor
  · intro node hnode
    exact ((hmem node).mp (reach_subset hnode)).2
  · intro node hnode target htarget
    obtain ⟨hroot, hpath⟩ := mem_reach_iff.mp hnode
    cases hcontains : settled.contains target with
    | true => exact Or.inr rfl
    | false =>
        left
        have hinside := (hmem node).mp (reach_subset hnode)
        refine mem_reach_iff.mpr ⟨hroot, hpath.tail ⟨htarget, ?_⟩⟩
        exact (hmem target).mpr
          ⟨hnodes node hinside.1 target htarget, hcontains⟩

private theorem mem_unsettled_root {root : κ} (hroot : root ∈ nodes)
    (hfresh : settled.contains root = false) :
    root ∈ unsettled next nodes settled root := by
  refine mem_reach_iff.mpr ⟨?_, .refl⟩
  simp [hroot, hfresh]

/-- Among unsettled nodes, reaching within them is reaching at all: no path
comes back from a settled node. -/
theorem mem_reach_unsettled_iff (hsettled : Settled next settled)
    (hnodes : Unsettled next settled nodes) {node other : κ}
    (hnode : node ∈ nodes) :
    other ∈ reach next nodes node ↔
      Relation.ReflTransGen (Step next) node other ∧
      settled.contains other = false := by
  constructor
  · intro h
    refine ⟨?_, hnodes.fresh other (reach_subset h)⟩
    have hsub : ∀ source target, StepWithin next nodes source target →
        Step next source target :=
      fun _ _ hstep => hstep.1
    exact Relation.ReflTransGen.mono hsub _ _ (mem_reach_iff.mp h).2
  · rintro ⟨hpath, hother⟩
    induction hpath with
    | refl => exact mem_reach_iff.mpr ⟨hnode, .refl⟩
    | @tail middle last _ hstep ih =>
        -- Steps from settled nodes stay settled, so the path is unsettled up to
        -- here.
        have hmiddle : settled.contains middle = false := by
          rw [Bool.eq_false_iff]
          intro hcontains
          rw [hsettled.closed middle hcontains last hstep] at hother
          cases hother
        have hreach := ih hmiddle
        rcases hnodes.closed middle (reach_subset hreach) last hstep with
          hlast | hlast
        · obtain ⟨-, hwithin⟩ := mem_reach_iff.mp hreach
          exact mem_reach_iff.mpr ⟨hnode, hwithin.tail ⟨hstep, hlast⟩⟩
        · rw [hother] at hlast
          cases hlast

theorem mem_byReach_iff {pair : κ × List κ} :
    pair ∈ byReach next nodes ↔ ∃ node ∈ nodes,
      (node, reach next nodes node) = pair := by
  simp [byReach]

private theorem byReach_pairwise (next : κ → List κ) (nodes : List κ) :
    (byReach next nodes).Pairwise fun first second =>
      first.2.length ≤ second.2.length := by
  have hsorted : (byReach next nodes).Pairwise fun first second =>
      decide (first.2.length ≤ second.2.length) = true := by
    apply List.pairwise_mergeSort
    · intro first second third h h'
      simp only [decide_eq_true_eq] at h h' ⊢
      omega
    · intro first second
      simp only [Bool.or_eq_true, decide_eq_true_eq]
      omega
  exact hsorted.imp fun h => by simpa using h

theorem mem_group_iff (hsettled : Settled next settled)
    (hnodes : Unsettled next settled nodes) {node other : κ}
    (hnode : node ∈ nodes) :
    other ∈ group (byReach next nodes) (node, reach next nodes node) ↔
      Mutual (Step next) node other := by
  have hmem : other ∈ group (byReach next nodes) (node, reach next nodes node) ↔
      other ∈ nodes ∧ other ∈ reach next nodes node ∧
        node ∈ reach next nodes other := by
    simp [group, mem_byReach_iff]
  rw [hmem]
  constructor
  · rintro ⟨hother, hforth, hback⟩
    exact ⟨((mem_reach_unsettled_iff hsettled hnodes hnode).mp hforth).1,
      ((mem_reach_unsettled_iff hsettled hnodes hother).mp hback).1⟩
  · rintro ⟨hforth, hback⟩
    have hfresh := hnodes.fresh node hnode
    have hcontains : settled.contains other = false := by
      rw [Bool.eq_false_iff]
      intro hcontains
      rw [hsettled.contains_of_reaches hcontains hback] at hfresh
      cases hfresh
    have hreach :=
      (mem_reach_unsettled_iff hsettled hnodes hnode).mpr ⟨hforth, hcontains⟩
    have hother := reach_subset hreach
    exact ⟨hother, hreach,
      (mem_reach_unsettled_iff hsettled hnodes hother).mpr ⟨hback, hfresh⟩⟩

private theorem length_reach_lt (hsettled : Settled next settled)
    (hnodes : Unsettled next settled nodes) {node target : κ}
    (hnode : node ∈ nodes) (htarget : target ∈ nodes)
    (hbelow : Below (Step next) target node) :
    (reach next nodes target).length < (reach next nodes node).length := by
  have hlength : ∀ start : κ, (reach next nodes start).length =
      (reach next nodes start).toFinset.card := fun start =>
    (List.toFinset_card_of_nodup nodup_reach).symm
  rw [hlength, hlength]
  apply Finset.card_lt_card
  rw [Finset.ssubset_iff_of_subset]
  · refine ⟨node, ?_, ?_⟩
    · rw [List.mem_toFinset]
      exact mem_reach_iff.mpr ⟨hnode, .refl⟩
    · rw [List.mem_toFinset, mem_reach_unsettled_iff hsettled hnodes htarget]
      exact fun hback => hbelow.2 hback.1
  · intro other hother
    rw [List.mem_toFinset,
      mem_reach_unsettled_iff hsettled hnodes htarget] at hother
    rw [List.mem_toFinset, mem_reach_unsettled_iff hsettled hnodes hnode]
    exact ⟨hbelow.1.trans hother.1, hother.2⟩

theorem mem_groups_iff {members : List κ} : members ∈ groups next nodes ↔
    ∃ node ∈ nodes,
      group (byReach next nodes) (node, reach next nodes node) = members := by
  simp only [groups, List.mem_map, mem_byReach_iff]
  constructor
  · rintro ⟨pair, ⟨node, hnode, rfl⟩, rfl⟩
    exact ⟨node, hnode, rfl⟩
  · rintro ⟨node, hnode, rfl⟩
    exact ⟨_, ⟨node, hnode, rfl⟩, rfl⟩

private theorem mem_before_of_length_lt {before after : List (κ × List κ)}
    {pair other : κ × List κ}
    (hlist : byReach next nodes = before ++ pair :: after)
    (hother : other ∈ byReach next nodes)
    (hshorter : other.2.length < pair.2.length) : other ∈ before := by
  have hsorted := byReach_pairwise next nodes
  rw [hlist, List.pairwise_append, List.pairwise_cons] at hsorted
  rw [hlist] at hother
  rcases List.mem_append.mp hother with h | h
  · exact h
  · rcases List.mem_cons.mp h with rfl | h
    · omega
    · have hlonger := hsorted.2.1.1 _ h
      omega

private theorem groups_calleesFirst (hsettled : Settled next settled)
    (hnodes : Unsettled next settled nodes) :
    CalleesFirst next nodes (groups next nodes) := by
  constructor
  · intro members hmembers
    obtain ⟨node, hnode, rfl⟩ := mem_groups_iff.mp hmembers
    exact ⟨node, (mem_group_iff hsettled hnodes hnode).mpr (Mutual.refl _ _),
      fun other => mem_group_iff hsettled hnodes hnode⟩
  · intro members hmembers other hother
    obtain ⟨node, hnode, rfl⟩ := mem_groups_iff.mp hmembers
    obtain ⟨pair, hpair, rfl⟩ := List.mem_map.mp hother
    obtain ⟨found, hfound, rfl⟩ :=
      mem_byReach_iff.mp (List.mem_filter.mp hpair).1
    exact hfound
  · intro node hnode
    exact ⟨_, mem_groups_iff.mpr ⟨node, hnode, rfl⟩,
      (mem_group_iff hsettled hnodes hnode).mpr (Mutual.refl _ _)⟩
  · intro before members after heq member hmember target htarget hinside
      houtside
    obtain ⟨first, rest, hall, rfl, hrest⟩ := List.map_eq_append_iff.mp heq
    obtain ⟨pair, last, rfl, rfl, rfl⟩ := List.map_eq_cons_iff.mp hrest
    obtain ⟨node, hnode, rfl⟩ :=
      mem_byReach_iff.mp (show pair ∈ byReach next nodes by simp [hall])
    have hmutual := (mem_group_iff hsettled hnodes hnode).mp hmember
    have hbelow : Below (Step next) target node := by
      refine below_of_exit hmutual htarget ?_
      rwa [← mem_group_iff hsettled hnodes hnode]
    have hshorter := length_reach_lt hsettled hnodes hnode hinside hbelow
    have hfirst : (target, reach next nodes target) ∈ first :=
      mem_before_of_length_lt hall (mem_byReach_iff.mpr ⟨target, hinside, rfl⟩)
        hshorter
    refine ⟨_, List.mem_map_of_mem hfirst, ?_⟩
    exact (mem_group_iff hsettled hnodes hinside).mpr (Mutual.refl _ _)

/-! ## Settling a root -/

/-- The groups of nodes are listed callees first whenever the nodes are to be
settled next. -/
def ListsGroups (next : κ → List κ) (listing : List κ → List (List κ)) : Prop :=
  ∀ settled nodes, Settled next settled → Unsettled next settled nodes →
    CalleesFirst next nodes (listing nodes)

theorem listsGroups_groups (next : κ → List κ) :
    ListsGroups next (groups next) :=
  fun _ _ => groups_calleesFirst

def settleBy (listing : List κ → List (List κ)) (next : κ → List κ)
    (nodes : List κ) (settled : Table κ Nat) (root : κ) : Table κ Nat :=
  if settled.contains root then settled
  else (listing (unsettled next nodes settled root)).foldl
    (settleGroup next) settled

theorem settle_eq_settleBy (next : κ → List κ) (nodes : List κ)
    (settled : Table κ Nat) (root : κ) :
    settle next nodes settled root =
      settleBy (groups next) next nodes settled root :=
  rfl

theorem settleBy_spec {listing : List κ → List (List κ)}
    (hlisting : ListsGroups next listing)
    (hnodes : ∀ node ∈ nodes, ∀ target ∈ next node, target ∈ nodes)
    (hsettled : Settled next settled) {root : κ} (hroot : root ∈ nodes) :
    Settled next (settleBy listing next nodes settled root) ∧
      (settleBy listing next nodes settled root).contains root = true := by
  unfold settleBy
  split
  · next hcontains => exact ⟨hsettled, hcontains⟩
  · next hcontains =>
      have hunsettled := unsettled_spec hnodes settled root
      have hgroups := hlisting settled _ hsettled hunsettled
      obtain ⟨hafter, hmembers⟩ :=
        foldl_settleGroup_spec hgroups hsettled hunsettled
          (listing (unsettled next nodes settled root)) [] (by simp)
      refine ⟨hafter, (hmembers root).mpr (Or.inr ?_)⟩
      exact hgroups.covers root
        (mem_unsettled_root hroot (by simpa using hcontains))

end Root

end FuzzReach.Graph
