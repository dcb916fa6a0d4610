import Mathlib.Data.Fintype.Card
import Mathlib.Data.Set.Finite.Basic
import Mathlib.Logic.Relation
import Mathlib.Order.Bounds.Basic

/-!
# The depth equations

What the depth of a node has to be, said without any search: the largest count
among its steps, where a step to the node itself counts one, a step inside a
group of mutually reachable nodes counts by the longest exit of the group, and
any other step counts one more than its target.  On a finite part of a graph
that no step leaves, these equations have at most one solution.
-/

namespace FuzzReach.Graph

variable {κ : Type}

def Mutual (calls : κ → κ → Prop) (first second : κ) : Prop :=
  Relation.ReflTransGen calls first second ∧
    Relation.ReflTransGen calls second first

/-- The first node is reached from the second one and does not lead back. -/
def Below (calls : κ → κ → Prop) (first second : κ) : Prop :=
  Relation.ReflTransGen calls second first ∧
    ¬Relation.ReflTransGen calls first second

/-- The largest of some numbers, zero if there are none. -/
def IsMaximum (numbers : Set Nat) (value : Nat) : Prop :=
  (numbers = ∅ ∧ value = 0) ∨ IsGreatest numbers value

def exitCounts (calls : κ → κ → Prop) (depth : κ → Nat) (node : κ) : Set Nat :=
  {count | ∃ member target, Mutual calls node member ∧ calls member target ∧
    ¬Mutual calls node target ∧ count = depth target + 1}

open Classical in
noncomputable def stepCount (calls : κ → κ → Prop) (depth : κ → Nat)
    (exit : Nat) (node target : κ) : Nat :=
  if target = node then 1
  else if Mutual calls node target then 1 + max 1 exit
  else depth target + 1

def stepCounts (calls : κ → κ → Prop) (depth : κ → Nat) (exit : Nat)
    (node : κ) : Set Nat :=
  {count | ∃ target, calls node target ∧
    count = stepCount calls depth exit node target}

def IsDepthAt (calls : κ → κ → Prop) (depth : κ → Nat) (node : κ) : Prop :=
  ∃ exit, IsMaximum (exitCounts calls depth node) exit ∧
    IsMaximum (stepCounts calls depth exit node) (depth node)

/-! ## Groups -/

theorem Mutual.refl (calls : κ → κ → Prop)
    (node : κ) : Mutual calls node node :=
  ⟨.refl, .refl⟩

theorem Mutual.symm {calls : κ → κ → Prop} {first second : κ}
    (h : Mutual calls first second) :
    Mutual calls second first :=
  ⟨h.2, h.1⟩

theorem Mutual.trans {calls : κ → κ → Prop} {first second third : κ}
    (h : Mutual calls first second) (h' : Mutual calls second third) :
    Mutual calls first third :=
  ⟨h.1.trans h'.1, h'.2.trans h.2⟩

theorem below_of_exit {calls : κ → κ → Prop} {node member target : κ}
    (hmember : Mutual calls node member) (hcalls : calls member target)
    (houtside : ¬Mutual calls node target) : Below calls target node := by
  have hpath : Relation.ReflTransGen calls node target := hmember.1.tail hcalls
  exact ⟨hpath, fun hback => houtside ⟨hpath, hback⟩⟩

theorem Mutual.mutual_iff {calls : κ → κ → Prop} {first second : κ}
    (h : Mutual calls first second) (other : κ) :
    Mutual calls first other ↔ Mutual calls second other :=
  ⟨h.symm.trans, h.trans⟩

/-- A node that leads to another one and back has a step to another member of
its group: steps to itself lead no further. -/
theorem Mutual.exists_step_ne {calls : κ → κ → Prop} {first second : κ}
    (h : Mutual calls first second) (hne : first ≠ second) :
    ∃ target, calls first target ∧ target ≠ first ∧
      Mutual calls first target := by
  have hstart : ∀ node, Relation.ReflTransGen calls node second → node = first →
      ∃ target, calls first target ∧ target ≠ first ∧
        Mutual calls first target := by
    intro node hpath
    induction hpath using Relation.ReflTransGen.head_induction_on with
    | refl => exact fun heq => absurd heq.symm hne
    | @head node target hstep hpath ih =>
        rintro rfl
        by_cases hself : target = node
        · exact ih hself
        · exact ⟨target, hstep, hself, .single hstep, hpath.trans h.2⟩
  exact hstart first h.1 rfl

theorem Mutual.exists_step {calls : κ → κ → Prop} {first second : κ}
    (h : Mutual calls first second) (hne : first ≠ second) :
    ∃ target, calls first target := by
  obtain ⟨target, hstep, -⟩ := h.exists_step_ne hne
  exact ⟨target, hstep⟩

theorem le_of_reaches {calls : κ → κ → Prop} {rank : κ → Nat}
    (hrank : ∀ node target, calls node target → rank target ≤ rank node)
    {node other : κ} (hpath : Relation.ReflTransGen calls node other) :
    rank other ≤ rank node := by
  induction hpath with
  | refl => exact Nat.le_refl _
  | tail _ hstep ih => exact Nat.le_trans (hrank _ _ hstep) ih

private theorem wellFounded_below (calls : κ → κ → Prop) {inside : Set κ}
    (hfinite : inside.Finite) :
    WellFounded fun first second : inside => Below calls first.1 second.1 := by
  have : Finite inside := hfinite
  have : IsTrans inside fun first second => Below calls first.1 second.1 :=
    ⟨fun _ _ _ h h' => ⟨h'.1.trans h.1, fun hback => h'.2 (h.1.trans hback)⟩⟩
  have : Std.Irrefl fun first second : inside => Below calls first.1 second.1 :=
    ⟨fun _ h => h.2 .refl⟩
  exact Finite.wellFounded_of_trans_of_irrefl _

/-! ## Uniqueness -/

theorem IsMaximum.unique {numbers : Set Nat} {first second : Nat}
    (hfirst : IsMaximum numbers first) (hsecond : IsMaximum numbers second) :
    first = second := by
  rcases hfirst with ⟨hempty, rfl⟩ | hfirst
  · rcases hsecond with ⟨-, rfl⟩ | hsecond
    · rfl
    · rw [hempty] at hsecond
      exact absurd hsecond.1 (Set.notMem_empty _)
  · rcases hsecond with ⟨hempty, rfl⟩ | hsecond
    · rw [hempty] at hfirst
      exact absurd hfirst.1 (Set.notMem_empty _)
    · exact hfirst.unique hsecond

section Agree

variable {calls : κ → κ → Prop} {first second : κ → Nat} {node : κ}

private theorem exitCounts_congr
    (hbelow : ∀ other, Below calls other node → first other = second other) :
    exitCounts calls first node = exitCounts calls second node := by
  ext count
  constructor
  · rintro ⟨member, target, hmember, hcalls, houtside, rfl⟩
    exact ⟨member, target, hmember, hcalls, houtside,
      by rw [hbelow target (below_of_exit hmember hcalls houtside)]⟩
  · rintro ⟨member, target, hmember, hcalls, houtside, rfl⟩
    exact ⟨member, target, hmember, hcalls, houtside,
      by rw [hbelow target (below_of_exit hmember hcalls houtside)]⟩

private theorem stepCount_congr
    (hbelow : ∀ other, Below calls other node → first other = second other)
    {target : κ} (hcalls : calls node target) (exit : Nat) :
    stepCount calls first exit node target =
      stepCount calls second exit node target := by
  unfold stepCount
  split
  · rfl
  · split
    · rfl
    · next houtside =>
        rw [hbelow target
          (below_of_exit (Mutual.refl calls node) hcalls houtside)]

private theorem stepCounts_congr
    (hbelow : ∀ other, Below calls other node → first other = second other)
    (exit : Nat) :
    stepCounts calls first exit node = stepCounts calls second exit node := by
  ext count
  constructor
  · rintro ⟨target, hcalls, rfl⟩
    exact ⟨target, hcalls, stepCount_congr hbelow hcalls exit⟩
  · rintro ⟨target, hcalls, rfl⟩
    exact ⟨target, hcalls, (stepCount_congr hbelow hcalls exit).symm⟩

/-- The equation of a node reads depths only at the node and below it. -/
theorem IsDepthAt.congr (h : IsDepthAt calls first node)
    (hnode : first node = second node)
    (hbelow : ∀ other, Below calls other node → first other = second other) :
    IsDepthAt calls second node := by
  obtain ⟨exit, hexit, hdepth⟩ := h
  refine ⟨exit, ?_, ?_⟩
  · rw [← exitCounts_congr hbelow]
    exact hexit
  · rw [← stepCounts_congr hbelow, ← hnode]
    exact hdepth

theorem IsDepthAt.unique (hfirst : IsDepthAt calls first node)
    (hsecond : IsDepthAt calls second node)
    (hbelow : ∀ other, Below calls other node → first other = second other) :
    first node = second node := by
  obtain ⟨exit, hexit, hdepth⟩ := hfirst
  obtain ⟨exit', hexit', hdepth'⟩ := hsecond
  rw [← exitCounts_congr hbelow] at hexit'
  have hsame : exit' = exit := hexit'.unique hexit
  rw [hsame, ← stepCounts_congr hbelow] at hdepth'
  exact hdepth.unique hdepth'

end Agree

theorem mem_of_reflTransGen {calls : κ → κ → Prop} (inside : Set κ)
    (hclosed : ∀ node ∈ inside, ∀ target, calls node target → target ∈ inside)
    {node other : κ} (hnode : node ∈ inside)
    (hpath : Relation.ReflTransGen calls node other) : other ∈ inside := by
  induction hpath with
  | refl => exact hnode
  | tail _ hstep ih => exact hclosed _ ih _ hstep

theorem below_induction {calls : κ → κ → Prop} {inside : Set κ}
    (hfinite : inside.Finite)
    (hclosed : ∀ node ∈ inside, ∀ target, calls node target → target ∈ inside)
    {motive : κ → Prop}
    (hstep : ∀ node ∈ inside, (∀ other, Below calls other node → motive other) →
      motive node) :
    ∀ node ∈ inside, motive node := by
  have hall : ∀ node : inside, motive node := by
    intro node
    induction node using (wellFounded_below calls hfinite).induction with
    | _ node ih =>
        refine hstep node node.2 fun other hother => ?_
        exact ih ⟨other,
          mem_of_reflTransGen inside hclosed node.2 hother.1⟩ hother
  intro node hnode
  exact hall ⟨node, hnode⟩

theorem depth_unique {calls : κ → κ → Prop} {inside : Set κ}
    (hfinite : inside.Finite)
    (hclosed : ∀ node ∈ inside, ∀ target, calls node target → target ∈ inside)
    {first second : κ → Nat}
    (hfirst : ∀ node ∈ inside, IsDepthAt calls first node)
    (hsecond : ∀ node ∈ inside, IsDepthAt calls second node) :
    ∀ node ∈ inside, first node = second node :=
  below_induction hfinite hclosed fun node hnode hbelow =>
    (hfirst node hnode).unique (hsecond node hnode) hbelow

end FuzzReach.Graph
