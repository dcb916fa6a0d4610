import FuzzReach.Proofs.Depth.Pair

/-!
# Depth as a rank

Nodes that lead to each other have one depth, two at least, and every step to a
node that does not lead back goes down.  It goes down by two if the node leads
to another one and back, since the step to that other member is counted as well.
-/

namespace FuzzReach.Graph

section Rank

variable {κ : Type} {calls : κ → κ → Prop} {depth : κ → Nat}
  {node other target : κ}

theorem IsMaximum.le {numbers : Set Nat} {value number : Nat}
    (h : IsMaximum numbers value) (hnumber : number ∈ numbers) :
    number ≤ value := by
  rcases h with ⟨hempty, -⟩ | hgreatest
  · exact absurd hnumber (Set.eq_empty_iff_forall_notMem.mp hempty number)
  · exact hgreatest.2 hnumber

private theorem exitCounts_eq_of_mutual (hmutual : Mutual calls node other) :
    exitCounts calls depth node = exitCounts calls depth other := by
  simp only [exitCounts, hmutual.mutual_iff]

theorem IsDepthAt.eq_of_mutual (h : IsDepthAt calls depth node)
    (hmutual : Mutual calls node other) (hne : node ≠ other) :
    ∃ exit, IsMaximum (exitCounts calls depth node) exit ∧
      depth node = 1 + max 1 exit := by
  obtain ⟨exit, hexit, hdepth⟩ := h
  -- No step of a member counts more than the step to another member, which
  -- every member has.
  refine ⟨exit, hexit, hdepth.unique (.inr ⟨?_, ?_⟩)⟩
  · obtain ⟨target, hstep, hself, hgroup⟩ := hmutual.exists_step_ne hne
    exact ⟨target, hstep, by simp [stepCount, hself, hgroup]⟩
  · rintro count ⟨target, hstep, rfl⟩
    unfold stepCount
    split
    · omega
    · split
      · exact Nat.le_refl _
      · next houtside =>
          have hleaves : depth target + 1 ≤ exit :=
            hexit.le ⟨node, target, Mutual.refl calls node, hstep,
              houtside, rfl⟩
          omega

private theorem IsDepthAt.eq_and_two_le (hnode : IsDepthAt calls depth node)
    (hother : IsDepthAt calls depth other) (hmutual : Mutual calls node other)
    (hne : node ≠ other) : depth node = depth other ∧ 2 ≤ depth node := by
  obtain ⟨exit, hexit, hdepth⟩ := hnode.eq_of_mutual hmutual hne
  obtain ⟨exit', hexit', hdepth'⟩ := hother.eq_of_mutual hmutual.symm hne.symm
  -- The exits are those of the group, whichever member is asked.
  rw [← exitCounts_eq_of_mutual hmutual] at hexit'
  have hsame : exit = exit' := hexit.unique hexit'
  omega

private theorem not_mutual_of_not_reaches
    (hback : ¬Relation.ReflTransGen calls target node) :
    ¬Mutual calls node target :=
  fun hmutual => hback hmutual.2

private theorem IsDepthAt.lt_of_step (h : IsDepthAt calls depth node)
    (hstep : calls node target)
    (hback : ¬Relation.ReflTransGen calls target node) :
    depth target + 1 ≤ depth node := by
  obtain ⟨exit, -, hdepth⟩ := h
  refine hdepth.le ⟨target, hstep, ?_⟩
  have hself : target ≠ node := fun heq => hback (heq ▸ .refl)
  simp [stepCount, hself, not_mutual_of_not_reaches hback]

private theorem IsDepthAt.lt_of_exit (h : IsDepthAt calls depth node)
    (hmutual : Mutual calls node other) (hne : node ≠ other)
    (hstep : calls node target)
    (hback : ¬Relation.ReflTransGen calls target node) :
    depth target + 2 ≤ depth node := by
  obtain ⟨exit, hexit, hdepth⟩ := h.eq_of_mutual hmutual hne
  have hleaves : depth target + 1 ≤ exit :=
    hexit.le ⟨node, target, Mutual.refl calls node, hstep,
      not_mutual_of_not_reaches hback, rfl⟩
  omega

end Rank

end FuzzReach.Graph

namespace FuzzReach.CallGraph

/-- Two functions that lead to each other have the same depth, two at least.  A
call of a function that does not lead back goes down by one, and by two from a
function that leads to another one and back. -/
theorem depth_isRank (files : List SourceFile) (harness : String)
    (known : Table Place Call.Resolution) :
    let graph : CallGraph := ⟨.build files harness, known⟩
    (∀ first second, first ≠ second → Graph.Mutual graph.Calls first second →
      graph.depth first = graph.depth second ∧ 2 ≤ graph.depth first) ∧
    ∀ caller callee, graph.Calls caller callee →
      ¬Relation.ReflTransGen graph.Calls callee caller →
      graph.depth callee + 1 ≤ graph.depth caller ∧
      ∀ other, caller ≠ other → Graph.Mutual graph.Calls caller other →
        graph.depth callee + 2 ≤ graph.depth caller := by
  intro graph
  have hnamed : graph.registry.Named := Registry.build_named files harness
  have hdepth : ∀ caller callee, graph.Calls caller callee →
      Graph.IsDepthAt graph.Calls graph.depth caller :=
    fun caller callee hcalls => isDepthAt_depth hnamed hcalls.contains_caller
  refine ⟨fun first second hne hmutual => ?_,
    fun caller callee hcalls hback => ⟨?_, ?_⟩⟩
  · obtain ⟨callee, hfirst⟩ := hmutual.exists_step hne
    obtain ⟨callee', hsecond⟩ := hmutual.symm.exists_step hne.symm
    exact (hdepth _ _ hfirst).eq_and_two_le (hdepth _ _ hsecond) hmutual hne
  · exact (hdepth _ _ hcalls).lt_of_step hcalls hback
  · intro other hne hmutual
    exact (hdepth _ _ hcalls).lt_of_exit hmutual hne hcalls hback

theorem depth_isRank_exitChain :
    "b" ≠ "a" ∧ Graph.Mutual exitChain.Calls "b" "a" ∧ exitChain.Calls "b" "x" ∧
      ¬Relation.ReflTransGen exitChain.Calls "x" "b" ∧
      exitChain.depth "b" = exitChain.depth "a" ∧ 2 ≤ exitChain.depth "b" ∧
      exitChain.depth "x" + 2 ≤ exitChain.depth "b" := by
  have hcalls : exitChain.Calls "b" "x" :=
    mem_edges_iff.mp (by simp [edges_exitChain])
  have hback : ¬Relation.ReflTransGen exitChain.Calls "x" "b" := by
    intro hpath
    have hrank := rank_le_of_edges edges_exitChain
      (fun name => if name ∈ ["a", "b"] then 2 else ["y", "x"].idxOf name)
        (by decide) hpath
    exact absurd hrank (by decide)
  obtain ⟨hgroups, hsteps⟩ := depth_isRank exitChain.registry.files "" .empty
  obtain ⟨hsame, htwo⟩ := hgroups "b" "a" (by decide) mutual_exitChain.symm
  exact ⟨by decide, mutual_exitChain.symm, hcalls, hback, hsame, htwo,
    (hsteps "b" "x" hcalls hback).2 "a" (by decide) mutual_exitChain.symm⟩

end FuzzReach.CallGraph
