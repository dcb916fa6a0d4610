import FuzzReach.Graph.Trail
import Mathlib.Data.List.Nodup
import Mathlib.Logic.Relation

/-!
# What a depth-first walk visits

A walk expands every key at most once, expands nothing but what follows from the
pending items, and leaves no listed key out: what is pending or follows from an
expanded item is expanded itself.
-/

namespace FuzzReach.Graph

variable {α κ : Type} [DecidableEq κ]

@[simp] theorem expansions_nil : expansions ([] : List (Visit α)) = [] := rfl

@[simp] theorem expansions_cons_expanded (item : α) (visits : List (Visit α)) :
    expansions (⟨item, true⟩ :: visits) = item :: expansions visits := rfl

@[simp] theorem expansions_cons_noted (item : α) (visits : List (Visit α)) :
    expansions (⟨item, false⟩ :: visits) = expansions visits := rfl

theorem mem_without {key other : κ} {keys : List κ} :
    other ∈ without key keys ↔ other ∈ keys ∧ other ≠ key := by
  simp [without]

variable {key? : α → Option κ} {next : α → List α} {unseen : List κ}
  {pending : List α}

/-! ## Keys -/

theorem key_mem_of_mem_expansions {item : α}
    (h : item ∈ expansions (trail key? next unseen pending)) :
    ∃ key ∈ unseen, key? item = some key := by
  fun_induction trail key? next unseen pending with
  | case1 => simp at h
  | case2 unseen first rest hkey ih => exact ih (by simpa using h)
  | case3 unseen first rest key hkey hunseen ih =>
      rcases List.mem_cons.mp (by simpa using h) with rfl | h
      · exact ⟨key, hunseen, hkey⟩
      · obtain ⟨other, hother, heq⟩ := ih h
        exact ⟨other, (mem_without.mp hother).1, heq⟩
  | case4 unseen first rest key hkey hunseen ih => exact ih (by simpa using h)

theorem nodup_keys_expansions :
    ((expansions (trail key? next unseen pending)).map key?).Nodup := by
  fun_induction trail key? next unseen pending with
  | case1 => simp
  | case2 unseen first rest hkey ih => simpa using ih
  | case3 unseen first rest key hkey hunseen ih =>
      rw [expansions_cons_expanded, List.map_cons, List.nodup_cons]
      refine ⟨?_, ih⟩
      intro hmem
      obtain ⟨item, hitem, heq⟩ := List.mem_map.mp hmem
      obtain ⟨other, hother, hsome⟩ := key_mem_of_mem_expansions hitem
      rw [hsome, hkey, Option.some.injEq] at heq
      exact (mem_without.mp hother).2 heq
  | case4 unseen first rest key hkey hunseen ih => simpa using ih

/-! ## Soundness -/

/-- What holds of the pending items and passes on from expanded items holds of
everything visited. -/
theorem trail_induction (holds : α → Prop)
    (hpending : ∀ item ∈ pending, holds item)
    (hnext : ∀ item, holds item → ∀ key ∈ unseen, key? item = some key →
      ∀ follower ∈ next item, holds follower) :
    ∀ visit ∈ trail key? next unseen pending, holds visit.item := by
  fun_induction trail key? next unseen pending with
  | case1 => simp
  | case2 unseen first rest hkey ih =>
      intro visit hvisit
      rcases List.mem_cons.mp hvisit with rfl | hvisit
      · exact hpending _ List.mem_cons_self
      · exact ih (fun item hitem =>
          hpending item (List.mem_cons_of_mem _ hitem)) hnext visit hvisit
  | case3 unseen first rest key hkey hunseen ih =>
      intro visit hvisit
      rcases List.mem_cons.mp hvisit with rfl | hvisit
      · exact hpending _ List.mem_cons_self
      · refine ih (fun item hitem => ?_)
          (fun item hitem other hother => ?_) visit hvisit
        · rcases List.mem_append.mp hitem with hitem | hitem
          · exact hnext first (hpending _ List.mem_cons_self) key hunseen hkey
              item hitem
          · exact hpending item (List.mem_cons_of_mem _ hitem)
        · exact hnext item hitem other (mem_without.mp hother).1
  | case4 unseen first rest key hkey hunseen ih =>
      intro visit hvisit
      rcases List.mem_cons.mp hvisit with rfl | hvisit
      · exact hpending _ List.mem_cons_self
      · exact ih (fun item hitem =>
          hpending item (List.mem_cons_of_mem _ hitem)) hnext visit hvisit

theorem mem_expansions_iff {item : α} {visits : List (Visit α)} :
    item ∈ expansions visits ↔ ⟨item, true⟩ ∈ visits := by
  simp only [expansions, List.mem_map, List.mem_filter]
  constructor
  · rintro ⟨⟨found, expanded⟩, ⟨hvisit, rfl⟩, rfl⟩
    exact hvisit
  · intro h
    exact ⟨⟨item, true⟩, ⟨h, rfl⟩, rfl⟩

/-! ## Completeness -/

private theorem exists_expansion_of_pending {item : α} {key : κ}
    (hitem : item ∈ pending) (hkey : key? item = some key)
    (hunseen : key ∈ unseen) :
    ∃ other ∈ expansions (trail key? next unseen pending),
      key? other = some key := by
  fun_induction trail key? next unseen pending with
  | case1 => simp at hitem
  | case2 unseen first rest hfirst ih =>
      rcases List.mem_cons.mp hitem with rfl | hitem
      · simp [hfirst] at hkey
      · simpa using ih hitem hunseen
  | case3 unseen first rest firstKey hfirst hlisted ih =>
      -- A key leaves the list only when an item with it is expanded.
      by_cases hsame : key = firstKey
      · exact ⟨first, by simp, hsame ▸ hfirst⟩
      · rcases List.mem_cons.mp hitem with rfl | hitem
        · rw [hkey, Option.some.injEq] at hfirst
          exact absurd hfirst hsame
        · obtain ⟨other, hother, heq⟩ :=
            ih (List.mem_append_right _ hitem)
              (mem_without.mpr ⟨hunseen, hsame⟩)
          exact ⟨other, by simp [hother], heq⟩
  | case4 unseen first rest firstKey hfirst hlisted ih =>
      rcases List.mem_cons.mp hitem with rfl | hitem
      · rw [hkey, Option.some.injEq] at hfirst
        exact absurd (hfirst ▸ hunseen) hlisted
      · simpa using ih hitem hunseen

theorem exists_expansion_of_follower {item follower : α} {key : κ}
    (hitem : item ∈ expansions (trail key? next unseen pending))
    (hfollower : follower ∈ next item) (hkey : key? follower = some key)
    (hunseen : key ∈ unseen) :
    ∃ other ∈ expansions (trail key? next unseen pending),
      key? other = some key := by
  fun_induction trail key? next unseen pending with
  | case1 => simp at hitem
  | case2 unseen first rest hfirst ih =>
      simpa using ih (by simpa using hitem) hunseen
  | case3 unseen first rest firstKey hfirst hlisted ih =>
      by_cases hsame : key = firstKey
      · exact ⟨first, by simp, hsame ▸ hfirst⟩
      · have hleft := mem_without.mpr ⟨hunseen, hsame⟩
        have hfound :
            ∃ other ∈ expansions (trail key? next (without firstKey unseen)
            (next first ++ rest)), key? other = some key := by
          rcases List.mem_cons.mp (by simpa using hitem) with rfl | hitem
          · exact exists_expansion_of_pending
              (List.mem_append_left _ hfollower) hkey hleft
          · exact ih hitem hleft
        obtain ⟨other, hother, heq⟩ := hfound
        exact ⟨other, by simp [hother], heq⟩
  | case4 unseen first rest firstKey hfirst hlisted ih =>
      simpa using ih (by simpa using hitem) hunseen

theorem exists_expansion_of_visit {visit : Visit α} {key : κ}
    (hvisit : visit ∈ trail key? next unseen pending)
    (hkey : key? visit.item = some key) (hunseen : key ∈ unseen) :
    ∃ other ∈ expansions (trail key? next unseen pending),
      key? other = some key := by
  fun_induction trail key? next unseen pending with
  | case1 => simp at hvisit
  | case2 unseen first rest hfirst ih =>
      rcases List.mem_cons.mp hvisit with rfl | hvisit
      · simp [hfirst] at hkey
      · simpa using ih hvisit hunseen
  | case3 unseen first rest firstKey hfirst hlisted ih =>
      by_cases hsame : key = firstKey
      · exact ⟨first, by simp, hsame ▸ hfirst⟩
      · rcases List.mem_cons.mp hvisit with rfl | hvisit
        · rw [hkey, Option.some.injEq] at hfirst
          exact absurd hfirst hsame
        · obtain ⟨other, hother, heq⟩ :=
            ih hvisit (mem_without.mpr ⟨hunseen, hsame⟩)
          exact ⟨other, by simp [hother], heq⟩
  | case4 unseen first rest firstKey hfirst hlisted ih =>
      rcases List.mem_cons.mp hvisit with rfl | hvisit
      · rw [hkey, Option.some.injEq] at hfirst
        exact absurd (hfirst ▸ hunseen) hlisted
      · simpa using ih hvisit hunseen

theorem exists_visit_of_pending {item : α} (hitem : item ∈ pending) :
    ∃ visit ∈ trail key? next unseen pending, visit.item = item := by
  fun_induction trail key? next unseen pending with
  | case1 => simp at hitem
  | case2 unseen first rest hfirst ih =>
      rcases List.mem_cons.mp hitem with rfl | hitem
      · simp
      · simpa using Or.inr (ih hitem)
  | case3 unseen first rest firstKey hfirst hlisted ih =>
      rcases List.mem_cons.mp hitem with rfl | hitem
      · simp
      · simpa using Or.inr (ih (List.mem_append_right _ hitem))
  | case4 unseen first rest firstKey hfirst hlisted ih =>
      rcases List.mem_cons.mp hitem with rfl | hitem
      · simp
      · simpa using Or.inr (ih hitem)

theorem exists_visit_of_follower {item follower : α}
    (hitem : item ∈ expansions (trail key? next unseen pending))
    (hfollower : follower ∈ next item) :
    ∃ visit ∈ trail key? next unseen pending, visit.item = follower := by
  fun_induction trail key? next unseen pending with
  | case1 => simp at hitem
  | case2 unseen first rest hfirst ih =>
      simpa using Or.inr (ih (by simpa using hitem))
  | case3 unseen first rest firstKey hfirst hlisted ih =>
      rw [List.exists_mem_cons_iff]
      right
      rcases List.mem_cons.mp (by simpa using hitem) with rfl | hitem
      · exact exists_visit_of_pending (List.mem_append_left _ hfollower)
      · exact ih hitem
  | case4 unseen first rest firstKey hfirst hlisted ih =>
      simpa using Or.inr (ih (by simpa using hitem))

/-! ## Walks with the same successors -/

/-- Two walks agree if what follows agrees on all items that can come up. -/
theorem trail_congr {other : α → List α} (holds : α → Prop)
    (hpending : ∀ item ∈ pending, holds item)
    (hnext : ∀ item, holds item → ∀ follower ∈ next item, holds follower)
    (hsame : ∀ item, holds item → next item = other item) :
    trail key? next unseen pending = trail key? other unseen pending := by
  fun_induction trail key? next unseen pending with
  | case1 => rw [trail]
  | case2 unseen first rest hkey ih =>
      rw [trail, hkey]
      exact congrArg _
        (ih fun item hitem => hpending item (List.mem_cons_of_mem _ hitem))
  | case3 unseen first rest key hkey hunseen ih =>
      have hfirst := hpending first List.mem_cons_self
      have htail := ih fun item hitem => by
        rcases List.mem_append.mp hitem with hitem | hitem
        · exact hnext first hfirst item hitem
        · exact hpending item (List.mem_cons_of_mem _ hitem)
      rw [trail.eq_def key? other]
      simp only [hkey, hunseen, dite_true]
      rw [htail, hsame first hfirst]
  | case4 unseen first rest key hkey hunseen ih =>
      rw [trail.eq_def key? other]
      simp only [hkey, hunseen, dite_false]
      rw [ih fun item hitem => hpending item (List.mem_cons_of_mem _ hitem)]

/-! ## Reaching nodes -/

section Reach

variable {next : κ → List κ} {nodes : List κ} {start node : κ}

def StepWithin (next : κ → List κ) (nodes : List κ)
    (source target : κ) : Prop :=
  target ∈ next source ∧ target ∈ nodes

private theorem reach_sound (h : node ∈ reach next nodes start) :
    start ∈ nodes ∧
      Relation.ReflTransGen (StepWithin next nodes) start node := by
  -- Pending nodes need not be among the given ones, so the path is stated for
  -- those that are.
  have hvisits : ∀ visit ∈ trail some next nodes [start], visit.item ∈ nodes →
      start ∈ nodes ∧
        Relation.ReflTransGen (StepWithin next nodes) start visit.item :=
    trail_induction (fun item => item ∈ nodes →
      start ∈ nodes ∧ Relation.ReflTransGen (StepWithin next nodes) start item)
      (by
        intro item hitem hmem
        rw [List.mem_singleton] at hitem
        subst hitem
        exact ⟨hmem, .refl⟩)
      (by
        intro item hitem key hkey hsome follower hfollower hmem
        cases hsome
        obtain ⟨hstart, hpath⟩ := hitem hkey
        exact ⟨hstart, hpath.tail ⟨hfollower, hmem⟩⟩)
  obtain ⟨key, hkey, hsome⟩ := key_mem_of_mem_expansions h
  cases hsome
  exact hvisits _ (mem_expansions_iff.mp h) hkey

private theorem reach_complete (hstart : start ∈ nodes)
    (h : Relation.ReflTransGen (StepWithin next nodes) start node) :
    node ∈ reach next nodes start := by
  induction h with
  | refl =>
      have hfound : ∃ other ∈ reach next nodes start, some other = some start :=
        exists_expansion_of_pending (List.mem_singleton.mpr rfl) rfl hstart
      obtain ⟨other, hother, hsome⟩ := hfound
      cases hsome
      exact hother
  | tail _ hstep ih =>
      obtain ⟨other, hother, hsome⟩ :=
        exists_expansion_of_follower ih hstep.1 rfl hstep.2
      cases hsome
      exact hother

theorem mem_reach_iff :
    node ∈ reach next nodes start ↔
      start ∈ nodes ∧
      Relation.ReflTransGen (StepWithin next nodes) start node :=
  ⟨reach_sound, fun h => reach_complete h.1 h.2⟩

theorem nodup_reach : (reach next nodes start).Nodup :=
  List.Nodup.of_map some nodup_keys_expansions

theorem reach_subset : reach next nodes start ⊆ nodes := by
  intro node h
  obtain ⟨key, hkey, hsome⟩ := key_mem_of_mem_expansions h
  cases hsome
  exact hkey

end Reach

end FuzzReach.Graph
