import FuzzReach.Proofs.Files.Search
import FuzzReach.Proofs.Table

/-!
# Well-formed trees

In a well-formed tree the entries of a directory have different names, and each
name is one that a path can lead through.  A search in such a tree finds each
file once, under names that can be followed to it, and sorting brings its files
in strictly increasing order.
-/

namespace FuzzReach.Files

inductive Entry.WellFormed : Entry → Prop where
  | file (content : Content) : WellFormed (.file content)
  | directory {entries : Entries} (nodup : (entries.map Prod.fst).Nodup)
      (names : ∀ pair ∈ entries, Path.IsName pair.1)
      (inner : ∀ pair ∈ entries, WellFormed pair.2) :
        WellFormed (.directory entries)

namespace Entries

abbrev WellFormed (entries : Entries) : Prop :=
  (Entry.directory entries).WellFormed

private theorem wellFormed_nil : WellFormed [] :=
  .directory List.nodup_nil (by simp) (by simp)

/-! ## Writing files -/

theorem WellFormed.place {entries : Entries} (h : WellFormed entries)
    {name : String} (hname : Path.IsName name) {entry : Entry}
    (hentry : entry.WellFormed) :
    WellFormed (Table.place name entry entries) := by
  obtain _ | ⟨hnodup, hnames, hinner⟩ := h
  refine .directory ((Table.mk entries hnodup).insert name entry).nodup ?_ ?_
  · intro pair hmem
    rcases Table.mem_place hmem with rfl | hold
    · exact hname
    · exact hnames pair hold
  · intro pair hmem
    rcases Table.mem_place hmem with rfl | hold
    · exact hentry
    · exact hinner pair hold

private theorem WellFormed.of_find? {entries : Entries} (h : WellFormed entries)
    {name : String} {entry : Entry}
    (hfind : Table.find? name entries = some entry) : entry.WellFormed := by
  obtain _ | ⟨hnodup, -, hinner⟩ := h
  exact hinner _ ((Table.find?_eq_some_iff hnodup).mp hfind)

theorem WellFormed.write {entries : Entries} (h : WellFormed entries)
    (content : Content) {names : List String}
    (hnames : ∀ name ∈ names, Path.IsName name) :
    WellFormed (write content names entries) := by
  induction names generalizing entries with
  | nil => exact h
  | cons name rest ih =>
      have hname := hnames name List.mem_cons_self
      have hrest : ∀ other ∈ rest, Path.IsName other :=
        fun other hmem => hnames other (List.mem_cons_of_mem name hmem)
      cases rest with
      | nil => exact h.place hname (.file content)
      | cons next rest =>
          rw [Entries.write]
          · refine h.place hname ?_
            split
            · next inner hfind => exact ih (h.of_find? hfind) hrest
            · exact ih wellFormed_nil hrest
          · simp

structure Location.WellFormed (location : Location) : Prop where
  entry : location.entry.WellFormed
  above : ∀ passed ∈ location.above, Entries.WellFormed passed.entries

private theorem wellFormed_outside : outside.WellFormed :=
  ⟨wellFormed_nil, by simp [outside]⟩

theorem Location.WellFormed.follow {here there : Location} (h : here.WellFormed)
    {parts : List String} (hfollow : follow here parts = .ok there) :
    there.WellFormed := by
  induction parts generalizing here with
  | nil =>
      cases hfollow
      exact h
  | cons part rest ih =>
      rw [Entries.follow] at hfollow
      split at hfollow
      · cases hfollow
      · next entries hentry =>
          have hentries := h.entry
          rw [hentry] at hentries
          split at hfollow
          · exact ih h hfollow
          · split at hfollow
            · split at hfollow
              · exact ih wellFormed_outside hfollow
              · next passed above habove =>
                  have hall := h.above
                  rw [habove, List.forall_mem_cons] at hall
                  exact ih ⟨hall.1, hall.2⟩ hfollow
            · split at hfollow
              · cases hfollow
              · next entry hfind =>
                  refine ih ⟨Entries.WellFormed.of_find? hentries hfind, ?_⟩
                    hfollow
                  rw [List.forall_mem_cons]
                  exact ⟨hentries, h.above⟩

theorem WellFormed.locate {entries : Entries} (h : WellFormed entries)
    {path : String} {location : Location}
    (hlocate : locate entries path = .ok location) :
    location.WellFormed := by
  unfold Entries.locate at hlocate
  split at hlocate
  · cases hlocate
  · split at hlocate
    · cases hlocate
    · split at hlocate
      · cases hlocate
      · split at hlocate
        · exact wellFormed_outside.follow hlocate
        · exact Location.WellFormed.follow ⟨h, by simp⟩ hlocate

private theorem follow_cons {here : Location} {entries : Entries}
    (hhere : here.entry = .directory entries) (h : WellFormed entries)
    {name : String} {entry : Entry} (hmem : (name, entry) ∈ entries)
    (rest : List String) :
    follow here (name :: rest) =
      follow ⟨here.names ++ [name], entry, ⟨here.names, entries⟩ :: here.above⟩
        rest := by
  obtain _ | ⟨hnodup, hnames, -⟩ := h
  have hname := hnames _ hmem
  have hfind := (Table.find?_eq_some_iff hnodup).mpr hmem
  rw [follow, hhere]
  simp [hname.ne_empty, hname.ne_here, hname.ne_above, hfind]

end Entries

/-! ## What is found -/

theorem Finds.follow {scope : Scope} {names found : List String} {entry : Entry}
    (h : Finds scope names entry found) (hentry : entry.WellFormed) :
    isSource (scope.path found) = true ∧
      ∃ way content, found = names ++ way ∧ (∀ name ∈ way, Path.IsName name) ∧
        ∀ here : Entries.Location, here.entry = entry →
          ∃ place, Entries.follow here way = .ok place ∧
          place.entry = .file content := by
  induction h with
  | @file _ _ content hsource =>
      refine ⟨hsource, [], content, by simp, by simp, ?_⟩
      intro here hhere
      exact ⟨here, rfl, hhere⟩
  | @directory scope names entries name entry found hmem _ _ ih =>
      have hentries := hentry
      obtain _ | ⟨-, hnames, hinner⟩ := hentry
      obtain ⟨hsource, way, content, rfl, hway, hfollow⟩ := ih (hinner _ hmem)
      refine ⟨hsource, name :: way, content, by simp, ?_, ?_⟩
      · exact List.forall_mem_cons.mpr ⟨hnames _ hmem, hway⟩
      · intro here hhere
        rw [Entries.follow_cons hhere hentries hmem]
        exact hfollow _ rfl

end FuzzReach.Files
