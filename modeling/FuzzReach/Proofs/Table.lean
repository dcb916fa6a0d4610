import FuzzReach.Lookup

/-!
# Reading tables back

What the operations on tables leave under each key, and where the entries of a
table come from.
-/

namespace FuzzReach.Table

variable {κ ν μ : Type}

theorem mem_keys_iff {table : Table κ ν} {key : κ} :
    key ∈ table.keys ↔ ∃ value, (key, value) ∈ table.entries := by
  simp [keys]

theorem mem_values_iff {table : Table κ ν} {value : ν} :
    value ∈ table.values ↔ ∃ key, (key, value) ∈ table.entries := by
  simp [values]

theorem mem_place [DecidableEq κ] {key : κ} {value : ν} {entries : List (κ × ν)}
    {entry : κ × ν} (h : entry ∈ place key value entries) :
    entry = (key, value) ∨ entry ∈ entries := by
  induction entries with
  | nil => exact Or.inl (by simpa [place] using h)
  | cons first rest ih =>
      rw [place] at h
      split at h
      · rcases List.mem_cons.mp h with rfl | h
        · exact Or.inl rfl
        · exact Or.inr (List.mem_cons_of_mem _ h)
      · rcases List.mem_cons.mp h with rfl | h
        · exact Or.inr List.mem_cons_self
        · exact (ih h).imp_right (List.mem_cons_of_mem _)

theorem mem_insertAll [DecidableEq κ] {table : Table κ ν} {pairs : List (κ × ν)}
    {entry : κ × ν} (h : entry ∈ (table.insertAll pairs).entries) :
    entry ∈ table.entries ∨ entry ∈ pairs := by
  induction pairs generalizing table with
  | nil => exact Or.inl h
  | cons pair rest ih =>
      have hrest :
          entry ∈ ((table.insert pair.1 pair.2).insertAll rest).entries := h
      rcases ih hrest with h | h
      · rcases mem_place h with rfl | h
        · exact Or.inr List.mem_cons_self
        · exact Or.inl h
      · exact Or.inr (List.mem_cons_of_mem _ h)

theorem mem_ofList [DecidableEq κ] {pairs : List (κ × ν)} {entry : κ × ν}
    (h : entry ∈ (ofList pairs).entries) : entry ∈ pairs := by
  rcases mem_insertAll h with h | h
  · simp at h
  · exact h

theorem mem_erase [DecidableEq κ] {table : Table κ ν} {key : κ} {entry : κ × ν}
    (h : entry ∈ (table.erase key).entries) : entry ∈ table.entries :=
  (List.mem_filter.mp h).1

/-! ## Keys -/

theorem contains_iff [DecidableEq κ] {table : Table κ ν} {key : κ} :
    table.contains key = true ↔ key ∈ table.keys := by
  rw [contains, Option.isSome_iff_exists, mem_keys_iff]
  exact exists_congr fun value => get?_eq_some_iff

theorem get?_eq_none_iff [DecidableEq κ] {table : Table κ ν} {key : κ} :
    table.get? key = none ↔ table.contains key = false := by
  simp [contains]

theorem mem_values_of_get? [DecidableEq κ] {table : Table κ ν} {key : κ}
    {value : ν} (h : table.get? key = some value) : value ∈ table.values :=
  mem_values_iff.mpr ⟨key, get?_eq_some_iff.mp h⟩

@[simp] theorem contains_empty [DecidableEq κ] (key : κ) :
    (empty : Table κ ν).contains key = false := rfl

/-! ## Writing many values -/

theorem get?_insertAll_map [DecidableEq κ] (table : Table κ ν) (nodes : List κ)
    (value : κ → ν) (key : κ) :
    (table.insertAll (nodes.map fun node => (node, value node))).get? key =
      if key ∈ nodes then some (value key) else table.get? key := by
  induction nodes generalizing table with
  | nil => simp [insertAll]
  | cons node rest ih =>
      have step := ih (table.insert node (value node))
      rw [get?_insert] at step
      simp only [insertAll, List.map_cons, List.foldl_cons] at step ⊢
      rw [step]
      by_cases hrest : key ∈ rest
      · simp [hrest]
      · by_cases hnode : node = key
        · simp [hnode]
        · simp [hrest, hnode, Ne.symm hnode]

section Writing

variable [DecidableEq κ]

@[simp] theorem insertAll_nil (table : Table κ ν) :
    table.insertAll [] = table := rfl

theorem insertAll_cons (table : Table κ ν) (pair : κ × ν)
    (pairs : List (κ × ν)) :
    table.insertAll (pair :: pairs) =
      (table.insert pair.1 pair.2).insertAll pairs := rfl

theorem insertAll_append (table : Table κ ν) (pairs others : List (κ × ν)) :
    table.insertAll (pairs ++ others) =
      (table.insertAll pairs).insertAll others :=
  List.foldl_append

theorem keys_insertAll (table : Table κ ν) (pairs : List (κ × ν)) :
    (table.insertAll pairs).keys =
      table.keys ++ ((pairs.map Prod.fst).removeAll table.keys).eraseDups := by
  induction pairs generalizing table with
  | nil => simp [List.removeAll]
  | cons pair rest ih =>
      rw [insertAll_cons, ih, keys_insert]
      by_cases h : pair.1 ∈ table.keys
      · simp [h, List.removeAll]
      · simp [h, List.removeAll, List.eraseDups_cons, List.filter_filter,
          Bool.and_comm]
        rfl

/-- Keys stand in the order of their first occurrence. -/
theorem keys_ofList (pairs : List (κ × ν)) :
    (ofList pairs).keys = (pairs.map Prod.fst).eraseDups := by
  rw [ofList, keys_insertAll]
  exact congrArg List.eraseDups (List.filter_eq_self.mpr (by simp [keys]))

theorem get?_insertAll (table : Table κ ν) (pairs : List (κ × ν)) (key : κ) :
    (table.insertAll pairs).get? key =
      ((pairs.reverse.find? fun pair => pair.1 = key).map Prod.snd).or
        (table.get? key) := by
  induction pairs generalizing table with
  | nil => simp
  | cons pair rest ih =>
      rw [insertAll_cons, ih, get?_insert, List.reverse_cons, List.find?_append]
      cases rest.reverse.find? fun pair => pair.1 = key with
      | some found => simp
      | none => by_cases h : pair.1 = key <;> simp [h]

/-- The last value written under a key is the one that counts. -/
theorem get?_ofList (pairs : List (κ × ν)) (key : κ) :
    (ofList pairs).get? key =
      (pairs.reverse.find? fun pair => pair.1 = key).map Prod.snd := by
  simp [ofList, get?_insertAll]

/-! ## Merging -/

theorem place_place (key : κ) (value other : ν) (entries : List (κ × ν)) :
    place key value (place key other entries) = place key value entries := by
  induction entries with
  | nil => simp [place]
  | cons entry rest ih => by_cases h : entry.1 = key <;> simp [place, h, ih]

theorem place_comm {key second : κ} (hne : key ≠ second) (value other : ν)
    {entries : List (κ × ν)} (hkey : key ∈ entries.map Prod.fst) :
    place key value (place second other entries) =
      place second other (place key value entries) := by
  induction entries with
  | nil => simp at hkey
  | cons entry rest ih =>
      by_cases hsecond : entry.1 = second
      · have hfirst : entry.1 ≠ key := fun heq => hne (heq.symm.trans hsecond)
        simp [place, hsecond, Ne.symm hne]
      · by_cases hfirst : entry.1 = key
        · simp [place, hfirst, hne]
        · have hrest : key ∈ rest.map Prod.fst := by
            simpa [Ne.symm hfirst] using hkey
          simp [place, hfirst, hsecond, ih hrest]

theorem insertAll_insert {table : Table κ ν} {key : κ} (hkey : key ∈ table.keys)
    (value : ν) {pairs : List (κ × ν)} (hpairs : key ∉ pairs.map Prod.fst) :
    (table.insert key value).insertAll pairs =
      (table.insertAll pairs).insert key value := by
  induction pairs generalizing table with
  | nil => rfl
  | cons pair rest ih =>
      simp only [List.map_cons, List.mem_cons, not_or] at hpairs
      have hcomm : (table.insert key value).insert pair.1 pair.2 =
          (table.insert pair.1 pair.2).insert key value :=
        Table.ext (place_comm hpairs.1 value pair.2 hkey).symm
      have hkept : key ∈ (table.insert pair.1 pair.2).keys := by
        rw [keys_insert]
        split <;> simp [hkey]
      rw [insertAll_cons, insertAll_cons, hcomm, ih hkept hpairs.2]

theorem insertAll_place (table : Table κ ν) (key : κ) (value : ν)
    {entries : List (κ × ν)} (hnodup : (entries.map Prod.fst).Nodup) :
    table.insertAll (place key value entries) =
      (table.insertAll entries).insert key value := by
  induction entries generalizing table with
  | nil => rfl
  | cons entry rest ih =>
      obtain ⟨first, old⟩ := entry
      simp only [List.map_cons, List.nodup_cons] at hnodup
      by_cases h : first = key
      · subst h
        have hfirst : first ∈ (table.insert first old).keys := by
          rw [keys_insert]
          split <;> simp [*]
        have hover : (table.insert first old).insert first value =
            table.insert first value :=
          Table.ext (place_place first value old table.entries)
        rw [place, if_pos rfl, insertAll_cons, insertAll_cons,
          ← insertAll_insert hfirst value hnodup.1, hover]
      · rw [place, if_neg h, insertAll_cons, insertAll_cons, ih _ hnodup.2]

theorem merge_ofList (table : Table κ ν) (pairs : List (κ × ν)) :
    table.merge (ofList pairs) = table.insertAll pairs := by
  have hstep : ∀ other : Table κ ν,
      table.merge (other.insertAll pairs) =
        (table.merge other).insertAll pairs := by
    induction pairs with
    | nil => exact fun _ => rfl
    | cons pair rest ih =>
        intro other
        rw [insertAll_cons, ih, insertAll_cons]
        exact congrArg (insertAll · rest)
          (insertAll_place table pair.1 pair.2 other.nodup)
  exact hstep empty

theorem foldl_merge_ofList {σ : Type} (pairs : σ → List (κ × ν))
    (sources : List σ) (table : Table κ ν) :
    sources.foldl
      (fun table source => table.merge (ofList (pairs source))) table =
      table.insertAll (sources.flatMap pairs) := by
  induction sources generalizing table with
  | nil => rfl
  | cons source sources ih =>
      rw [List.foldl_cons, ih, merge_ofList, List.flatMap_cons,
        insertAll_append]

theorem filter_place (key other : κ) (value : ν) (entries : List (κ × ν)) :
    (place key value entries).filter (fun entry => entry.1 ≠ other) =
      if key = other then entries.filter fun entry => entry.1 ≠ other
      else place key value (entries.filter fun entry => entry.1 ≠ other) := by
  induction entries with
  | nil => by_cases h : key = other <;> simp [place, h]
  | cons entry rest ih =>
      by_cases hkey : entry.1 = key
      · by_cases h : key = other <;> simp [place, hkey, h]
      · by_cases h : key = other <;> by_cases hother : entry.1 = other <;>
          simp_all [place]

theorem erase_insert (table : Table κ ν) (key other : κ) (value : ν) :
    (table.insert key value).erase other =
      if key = other then table.erase other
        else (table.erase other).insert key value := by
  apply Table.ext
  refine (filter_place key other value table.entries).trans ?_
  split <;> rfl

theorem erase_ofList (pairs : List (κ × ν)) (key : κ) :
    (ofList pairs).erase key =
      ofList (pairs.filter fun pair => pair.1 ≠ key) := by
  have hstep : ∀ table : Table κ ν, (table.insertAll pairs).erase key =
      (table.erase key).insertAll (pairs.filter fun pair => pair.1 ≠ key) := by
    induction pairs with
    | nil => exact fun _ => rfl
    | cons pair rest ih =>
        intro table
        rw [insertAll_cons, ih, erase_insert]
        by_cases h : pair.1 = key
        · simp [h]
        · simp [h, insertAll_cons]
  exact hstep empty

end Writing

/-! ## Changing values -/

theorem get?_map [DecidableEq κ] (change : ν → μ) (table : Table κ ν)
    (key : κ) :
    (table.map change).get? key = (table.get? key).map change := by
  obtain ⟨entries, hnodup⟩ := table
  simp only [get?, map]
  clear hnodup
  induction entries with
  | nil => rfl
  | cons entry rest ih =>
      by_cases h : entry.1 = key
      · simp [find?, h]
      · simp [find?, h, ih]

@[simp] theorem contains_map [DecidableEq κ] (change : ν → μ)
    (table : Table κ ν) (key : κ) :
    (table.map change).contains key = table.contains key := by
  simp [contains, get?_map]

theorem map_congr {change other : ν → μ} {table : Table κ ν}
    (h : ∀ value ∈ table.values, change value = other value) :
    table.map change = table.map other := by
  apply Table.ext
  apply List.map_congr_left
  rintro ⟨key, value⟩ hentry
  rw [h value (mem_values_iff.mpr ⟨key, hentry⟩)]

/-! ## Looking names up -/

theorem mem_values_of_lookup? {table : Table String ν} {tolerance : Tolerance}
    {name : String} {value : ν}
    (h : table.lookup? tolerance name = some value) : value ∈ table.values := by
  rw [lookup?] at h
  split at h
  · next found hfound =>
      cases h
      exact mem_values_of_get? hfound
  · obtain ⟨suffix, -, hsuffix⟩ := List.exists_of_findSome?_eq_some h
    obtain ⟨ending, hending, rfl⟩ := Option.map_eq_some_iff.mp hsuffix
    have hmem := List.mem_of_find?_eq_some hending
    obtain ⟨entry, hentry, rfl⟩ := List.mem_map.mp hmem
    exact mem_values_iff.mpr ⟨entry.1, hentry⟩

theorem lookup?_map (change : ν → μ) (table : Table String ν)
    (tolerance : Tolerance) (name : String) :
    (table.map change).lookup? tolerance name =
      (table.lookup? tolerance name).map change := by
  have hendings : Lookup.endings name (table.map change).entries =
      (Lookup.endings name table.entries).map fun ending =>
        (ending.1, change ending.2) := by
    simp [Lookup.endings, Table.map, Function.comp_def]
  have hfirst : ∀ length,
      Lookup.firstEnding? length
        (Lookup.endings name (table.map change).entries) =
        (Lookup.firstEnding? length (Lookup.endings name table.entries)).map
          change := by
    intro length
    rw [hendings, Lookup.firstEnding?, Lookup.firstEnding?, List.find?_map]
    simp [Function.comp_def]
  unfold lookup?
  rw [get?_map]
  cases table.get? name with
  | some value => rfl
  | none =>
      simp only [Option.map_none, hfirst]
      exact List.map_findSome?.symm

end FuzzReach.Table
