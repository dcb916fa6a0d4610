/-!
# Tables in order of insertion

A table lists its keys in the order in which they first came in.  Writing an old
key again keeps its place and replaces its value.
-/

namespace FuzzReach

structure Table (κ : Type) (ν : Type) where
  entries : List (κ × ν)
  nodup : (entries.map Prod.fst).Nodup

namespace Table

variable {κ ν : Type}

@[ext] theorem ext {first second : Table κ ν}
    (h : first.entries = second.entries) :
    first = second := by
  cases first
  cases second
  cases h
  rfl

def empty : Table κ ν := ⟨[], by simp⟩

instance : Inhabited (Table κ ν) := ⟨empty⟩

def keys (table : Table κ ν) : List κ :=
  table.entries.map Prod.fst

def values (table : Table κ ν) : List ν :=
  table.entries.map Prod.snd

def isEmpty (table : Table κ ν) : Bool :=
  table.entries.isEmpty

def size (table : Table κ ν) : Nat :=
  table.entries.length

/-! ## Writing -/

def place [DecidableEq κ] (key : κ) (value : ν) : List (κ × ν) → List (κ × ν)
  | [] => [(key, value)]
  | entry :: rest =>
      if entry.1 = key then (key, value) :: rest
        else entry :: place key value rest

theorem map_fst_place [DecidableEq κ] (key : κ) (value : ν)
    (entries : List (κ × ν)) :
    (place key value entries).map Prod.fst =
      if key ∈ entries.map Prod.fst then entries.map Prod.fst
      else entries.map Prod.fst ++ [key] := by
  induction entries with
  | nil => simp [place]
  | cons entry rest ih =>
      by_cases h : entry.1 = key
      · simp [place, h]
      · have h' : key ≠ entry.1 := fun heq => h heq.symm
        simp only [place, h, if_false, List.map_cons, ih, List.mem_cons, h',
          false_or]
        split <;> simp

def insert [DecidableEq κ] (table : Table κ ν) (key : κ)
    (value : ν) : Table κ ν where
  entries := place key value table.entries
  nodup := by
    rw [map_fst_place]
    split
    · exact table.nodup
    · next h =>
        rw [List.nodup_append]
        refine ⟨table.nodup, by simp, ?_⟩
        intro first hfirst second hsecond heq
        rw [List.mem_singleton] at hsecond
        exact h (hsecond ▸ heq ▸ hfirst)

def insertAll [DecidableEq κ] (table : Table κ ν) (pairs : List (κ × ν)) :
    Table κ ν :=
  pairs.foldl (fun table pair => table.insert pair.1 pair.2) table

def ofList [DecidableEq κ] (pairs : List (κ × ν)) : Table κ ν :=
  empty.insertAll pairs

def merge [DecidableEq κ] (table other : Table κ ν) : Table κ ν :=
  table.insertAll other.entries

def erase [DecidableEq κ] (table : Table κ ν) (key : κ) : Table κ ν where
  entries := table.entries.filter fun entry => entry.1 ≠ key
  nodup := table.nodup.sublist (List.filter_sublist.map Prod.fst)

def map {μ : Type} (change : ν → μ) (table : Table κ ν) : Table κ μ where
  entries := table.entries.map fun entry => (entry.1, change entry.2)
  nodup := by
    simpa [List.map_map, Function.comp_def] using table.nodup

/-! ## Reading -/

def find? [DecidableEq κ] (key : κ) : List (κ × ν) → Option ν
  | [] => none
  | entry :: rest => if entry.1 = key then some entry.2 else find? key rest

def get? [DecidableEq κ] (table : Table κ ν) (key : κ) : Option ν :=
  find? key table.entries

def contains [DecidableEq κ] (table : Table κ ν) (key : κ) : Bool :=
  (table.get? key).isSome

theorem find?_place [DecidableEq κ] (key other : κ) (value : ν)
    (entries : List (κ × ν)) :
    find? other (place key value entries) =
      if key = other then some value else find? other entries := by
  induction entries with
  | nil => simp [place, find?]
  | cons entry rest ih =>
      by_cases h : entry.1 = key
      · by_cases h' : key = other <;> simp [place, find?, h, h']
      · by_cases h' : key = other
        · subst h'
          simp [place, find?, h, ih]
        · simp [place, find?, h, ih, h']

theorem find?_eq_some_iff [DecidableEq κ] {entries : List (κ × ν)}
    (hnodup : (entries.map Prod.fst).Nodup) {key : κ} {value : ν} :
    find? key entries = some value ↔ (key, value) ∈ entries := by
  induction entries with
  | nil => simp [find?]
  | cons entry rest ih =>
      obtain ⟨first, second⟩ := entry
      simp only [List.map_cons, List.nodup_cons] at hnodup
      rw [find?, List.mem_cons, Prod.mk.injEq]
      by_cases h : first = key
      · subst h
        have hfresh : (first, value) ∉ rest := fun hmem =>
          hnodup.1 (List.mem_map_of_mem hmem)
        simp [hfresh, eq_comm]
      · simp [h, ih hnodup.2, Ne.symm h]

theorem get?_eq_some_iff [DecidableEq κ] {table : Table κ ν} {key : κ}
    {value : ν} :
    table.get? key = some value ↔ (key, value) ∈ table.entries :=
  find?_eq_some_iff table.nodup

@[simp] theorem entries_empty : (empty : Table κ ν).entries = [] := rfl

@[simp] theorem get?_empty [DecidableEq κ]
    (key : κ) : (empty : Table κ ν).get? key = none := rfl

@[simp] theorem keys_insert [DecidableEq κ] (table : Table κ ν) (key : κ)
    (value : ν) :
    (table.insert key value).keys =
      if key ∈ table.keys then table.keys else table.keys ++ [key] :=
  map_fst_place key value table.entries

@[simp] theorem get?_insert [DecidableEq κ] (table : Table κ ν) (key other : κ)
    (value : ν) :
    (table.insert key value).get? other = if key = other then some value
      else table.get? other :=
  find?_place key other value table.entries

end Table

end FuzzReach
