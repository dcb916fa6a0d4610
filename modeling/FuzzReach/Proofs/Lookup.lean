import FuzzReach.Proofs.Name
import FuzzReach.Proofs.Table

/-!
# What a name means

A name that is no key means the first key that ends with the longest of its
shortened forms which ends any key at all.  Dropping more segments gives shorter
forms, and a form that ends a key passes that on to all shorter ones.  So a name
means nothing exactly if no key ends with the shortest form, and what is found
with few segments dropped is found with many.
-/

namespace FuzzReach

def Tolerance.Allows : Tolerance → Nat → Prop
  | .oneSegment, count => count ≤ 1
  | .allSegments, _ => True

namespace Lookup

variable {ν : Type}

/-- The text is what is left of a name when some of its leading segments are
dropped, though not all of them. -/
def IsShortened (tolerance : Tolerance) (name text : List Char) : Prop :=
  ∃ count < (Name.segments name).length, tolerance.Allows count ∧
    text = Name.withoutSegments count name

def EndsKey (table : Table String ν) (text : List Char) : Prop :=
  ∃ key ∈ table.keys, text <:+ key.toList

def IsFirstEnding (table : Table String ν) (text : List Char)
    (value : ν) : Prop :=
  ∃ before key after, table.entries = before ++ (key, value) :: after ∧
    text <:+ key.toList ∧
    ∀ entry ∈ before, ¬text <:+ entry.1.toList

/-! ## Shortened names -/

theorem mem_candidates_iff {tolerance : Tolerance} {name : String}
    {text : List Char} :
    text ∈ candidates tolerance name ↔
      IsShortened tolerance name.toList text := by
  cases tolerance with
  | oneSegment =>
      rw [candidates, Name.suffixes_eq_map, ← List.map_take, List.take_range]
      simp only [IsShortened, Tolerance.Allows, List.mem_map, List.mem_range]
      constructor
      · rintro ⟨count, hcount, rfl⟩
        exact ⟨count, by omega, by omega, rfl⟩
      · rintro ⟨count, hcount, hallowed, rfl⟩
        exact ⟨count, by omega, rfl⟩
  | allSegments =>
      rw [candidates, Name.suffixes_eq_map]
      simp [IsShortened, Tolerance.Allows, eq_comm]

private theorem pairwise_candidates (tolerance : Tolerance) (name : String) :
    (candidates tolerance name).Pairwise fun longer shorter =>
      shorter <:+ longer ∧ shorter.length < longer.length := by
  cases tolerance with
  | oneSegment =>
      exact (Name.pairwise_suffixes name.toList).sublist (List.take_sublist _ _)
  | allSegments => exact Name.pairwise_suffixes name.toList

private theorem candidates_eq_cons (tolerance : Tolerance) (name : String) :
    ∃ rest, candidates tolerance name = name.toList :: rest := by
  cases tolerance with
  | oneSegment => exact ⟨_, List.take_succ_cons⟩
  | allSegments => exact ⟨_, rfl⟩

private theorem suffix_of_mem_candidates {tolerance : Tolerance} {name : String}
    {text : List Char} (h : text ∈ candidates tolerance name) :
    text <:+ name.toList := by
  have hpairwise := pairwise_candidates tolerance name
  obtain ⟨rest, hrest⟩ := candidates_eq_cons tolerance name
  rw [hrest] at h hpairwise
  rcases List.mem_cons.mp h with rfl | h
  · exact List.suffix_refl _
  · exact ((List.pairwise_cons.mp hpairwise).1 text h).1

private theorem suffix_of_getLast? {tolerance : Tolerance} {name : String}
    {shortest text : List Char}
    (hshortest : (candidates tolerance name).getLast? = some shortest)
    (h : text ∈ candidates tolerance name) : shortest <:+ text := by
  have hpairwise := pairwise_candidates tolerance name
  obtain ⟨longer, hlonger⟩ := List.getLast?_eq_some_iff.mp hshortest
  rw [hlonger] at h hpairwise
  rcases List.mem_append.mp h with h | h
  · exact ((List.pairwise_append.mp hpairwise).2.2 text h shortest (by simp)).1
  · exact List.mem_singleton.mp h ▸ List.suffix_refl text

theorem getLast?_candidates_allSegments (name : String) :
    (candidates .allSegments name).getLast? =
      some ((Name.segments name.toList).getLast (Name.segments_ne_nil _)) := by
  have hpos := List.length_pos_of_ne_nil (Name.segments_ne_nil name.toList)
  rw [candidates, Name.suffixes_eq_map, List.getLast?_map, List.getLast?_range,
    if_neg (by omega), Option.map_some, Name.withoutSegments_last]

private theorem getLast?_candidates_oneSegment (name : String) :
    (candidates .oneSegment name).getLast? =
      some (Name.withoutSegments
        (min 1 ((Name.segments name.toList).length - 1)) name.toList) := by
  have hpos := List.length_pos_of_ne_nil (Name.segments_ne_nil name.toList)
  rw [candidates, Name.suffixes_eq_map, ← List.map_take, List.take_range,
    List.getLast?_map, List.getLast?_range, if_neg (by omega), Option.map_some]
  congr 2
  omega

/-! ## The first key with an ending -/

def ending? (table : Table String ν) (text : List Char) : Option ν :=
  (table.entries.find? fun entry => text <:+ entry.1.toList).map Prod.snd

theorem le_sharedLength_reverse_iff {name key text : List Char}
    (h : text <:+ name) :
    text.length ≤ sharedLength name.reverse key.reverse ↔ text <:+ key := by
  rw [le_sharedLength_iff (by simpa using h.length_le), ← List.reverse_prefix]
  -- Of the name only its last characters matter, and those are the text.
  have htake : name.reverse.take text.length = text.reverse := by
    obtain ⟨front, rfl⟩ := h
    simp
  rw [htake]

private theorem firstEnding?_eq {name : String} {text : List Char}
    (h : text <:+ name.toList) (table : Table String ν) :
    firstEnding? text.length (endings name table.entries) =
      ending? table text := by
  rw [firstEnding?, endings, List.find?_map, Option.map_map]
  simp only [Function.comp_def, le_sharedLength_reverse_iff h]
  rfl

theorem ending?_eq_some_iff {table : Table String ν} {text : List Char}
    {value : ν} :
    ending? table text = some value ↔ IsFirstEnding table text value := by
  simp only [ending?, Option.map_eq_some_iff, List.find?_eq_some_iff_append,
    IsFirstEnding]
  constructor
  · rintro ⟨⟨key, _⟩, ⟨hends, before, after, hentries, hbefore⟩, rfl⟩
    exact ⟨before, key, after,
      hentries, by simpa using hends, by simpa using hbefore⟩
  · rintro ⟨before, key, after, hentries, hends, hbefore⟩
    exact ⟨(key, value),
      ⟨by simpa using hends, before, after, hentries, by simpa using hbefore⟩,
      rfl⟩

theorem ending?_eq_none_iff {table : Table String ν} {text : List Char} :
    ending? table text = none ↔ ¬EndsKey table text := by
  simp [ending?, EndsKey, Table.keys]

theorem EndsKey.shorter {table : Table String ν} {longer shorter : List Char}
    (h : EndsKey table longer) (hsuffix : shorter <:+ longer) :
    EndsKey table shorter := by
  obtain ⟨key, hkey, hends⟩ := h
  exact ⟨key, hkey, hsuffix.trans hends⟩

end Lookup

/-! ## Looking up -/

namespace Table

open Lookup

variable {ν : Type} {table : Table String ν} {tolerance : Tolerance}
  {name : String} {value : ν}

theorem lookup?_of_get? (h : table.get? name = some value) :
    table.lookup? tolerance name = some value := by
  rw [lookup?, h]

private theorem lookup?_of_none (h : table.get? name = none) :
    table.lookup? tolerance name =
      (candidates tolerance name).findSome? (ending? table) := by
  simp only [lookup?, h, ← List.head?_filterMap]
  congr 1
  apply List.filterMap_congr
  intro text htext
  exact firstEnding?_eq (suffix_of_mem_candidates htext) table

private theorem lookup?_eq_some_iff_of_none (h : table.get? name = none) :
    table.lookup? tolerance name = some value ↔
      ∃ text, IsShortened tolerance name.toList text ∧
      IsFirstEnding table text value ∧
        ∀ other, IsShortened tolerance name.toList other → EndsKey table other →
          other.length ≤ text.length := by
  -- The forms are tried from the longest on, and the first that ends a key
  -- decides.
  have hpairwise := pairwise_candidates tolerance name
  simp only [lookup?_of_none h, ← mem_candidates_iff, ← ending?_eq_some_iff]
  constructor
  · intro hfound
    obtain ⟨longer, text, shorter, hsplit, hvalue, hnone⟩ :=
      List.findSome?_eq_some_iff.mp hfound
    refine ⟨text, by simp [hsplit], hvalue, fun other hother hends => ?_⟩
    rw [hsplit] at hother hpairwise
    rcases List.mem_append.mp hother with hother | hother
    · exact absurd hends (ending?_eq_none_iff.mp (hnone other hother))
    · rcases List.mem_cons.mp hother with rfl | hother
      · exact Nat.le_refl _
      · have hless :=
          (List.pairwise_cons.mp (List.pairwise_append.mp hpairwise).2.1).1
            other hother
        exact Nat.le_of_lt hless.2
  · rintro ⟨text, htext, hvalue, hlongest⟩
    obtain ⟨longer, shorter, hsplit⟩ := List.append_of_mem htext
    refine List.findSome?_eq_some_iff.mpr
      ⟨longer, text, shorter, hsplit, hvalue, ?_⟩
    intro other hother
    rw [ending?_eq_none_iff]
    intro hends
    rw [hsplit] at hpairwise
    have hless :=
      (List.pairwise_append.mp hpairwise).2.2 other hother text
        List.mem_cons_self
    have hle := hlongest other (by simp [hsplit, hother]) hends
    omega

theorem lookup?_eq_none_iff {shortest : List Char}
    (hshortest : (candidates tolerance name).getLast? = some shortest) :
    table.lookup? tolerance name = none ↔ ¬EndsKey table shortest := by
  have hlisted := List.mem_of_getLast? hshortest
  cases hget : table.get? name with
  | some value =>
      have hends : EndsKey table shortest :=
        ⟨name, Table.mem_keys_iff.mpr ⟨value, get?_eq_some_iff.mp hget⟩,
          suffix_of_mem_candidates hlisted⟩
      simp [lookup?_of_get? hget, hends]
  | none =>
      rw [lookup?_of_none hget, List.findSome?_eq_none_iff]
      simp only [ending?_eq_none_iff]
      constructor
      · exact fun hnone => hnone shortest hlisted
      · exact fun hnone text htext hends =>
          hnone (hends.shorter (suffix_of_getLast? hshortest htext))

/-- Whatever a name means stands under a key that ends with the shortest form of
the name. -/
theorem isSome_lookup?_iff {shortest : List Char}
    (hshortest : (candidates tolerance name).getLast? = some shortest) :
    (table.lookup? tolerance name).isSome = true ↔ EndsKey table shortest := by
  rw [Option.isSome_iff_ne_none, ne_eq, lookup?_eq_none_iff hshortest, not_not]

theorem exists_key_of_lookup? {shortest : List Char}
    (hshortest : (candidates tolerance name).getLast? = some shortest)
    (h : table.lookup? tolerance name = some value) :
    ∃ key, (key, value) ∈ table.entries ∧ shortest <:+ key.toList := by
  cases hget : table.get? name with
  | some found =>
      obtain rfl : found = value :=
        Option.some.inj ((lookup?_of_get? hget).symm.trans h)
      exact ⟨name, get?_eq_some_iff.mp hget,
        suffix_of_mem_candidates (List.mem_of_getLast? hshortest)⟩
  | none =>
      obtain ⟨text, htext, ⟨before, key, after, hentries, hends, -⟩, -⟩ :=
        (lookup?_eq_some_iff_of_none hget).mp h
      exact ⟨key, by simp [hentries],
        (suffix_of_getLast? hshortest (mem_candidates_iff.mpr htext)).trans
          hends⟩

theorem lookup?_allSegments_of_oneSegment
    (h : table.lookup? .oneSegment name = some value) :
    table.lookup? .allSegments name = some value := by
  cases hget : table.get? name with
  | some found => rwa [lookup?_of_get? hget, ← lookup?_of_get? hget]
  | none =>
      rw [lookup?_of_none hget] at h ⊢
      exact List.IsPrefix.findSome?_eq_some (List.take_prefix 2 _) h

/-- A key means its own value.  Any other name means the value of the first key
that ends with the longest of its shortened forms which ends a key at all.  It
means nothing exactly if no key ends with the shortest form: the last segment,
or what is left behind the first segment if only one may be dropped.  What a
name means with one segment dropped at most, it means in any case. -/
theorem lookup?_longest_ending (table : Table String ν) (name : String) :
    (∀ tolerance value, table.lookup? tolerance name = some value ↔
      table.get? name = some value ∨
        table.get? name = none ∧
        ∃ text, IsShortened tolerance name.toList text ∧
          IsFirstEnding table text value ∧
          ∀ other, IsShortened tolerance name.toList other →
            EndsKey table other → other.length ≤ text.length) ∧
    (table.lookup? .allSegments name = none ↔
      ∀ key ∈ table.keys,
        ¬(Name.segments name.toList).getLast (Name.segments_ne_nil _) <:+
          key.toList) ∧
    (table.lookup? .oneSegment name = none ↔
      ∀ key ∈ table.keys,
        ¬Name.withoutSegments (min 1 ((Name.segments name.toList).length - 1))
          name.toList <:+
          key.toList) ∧
    ∀ value, table.lookup? .oneSegment name = some value →
      table.lookup? .allSegments name = some value := by
  refine ⟨fun tolerance value => ?_, ?_, ?_,
    fun value => lookup?_allSegments_of_oneSegment⟩
  · cases hget : table.get? name with
    | some found => simp [lookup?_of_get? hget]
    | none => simp [lookup?_eq_some_iff_of_none hget]
  · rw [lookup?_eq_none_iff (getLast?_candidates_allSegments name)]
    simp [EndsKey]
  · rw [lookup?_eq_none_iff (getLast?_candidates_oneSegment name)]
    simp [EndsKey]

def scopedKeys : Table String Nat :=
  .ofList [("a::b::f", 0), ("x::f", 1)]

theorem lookup?_longest_ending_scopedKeys :
    scopedKeys.lookup? .oneSegment "z::b::f" = some 0 ∧
      scopedKeys.lookup? .allSegments "z::b::f" = some 0 := by
  have hfound : scopedKeys.lookup? .oneSegment "z::b::f" = some 0 := by
    decide +kernel
  exact ⟨hfound, (lookup?_longest_ending scopedKeys "z::b::f").2.2.2 0 hfound⟩

end Table

end FuzzReach
