import FuzzReach.Name
import FuzzReach.Proofs.Text.Cut
import Mathlib.Data.List.Basic

/-!
# Names behind a scope

The qualified name of something is its own name behind the names of its scope.
A name without colons can be read back from it, and so can the spelling of the
scope.  Any text falls into segments; its suffixes are what is left when leading
segments are dropped.
-/

namespace FuzzReach.Name

theorem join_append_singleton {scope : List String} (hscope : scope ≠ [])
    (name : String) :
    join (scope ++ [name]) = join scope ++ "::" ++ name := by
  induction scope with
  | nil => exact absurd rfl hscope
  | cons segment rest ih =>
      cases rest with
      | nil => rfl
      | cons next rest =>
          have htail : join (next :: rest ++ [name]) = join (next :: rest) ++
              "::" ++ name :=
            ih (by simp)
          have hhead : ∀ names : List String, names ≠ [] →
              join (segment :: names) = segment ++ "::" ++ join names := by
            intro names hnames
            cases names with
            | nil => exact absurd rfl hnames
            | cons => rfl
          rw [List.cons_append, hhead _ (by simp), htail, hhead _ (by simp)]
          simp only [String.append_assoc]

@[simp] theorem qualify_nil (name : String) : qualify [] name = name := rfl

theorem qualify_of_ne_nil {scope : List String} (hscope : scope ≠ [])
    (name : String) :
    qualify scope name = join scope ++ "::" ++ name :=
  join_append_singleton hscope name

theorem qualify_injective (scope : List String) :
    (qualify scope).Injective := by
  intro first second h
  by_cases hscope : scope = []
  · simpa [hscope] using h
  · rw [qualify_of_ne_nil hscope, qualify_of_ne_nil hscope] at h
    exact (String.append_right_inj _).mp h

def SameScope (first second : List String) : Prop :=
  first.isEmpty = second.isEmpty ∧ join first = join second

instance (first second : List String) : Decidable (SameScope first second) :=
  inferInstanceAs (Decidable (_ ∧ _))

theorem SameScope.symm {first second : List String}
    (h : SameScope first second) :
    SameScope second first :=
  ⟨h.1.symm, h.2.symm⟩

theorem qualify_eq_self_iff {scope : List String} {name other : String}
    (hother : ':' ∉ other.toList) :
    qualify scope name = other ↔ scope = [] ∧ name = other := by
  by_cases hscope : scope = []
  · simp [hscope]
  · rw [qualify_of_ne_nil hscope]
    refine ⟨fun heq => absurd ?_ hother, fun h => absurd h.1 hscope⟩
    simp [← heq]

/-- A name without colons ends after the last separator, so it can be read back
from behind its scope. -/
theorem qualify_eq_qualify_iff {first second : List String}
    {name other : String} (hname : ':' ∉ name.toList)
    (hother : ':' ∉ other.toList) :
    qualify first name = qualify second other ↔ SameScope first second ∧
      name = other := by
  by_cases hfirst : first = []
  · rw [hfirst, qualify_nil, eq_comm, qualify_eq_self_iff hname]
    cases second with
    | nil => simp [SameScope, eq_comm]
    | cons => simp [SameScope]
  by_cases hsecond : second = []
  · rw [hsecond, qualify_nil, qualify_eq_self_iff hother]
    simp [SameScope, hfirst]
  rw [qualify_of_ne_nil hfirst, qualify_of_ne_nil hsecond]
  constructor
  · intro heq
    have hreverse :
        name.toList.reverse ++ ':' :: ':' :: (join first).toList.reverse =
        other.toList.reverse ++ ':' :: ':' :: (join second).toList.reverse := by
      simpa [String.toList_append]
        using congrArg (fun text => text.toList.reverse) heq
    have hnames : name = other :=
      String.toList_inj.mp <| List.reverse_injective <|
        Text.eq_of_append_cons (by simpa using hname)
          (by simpa using hother) hreverse
    subst hnames
    have hempty : first.isEmpty = second.isEmpty := by
      rw [List.isEmpty_eq_false_iff.mpr hfirst,
        List.isEmpty_eq_false_iff.mpr hsecond]
    exact ⟨⟨hempty,
      (String.append_left_inj _).mp ((String.append_left_inj _).mp heq)⟩, rfl⟩
  · rintro ⟨⟨-, hscopes⟩, rfl⟩
    rw [hscopes]

theorem cutLast?_separator {last : List Char} (h : ':' ∉ last) :
    Text.cutLast? separator (':' :: ':' :: last) = some ([], last) := by
  have hlast : Text.cutLast? separator last = none :=
    Text.cutLast?_eq_none (by simp [separator]) h
  have hstart : Text.afterStart? separator (':' :: last) = none := by
    cases last with
    | nil => rfl
    | cons character last =>
        have hcolon : ':' ≠ character := by
          rintro rfl
          simp at h
        simp [Text.afterStart?, separator, hcolon]
  rw [Text.cutLast?, Text.cutLast?, hlast, hstart]
  simp [Text.afterStart?, separator]

theorem lastSegment_of_notMem {last : List Char}
    (h : ':' ∉ last) : lastSegment last = last := by
  have hcut : Text.cutLast? separator last = none :=
    Text.cutLast?_eq_none (by simp [separator]) h
  rw [lastSegment, Text.afterLast, hcut]
  rfl

theorem lastSegment_behind (scope : List Char) {last : List Char}
    (h : ':' ∉ last) :
    lastSegment (scope ++ ':' :: ':' :: last) = last := by
  rw [lastSegment, Text.afterLast,
    Text.cutLast?_append scope (cutLast?_separator h)]
  rfl

theorem owner_qualify {scope : List String} (hscope : scope ≠ [])
    {name : String} (hname : ':' ∉ name.toList) :
    owner (qualify scope name) = join scope := by
  have htext : (qualify scope name).toList = (join scope).toList ++ ':' ::
      ':' :: name.toList := by
    simp [qualify_of_ne_nil hscope]
  rw [owner, htext, Text.cutLast?_append _ (cutLast?_separator hname)]
  simp

/-! ## Segments -/

def segments (name : List Char) : List (List Char) :=
  match _hcut : Text.cut? separator name with
  | none => [name]
  | some (segment, rest) => segment :: segments rest
termination_by name.length
decreasing_by
  have hlength := congrArg List.length (Text.eq_append_of_cut? _hcut)
  simp [separator] at hlength
  omega

def withoutSegments (count : Nat) (name : List Char) : List Char :=
  separator.intercalate ((segments name).drop count)

theorem segments_of_some {name segment rest : List Char}
    (h : Text.cut? separator name = some (segment, rest)) :
    segments name = segment :: segments rest := by
  rw [segments]
  split
  · next hcut => simp [h] at hcut
  · next hcut =>
      obtain ⟨rfl, rfl⟩ := Prod.mk.inj (Option.some.inj (h.symm.trans hcut))
      rfl

theorem segments_ne_nil (name : List Char) : segments name ≠ [] := by
  fun_induction segments name <;> simp

theorem segments_of_notMem {name : List Char}
    (h : ':' ∉ name) : segments name = [name] := by
  have hnone : Text.cut? separator name = none :=
    Text.cut?_eq_none (by simp [separator]) h
  rw [segments]
  split
  · rfl
  · next hcut => cases hnone.symm.trans hcut

theorem getLast?_segments_of_some {name segment rest : List Char}
    (h : Text.cut? separator name = some (segment, rest)) :
    (segments name).getLast? = (segments rest).getLast? := by
  rw [segments_of_some h, List.getLast?_cons_of_ne_nil (segments_ne_nil rest)]

theorem intercalate_segments (name : List Char) :
    separator.intercalate (segments name) = name := by
  fun_induction segments name with
  | case1 name => simp
  | case2 name segment rest hcut ih =>
      rw [List.intercalate_cons_of_ne_nil (segments_ne_nil rest), ih]
      exact (Text.eq_append_of_cut? hcut).symm

/-- A third colon in a row belongs to the segment behind it. -/
example : segments "a:::b::".toList = ["a".toList, ":b".toList, []] := by
  decide +kernel

theorem withoutSegments_zero (name : List Char) :
    withoutSegments 0 name = name :=
  intercalate_segments name

theorem withoutSegments_succ {name segment rest : List Char}
    (h : Text.cut? separator name = some (segment, rest)) (count : Nat) :
    withoutSegments (count + 1) name = withoutSegments count rest := by
  rw [withoutSegments, segments_of_some h, List.drop_succ_cons, withoutSegments]

theorem withoutSegments_last (name : List Char) :
    withoutSegments ((segments name).length - 1) name =
      (segments name).getLast (segments_ne_nil name) := by
  have hpos := List.length_pos_of_ne_nil (segments_ne_nil name)
  rw [withoutSegments, List.drop_eq_getElem_cons (by omega),
    List.getLast_eq_getElem, List.drop_of_length_le (by omega)]
  simp

/-- Reading from left to right finds the separators at which the name is cut. -/
theorem afterSeparators_eq (name : List Char) :
    afterSeparators name =
      ((Text.cut? separator name).map fun parts => suffixes parts.2).getD
        [] := by
  fun_induction afterSeparators name with
  | case1 rest ih =>
      have hcut : Text.cut? separator (':' :: ':' :: rest) = some ([], rest) :=
        Text.cut?_of_start rfl
      rw [hcut]
      rfl
  | case2 first rest hfirst ih =>
      have hstart : Text.afterStart? separator (first :: rest) = none := by
        rw [Option.eq_none_iff_forall_ne_some]
        intro after hafter
        obtain ⟨rfl, rfl⟩ :=
          List.cons.inj (Text.afterStart?_eq_some_iff.mp hafter)
        exact hfirst after rfl rfl
      rw [Text.cut?_cons hstart, Option.map_map, ih]
      rfl
  | case3 => rfl

theorem suffixes_of_none {name : List Char}
    (h : Text.cut? separator name = none) :
    suffixes name = [name] := by
  rw [suffixes, afterSeparators_eq, h]
  rfl

theorem suffixes_of_some {name segment rest : List Char}
    (h : Text.cut? separator name = some (segment, rest)) :
    suffixes name = name :: suffixes rest := by
  rw [suffixes, afterSeparators_eq, h]
  rfl

theorem suffixes_eq_map (name : List Char) :
    suffixes name =
      (List.range (segments name).length).map fun count =>
        withoutSegments count name := by
  fun_induction segments name with
  | case1 name hcut => simp [suffixes_of_none hcut, withoutSegments_zero]
  | case2 name segment rest hcut ih =>
      rw [suffixes_of_some hcut, ih, List.length_cons, List.range_succ_eq_map,
        List.map_cons, List.map_map, withoutSegments_zero]
      simp only [Function.comp_def, withoutSegments_succ hcut]

theorem pairwise_suffixes (name : List Char) :
    (suffixes name).Pairwise fun longer shorter =>
      shorter <:+ longer ∧ shorter.length < longer.length := by
  fun_induction segments name with
  | case1 name hcut => simp [suffixes_of_none hcut]
  | case2 name segment rest hcut ih =>
      have heq := Text.eq_append_of_cut? hcut
      have hrest : rest <:+ name := ⟨segment ++ separator, heq.symm⟩
      have hshorter : rest.length < name.length := by
        simp [heq, separator]
        omega
      rw [suffixes_of_some hcut, List.pairwise_cons]
      refine ⟨?_, ih⟩
      rw [suffixes, List.pairwise_cons] at ih
      rintro text (_ | ⟨_, htext⟩)
      · exact ⟨hrest, hshorter⟩
      · obtain ⟨hsuffix, hlength⟩ := ih.1 text htext
        exact ⟨hsuffix.trans hrest, Nat.lt_trans hlength hshorter⟩

end FuzzReach.Name
