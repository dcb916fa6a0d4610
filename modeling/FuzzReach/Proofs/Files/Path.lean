import FuzzReach.Files.Path
import FuzzReach.Proofs.Text.Cut
import Mathlib.Data.String.Basic

/-!
# Names, components and the order of paths

The path that leads on from a root through names has the components of the root
and then these names, and its last part is the last name, also behind the end of
the root.  The order by which paths are sorted is the lexicographic one.
-/

namespace FuzzReach

namespace Files.Path

/-! ## Components -/

structure IsName (name : String) : Prop where
  ne_empty : name ≠ ""
  ne_here : name ≠ "."
  ne_above : name ≠ ".."
  no_slash : '/' ∉ name.toList

def EndsIn (name text : List Char) : Prop :=
  ('/' :: name) <:+ ('/' :: text)

private theorem EndsIn.of_slash {name mark rest : List Char}
    (hname : '/' ∉ name) (h : EndsIn name (mark ++ '/' :: rest)) :
    EndsIn name rest := by
  have hrest : ('/' :: rest) <:+ ('/' :: (mark ++ '/' :: rest)) :=
    ⟨'/' :: mark, rfl⟩
  rcases List.suffix_or_suffix_of_suffix h hrest with hsuffix | hsuffix
  · exact hsuffix
  · rcases List.suffix_cons_iff.mp hsuffix with hsame | hinner
    · obtain rfl : rest = name := (List.cons.inj hsame).2
      exact List.suffix_rfl
    · exact absurd (hinner.subset List.mem_cons_self) hname

theorem strip_cases (mark path : List Char) :
    path = mark ++ strip mark path ∨ (∀ rest, path ≠ mark ++ rest) ∧
      strip mark path = path := by
  unfold strip
  cases hpath : Text.afterStart? mark path with
  | some rest => exact Or.inl (Text.afterStart?_eq_some_iff.mp hpath)
  | none =>
      refine Or.inr ⟨fun rest hrest => ?_, rfl⟩
      rw [Text.afterStart?_eq_some_iff.mpr hrest] at hpath
      cases hpath

theorem EndsIn.strip {name text : List Char} (hname : '/' ∉ name)
    (h : EndsIn name text) (mark : List Char) :
    EndsIn name (strip (mark ++ ['/']) text) := by
  rcases strip_cases (mark ++ ['/']) text with htext | ⟨-, hstrip⟩
  · rw [htext, List.append_assoc] at h
    exact h.of_slash hname
  · rwa [hstrip]

theorem le_iff {first second : List String} :
    le first second = true ↔ first = second ∨
      List.Lex (· < ·) first second := by
  induction first generalizing second with
  | nil => cases second <;> simp [le]
  | cons name first ih =>
      cases second with
      | nil => simp [le]
      | cons other second =>
          simp only [le, Bool.or_eq_true, Bool.and_eq_true, decide_eq_true_eq,
            ih, List.cons.injEq, List.cons_lex_cons_iff]
          constructor
          · rintro (hless | ⟨heq, hsame | hrest⟩)
            · exact Or.inr (Or.inl hless)
            · exact Or.inl ⟨heq, hsame⟩
            · exact Or.inr (Or.inr ⟨heq, hrest⟩)
          · rintro (⟨heq, hsame⟩ | hless | ⟨heq, hrest⟩)
            · exact Or.inr ⟨heq, Or.inl hsame⟩
            · exact Or.inl hless
            · exact Or.inr ⟨heq, Or.inr hrest⟩

private theorem le_iff_le {first second : List String} :
    le first second = true ↔ first ≤ second :=
  le_iff.trans le_iff_eq_or_lt.symm

theorem le_total (first second : List String) :
    (le first second || le second first) = true := by
  simpa only [Bool.or_eq_true, le_iff_le]
    using LinearOrder.le_total first second

theorem le_trans (first second third : List String)
    (hfirst : le first second = true) (hsecond : le second third = true) :
    le first third = true :=
  le_iff_le.mpr ((le_iff_le.mp hfirst).trans (le_iff_le.mp hsecond))

theorem le_antisymm {first second : List String}
    (hfirst : le first second = true) (hsecond : le second first = true) :
    first = second :=
  (le_iff_le.mp hfirst).antisymm (le_iff_le.mp hsecond)

end Files.Path

end FuzzReach
