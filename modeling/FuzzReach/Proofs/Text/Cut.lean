import FuzzReach.Text.Blank

/-!
# Where a text is cut

A text can be cut at a mark exactly if the mark occurs in it.
-/

namespace FuzzReach.Text

theorem isSome_afterStart?_iff {mark text : List Char} :
    (afterStart? mark text).isSome = true ↔ mark <+: text := by
  rw [Option.isSome_iff_exists]
  exact exists_congr fun rest => afterStart?_eq_some_iff.trans eq_comm

theorem isSome_cut?_iff {mark text : List Char} :
    (cut? mark text).isSome = true ↔ mark <:+: text := by
  induction text with
  | nil =>
      rw [cut?, Option.isSome_map, isSome_afterStart?_iff]
      simp
  | cons character rest ih =>
      rw [List.infix_cons_iff, ← ih, ← isSome_afterStart?_iff, cut?]
      cases afterStart? mark (character :: rest) <;> simp

theorem cut?_eq_none_iff {mark text : List Char} :
    cut? mark text = none ↔ ¬ mark <:+: text := by
  rw [← isSome_cut?_iff]
  simp

theorem contains_iff {part text : List Char} :
    contains part text = true ↔ part <:+: text :=
  isSome_cut?_iff

/-! ## Marks that occur once -/

theorem eq_of_append_cons {mark : Char}
    {first second firstRest secondRest : List Char} (hfirst : mark ∉ first)
    (hsecond : mark ∉ second)
    (h : first ++ mark :: firstRest = second ++ mark :: secondRest) :
    first = second := by
  have htake : ∀ text rest : List Char, mark ∉ text →
      (text ++ mark :: rest).takeWhile (· ≠ mark) = text := by
    intro text rest htext
    rw [List.takeWhile_append_of_pos]
    · simp
    · intro character hmem
      simpa using fun heq : character = mark => htext (heq ▸ hmem)
  rw [← htake first firstRest hfirst, h, htake second secondRest hsecond]

theorem cut?_of_start {mark text rest : List Char}
    (h : afterStart? mark text = some rest) :
    cut? mark text = some ([], rest) := by
  cases text <;> simp [cut?, h]

theorem cut?_cons {mark : List Char} {character : Char} {text : List Char}
    (h : afterStart? mark (character :: text) = none) :
    cut? mark (character :: text) =
      (cut? mark text).map fun (before, after) =>
        (character :: before, after) := by
  simp [cut?, h]

/-- A text is cut where the last character of the mark first comes up. -/
theorem cut?_append {front before : List Char} {last : Char}
    (hfront : last ∉ front) (hbefore : last ∉ before) (after : List Char) :
    cut? (front ++ [last]) (before ++ front ++ last :: after) =
      some (before, after) := by
  induction before with
  | nil => exact cut?_of_start (afterStart?_eq_some_iff.mpr (by simp))
  | cons character before ih =>
      simp only [List.mem_cons, not_or] at hbefore
      rw [List.cons_append, List.cons_append, cut?_cons, ih hbefore.2]
      · rfl
      · cases h : afterStart? (front ++ [last])
            (character :: (before ++ front ++ last :: after)) with
        | none => rfl
        | some rest =>
            have heq : character :: (before ++ front) ++ last :: after =
                front ++ last :: rest := by
              simpa using afterStart?_eq_some_iff.mp h
            have hlength := congrArg List.length
              (eq_of_append_cons (by simp [hbefore, hfront]) hfront heq)
            simp at hlength
            omega

theorem cut?_eq_none {mark : List Char} {text : List Char} {character : Char}
    (hmark : character ∈ mark) (htext : character ∉ text) :
    cut? mark text = none :=
  cut?_eq_none_iff.mpr fun hpart => htext (hpart.subset hmark)

/-! ## The last occurrence -/

theorem cutLast?_eq_none {mark text : List Char} {character : Char}
    (hmark : character ∈ mark) (htext : character ∉ text) :
    cutLast? mark text = none := by
  cases h : cutLast? mark text with
  | none => rfl
  | some parts =>
      have heq := eq_append_of_cutLast? h
      exact absurd (heq ▸ by simp [hmark]) htext

theorem cutLast?_append {mark text after : List Char} (before : List Char)
    (h : cutLast? mark text = some ([], after)) :
    cutLast? mark (before ++ text) = some (before, after) := by
  induction before with
  | nil => exact h
  | cons character before ih => simp [cutLast?, ih]

/-! ## Pieces between marks -/

theorem onFirst_ne_nil (character : Char) (pieces : List (List Char)) :
    onFirst character pieces ≠ [] := by
  cases pieces <;> simp [onFirst]

end FuzzReach.Text
