import FuzzReach.Alias
import FuzzReach.Proofs.Text.Cut

/-!
# Items and the commas between them

The items of a group are the stretches of its text between the commas outside
braces.  How many braces are open at a place is counted with a sign, so that
every text has its items: a text that closes more braces than it opens has no
comma outside braces until they are opened again.
-/

namespace FuzzReach.Alias

open Text

/-! ## Open braces -/

def braceDepth (text : List Char) : Int :=
  (text.count '\x7b' : Int) - (text.count '\x7d' : Int)

@[simp] theorem braceDepth_nil : braceDepth [] = 0 := rfl

@[simp] theorem braceDepth_append (first second : List Char) :
    braceDepth (first ++ second) = braceDepth first + braceDepth second := by
  simp only [braceDepth, List.count_append]
  omega

private theorem braceDepth_cons (character : Char) (rest : List Char) :
    braceDepth (character :: rest) = braceDepth [character] + braceDepth rest :=
  braceDepth_append [character] rest

@[simp] theorem braceDepth_comma : braceDepth [','] = 0 := rfl

/-- No brace is closed before it is opened, and none is left open. -/
structure Balanced (text : List Char) : Prop where
  nonneg : ∀ front, front <+: text → 0 ≤ braceDepth front
  closed : braceDepth text = 0

theorem balanced_iff {text : List Char} :
    Balanced text ↔
      (∀ length ∈ List.range (text.length + 1),
        0 ≤ braceDepth (text.take length)) ∧
        braceDepth text = 0 := by
  constructor
  · intro h
    exact ⟨fun length _ => h.nonneg _ (List.take_prefix length text), h.closed⟩
  · rintro ⟨hnonneg, hclosed⟩
    refine ⟨fun front hfront => ?_, hclosed⟩
    rw [List.prefix_iff_eq_take.mp hfront]
    exact hnonneg _ (List.mem_range.mpr (Nat.lt_succ_of_le hfront.length_le))

instance (text : List Char) : Decidable (Balanced text) :=
  decidable_of_iff _ balanced_iff.symm

/-! ## Pieces -/

private theorem pieces_comma (rest : List Char) :
    pieces 0 (',' :: rest) = [] :: pieces 0 rest := by
  simp [pieces]

private theorem pieces_cons {depth : Int} {character : Char}
    (h : ¬ (character = ',' ∧ depth = 0)) (rest : List Char) :
    pieces depth (character :: rest) =
      onFirst character (pieces (depth + braceDepth [character]) rest) := by
  rw [pieces, if_neg h]
  by_cases hopening : character = '\x7b'
  · simp [hopening, braceDepth]
  · by_cases hclosing : character = '\x7d'
    · simp [hclosing, braceDepth, Int.sub_eq_add_neg]
    · simp [hopening, hclosing, braceDepth]

theorem pieces_ne_nil (depth : Int) (text : List Char) :
    pieces depth text ≠ [] := by
  cases text with
  | nil => simp [pieces]
  | cons character rest =>
      rw [pieces]
      split
      · simp
      · exact onFirst_ne_nil character _

private theorem intercalate_pieces (depth : Int) (text : List Char) :
    [','].intercalate (pieces depth text) = text := by
  induction text generalizing depth with
  | nil => rfl
  | cons character rest ih =>
      by_cases hcomma : character = ',' ∧ depth = 0
      · obtain ⟨rfl, rfl⟩ := hcomma
        obtain ⟨first, others, hrest⟩ :=
          List.exists_cons_of_ne_nil (pieces_ne_nil 0 rest)
        rw [pieces_comma, hrest, List.intercalate_cons_cons, ← hrest, ih]
        rfl
      · have hjoined := ih (depth + braceDepth [character])
        rw [pieces_cons hcomma]
        cases hrest : pieces (depth + braceDepth [character]) rest with
        | nil => exact absurd hrest (pieces_ne_nil _ rest)
        | cons first others =>
            rw [hrest] at hjoined
            rw [onFirst, ← hjoined]
            cases others <;> simp

/-! ## Places of commas -/

def outerCommas (depth : Int) (text : List Char) : List Nat :=
  (List.range text.length).filter fun place =>
    text[place]? = some ',' ∧ depth + braceDepth (text.take place) = 0

def stretches (text : List Char) (start : Nat) : List Nat → List (List Char)
  | [] => [text.drop start]
  | place :: places =>
      (text.take place).drop start :: stretches text (place + 1) places

private theorem outerCommas_cons (depth : Int) (character : Char)
    (rest : List Char) :
    outerCommas depth (character :: rest) =
      (if character = ',' ∧ depth = 0 then [0] else []) ++
        (outerCommas (depth + braceDepth [character]) rest).map (· + 1) := by
  have hlater :
      (List.map Nat.succ (List.range rest.length)).filter (fun place =>
        (character :: rest)[place]? = some ',' ∧
          depth + braceDepth ((character :: rest).take place) = 0) =
      (outerCommas (depth + braceDepth [character]) rest).map (· + 1) := by
    rw [List.filter_map, outerCommas]
    congr 1
    apply List.filter_congr
    intro place _
    have hdepth : depth + braceDepth ((character :: rest).take (place + 1)) =
        depth + braceDepth [character] + braceDepth (rest.take place) := by
      rw [List.take_succ_cons, braceDepth_cons, Int.add_assoc]
    exact decide_eq_decide.mpr (and_congr Iff.rfl (by rw [← hdepth]))
  rw [outerCommas, List.length_cons, List.range_succ_eq_map,
    List.filter_cons, hlater]
  by_cases hcomma : character = ',' ∧ depth = 0 <;> simp [hcomma]

private theorem stretches_succ (character : Char) (text : List Char)
    (start : Nat) (places : List Nat) :
    stretches (character :: text) (start + 1) (places.map (· + 1)) =
      stretches text start places := by
  induction places generalizing start with
  | nil => simp [stretches]
  | cons place places ih => simp [stretches, ih]

private theorem stretches_zero (character : Char) (text : List Char)
    (places : List Nat) :
    stretches (character :: text) 0 (places.map (· + 1)) =
      onFirst character (stretches text 0 places) := by
  cases places with
  | nil => rfl
  | cons place places => simp [stretches, stretches_succ, onFirst]

private theorem pieces_eq_stretches (depth : Int) (text : List Char) :
    pieces depth text = stretches text 0 (outerCommas depth text) := by
  induction text generalizing depth with
  | nil => rfl
  | cons character rest ih =>
      rw [outerCommas_cons]
      by_cases hcomma : character = ',' ∧ depth = 0
      · obtain ⟨rfl, rfl⟩ := hcomma
        rw [pieces_comma, ih]
        simp [stretches, stretches_succ]
      · rw [pieces_cons hcomma, ih, if_neg hcomma, List.nil_append,
          stretches_zero]

/-! ## Pieces of pieces -/

/-- A text without an outer comma is one piece; any other one is cut at its
first outer comma. -/
theorem pieces_cases (depth : Int) (text : List Char) :
    (pieces depth text = [text] ∧ outerCommas depth text = []) ∨
      ∃ first rest, text = first ++ ',' :: rest ∧
      pieces depth text = first :: pieces 0 rest ∧
        outerCommas depth first = [] ∧ depth + braceDepth first = 0 := by
  induction text generalizing depth with
  | nil => exact Or.inl ⟨rfl, rfl⟩
  | cons character text ih =>
      by_cases hcomma : character = ',' ∧ depth = 0
      · obtain ⟨rfl, rfl⟩ := hcomma
        exact Or.inr ⟨[], text, rfl, pieces_comma text, rfl, rfl⟩
      · rw [pieces_cons hcomma]
        have hfirst : ∀ first,
            outerCommas (depth + braceDepth [character]) first = [] →
            outerCommas depth (character :: first) = [] := by
          intro first hnone
          rw [outerCommas_cons, if_neg hcomma, hnone]
          rfl
        rcases ih (depth + braceDepth [character]) with
          ⟨hone, hnone⟩ | ⟨first, rest, rfl, hcut, hnone, hdepth⟩
        · exact Or.inl ⟨by rw [hone, onFirst], hfirst text hnone⟩
        · refine Or.inr ⟨character :: first, rest,
            rfl, by rw [hcut, onFirst], hfirst first hnone, ?_⟩
          rw [braceDepth_cons, ← Int.add_assoc]
          exact hdepth

private theorem around_of_mem_pieces {text piece : List Char}
    (h : piece ∈ pieces 0 text) :
    ∃ before after, text = before ++ piece ++ after ∧ braceDepth before = 0 ∧
      (after = [] ∨ braceDepth piece = 0) ∧ outerCommas 0 piece = [] := by
  generalize hpieces : pieces 0 text = list at h
  induction list generalizing text with
  | nil => cases h
  | cons head tail ih =>
      rcases pieces_cases 0 text with
        ⟨hone, hnone⟩ | ⟨first, rest, rfl, hcut, hnone, hdepth⟩
      · rw [← hpieces, hone, List.mem_singleton] at h
        subst h
        exact ⟨[], [], by simp, rfl, Or.inl rfl, hnone⟩
      · rw [Int.zero_add] at hdepth
        obtain ⟨rfl, rfl⟩ := List.cons.inj (hcut.symm.trans hpieces)
        rcases List.mem_cons.mp h with rfl | hlater
        · exact ⟨[], ',' :: rest, by simp, rfl, Or.inr hdepth, hnone⟩
        · obtain ⟨before, after, rfl, hbefore, hafter, hpiece⟩ := ih rfl hlater
          refine ⟨first ++ ',' :: before, after, by simp, ?_, hafter, hpiece⟩
          rw [braceDepth_append, braceDepth_cons, hdepth, hbefore]
          rfl

private theorem braceDepth_of_mem_pieces {text piece : List Char}
    (h : piece ∈ pieces 0 text) (hclosed : braceDepth text = 0) :
    braceDepth piece = 0 := by
  obtain ⟨before, after, rfl, hbefore, hafter, -⟩ := around_of_mem_pieces h
  rcases hafter with rfl | hpiece
  · simpa [hbefore] using hclosed
  · exact hpiece

private theorem Balanced.of_mem_pieces {text piece : List Char}
    (hbalanced : Balanced text) (h : piece ∈ pieces 0 text) :
    Balanced piece where
  nonneg := by
    intro front hfront
    obtain ⟨before, after, rfl, hbefore, -, -⟩ := around_of_mem_pieces h
    have hinText : before ++ front <+: before ++ piece ++ after :=
      ((List.prefix_append_right_inj before).mpr hfront).trans
        (List.prefix_append _ after)
    simpa [hbefore] using hbalanced.nonneg _ hinText
  closed := braceDepth_of_mem_pieces h hbalanced.closed

private theorem outerCommas_of_mem_pieces {text piece : List Char}
    (h : piece ∈ pieces 0 text) :
    outerCommas 0 piece = [] := by
  obtain ⟨before, after, -, -, -, hnone⟩ := around_of_mem_pieces h
  exact hnone

private theorem items_of_mem_items {text item : List Char}
    (h : item ∈ items text) :
    items item = [item] := by
  obtain ⟨hpiece, hnonempty⟩ := List.mem_filter.mp h
  rw [items, pieces_eq_stretches, outerCommas_of_mem_pieces hpiece]
  simpa [stretches] using hnonempty

/-- The items are the stretches between the commas outside braces that are not
empty.  All stretches, joined by commas, are the text.  The items of a balanced
text are balanced, and no item can be cut further. -/
theorem items_between_outer_commas (text : List Char) :
    items text = (stretches text 0 (outerCommas 0 text)).filter
      (fun piece => !piece.isEmpty) ∧
      [','].intercalate (stretches text 0 (outerCommas 0 text)) = text ∧
      (Balanced text → ∀ item ∈ items text, Balanced item) ∧
      (braceDepth text = 0 → ∀ item ∈ items text, braceDepth item = 0) ∧
      ∀ item ∈ items text, outerCommas 0 item = [] ∧ items item = [item] := by
  have hpiece : ∀ item ∈ items text, item ∈ pieces 0 text :=
    fun item hitem => (List.mem_filter.mp hitem).1
  refine ⟨by rw [items, pieces_eq_stretches], ?_, ?_, ?_, ?_⟩
  · rw [← pieces_eq_stretches, intercalate_pieces]
  · intro hbalanced item hitem
    exact hbalanced.of_mem_pieces (hpiece item hitem)
  · intro hclosed item hitem
    exact braceDepth_of_mem_pieces (hpiece item hitem) hclosed
  · intro item hitem
    exact ⟨outerCommas_of_mem_pieces (hpiece item hitem),
      items_of_mem_items hitem⟩

def nestedGroup : List Char := "b,,c::\x7bd,e\x7d,f,".toList

theorem items_nestedGroup :
    Balanced nestedGroup ∧ outerCommas 0 nestedGroup = [1, 2, 11, 13] ∧
      items nestedGroup = [['b'], "c::\x7bd,e\x7d".toList, ['f']] ∧
      ∀ item ∈ items nestedGroup, Balanced item ∧ items item = [item] := by
  obtain ⟨-, -, hbalanced, -, hitem⟩ := items_between_outer_commas nestedGroup
  have hnested : Balanced nestedGroup := by decide +kernel
  refine ⟨hnested, by decide +kernel, by decide +kernel, fun item hmem => ?_⟩
  exact ⟨hbalanced hnested item hmem, (hitem item hmem).2⟩

end FuzzReach.Alias
