import FuzzReach.Proofs.Alias.UseTree

/-!
# Blanks and renames of a spelling

However the tokens of a declaration are spelled, what is left after blanks were
taken out and renames marked are the marks of the tokens.
-/

namespace FuzzReach.Alias

open Text

/-! ## One character after the other -/

private theorem words_ne_nil (text : List Char) : words text ≠ [] := by
  induction text with
  | nil => simp [words]
  | cons character rest ih =>
      rw [words]
      split
      · split <;> simp [ih]
      · cases h : words rest with
        | nil => exact absurd h ih
        | cons => simp [onFirst]

private theorem joinWords_rename (word next : List Char)
    (rest : List (List Char)) :
    joinWords (word :: ['a', 's'] :: next :: rest) =
      word ++ '@' :: joinWords (next :: rest) := by
  rw [joinWords]

private theorem joinWords_cons (word : List Char) {rest : List (List Char)}
    (h : ∀ next others, rest ≠ ['a', 's'] :: next :: others) :
    joinWords (word :: rest) = word ++ joinWords rest := by
  rw [joinWords]
  exact h

private theorem joinWords_onFirst (character : Char) {pieces : List (List Char)}
    (h : pieces ≠ []) :
    joinWords (onFirst character pieces) = character :: joinWords pieces := by
  obtain ⟨word, rest, rfl⟩ := List.exists_cons_of_ne_nil h
  rw [onFirst]
  by_cases hrest : ∃ next others, rest = ['a', 's'] :: next :: others
  · obtain ⟨next, others, rfl⟩ := hrest
    simp [joinWords_rename]
  · have hrest' : ∀ next others, rest ≠ ['a', 's'] :: next :: others :=
      fun next others heq => hrest ⟨next, others, heq⟩
    simp [joinWords_cons _ hrest']

private theorem compact_letter {character : Char}
    (h : isBlank character = false) (rest : List Char) :
    compact (character :: rest) = character :: compact rest := by
  rw [compact, words, if_neg (by simp [h]),
    joinWords_onFirst _ (words_ne_nil rest), compact]

private theorem compact_letters {text : List Char}
    (h : ∀ character ∈ text, isBlank character = false) (rest : List Char) :
    compact (text ++ rest) = text ++ compact rest := by
  induction text with
  | nil => rfl
  | cons character text ih =>
      rw [List.cons_append, compact_letter (h _ (by simp)),
        ih fun other hother => h other (by simp [hother]), List.cons_append]

/-! ## Gaps -/

def StartsRename (text : List Char) : Prop :=
  ∃ blank rest, isBlank blank = true ∧ text = 'a' :: 's' :: blank :: rest

private theorem words_gap {gap : List Char} (hgap : IsGap gap) (hne : gap ≠ [])
    {rest : List Char}
    (hrest : ∀ character ∈ rest.head?, isBlank character = false) :
    words (gap ++ rest) = [] :: words rest := by
  induction gap with
  | nil => exact absurd rfl hne
  | cons blank gap ih =>
      have hblank := hgap blank (by simp)
      rw [List.cons_append, words, if_pos hblank]
      cases gap with
      | nil =>
          rw [if_neg]
          · rfl
          · cases rest with
            | nil => simp
            | cons character rest => simpa using hrest character (by simp)
      | cons second gap =>
          have hsecond := hgap second (by simp)
          rw [if_pos (by simpa using hsecond)]
          exact ih (fun other hother => hgap other (by simp [hother])) (by simp)

private theorem words_head_of_blank {blank : Char}
    (hblank : isBlank blank = true) (rest : List Char) :
    ∃ others, words (blank :: rest) = [] :: others := by
  induction rest generalizing blank with
  | nil => exact ⟨[[]], by simp [words, hblank]⟩
  | cons second rest ih =>
      rw [words, if_pos hblank]
      by_cases hsecond : isBlank second = true
      · rw [if_pos (by simpa using hsecond)]
        exact ih hsecond
      · rw [if_neg (by simpa using hsecond)]
        exact ⟨_, rfl⟩

private theorem eq_cons_of_words {text word : List Char} {character : Char}
    {others : List (List Char)}
    (h : words text = (character :: word) :: others) :
    ∃ rest, text = character :: rest ∧ words rest = word :: others := by
  cases text with
  | nil => simp [words] at h
  | cons first rest =>
      by_cases hfirst : isBlank first = true
      · obtain ⟨pieces, hpieces⟩ := words_head_of_blank hfirst rest
        rw [hpieces] at h
        simp at h
      · obtain ⟨piece, pieces, hpieces⟩ :=
          List.exists_cons_of_ne_nil (words_ne_nil rest)
        rw [words, if_neg hfirst, hpieces, onFirst] at h
        simp only [List.cons.injEq] at h
        obtain ⟨⟨rfl, rfl⟩, rfl⟩ := h
        exact ⟨rest, rfl, hpieces⟩

private theorem startsRename_of_words {text next : List Char}
    {others : List (List Char)}
    (h : words text = ['a', 's'] :: next :: others) : StartsRename text := by
  obtain ⟨afterFirst, rfl, hfirst⟩ := eq_cons_of_words h
  obtain ⟨rest, rfl, hrest⟩ := eq_cons_of_words hfirst
  cases rest with
  | nil => simp [words] at hrest
  | cons blank rest =>
      refine ⟨blank, rest, ?_, rfl⟩
      cases hblank : isBlank blank with
      | true => rfl
      | false =>
          obtain ⟨piece, pieces, hpieces⟩ :=
            List.exists_cons_of_ne_nil (words_ne_nil rest)
          simp [words, hblank, hpieces, onFirst] at hrest

private theorem compact_gap {gap rest : List Char} (hgap : IsGap gap)
    (hrest : ∀ character ∈ rest.head?, isBlank character = false)
    (hrename : ¬ StartsRename rest) :
    compact (gap ++ rest) = compact rest := by
  by_cases hne : gap = []
  · simp [hne]
  · rw [compact, words_gap hgap hne hrest, joinWords_cons]
    · rfl
    · exact fun next others heq => hrename (startsRename_of_words heq)

private theorem compact_rename {before after rest : List Char}
    (hbefore : IsGap before) (hne : before ≠ []) (hafter : IsGap after)
    (hne' : after ≠ [])
    (hrest : ∀ character ∈ rest.head?, isBlank character = false) :
    compact (before ++ (['a', 's'] ++ after ++ rest)) =
      '@' :: compact rest := by
  obtain ⟨next, others, hwords⟩ :=
    List.exists_cons_of_ne_nil (words_ne_nil rest)
  have has : words (['a', 's'] ++ after ++ rest) = ['a', 's'] :: next ::
      others := by
    have hletters : isBlank 'a' = false ∧ isBlank 's' = false := by decide
    simp [words, hletters, words_gap hafter hne' hrest, onFirst, hwords]
  rw [compact, words_gap hbefore hne (by simp; decide), has, joinWords_rename,
    compact, hwords]
  rfl

/-! ## Tokens -/

private theorem Segment.not_blank (segment : Segment) {character : Char}
    (h : character ∈ segment.letters) : isBlank character = false := by
  have := segment.isLetter_of_mem character h
  simp [isLetter] at this
  exact this.1

private theorem Token.target_not_blank (name : Option Segment)
    {character : Char} (h : character ∈ target name) :
    isBlank character = false := by
  cases name with
  | some segment => exact segment.not_blank h
  | none =>
      obtain rfl := List.mem_singleton.mp h
      decide

private theorem Token.target_ne_nil (name : Option Segment) :
    target name ≠ [] := by
  cases name with
  | some segment => exact segment.ne_nil
  | none => simp [target]

private theorem Token.mark_not_blank (token : Token) {character : Char}
    (h : character ∈ token.mark) :
    isBlank character = false := by
  cases token with
  | word segment => exact segment.not_blank h
  | rename name =>
      rcases List.mem_cons.mp h with rfl | h
      · decide
      · exact target_not_blank name h
  | _ =>
      refine Bool.eq_false_iff.mpr (List.any_eq_false.mp ?_ character h)
      decide

private theorem Token.mark_ne_nil (token : Token) : token.mark ≠ [] := by
  cases token with
  | word segment => exact segment.ne_nil
  | rename name => simp [mark]
  | _ => decide

private theorem head_gap_not_letter {gap rest : List Char} (hgap : IsGap gap)
    (hne : gap ≠ []) :
    ∀ character ∈ (gap ++ rest).head?, isLetter character = false := by
  obtain ⟨first, gap, rfl⟩ := List.exists_cons_of_ne_nil hne
  intro character hmem
  obtain rfl : first = character := by simpa using hmem
  simp [isLetter, hgap first (by simp)]

/-- After a word the text goes on with a blank or with punctuation. -/
theorem Spells.head_not_letter {tokens : List Token} {text : List Char}
    (h : Spells true tokens text) :
    ∀ character ∈ text.head?, isLetter character = false := by
  cases h with
  | done hgap =>
      intro character hmem
      simp [isLetter, hgap character (List.mem_of_mem_head? hmem)]
  | @next _ gap word rest token tokens hgap hneeds htoken hrest =>
      by_cases hne : gap = []
      · subst hne
        cases token with
        | crate | word | rename => exact absurd rfl (hneeds rfl)
        | separator | star | opening | closing | comma =>
            obtain rfl := htoken
            intro character hmem
            obtain rfl := Option.some.inj hmem
            decide
      · rw [List.append_assoc]
        exact head_gap_not_letter hgap hne

private theorem not_startsRename_word (segment : Segment) {rest : List Char}
    (hrest : ∀ character ∈ rest.head?, isLetter character = false) :
    ¬ StartsRename (segment.letters ++ rest) := by
  rintro ⟨blank, tail, hblank, heq⟩
  -- The word could only be `a` or `as`; it is not reserved, and no letter
  -- follows it.
  match hletters : segment.letters with
  | [] => exact segment.ne_nil hletters
  | [first] =>
      have hs : rest.head? = some 's' := by simp_all
      exact absurd (hrest 's' hs) (by decide)
  | [first, second] =>
      have has : segment.letters = ['a', 's'] := by simp_all
      exact segment.notReserved (has ▸ by decide)
  | first :: second :: third :: more =>
      have hthird : third = blank := by simp_all
      rw [segment.not_blank (by simp [hletters, hthird])] at hblank
      cases hblank

private theorem not_startsRename_of_ne {character : Char} (h : character ≠ 'a')
    (rest : List Char) :
    ¬ StartsRename (character :: rest) := by
  rintro ⟨blank, tail, -, heq⟩
  exact h (List.cons.inj heq).1

private theorem head_not_blank {text : List Char} (hne : text ≠ [])
    (h : ∀ character ∈ text, isBlank character = false) (rest : List Char) :
    ∀ character ∈ (text ++ rest).head?, isBlank character = false := by
  obtain ⟨first, more, rfl⟩ := List.exists_cons_of_ne_nil hne
  intro character hmem
  obtain rfl : first = character := by simpa using hmem
  exact h first (by simp)

private theorem compact_mark (token : Token) {gap rest : List Char}
    (hgap : IsGap gap) (hrename : ¬ StartsRename (token.mark ++ rest)) :
    compact (gap ++ token.mark ++ rest) = token.mark ++ compact rest := by
  have hletters : ∀ character ∈ token.mark, isBlank character = false :=
    fun _ hmem => token.mark_not_blank hmem
  rw [List.append_assoc,
    compact_gap hgap (head_not_blank token.mark_ne_nil hletters rest) hrename,
    compact_letters hletters]

private theorem compact_token {afterWord : Bool} {token : Token}
    {gap text rest : List Char} (hgap : IsGap gap)
    (hneeds : token.needsGap afterWord = true → gap ≠ [])
    (htoken : token.Spelled text)
    (hrest : token.isWord = true → ∀ character ∈ rest.head?,
      isLetter character = false) :
    compact (gap ++ text ++ rest) = token.mark ++ compact rest := by
  cases token with
  | word segment =>
      obtain rfl := htoken
      exact compact_mark (.word segment) hgap
        (not_startsRename_word segment (hrest rfl))
  | rename name =>
      obtain ⟨after, hafter, hne, rfl⟩ := htoken
      have hletters : ∀ character ∈ Token.target name,
          isBlank character = false :=
        fun _ hmem => Token.target_not_blank name hmem
      have hall := compact_rename hgap (hneeds rfl) hafter hne
        (head_not_blank (Token.target_ne_nil name) hletters rest)
      rw [compact_letters hletters] at hall
      simpa [Token.mark] using hall
  | crate | separator | star | opening | closing | comma =>
      obtain rfl := htoken
      exact compact_mark _ hgap (not_startsRename_of_ne (by decide) _)

theorem compact_of_spells {afterWord : Bool} {tokens : List Token}
    {text : List Char} (h : Spells afterWord tokens text) :
    compact text = tokens.flatMap Token.mark := by
  induction h with
  | @done _ gap hgap =>
      have hempty : compact (gap ++ []) = compact [] :=
        compact_gap hgap (by simp) (by rintro ⟨_, _, _, h⟩; cases h)
      rw [List.append_nil] at hempty
      exact hempty
  | next hgap hneeds htoken hrest ih =>
      rw [List.flatMap_cons, ← ih]
      refine compact_token hgap hneeds htoken fun hword => ?_
      exact Spells.head_not_letter (hword ▸ hrest)

end FuzzReach.Alias
