import FuzzReach.Proofs.Text.Encoding

/-!
# Lenient reading

Any bytes fall apart, in one way, into encodings of characters and ill-formed
sequences between them.  A lenient reading keeps the characters, except that
replacement marks which were really encoded are lost as soon as one sequence is
ill-formed.
-/

namespace FuzzReach.Text.Utf8

def encode (text : List Char) : List UInt8 :=
  text.flatMap String.utf8EncodeChar

/-! ## Chunks -/

def Opens (bytes : List UInt8) : Prop :=
  ∃ character, bytes <+: String.utf8EncodeChar character

/-- The ill-formed sequence that stands before `rest` where no character can be
read: it goes on as long as it starts an encoding, and has one byte if that does
not start any. -/
structure IllFormed (bytes rest : List UInt8) : Prop where
  unreadable : ∀ character, ¬ String.utf8EncodeChar character <+: bytes ++ rest
  ne_nil : bytes ≠ []
  opens : bytes.length = 1 ∨ Opens bytes
  stops : ∀ byte ∈ rest.head?, ¬ Opens (bytes ++ [byte])

inductive Chunk where
  | character (character : Char)
  | illFormed (bytes : List UInt8)

def Chunk.character? : Chunk → Option Char
  | .character read => some read
  | .illFormed _ => none

inductive Chunks : List UInt8 → List Chunk → Prop where
  | nil : Chunks [] []
  | character {rest : List UInt8} {chunks : List Chunk} (character : Char)
      (h : Chunks rest chunks) :
      Chunks (String.utf8EncodeChar character ++ rest)
        (.character character :: chunks)
  | illFormed {bytes rest : List UInt8} {chunks : List Chunk}
      (hbytes : IllFormed bytes rest) (h : Chunks rest chunks) :
        Chunks (bytes ++ rest) (.illFormed bytes :: chunks)

def characterText (chunks : List Chunk) : List Char :=
  chunks.filterMap Chunk.character?

def areCharacters (chunks : List Chunk) : Bool :=
  chunks.all fun chunk => chunk.character?.isSome

@[simp] theorem characterText_character (character : Char)
    (chunks : List Chunk) :
    characterText (.character character :: chunks) =
      character :: characterText chunks := rfl

@[simp] theorem characterText_illFormed (bytes : List UInt8)
    (chunks : List Chunk) :
    characterText (.illFormed bytes :: chunks) = characterText chunks := rfl

@[simp] theorem areCharacters_character (character : Char)
    (chunks : List Chunk) :
    areCharacters (.character character :: chunks) = areCharacters chunks := rfl

@[simp] theorem areCharacters_illFormed (bytes : List UInt8)
    (chunks : List Chunk) :
    areCharacters (.illFormed bytes :: chunks) = false := rfl

theorem Opens.of_append {bytes more : List UInt8} (h : Opens (bytes ++ more)) :
    Opens bytes := by
  obtain ⟨character, hstart⟩ := h
  exact ⟨character, (List.prefix_append bytes more).trans hstart⟩

private theorem Opens.isTail {first : UInt8} {tail : List UInt8}
    (h : Opens (first :: tail)) :
    ∀ byte ∈ tail, IsTail byte := by
  obtain ⟨character, hstart⟩ := h
  obtain ⟨lead, rest, hencoding, -, hrest⟩ := utf8EncodeChar_cases character
  rw [hencoding, List.cons_prefix_cons] at hstart
  exact fun byte hbyte => hrest byte (hstart.2.subset hbyte)

/-! ## Every byte sequence falls apart -/

private theorem exists_stop (bytes rest : List UInt8)
    (hopens : bytes.length = 1 ∨ Opens bytes) :
    ∃ more after, rest = more ++ after ∧
      ((bytes ++ more).length = 1 ∨ Opens (bytes ++ more)) ∧
      ∀ byte ∈ after.head?, ¬ Opens (bytes ++ more ++ [byte]) := by
  induction rest generalizing bytes with
  | nil => exact ⟨[], [], rfl, by simpa using hopens, by simp⟩
  | cons byte rest ih =>
      by_cases hnext : Opens (bytes ++ [byte])
      · obtain ⟨more, after, rfl, hlonger, hstops⟩ :=
          ih (bytes ++ [byte]) (Or.inr hnext)
        exact ⟨byte :: more, after,
          rfl, by simpa using hlonger, by simpa using hstops⟩
      · exact ⟨[], byte :: rest,
          rfl, by simpa using hopens, by simpa using hnext⟩

private theorem exists_illFormed {byte : UInt8} {rest : List UInt8}
    (h : ∀ character, ¬ String.utf8EncodeChar character <+: byte :: rest) :
    ∃ bytes after, byte :: rest = bytes ++ after ∧ IllFormed bytes after := by
  obtain ⟨more, after, rfl, hopens, hstops⟩ :=
    exists_stop [byte] rest (Or.inl rfl)
  exact ⟨byte :: more, after, rfl, h, by simp, hopens, hstops⟩

private theorem exists_chunks (bytes : List UInt8) :
    ∃ chunks, Chunks bytes chunks := by
  match bytes with
  | [] => exact ⟨[], .nil⟩
  | byte :: tail =>
      by_cases hread : ∃ character,
        String.utf8EncodeChar character <+: byte :: tail
      · obtain ⟨character, rest, hbytes⟩ := hread
        obtain ⟨first, more, hencoding, -, -⟩ := utf8EncodeChar_cases character
        have hshorter : rest.length < (byte :: tail).length := by
          rw [← hbytes, hencoding, List.length_append, List.length_cons]
          omega
        obtain ⟨chunks, hchunks⟩ := exists_chunks rest
        exact ⟨_, hbytes ▸ Chunks.character character hchunks⟩
      · obtain ⟨sequence, rest, hbytes, hsequence⟩ :=
          exists_illFormed (not_exists.mp hread)
        have hshorter : rest.length < (byte :: tail).length := by
          have := List.length_pos_iff.mpr hsequence.ne_nil
          rw [hbytes, List.length_append]
          omega
        obtain ⟨chunks, hchunks⟩ := exists_chunks rest
        exact ⟨_, hbytes ▸ Chunks.illFormed hsequence hchunks⟩
termination_by bytes.length
decreasing_by all_goals exact hshorter

/-! ## In one way only -/

private theorem IllFormed.eq_of_append_eq
    {first second firstRest secondRest : List UInt8}
    (hfirst : IllFormed first firstRest) (hsecond : IllFormed second secondRest)
    (h : first ++ firstRest = second ++ secondRest) : first = second := by
  have hshort :
      ∀ {short long shortRest : List UInt8} {byte : UInt8} {more : List UInt8},
        IllFormed short (byte :: shortRest) → (long.length = 1 ∨ Opens long) →
          long = short ++ byte :: more → False := by
    rintro short long shortRest byte more hstop hopens rfl
    rcases hopens with hlength | hopens
    · have := List.length_pos_iff.mpr hstop.ne_nil
      simp at hlength
      omega
    · have hnext : Opens (short ++ [byte] ++ more) := by simpa using hopens
      exact hstop.stops byte rfl hnext.of_append
  rcases List.append_eq_append_iff.mp h with
    ⟨more, hlong, hrest⟩ | ⟨more, hlong, hrest⟩
  · cases more with
    | nil => simpa using hlong.symm
    | cons byte more => exact (hshort (hrest ▸ hfirst) hsecond.opens hlong).elim
  · cases more with
    | nil => simpa using hlong
    | cons byte more => exact (hshort (hrest ▸ hsecond) hfirst.opens hlong).elim

theorem Chunks.unique {bytes : List UInt8} {first second : List Chunk}
    (hfirst : Chunks bytes first) (hsecond : Chunks bytes second) :
    first = second := by
  induction hfirst generalizing second with
  | nil =>
      generalize hbytes : ([] : List UInt8) = bytes at hsecond
      cases hsecond with
      | nil => rfl
      | character character _ =>
          obtain ⟨lead, tail, hencoding, -, -⟩ := utf8EncodeChar_cases character
          simp [hencoding] at hbytes
      | illFormed hill _ =>
          exact absurd (List.append_eq_nil_iff.mp hbytes.symm).1 hill.ne_nil
  | @character rest chunks character _ ih =>
      generalize hbytes :
        String.utf8EncodeChar character ++ rest = bytes at hsecond
      cases hsecond with
      | nil =>
          obtain ⟨lead, tail, hencoding, -, -⟩ := utf8EncodeChar_cases character
          simp [hencoding] at hbytes
      | @character otherRest _ other hother =>
          have hread := next?_append character rest
          rw [hbytes, next?_append] at hread
          obtain rfl : other = character :=
            (Prod.mk.inj (Option.some.inj hread)).1
          rw [List.append_cancel_left hbytes] at ih
          rw [ih hother]
      | illFormed hill _ =>
          exact absurd ⟨rest, hbytes⟩ (hill.unreadable character)
  | @illFormed sequence rest chunks hill _ ih =>
      generalize hbytes : sequence ++ rest = bytes at hsecond
      cases hsecond with
      | nil => exact absurd (List.append_eq_nil_iff.mp hbytes).1 hill.ne_nil
      | @character otherRest _ other hother =>
          exact absurd ⟨otherRest, hbytes.symm⟩ (hill.unreadable other)
      | @illFormed otherSequence otherRest _ hotherIll hother =>
          obtain rfl := hill.eq_of_append_eq hotherIll hbytes
          rw [List.append_cancel_left hbytes] at ih
          rw [ih hother]

/-! ## What a scan notes of each chunk -/

private theorem scan_length (bytes rest : List UInt8) :
    scan bytes.length (bytes ++ rest) = scan 0 rest := by
  induction bytes with
  | nil => rfl
  | cons byte bytes ih => exact ih

private theorem scan_character (character : Char) (rest : List UInt8) :
    scan 0 (String.utf8EncodeChar character ++ rest) =
      some character :: scan 0 rest := by
  obtain ⟨first, tail, hencoding, -, -⟩ := utf8EncodeChar_cases character
  have hread := next?_append character rest
  rw [hencoding, List.cons_append] at hread ⊢
  rw [scan, hread]
  exact congrArg (some character :: ·) (scan_length tail rest)

private theorem scan_unreadable {byte : UInt8} {rest : List UInt8}
    (h : ∀ character, ¬ String.utf8EncodeChar character <+: byte :: rest) :
    scan 0 (byte :: rest) = none :: scan 0 rest := by
  rw [scan, next?_eq_none_iff.mpr h]

private theorem scan_tail {tail : List UInt8} (h : ∀ byte ∈ tail, IsTail byte)
    (rest : List UInt8) :
    scan 0 (tail ++ rest) = List.replicate tail.length none ++ scan 0 rest := by
  induction tail with
  | nil => rfl
  | cons byte tail ih =>
      have hunreadable : ∀ character,
          ¬ String.utf8EncodeChar character <+: byte :: (tail ++ rest) := by
        intro character hstart
        obtain ⟨first, more, hencoding, hfirst, -⟩ :=
          utf8EncodeChar_cases character
        rw [hencoding, List.cons_prefix_cons] at hstart
        exact hfirst (hstart.1 ▸ h byte List.mem_cons_self)
      rw [List.cons_append, scan_unreadable hunreadable,
        ih fun other hother => h other (List.mem_cons_of_mem byte hother)]
      rfl

theorem IllFormed.scan {bytes rest : List UInt8} (h : IllFormed bytes rest) :
    scan 0 (bytes ++ rest) = List.replicate bytes.length none ++
      scan 0 rest := by
  obtain ⟨first, tail, rfl⟩ := List.exists_cons_of_ne_nil h.ne_nil
  have htail : ∀ byte ∈ tail, IsTail byte := by
    rcases h.opens with hlength | hopens
    · rw [List.length_eq_zero_iff.mp (Nat.succ.inj hlength)]
      simp
    · exact hopens.isTail
  have hunreadable : ∀ character,
      ¬ String.utf8EncodeChar character <+: first :: (tail ++ rest) :=
        h.unreadable
  rw [List.cons_append, scan_unreadable hunreadable, scan_tail htail]
  rfl

theorem Chunks.characters {bytes : List UInt8} {chunks : List Chunk}
    (h : Chunks bytes chunks) :
    characters bytes = characterText chunks := by
  unfold Utf8.characters
  induction h with
  | nil => rfl
  | character character _ ih =>
      rw [scan_character, characterText_character, ← ih]
      rfl
  | illFormed hill _ ih =>
      rw [hill.scan, List.filterMap_append, ih]
      simp

theorem Chunks.wellFormed {bytes : List UInt8} {chunks : List Chunk}
    (h : Chunks bytes chunks) :
    wellFormed bytes = areCharacters chunks := by
  unfold Utf8.wellFormed
  induction h with
  | nil => rfl
  | character character _ ih =>
      rw [scan_character, List.all_cons, ih]
      rfl
  | illFormed hill =>
      rw [hill.scan, List.all_append, List.all_replicate]
      simp [hill.ne_nil]

/-! ## Texts with a byte between them -/

@[simp] theorem characterText_append (first second : List Chunk) :
    characterText (first ++ second) = characterText first ++
      characterText second :=
  List.filterMap_append

@[simp] theorem areCharacters_append (first second : List Chunk) :
    areCharacters (first ++ second) =
      (areCharacters first && areCharacters second) :=
  List.all_append

@[simp] theorem characterText_map (text : List Char) :
    characterText (text.map .character) = text := by
  induction text with
  | nil => rfl
  | cons character text ih => rw [List.map_cons, characterText_character, ih]

@[simp] theorem areCharacters_map (text : List Char) :
    areCharacters (text.map .character) = true := by
  simp [areCharacters, Chunk.character?]

private theorem Chunks.encode_append {rest : List UInt8} {chunks : List Chunk}
    (h : Chunks rest chunks) (text : List Char) :
    Chunks (encode text ++ rest) (text.map .character ++ chunks) := by
  induction text with
  | nil => exact h
  | cons character text ih =>
      rw [encode, List.flatMap_cons, List.append_assoc]
      exact .character character ih

private theorem chunks_encode (text : List Char) :
    Chunks (encode text) (text.map .character) := by
  simpa using Chunks.nil.encode_append text

private theorem not_isTail_of_mem_head? {text : List Char} {byte : UInt8}
    (h : byte ∈ (encode text).head?) :
    ¬ IsTail byte := by
  cases text with
  | nil => cases h
  | cons character text =>
      obtain ⟨first, tail, hencoding, hfirst, -⟩ :=
        utf8EncodeChar_cases character
      rw [encode, List.flatMap_cons, hencoding] at h
      obtain rfl : first = byte := by simpa using h
      exact hfirst

private theorem illFormed_singleton {byte : UInt8} {rest : List UInt8}
    (h : 0x80 ≤ byte.toNat) (hrest : ∀ next ∈ rest.head?, ¬ IsTail next) :
    IllFormed [byte] rest where
  unreadable := by
    intro character hstart
    obtain ⟨first, tail, hencoding, -, htail⟩ := utf8EncodeChar_cases character
    rw [hencoding, List.singleton_append, List.cons_prefix_cons] at hstart
    obtain ⟨rfl, hstart⟩ := hstart
    cases tail with
    | nil =>
        have hcode := octets_eq_one_iff.mp (utf8EncodeChar_eq_iff.mp hencoding)
        omega
    | cons next tail =>
        obtain ⟨after, rfl⟩ := hstart
        exact hrest next rfl (htail next List.mem_cons_self)
  ne_nil := by simp
  opens := Or.inl rfl
  stops := fun next hnext hopens =>
    hrest next hnext (hopens.isTail next List.mem_cons_self)

private theorem chunks_between {byte : UInt8} (h : 0x80 ≤ byte.toNat)
    (front back : List Char) :
    Chunks (encode front ++ byte :: encode back)
      (front.map .character ++ .illFormed [byte] :: back.map .character) :=
  (Chunks.illFormed (illFormed_singleton h fun _ => not_isTail_of_mem_head?)
    (chunks_encode back)).encode_append front

/-! ## The text that is read -/

theorem Chunks.decodeLenient {bytes : List UInt8} {chunks : List Chunk}
    (h : Chunks bytes chunks) :
    decodeLenient bytes = String.ofList
      (if areCharacters chunks then characterText chunks
        else (characterText chunks).filter (· != replacement)) := by
  rw [Utf8.decodeLenient, h.wellFormed, h.characters]
  split <;> rfl

theorem filter_replacement_eq_iff {text : List Char} :
    text.filter (· != replacement) = text ↔ replacement ∉ text := by
  simp only [List.filter_eq_self, bne_iff_ne]
  exact ⟨fun h hmem => h replacement hmem rfl,
    fun h character hmem heq => h (heq ▸ hmem)⟩

/-- The bytes fall apart in exactly one way.  The text read is that of the
characters among the chunks, without replacement marks if a chunk is ill-formed;
so it is all of their text unless an encoded replacement mark meets an
ill-formed sequence.  In particular, a byte that is put between two texts and is
no character is left out, and replacement marks in the texts with it. -/
theorem decodeLenient_keeps_characters (bytes : List UInt8)
    (front back : List Char) {byte : UInt8} (h : 0x80 ≤ byte.toNat) :
    (∃ chunks, (∀ other, Chunks bytes other ↔ other = chunks) ∧
      decodeLenient bytes = String.ofList
        (if areCharacters chunks then characterText chunks
          else (characterText chunks).filter (· != replacement)) ∧
      (decodeLenient bytes = String.ofList (characterText chunks) ↔
        areCharacters chunks = true ∨ replacement ∉ characterText chunks)) ∧
    decodeLenient (encode front ++ byte :: encode back) =
      String.ofList ((front ++ back).filter (· != replacement)) ∧
    (decodeLenient (encode front ++ byte :: encode back) =
      decodeLenient (encode (front ++ back)) ↔
      replacement ∉ front ++ back) := by
  refine ⟨?_, ?_⟩
  · obtain ⟨chunks, hchunks⟩ := exists_chunks bytes
    refine ⟨chunks, fun other =>
      ⟨fun hother => hother.unique hchunks, fun heq => heq ▸ hchunks⟩,
      hchunks.decodeLenient, ?_⟩
    rw [hchunks.decodeLenient, String.ofList_inj]
    by_cases hall : areCharacters chunks = true
    · simp [hall]
    · simpa [hall] using filter_replacement_eq_iff
  · have hbetween : decodeLenient (encode front ++ byte :: encode back) =
        String.ofList ((front ++ back).filter (· != replacement)) := by
      simpa using (chunks_between h front back).decodeLenient
    have htogether : decodeLenient (encode (front ++ back)) =
        String.ofList (front ++ back) := by
      simpa using (chunks_encode (front ++ back)).decodeLenient
    refine ⟨hbetween, ?_⟩
    rw [hbetween, htogether, String.ofList_inj]
    exact filter_replacement_eq_iff

theorem decodeLenient_splitName :
    0x80 ≤ (0xFF : UInt8).toNat ∧
      replacement ∉ "fn ma".toList ++ "in()".toList ∧
      decodeLenient (encode "fn ma".toList ++ 0xFF :: encode "in()".toList) =
        decodeLenient (encode "fn main()".toList) ∧
      ∃ chunks, Chunks [0x61, 0xE2, 0x82, 0x62] chunks ∧
        decodeLenient [0x61, 0xE2, 0x82, 0x62] =
          String.ofList (characterText chunks) := by
  have hhigh : 0x80 ≤ (0xFF : UInt8).toNat := by decide
  have habsent : replacement ∉ "fn ma".toList ++ "in()".toList := by
    decide +kernel
  obtain ⟨⟨chunks, hchunks, -, hkept⟩, -, hbetween⟩ :=
    decodeLenient_keeps_characters
      [0x61, 0xE2, 0x82, 0x62] "fn ma".toList "in()".toList hhigh
  have hread := (hchunks chunks).mpr rfl
  have hmarks : replacement ∉ characterText chunks := by
    rw [← hread.characters]
    decide +kernel
  exact ⟨hhigh, habsent, hbetween.mpr habsent, chunks, hread,
    hkept.mpr (Or.inr hmarks)⟩

/-- A replacement mark that the bytes encode is lost with the byte `0xFF`,
wherever that stands. -/
theorem decodeLenient_loses_mark :
    Chunks [0x61, 0xEF, 0xBF, 0xBD, 0x62, 0xFF]
        [.character 'a', .character '\uFFFD', .character 'b',
          .illFormed [0xFF]] ∧
      decodeLenient [0x61, 0xEF, 0xBF, 0xBD, 0x62, 0xFF] = "ab" ∧
      decodeLenient (encode ['a', '\uFFFD'] ++ 0xFF :: encode ['b']) = "ab" ∧
      decodeLenient (encode ['a', '\uFFFD', 'b']) = "a\uFFFDb" := by
  have hchunks := chunks_between (show 0x80 ≤ (0xFF : UInt8).toNat by decide)
    ['a', '\uFFFD', 'b'] []
  exact ⟨hchunks, by decide +kernel, by decide +kernel, by decide +kernel⟩

end FuzzReach.Text.Utf8
