import FuzzReach.Text.Utf8

/-!
# Characters and their bytes

Reading a character is the inverse of encoding it: the bytes open with a
character exactly if they start with its encoding.  Both sides are brought down
to the code point and to bytes as numbers.
-/

namespace FuzzReach.Text.Utf8

/-! ## Bits of bytes -/

theorem tail?_eq_some_iff {byte : UInt8} {bits : Nat} :
    tail? byte = some bits ↔ byte.toNat = 0x80 + bits ∧ bits < 0x40 := by
  simp only [tail?, Option.ite_none_right_eq_some, Option.some.injEq]
  omega

theorem lead?_eq_some_iff {low high bits : Nat} {byte : UInt8} :
    lead? low high byte = some bits ↔ byte.toNat = low + bits ∧
      low + bits < high := by
  simp only [lead?, Option.ite_none_right_eq_some, Option.some.injEq]
  omega

theorem scalar?_eq_some_iff {least code : Nat} {character : Char} :
    scalar? least code = some character ↔ character.toNat = code ∧
      least ≤ code := by
  by_cases hvalid : code.isValidChar
  · have htoNat : (Char.ofNatAux code hvalid).toNat = code := rfl
    rw [scalar?, dif_pos hvalid, Option.ite_none_right_eq_some,
      Option.some.injEq, and_comm, ← Char.toNat_inj, htoNat, eq_comm]
  · rw [scalar?, dif_neg hvalid]
    simp only [reduceCtorEq, false_iff, not_and]
    rintro rfl
    exact absurd character.valid hvalid

/-! ## Code points -/

def octets (code : Nat) : List Nat :=
  if code ≤ 0x7F then [code]
  else if code ≤ 0x7FF then [code / 64 + 0xC0, code % 64 + 0x80]
  else if code ≤ 0xFFFF
    then [code / 4096 + 0xE0, code / 64 % 64 + 0x80, code % 64 + 0x80]
  else [code / 262144 + 0xF0, code / 4096 % 64 + 0x80, code / 64 % 64 + 0x80,
    code % 64 + 0x80]

private theorem toNat_lt (character : Char) : character.toNat < 0x110000 := by
  have hvalid : character.toNat.isValidChar := character.valid
  unfold Nat.isValidChar at hvalid
  omega

private theorem map_toNat_utf8EncodeChar (character : Char) :
    (String.utf8EncodeChar character).map UInt8.toNat =
      octets character.toNat := by
  have hbound := toNat_lt character
  have hcode : character.val.toNat = character.toNat := rfl
  simp only [String.utf8EncodeChar, octets, hcode]
  split
  · simp
    omega
  · split
    · simp
      omega
    · split
      · simp
        omega
      · simp
        omega

theorem octets_eq_one_iff {code a : Nat} :
    octets code = [a] ↔ code ≤ 0x7F ∧ code = a := by
  fun_cases octets <;> simp <;> omega

theorem octets_eq_two_iff {code a b : Nat} :
    octets code = [a, b] ↔
      0x7F < code ∧ code ≤ 0x7FF ∧ code / 64 + 0xC0 = a ∧
      code % 64 + 0x80 = b := by
  fun_cases octets <;> simp <;> omega

theorem octets_eq_three_iff {code a b c : Nat} :
    octets code = [a, b, c] ↔
      0x7FF < code ∧ code ≤ 0xFFFF ∧ code / 4096 + 0xE0 = a ∧
      code / 64 % 64 + 0x80 = b ∧
        code % 64 + 0x80 = c := by
  fun_cases octets <;> simp <;> omega

theorem octets_eq_four_iff {code a b c d : Nat} :
    octets code = [a, b, c, d] ↔
      0xFFFF < code ∧ code / 262144 + 0xF0 = a ∧ code / 4096 % 64 + 0x80 = b ∧
        code / 64 % 64 + 0x80 = c ∧ code % 64 + 0x80 = d := by
  fun_cases octets <;> simp <;> omega

theorem utf8EncodeChar_eq_iff {character : Char} {bytes : List UInt8} :
    String.utf8EncodeChar character = bytes ↔
      octets character.toNat = bytes.map UInt8.toNat := by
  rw [← map_toNat_utf8EncodeChar,
    List.map_inj_right fun _ _ => UInt8.toNat_inj.mp]

/-! ## Characters of each width -/

theorem one?_eq_some_iff {a : UInt8} {character : Char} :
    one? a = some character ↔ String.utf8EncodeChar character = [a] := by
  simp only [one?, Option.bind_eq_bind, Option.bind_eq_some_iff,
    lead?_eq_some_iff, scalar?_eq_some_iff, utf8EncodeChar_eq_iff,
    List.map_cons, List.map_nil, octets_eq_one_iff]
  constructor
  · rintro ⟨lead, hlead, hcode⟩
    omega
  · intro h
    exact ⟨character.toNat, by omega, by omega⟩

theorem two?_eq_some_iff {a b : UInt8} {character : Char} :
    two? a b = some character ↔ String.utf8EncodeChar character = [a, b] := by
  simp only [two?, Option.bind_eq_bind, Option.bind_eq_some_iff,
    lead?_eq_some_iff, tail?_eq_some_iff, scalar?_eq_some_iff,
    utf8EncodeChar_eq_iff, List.map_cons, List.map_nil, octets_eq_two_iff]
  constructor
  · rintro ⟨lead, hlead, tail, htail, hcode⟩
    omega
  · intro h
    exact ⟨character.toNat / 64, by omega,
      character.toNat % 64, by omega, by omega⟩

theorem three?_eq_some_iff {a b c : UInt8} {character : Char} :
    three? a b c = some character ↔
      String.utf8EncodeChar character = [a, b, c] := by
  simp only [three?, Option.bind_eq_bind, Option.bind_eq_some_iff,
    lead?_eq_some_iff, tail?_eq_some_iff, scalar?_eq_some_iff,
    utf8EncodeChar_eq_iff, List.map_cons, List.map_nil, octets_eq_three_iff]
  constructor
  · rintro ⟨lead, hlead, second, hsecond, third, hthird, hcode⟩
    omega
  · intro h
    exact ⟨character.toNat / 4096, by omega,
      character.toNat / 64 % 64, by omega,
      character.toNat % 64, by omega, by omega⟩

theorem four?_eq_some_iff {a b c d : UInt8} {character : Char} :
    four? a b c d = some character ↔
      String.utf8EncodeChar character = [a, b, c, d] := by
  have hbound := toNat_lt character
  simp only [four?, Option.bind_eq_bind, Option.bind_eq_some_iff,
    lead?_eq_some_iff, tail?_eq_some_iff, scalar?_eq_some_iff,
    utf8EncodeChar_eq_iff, List.map_cons, List.map_nil, octets_eq_four_iff]
  constructor
  · rintro ⟨lead, hlead, second, hsecond, third, hthird, fourth, hfourth, hcode⟩
    omega
  · intro h
    exact ⟨character.toNat / 262144, by omega,
      character.toNat / 4096 % 64, by omega,
      character.toNat / 64 % 64, by omega,
      character.toNat % 64, by omega, by omega⟩

/-! ## The character that opens the bytes -/

private theorem one?_eq_none {a : UInt8} (h : 0x7F < a.toNat) :
    one? a = none := by
  rw [Option.eq_none_iff_forall_ne_some]
  intro character hsome
  have hcode :=
    octets_eq_one_iff.mp (utf8EncodeChar_eq_iff.mp (one?_eq_some_iff.mp hsome))
  omega

private theorem two?_eq_none {a b : UInt8} (h : 0xDF < a.toNat) :
    two? a b = none := by
  rw [Option.eq_none_iff_forall_ne_some]
  intro character hsome
  have hcode :=
    octets_eq_two_iff.mp (utf8EncodeChar_eq_iff.mp (two?_eq_some_iff.mp hsome))
  omega

private theorem three?_eq_none {a b c : UInt8} (h : 0xEF < a.toNat) :
    three? a b c = none := by
  rw [Option.eq_none_iff_forall_ne_some]
  intro character hsome
  have hcode :=
    octets_eq_three_iff.mp
      (utf8EncodeChar_eq_iff.mp (three?_eq_some_iff.mp hsome))
  omega

theorem next?_append (character : Char) (rest : List UInt8) :
    next? (String.utf8EncodeChar character ++ rest) =
      some (character, (String.utf8EncodeChar character).length - 1) := by
  generalize hbytes : String.utf8EncodeChar character = bytes
  have hcode := utf8EncodeChar_eq_iff.mp hbytes
  match bytes with
  | [] => revert hcode; fun_cases octets <;> simp
  | [a] =>
      have hone := one?_eq_some_iff.mpr hbytes
      rcases rest with _ | ⟨b, _ | ⟨c, _ | ⟨d, rest⟩⟩⟩ <;> simp [next?, hone]
  | [a, b] =>
      have hwide := octets_eq_two_iff.mp hcode
      have hone : one? a = none := one?_eq_none (by omega)
      have htwo := two?_eq_some_iff.mpr hbytes
      rcases rest with _ | ⟨c, _ | ⟨d, rest⟩⟩ <;> simp [next?, hone, htwo]
  | [a, b, c] =>
      have hwide := octets_eq_three_iff.mp hcode
      have hone : one? a = none := one?_eq_none (by omega)
      have htwo : two? a b = none := two?_eq_none (by omega)
      have hthree := three?_eq_some_iff.mpr hbytes
      cases rest <;> simp [next?, hone, htwo, hthree]
  | [a, b, c, d] =>
      have hwide := octets_eq_four_iff.mp hcode
      have hone : one? a = none := one?_eq_none (by omega)
      have htwo : two? a b = none := two?_eq_none (by omega)
      have hthree : three? a b c = none := three?_eq_none (by omega)
      have hfour := four?_eq_some_iff.mpr hbytes
      simp [next?, hone, htwo, hthree, hfour]
  | a :: b :: c :: d :: e :: bytes => revert hcode; fun_cases octets <;> simp

theorem map_width_eq_some_iff {read : Option Char} {character : Char}
    {width more : Nat} :
    read.map (·, width) = some (character, more) ↔ read = some character ∧
      width = more := by
  cases read <;> simp

/-- What is read first is the character whose encoding opens the bytes. -/
theorem next?_eq_some_iff {bytes : List UInt8} {character : Char} {more : Nat} :
    next? bytes = some (character, more) ↔
      String.utf8EncodeChar character <+: bytes ∧
        (String.utf8EncodeChar character).length = more + 1 := by
  constructor
  · intro h
    match bytes with
    | [] => cases h
    | [a] =>
        simp only [next?, map_width_eq_some_iff, one?_eq_some_iff] at h
        obtain ⟨hone, rfl⟩ := h
        simp [hone]
    | [a, b] =>
        simp only [next?, Option.orElse_eq_orElse, Option.orElse_eq_or,
          Option.or_eq_some_iff, map_width_eq_some_iff, one?_eq_some_iff,
          two?_eq_some_iff] at h
        rcases h with ⟨hone, rfl⟩ | ⟨-, htwo, rfl⟩
        · simp [hone]
        · simp [htwo]
    | [a, b, c] =>
        simp only [next?, Option.orElse_eq_orElse, Option.orElse_eq_or,
          Option.or_eq_some_iff, map_width_eq_some_iff, one?_eq_some_iff,
          two?_eq_some_iff, three?_eq_some_iff] at h
        rcases h with ⟨hone, rfl⟩ | ⟨-, ⟨htwo, rfl⟩ | ⟨-, hthree, rfl⟩⟩
        · simp [hone]
        · simp [htwo]
        · simp [hthree]
    | a :: b :: c :: d :: rest =>
        simp only [next?, Option.orElse_eq_orElse, Option.orElse_eq_or,
          Option.or_eq_some_iff, map_width_eq_some_iff, one?_eq_some_iff,
          two?_eq_some_iff, three?_eq_some_iff, four?_eq_some_iff] at h
        rcases h with
          ⟨hone, rfl⟩ | ⟨-, ⟨htwo, rfl⟩ | ⟨-, ⟨hthree, rfl⟩ | ⟨-, hfour, rfl⟩⟩⟩
        · simp [hone]
        · simp [htwo]
        · simp [hthree]
        · simp [hfour]
  · rintro ⟨⟨rest, rfl⟩, hlength⟩
    rw [next?_append, hlength]
    rfl

theorem next?_eq_none_iff {bytes : List UInt8} :
    next? bytes = none ↔ ∀ character,
      ¬ String.utf8EncodeChar character <+: bytes := by
  constructor
  · rintro hnone character ⟨rest, rfl⟩
    rw [next?_append] at hnone
    cases hnone
  · intro h
    cases hread : next? bytes with
    | none => rfl
    | some read => exact absurd (next?_eq_some_iff.mp hread).1 (h read.1)

/-! ## Bytes inside an encoding -/

def IsTail (byte : UInt8) : Prop :=
  0x80 ≤ byte.toNat ∧ byte.toNat < 0xC0

theorem octets_cases {code : Nat} (h : code < 0x110000) :
    ∃ first tail, octets code = first :: tail ∧
      ¬ (0x80 ≤ first ∧ first < 0xC0) ∧
      ∀ octet ∈ tail, 0x80 ≤ octet ∧ octet < 0xC0 := by
  fun_cases octets <;> refine ⟨_, _, rfl, by omega, ?_⟩ <;> simp <;> omega

theorem utf8EncodeChar_cases (character : Char) :
    ∃ first tail, String.utf8EncodeChar character = first :: tail ∧
      ¬ IsTail first ∧
      ∀ byte ∈ tail, IsTail byte := by
  obtain ⟨octet, octets, hoctets, hfirst, htail⟩ :=
    octets_cases (toNat_lt character)
  rw [← map_toNat_utf8EncodeChar] at hoctets
  obtain ⟨first, tail, hbytes, rfl, rfl⟩ := List.map_eq_cons_iff.mp hoctets
  exact ⟨first, tail, hbytes, hfirst,
    fun byte hbyte => htail _ (List.mem_map_of_mem hbyte)⟩

end FuzzReach.Text.Utf8
