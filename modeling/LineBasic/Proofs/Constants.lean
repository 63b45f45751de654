/-
  LineBasic.Proofs.Constants

  Constant texts read back.  What stands between the quotes of a definition is decoded
  into bytes, a backslash and two digits for one byte and any other character for
  itself, and the length that is declared is how many there are.  The order in which
  texts are numbered, that of their characters, is also the order of their bytes.
-/

import LineBasic.Ascending
import LineBasic.Code.Module
import Mathlib.Tactic.SplitIfs

namespace LineBasic

-- ============================================================================
-- Bytes of texts
-- ============================================================================

/-- The bytes of a text in UTF-8. -/
def utf8 (s : String) : List UInt8 := s.toUTF8.toList

/-- The bytes of an array come one by one, from an index on. -/
theorem toList_loop_eq (bs : ByteArray) (i : Nat) (r : List UInt8) :
    ByteArray.toList.loop bs i r = r.reverse ++ bs.data.toList.drop i := by
  fun_induction ByteArray.toList.loop bs i r with
  | case1 i r hi ih =>
    have hlength : i < bs.data.toList.length := hi
    rw [ih, List.drop_eq_getElem_cons hlength, List.reverse_cons, List.append_assoc]
    simp [ByteArray.get!, hi]
  | case2 i r hi =>
    have hlength : bs.data.toList.length ≤ i := Nat.le_of_not_lt hi
    rw [List.drop_eq_nil_of_le hlength, List.append_nil]

/-- The bytes of a text are those of its characters. -/
theorem utf8_eq_flatMap (s : String) : utf8 s = s.toList.flatMap String.utf8EncodeChar := by
  rw [utf8, String.toUTF8_eq_toByteArray, ← String.utf8Encode_toList, List.utf8Encode,
    ByteArray.toList, toList_loop_eq, List.reverse_nil, List.nil_append, List.drop_zero,
    List.toList_data_toByteArray]

theorem length_utf8 (s : String) : (utf8 s).length = s.utf8ByteSize := by
  rw [utf8, String.toUTF8_eq_toByteArray, ByteArray.toList, toList_loop_eq]
  simp

-- ============================================================================
-- The order of bytes
-- ============================================================================

section Order

variable {as bs : List UInt8} {x y : Nat}

/-- Lists of bytes are compared at the first place where they differ. -/
theorem byte_cons_lt (hy : y < 256) (h : x < y ∨ x = y ∧ as < bs) :
    UInt8.ofNat x :: as < UInt8.ofNat y :: bs := by
  rw [List.cons_lt_cons_iff]
  rcases h with hlt | ⟨rfl, htail⟩
  · refine .inl ?_
    rw [UInt8.lt_iff_toNat_lt, UInt8.toNat_ofNat', UInt8.toNat_ofNat',
      Nat.mod_eq_of_lt (by omega), Nat.mod_eq_of_lt hy]
    exact hlt
  · exact .inr ⟨rfl, htail⟩

/-- A byte that carries a digit `x % m` settles the order of numbers that are equal but
    for that digit and what is behind it. -/
theorem digit_cons_lt {m a : Nat} (hm : 0 < m) (hbyte : m + a ≤ 256) (hle : x ≤ y)
    (habove : x / m = y / m) (htail : x = y → as < bs) :
    UInt8.ofNat (x % m + a) :: as < UInt8.ofNat (y % m + a) :: bs := by
  have hmod := Nat.mod_lt y hm
  refine byte_cons_lt (by omega) ?_
  rcases Nat.lt_or_eq_of_le hle with hlt | rfl
  · have hx := Nat.div_add_mod x m
    have hy := Nat.div_add_mod y m
    rw [habove] at hx
    exact .inl (by omega)
  · exact .inr ⟨rfl, htail rfl⟩

/-- The bytes of a character with the smaller number are smaller, whatever follows: the
    first byte grows with their count, and they carry the digits from the top down. -/
theorem utf8EncodeChar_append_lt {c d : Char} (h : c < d) :
    String.utf8EncodeChar c ++ as < String.utf8EncodeChar d ++ bs := by
  have hlt : c.val.toNat < d.val.toNat := h
  have hd : d.val.toNat < 1114112 := by
    rcases d.valid with hd | hd <;> omega
  unfold String.utf8EncodeChar
  dsimp only
  generalize c.val.toNat = v at hlt
  generalize d.val.toNat = w at hlt hd
  have hle : ∀ q, v / q ≤ w / q := fun q => Nat.div_le_div_right (Nat.le_of_lt hlt)
  -- A byte decides only if all the bits in front of it agree.
  have hlast : v / 64 = w / 64 →
      UInt8.ofNat (v % 64 + 128) :: as < UInt8.ofNat (w % 64 + 128) :: bs := fun hq =>
    digit_cons_lt (by decide) (by decide) (Nat.le_of_lt hlt) hq fun heq => by omega
  have hmiddle : v / 4096 = w / 4096 →
      UInt8.ofNat (v / 64 % 64 + 128) :: UInt8.ofNat (v % 64 + 128) :: as
        < UInt8.ofNat (w / 64 % 64 + 128) :: UInt8.ofNat (w % 64 + 128) :: bs := fun hq =>
    digit_cons_lt (by decide) (by decide) (hle 64) (by omega) hlast
  -- A longer encoding has a greater first byte; digits count between equal lengths only.
  by_cases hone : v ≤ 0x7f
  · rw [if_pos hone]
    split_ifs <;> exact byte_cons_lt (by omega) (.inl (by omega))
  by_cases htwo : v ≤ 0x7ff
  · rw [if_neg hone, if_pos htwo, if_neg (by omega)]
    split_ifs
    · exact digit_cons_lt (by decide) (by decide) (hle 64) (by omega) hlast
    · exact byte_cons_lt (by omega) (.inl (by omega))
    · exact byte_cons_lt (by omega) (.inl (by omega))
  by_cases hthree : v ≤ 0xffff
  · rw [if_neg hone, if_neg htwo, if_pos hthree, if_neg (by omega), if_neg (by omega)]
    split_ifs
    · exact digit_cons_lt (by decide) (by decide) (hle 4096) (by omega) hmiddle
    · exact byte_cons_lt (by omega) (.inl (by omega))
  · rw [if_neg hone, if_neg htwo, if_neg hthree, if_neg (by omega), if_neg (by omega),
      if_neg (by omega)]
    exact digit_cons_lt (by decide) (by decide) (hle 262144) (by omega) fun hq =>
      digit_cons_lt (by decide) (by decide) (hle 4096) (by omega) hmiddle

/-- Encoding keeps the order of texts: a character that is smaller has an encoding that is
    smaller. -/
theorem flatMap_utf8EncodeChar_lt {cs ds : List Char} (h : cs < ds) :
    cs.flatMap String.utf8EncodeChar < ds.flatMap String.utf8EncodeChar := by
  induction h with
  | @nil d ds =>
    rw [List.flatMap_nil, List.flatMap_cons]
    cases hd : String.utf8EncodeChar d with
    | nil => exact absurd hd String.utf8EncodeChar_ne_nil
    | cons b bs => exact List.nil_lt_cons _ _
  | cons _ ih => exact List.append_left_lt ih
  | rel hcd => exact utf8EncodeChar_append_lt hcd

/-- Texts in the order of their characters are in the order of their bytes. -/
theorem utf8_lt_of_compare {s t : String} (h : compare s t = .lt) : utf8 s < utf8 t := by
  have hlt : s < t := compareOfLessAndEq_eq_lt.1 h
  rw [utf8_eq_flatMap, utf8_eq_flatMap]
  exact flatMap_utf8EncodeChar_lt hlt

end Order

-- ============================================================================
-- Decoding
-- ============================================================================

namespace Constant

/-- The value of an upper-case hexadecimal digit. -/
def hexValue? (c : Char) : Option Nat :=
  if '0' ≤ c ∧ c ≤ '9' then some (c.toNat - 48)
  else if 'A' ≤ c ∧ c ≤ 'F' then some (c.toNat - 55)
  else none

/-- The bytes that a text between quotes stands for: a backslash and two digits for one
    byte, any other character for itself. -/
def decode : List Char → Option (List UInt8)
  | [] => some []
  | '\\' :: a :: b :: rest => do
    let high ← hexValue? a
    let low ← hexValue? b
    let bytes ← decode rest
    return UInt8.ofNat (16 * high + low) :: bytes
  | c :: rest =>
    if c = '\\' then none else (decode rest).map (String.utf8EncodeChar c ++ ·)

/-- Whether a character is printable and may stand between quotes. -/
def IsPlain (c : Char) : Prop := ' ' ≤ c ∧ c ≤ '~' ∧ c ≠ '"'

/-- A pair of hexadecimal digits behind a backslash is read back as a byte. -/
theorem decode_hexPair (n : Nat) (hn : n < 256) (cs : List Char) :
    decode ('\\' :: (Quoted.hexPair n ++ cs)) = (decode cs).map (UInt8.ofNat n :: ·) := by
  have hdigit : ∀ d < 16, hexValue? (Quoted.hexDigit d) = some d := by decide
  have hvalue : 16 * (n / 16) + n % 16 = n := Nat.div_add_mod n 16
  rw [Quoted.hexPair, List.cons_append, List.cons_append, List.nil_append, decode,
    hdigit _ (by omega), hdigit _ (by omega)]
  cases decode cs with
  | none => rfl
  | some bytes => exact congrArg (fun v => some (UInt8.ofNat v :: bytes)) hvalue

/-- A byte that stands for itself is the number of its character. -/
theorem toNat_ofNat_byte {b : UInt8} (h : b ≤ 0x7e) : (Char.ofNat b.toNat).toNat = b.toNat := by
  have hb : b.toNat ≤ 126 := h
  rw [Char.ofNat, dif_pos (.inl (by omega))]
  rfl

theorem utf8EncodeChar_ofNat_byte {b : UInt8} (h : b ≤ 0x7e) :
    String.utf8EncodeChar (Char.ofNat b.toNat) = [b] := by
  have hb : b.toNat ≤ 126 := h
  have hval : (Char.ofNat b.toNat).val.toNat = b.toNat := toNat_ofNat_byte h
  unfold String.utf8EncodeChar
  dsimp only
  rw [hval, if_pos (by omega), UInt8.ofNat_toNat]

theorem decode_plain {c : Char} (hc : c ≠ '\\') (cs : List Char) :
    decode (c :: cs) = (decode cs).map (String.utf8EncodeChar c ++ ·) := by
  rw [decode, if_neg hc]
  rintro a b rest rfl
  exact absurd rfl hc

/-- An escaped byte is read back as the byte, whatever follows it. -/
theorem decode_escapeByte (b : UInt8) (cs : List Char) :
    decode (escapeByte b ++ cs) = (decode cs).map (b :: ·) := by
  unfold escapeByte
  split
  · next h =>
    obtain ⟨-, hhigh, -, hslash⟩ := h
    have hne : Char.ofNat b.toNat ≠ '\\' := by
      intro heq
      refine hslash (UInt8.toNat_inj.1 ?_)
      rw [← toNat_ofNat_byte hhigh, heq]
      rfl
    rw [List.singleton_append, decode_plain hne, utf8EncodeChar_ofNat_byte hhigh]
    rfl
  · rw [List.cons_append, decode_hexPair _ b.toNat_lt, UInt8.ofNat_toNat]

/-- Escaped bytes are decoded one after the other. -/
theorem decode_flatMap_escapeByte (bs : List UInt8) : decode (bs.flatMap escapeByte) = some bs := by
  induction bs with
  | nil => rfl
  | cons b bs ih =>
    rw [List.flatMap_cons, decode_escapeByte, ih]
    rfl

theorem isPlain_hexDigit {d : Nat} (h : d < 16) : IsPlain (Quoted.hexDigit d) := by
  revert d
  unfold IsPlain
  decide

/-- Escaped bytes are made of printable characters, quotation marks apart. -/
theorem isPlain_of_mem_escapeByte {b : UInt8} {c : Char} (h : c ∈ escapeByte b) : IsPlain c := by
  unfold escapeByte at h
  split at h
  · next hb =>
    obtain ⟨hlow, hhigh, hquote, -⟩ := hb
    obtain rfl := List.mem_singleton.1 h
    have hnat := toNat_ofNat_byte hhigh
    refine ⟨?_, ?_, ?_⟩
    · show 32 ≤ (Char.ofNat b.toNat).toNat
      rw [hnat]
      exact hlow
    · show (Char.ofNat b.toNat).toNat ≤ 126
      rw [hnat]
      exact hhigh
    · intro heq
      refine hquote (UInt8.toNat_inj.1 ?_)
      rw [← hnat, heq]
      rfl
  · have hb := b.toNat_lt
    simp only [Quoted.hexPair, List.mem_cons, List.not_mem_nil, or_false] at h
    rcases h with rfl | rfl | rfl
    · unfold IsPlain
      decide
    · exact isPlain_hexDigit (by omega)
    · exact isPlain_hexDigit (by omega)

-- ============================================================================
-- Definitions
-- ============================================================================

/-- The line defines the constant text number `k`: printable characters between quotes
    that stand for `bytes`, and the length declared is how many these are. -/
def Defines (line : String) (k : Nat) (bytes : List UInt8) : Prop :=
  ∃ quoted : String,
    line = (Global.literal k).text
      ++ s!" = private unnamed_addr constant [{bytes.length} x i8] c\"{quoted}\"" ∧
    (∀ c ∈ quoted.toList, IsPlain c) ∧ decode quoted.toList = some bytes

/-- The zero byte behind a literal is written as any other byte. -/
theorem toList_escape_zero (s : String) :
    (escape s ++ "\\00").toList = (utf8 s ++ [0]).flatMap escapeByte := by
  rw [String.toList_append, escape, String.toList_ofList, List.flatMap_append]
  rfl

/-- The definition of a literal holds its bytes and a zero byte. -/
theorem defines_definition (k : Nat) (s : String) :
    Defines (definition k s) k (utf8 s ++ [0]) := by
  refine ⟨escape s ++ "\\00", ?_, ?_, ?_⟩
  · rw [List.length_append, length_utf8]
    simp only [definition, Global.text, toString, String.append_assoc]
    rfl
  · rw [toList_escape_zero]
    intro c hc
    obtain ⟨b, -, hb⟩ := List.mem_flatMap.1 hc
    exact isPlain_of_mem_escapeByte hb
  · rw [toList_escape_zero, decode_flatMap_escapeByte]

end Constant

end LineBasic
