import Mathlib.Data.Char
import Mathlib.Data.List.Lex
import ShardLog.Foundation.ByteReader

/-!
# Foundation - UTF-8 text

Text is a list of Unicode scalar values and `utf8` is its encoding.  `fromUtf8`
is the strict decoder: every accepted scalar is re-encoded and compared with
the bytes it was read from, so overlong forms, surrogates and truncated
sequences are refused.
-/

namespace Utf8

open ByteReader List

/-- Text as Unicode scalar values, in their order, which is also that of the encodings. -/
abbrev Str := List Char

/-- The bytes of a text. -/
def utf8 (text : Str) : Bytes := text.flatMap String.utf8EncodeChar

@[simp] theorem utf8_nil : utf8 [] = [] := rfl

@[simp] theorem utf8_cons (c : Char) (text : Str) :
    utf8 (c :: text) = String.utf8EncodeChar c ++ utf8 text := rfl

@[simp] theorem utf8_append (left right : Str) :
    utf8 (left ++ right) = utf8 left ++ utf8 right := by
  simp [utf8]

/-! ## Strict decoding -/

/-- Accept a decoded scalar only when `read` is exactly its encoding. -/
def accept (read : Bytes) (value : Nat) (rest : Option Str) : Option Str :=
  if String.utf8EncodeChar (Char.ofNat value) = read then
    rest.map (Char.ofNat value :: ·)
  else none

/-- Decode a byte string as UTF-8, or refuse it. -/
def fromUtf8 : Bytes → Option Str
  | [] => some []
  | b0 :: rest =>
    if b0.toNat < 0x80 then accept [b0] b0.toNat (fromUtf8 rest)
    else match rest with
      | [] => none
      | b1 :: rest =>
        if b0.toNat < 0xe0 then
          accept [b0, b1] ((b0.toNat - 0xc0) * 64 + (b1.toNat - 0x80)) (fromUtf8 rest)
        else match rest with
          | [] => none
          | b2 :: rest =>
            if b0.toNat < 0xf0 then
              accept [b0, b1, b2]
                ((b0.toNat - 0xe0) * 4096 + (b1.toNat - 0x80) * 64 + (b2.toNat - 0x80))
                (fromUtf8 rest)
            else match rest with
              | [] => none
              | b3 :: rest =>
                accept [b0, b1, b2, b3] ((b0.toNat - 0xf0) * 262144 + (b1.toNat - 0x80) * 4096 +
                    (b2.toNat - 0x80) * 64 + (b3.toNat - 0x80))
                  (fromUtf8 rest)

variable {read : Bytes} {value : Nat} {text : Str} {c : Char}

/-- An accepted scalar has the bytes that were read. -/
theorem accept_eq_some {rest : Option Str} (h : accept read value rest = some text) :
    ∃ tail, rest = some tail ∧ text = Char.ofNat value :: tail ∧
      String.utf8EncodeChar (Char.ofNat value) = read := by
  unfold accept at h
  split at h
  · rename_i hread
    rcases Option.map_eq_some_iff.mp h with ⟨tail, hrest, htext⟩
    exact ⟨tail, hrest, htext.symm, hread⟩
  · contradiction

/-- The encoding of a scalar is accepted. -/
theorem accept_of_encode (rest : Option Str) (hvalue : value = c.toNat)
    (hread : String.utf8EncodeChar c = read) :
    accept read value rest = rest.map (c :: ·) := by
  subst hvalue
  simp [accept, Char.ofNat_toNat, hread]

theorem char_toNat_lt (c : Char) : c.toNat < 0x110000 := by
  rcases c.valid with h | ⟨_, h⟩
  · exact Nat.lt_trans h (by decide)
  · exact h

/-- The decoder reads the encoding of one scalar and continues after it. -/
theorem fromUtf8_encodeChar_append (c : Char) (tail : Bytes) :
    fromUtf8 (String.utf8EncodeChar c ++ tail) = (fromUtf8 tail).map (c :: ·) := by
  have hlt := char_toNat_lt c
  have hval : c.val.toNat = c.toNat := rfl
  by_cases h1 : c.toNat ≤ 0x7f
  · have hread : String.utf8EncodeChar c = [UInt8.ofNat c.toNat] := by
      simp [String.utf8EncodeChar, hval, h1]
    rw [hread, singleton_append, fromUtf8.eq_def]
    dsimp only
    rw [if_pos (by simp; omega)]
    exact accept_of_encode _ (by simp; omega) hread
  by_cases h2 : c.toNat ≤ 0x7ff
  · have hread : String.utf8EncodeChar c =
        [UInt8.ofNat (c.toNat / 64 % 0x20 + 0xc0), UInt8.ofNat (c.toNat % 0x40 + 0x80)] := by
      simp [String.utf8EncodeChar, hval, h1, h2]
    rw [hread]
    simp only [cons_append, nil_append]
    rw [fromUtf8.eq_def]
    dsimp only
    rw [if_neg (by simp; omega), if_pos (by simp; omega)]
    exact accept_of_encode _ (by simp; omega) hread
  by_cases h3 : c.toNat ≤ 0xffff
  · have hread : String.utf8EncodeChar c = [UInt8.ofNat (c.toNat / 4096 % 0x10 + 0xe0),
          UInt8.ofNat (c.toNat / 64 % 0x40 + 0x80), UInt8.ofNat (c.toNat % 0x40 + 0x80)] := by
      simp [String.utf8EncodeChar, hval, h1, h2, h3]
    rw [hread]
    simp only [cons_append, nil_append]
    rw [fromUtf8.eq_def]
    dsimp only
    rw [if_neg (by simp; omega), if_neg (by simp; omega), if_pos (by simp; omega)]
    exact accept_of_encode _ (by simp; omega) hread
  · have hread : String.utf8EncodeChar c = [UInt8.ofNat (c.toNat / 262144 % 0x08 + 0xf0),
          UInt8.ofNat (c.toNat / 4096 % 0x40 + 0x80),
          UInt8.ofNat (c.toNat / 64 % 0x40 + 0x80), UInt8.ofNat (c.toNat % 0x40 + 0x80)] := by
      simp [String.utf8EncodeChar, hval, h1, h2, h3]
    rw [hread]
    simp only [cons_append, nil_append]
    rw [fromUtf8.eq_def]
    dsimp only
    rw [if_neg (by simp; omega), if_neg (by simp; omega), if_neg (by simp; omega)]
    exact accept_of_encode _ (by simp; omega) hread

/-- Encoded text is decoded. -/
@[simp] theorem fromUtf8_utf8 (text : Str) : fromUtf8 (utf8 text) = some text := by
  induction text with
  | nil => rfl
  | cons c text ih => rw [utf8_cons, fromUtf8_encodeChar_append, ih, Option.map_some]

/-- Accepted bytes are the encoding of the returned text. -/
theorem utf8_of_fromUtf8 : ∀ {bytes : Bytes} {text : Str},
    fromUtf8 bytes = some text → utf8 text = bytes := by
  intro bytes
  fun_induction fromUtf8 bytes with
  | case1 =>
    intro text h
    cases h
    rfl
  | case2 b0 rest hb ih =>
    intro text h
    rcases accept_eq_some h with ⟨tail, hrest, rfl, hread⟩
    simp [hread, ih hrest]
  | case3 => simp
  | case4 b0 hb b1 rest hb1 ih =>
    intro text h
    rcases accept_eq_some h with ⟨tail, hrest, rfl, hread⟩
    simp [hread, ih hrest]
  | case5 => simp
  | case6 b0 hb b1 hb1 b2 rest hb2 ih =>
    intro text h
    rcases accept_eq_some h with ⟨tail, hrest, rfl, hread⟩
    simp [hread, ih hrest]
  | case7 => simp
  | case8 b0 hb b1 hb1 b2 hb2 b3 rest ih =>
    intro text h
    rcases accept_eq_some h with ⟨tail, hrest, rfl, hread⟩
    simp [hread, ih hrest]

/-- Only the encoding of a text is decoded to it. -/
theorem fromUtf8_eq_some_iff {bytes : Bytes} : fromUtf8 bytes = some text ↔ utf8 text = bytes := by
  constructor
  · exact utf8_of_fromUtf8
  · rintro rfl
    exact fromUtf8_utf8 text

theorem utf8_injective : Function.Injective utf8 := by
  intro left right h
  have hright := fromUtf8_utf8 right
  rw [← h, fromUtf8_utf8] at hright
  exact Option.some.inj hright

/-! ## ASCII text -/

/-- Every scalar is below 128. -/
def isAscii (text : Str) : Bool := text.all fun c => c.toNat < 128

theorem utf8EncodeChar_of_ascii (h : c.toNat < 128) :
    String.utf8EncodeChar c = [UInt8.ofNat c.toNat] := by
  have hval : c.val.toNat = c.toNat := rfl
  have hle : c.toNat ≤ 127 := by omega
  simp [String.utf8EncodeChar, hval, hle]

/-- Bytes of a non-ASCII scalar are all at least 128. -/
theorem le_of_mem_utf8EncodeChar (h : 128 ≤ c.toNat) :
    ∀ b ∈ String.utf8EncodeChar c, 128 ≤ b.toNat := by
  have hval : c.val.toNat = c.toNat := rfl
  intro b hb
  simp only [String.utf8EncodeChar, hval] at hb
  split at hb
  · omega
  · split at hb
    · simp only [mem_cons, not_mem_nil, or_false] at hb
      rcases hb with rfl | rfl <;> simp <;> omega
    · split at hb
      · simp only [mem_cons, not_mem_nil, or_false] at hb
        rcases hb with rfl | rfl | rfl <;> simp <;> omega
      · simp only [mem_cons, not_mem_nil, or_false] at hb
        rcases hb with rfl | rfl | rfl | rfl <;> simp <;> omega

theorem utf8EncodeChar_ne_nil (c : Char) : String.utf8EncodeChar c ≠ [] :=
  String.utf8EncodeChar_ne_nil

/-- A byte test for ASCII agrees with the scalar test. -/
theorem all_lt_128_utf8_iff (text : Str) :
    ((utf8 text).all fun b => b.toNat < 128) = isAscii text := by
  induction text with
  | nil => rfl
  | cons c text ih =>
    rw [utf8_cons, all_append, ih]
    by_cases hc : c.toNat < 128
    · have hmod : c.toNat % 256 = c.toNat := Nat.mod_eq_of_lt (by omega)
      simp [utf8EncodeChar_of_ascii hc, isAscii, hc, hmod]
    · have hhead : ((String.utf8EncodeChar c).all fun b => b.toNat < 128) = false := by
        rw [all_eq_false]
        rcases exists_mem_of_ne_nil _ (utf8EncodeChar_ne_nil c) with ⟨b, hb⟩
        have := le_of_mem_utf8EncodeChar (by omega) b hb
        exact ⟨b, hb, by simp; omega⟩
      simp [hhead, isAscii, hc]

/-- ASCII text is one byte a character. -/
theorem utf8_of_ascii (h : isAscii text = true) :
    utf8 text = text.map fun c => UInt8.ofNat c.toNat := by
  induction text with
  | nil => rfl
  | cons c text ih =>
    simp only [isAscii, all_cons, Bool.and_eq_true, decide_eq_true_eq] at h
    rw [utf8_cons, utf8EncodeChar_of_ascii h.1, ih h.2]
    rfl

end Utf8
