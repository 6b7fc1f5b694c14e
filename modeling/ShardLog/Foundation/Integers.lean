import Mathlib.Data.Nat.Bitwise
import Mathlib.Tactic.Ring
import ShardLog.Foundation.ByteReader

/-!
# Foundation - Integers on the wire

Fixed-width little-endian integers and the variable-length LEB128 encoding of
64-bit values, with a reader that refuses values beyond 64 bits.
-/

namespace Integers

open ByteReader List

/-! ## Fixed-width little-endian bytes -/

/-- The `width` low bytes of a value, least significant first. -/
def leBytes : Nat → Nat → Bytes
  | 0, _ => []
  | width + 1, value => UInt8.ofNat (value % 256) :: leBytes width (value / 256)

/-- The value of a little-endian byte string. -/
def fromLeBytes : Bytes → Nat
  | [] => 0
  | byte :: bytes => byte.toNat + 256 * fromLeBytes bytes

@[simp] theorem length_leBytes : ∀ width value, (leBytes width value).length = width
  | 0, _ => rfl
  | width + 1, value => by simp [leBytes, length_leBytes width]

/-- Writing a value to `width` bytes keeps it modulo their range. -/
theorem fromLeBytes_leBytes_mod : ∀ width value : Nat,
    fromLeBytes (leBytes width value) = value % 256 ^ width
  | 0, value => by simp [leBytes, fromLeBytes, Nat.mod_one]
  | width + 1, value => by
      have hbyte : (UInt8.ofNat (value % 256)).toNat = value % 256 := by
        simp
      rw [leBytes, fromLeBytes, fromLeBytes_leBytes_mod width, hbyte, pow_succ', Nat.mod_mul]

variable {value : Nat} {ε : Type} {shift : Nat} {byte : UInt8}

/-- A value that fits is read back. -/
theorem fromLeBytes_leBytes {width : Nat} (h : value < 256 ^ width) :
    fromLeBytes (leBytes width value) = value := by
  rw [fromLeBytes_leBytes_mod, Nat.mod_eq_of_lt h]

theorem fromLeBytes_append (first second : Bytes) :
    fromLeBytes (first ++ second) = fromLeBytes first + 256 ^ first.length * fromLeBytes second := by
  induction first with
  | nil => simp [fromLeBytes]
  | cons byte first ih =>
    rw [cons_append, fromLeBytes, fromLeBytes, ih, length_cons]
    ring

/-- So many bytes bound the value. -/
theorem fromLeBytes_lt : ∀ bytes : Bytes, fromLeBytes bytes < 256 ^ bytes.length
  | [] => by simp [fromLeBytes]
  | byte :: bytes => by
      have hrest := fromLeBytes_lt bytes
      have hbyte := byte.toNat_lt
      rw [fromLeBytes, length_cons, pow_succ]
      omega

/-- Bytes are those of their value. -/
theorem leBytes_fromLeBytes : ∀ bytes : Bytes, leBytes bytes.length (fromLeBytes bytes) = bytes
  | [] => rfl
  | byte :: bytes => by
      have hlt := byte.toNat_lt
      have hmod : (byte.toNat + 256 * fromLeBytes bytes) % 256 = byte.toNat := by omega
      have hdiv : (byte.toNat + 256 * fromLeBytes bytes) / 256 = fromLeBytes bytes := by omega
      rw [length_cons, fromLeBytes, leBytes, hmod, hdiv, leBytes_fromLeBytes bytes]
      simp

/-! ## Variable-length integers -/

/-- Emit seven bits at a time while more than seven remain.  Nine continuation
bytes suffice for a 64-bit value. -/
def writeVarintFrom : Nat → Nat → Bytes
  | 0, value => [UInt8.ofNat value]
  | fuel + 1, value =>
    if value < 0x80 then [UInt8.ofNat value]
    else ((UInt8.ofNat value &&& 0x7f) ||| 0x80) :: writeVarintFrom fuel (value >>> 7)

/-- The LEB128 encoding of a 64-bit value. -/
def writeVarint (value : Nat) : Bytes := writeVarintFrom 9 value

/-- How a varint reader reports each failure. -/
structure VarintErrors (ε : Type) where
  truncated : ε
  overflow : ε
  tooLong : ε

/-- Accumulate seven payload bits per byte, starting at bit `shift`, and return
the bytes after the varint. -/
def readVarintFrom (errors : VarintErrors ε) (value shift : Nat) : Bytes → Except ε (Nat × Bytes)
  | [] => .error errors.truncated
  | byte :: rest =>
    let payload := (byte &&& 0x7f).toNat
    if shift > 63 ∨ (shift = 63 ∧ payload > 1) then .error errors.overflow
    else
      let value := value ||| (payload <<< shift)
      if byte &&& 0x80 = 0 then .ok (value, rest)
      else if shift + 7 > 63 then .error errors.tooLong
      else readVarintFrom errors value (shift + 7) rest

/-- Read one varint at the cursor. -/
def readVarint (errors : VarintErrors ε) : Reader ε Nat := fun s =>
  (readVarintFrom errors 0 0 s.rest).map fun (value, rest) =>
    (value, ⟨s.cursor + (s.rest.length - rest.length), rest⟩)

variable {errors : VarintErrors ε}

/-- The reader moves the cursor by the bytes it takes. -/
theorem run_readVarint_eq_ok_iff {s t : Input} : (readVarint errors).run s = .ok (value, t) ↔
      readVarintFrom errors 0 0 s.rest = .ok (value, t.rest) ∧
        t.cursor = s.cursor + (s.rest.length - t.rest.length) := by
  change (readVarintFrom errors 0 0 s.rest).map _ = _ ↔ _
  cases hread : readVarintFrom errors 0 0 s.rest with
  | error e => simp [Except.map]
  | ok result =>
    rcases result with ⟨other, rest⟩
    rcases t with ⟨cursor, trest⟩
    simp only [Except.map, Except.ok.injEq, Prod.mk.injEq, Input.mk.injEq]
    constructor
    · rintro ⟨rfl, rfl, rfl⟩
      exact ⟨⟨rfl, rfl⟩, rfl⟩
    · rintro ⟨⟨rfl, rfl⟩, rfl⟩
      exact ⟨rfl, rfl, rfl⟩

/-- A byte without the continuation bit ends the varint. -/
theorem readVarintFrom_stop (errors : VarintErrors ε) (s : Bytes)
    (hguard : shift < 63 ∨ shift = 63 ∧ (byte &&& 0x7f).toNat ≤ 1) (hstop : byte &&& 0x80 = 0) :
    readVarintFrom errors value shift (byte :: s) =
      .ok (value ||| ((byte &&& 0x7f).toNat <<< shift), s) := by
  rw [readVarintFrom, if_neg (by omega), if_pos hstop]

/-- A byte with the continuation bit adds its payload and goes on. -/
theorem readVarintFrom_more (errors : VarintErrors ε) (s : Bytes) (hmore : byte &&& 0x80 ≠ 0)
    (hshift : shift + 7 ≤ 63) :
    readVarintFrom errors value shift (byte :: s) =
      readVarintFrom errors (value ||| ((byte &&& 0x7f).toNat <<< shift)) (shift + 7) s := by
  rw [readVarintFrom, if_neg (by omega), if_neg hmore, if_neg (by omega)]

theorem writeVarintFrom_ne_nil : ∀ fuel value, writeVarintFrom fuel value ≠ []
  | 0, value => by simp [writeVarintFrom]
  | fuel + 1, value => by
      unfold writeVarintFrom
      split <;> simp

theorem writeVarint_ne_nil (value : Nat) : writeVarint value ≠ [] := writeVarintFrom_ne_nil 9 value

/-- A byte below 128 ends the varint and is its own payload. -/
theorem final_byte : ∀ payload < 128,
    (UInt8.ofNat payload &&& 0x7f).toNat = payload ∧ UInt8.ofNat payload &&& 0x80 = 0 := by
  decide

/-- A continuation byte carries the low seven bits of the value. -/
theorem continuation_byte : ∀ low < 256,
    (((UInt8.ofNat low &&& 0x7f) ||| 0x80) &&& 0x7f).toNat = low % 128 ∧
      ((UInt8.ofNat low &&& 0x7f) ||| 0x80) &&& 0x80 ≠ 0 := by
  decide +kernel

theorem ofNat_mod_256 (value : Nat) : UInt8.ofNat value = UInt8.ofNat (value % 256) := by
  apply UInt8.toNat_inj.mp
  simp

/-- Setting fresh high bits is addition. -/
theorem or_shiftLeft_of_lt {low : Nat} (high : Nat) (h : low < 2 ^ shift) :
    low ||| (high <<< shift) = low + high * 2 ^ shift := by
  rw [Nat.or_comm, Nat.shiftLeft_eq, Nat.mul_comm, ← Nat.two_pow_add_eq_or_of_lt h high]
  omega

theorem two_pow_seven_succ (k : Nat) : 2 ^ (7 * (k + 1)) = 128 * 2 ^ (7 * k) := by
  rw [Nat.mul_add, pow_add]
  ring

/-- Seven more payload bits stay below the next power. -/
theorem add_payload_lt {low payload k : Nat} (hlow : low < 2 ^ (7 * k)) (hpayload : payload < 128) :
    low + payload * 2 ^ (7 * k) < 2 ^ (7 * (k + 1)) := by
  have hpart : payload * 2 ^ (7 * k) ≤ 127 * 2 ^ (7 * k) := Nat.mul_le_mul_right _ (by omega)
  rw [two_pow_seven_succ]
  omega

/-- `low` holds the bits below `7 * k`, and the `9 - k` bytes of fuel left hold the rest. -/
theorem readVarintFrom_writeVarintFrom (errors : VarintErrors ε) :
    ∀ (fuel k low high : Nat) (rest : Bytes), fuel + k = 9 → low < 2 ^ (7 * k) →
      high < 2 ^ (64 - 7 * k) →
      readVarintFrom errors low (7 * k) (writeVarintFrom fuel high ++ rest) =
        .ok (low + high * 2 ^ (7 * k), rest)
  | 0, k, low, high, rest, hk, hlow, hhigh => by
      obtain rfl : k = 9 := by omega
      rcases final_byte high (by omega) with ⟨hpayload, hstop⟩
      rw [writeVarintFrom, singleton_append,
        readVarintFrom_stop errors rest (.inr ⟨rfl, by omega⟩) hstop, hpayload,
        or_shiftLeft_of_lt high hlow]
  | fuel + 1, k, low, high, rest, hk, hlow, hhigh => by
      unfold writeVarintFrom
      split
      · rename_i hsmall
        rcases final_byte high hsmall with ⟨hpayload, hstop⟩
        rw [singleton_append, readVarintFrom_stop errors rest (.inl (by omega)) hstop,
          hpayload, or_shiftLeft_of_lt high hlow]
      · rcases continuation_byte (high % 256) (Nat.mod_lt _ (by decide)) with
          ⟨hpayload, hmore⟩
        rw [← ofNat_mod_256] at hpayload hmore
        have hmod : high % 256 % 128 = high % 128 := by omega
        have hhigh' : high >>> 7 < 2 ^ (64 - 7 * (k + 1)) := by
          rw [Nat.shiftRight_eq_div_pow, Nat.div_lt_iff_lt_mul (by decide), ← pow_add]
          have hexp : 64 - 7 * (k + 1) + 7 = 64 - 7 * k := by omega
          rwa [hexp]
        have hsplit : high % 128 + 128 * (high >>> 7) = high := by
          rw [Nat.shiftRight_eq_div_pow]
          omega
        rw [cons_append, readVarintFrom_more errors _ hmore (by omega), hpayload, hmod,
          or_shiftLeft_of_lt _ hlow, ← Nat.mul_succ,
          readVarintFrom_writeVarintFrom errors fuel (k + 1) _ (high >>> 7) rest (by omega)
            (add_payload_lt hlow (Nat.mod_lt _ (by decide))) hhigh', two_pow_seven_succ]
        congr 2
        calc low + high % 128 * 2 ^ (7 * k) + high >>> 7 * (128 * 2 ^ (7 * k))
            = low + (high % 128 + 128 * (high >>> 7)) * 2 ^ (7 * k) := by ring
          _ = low + high * 2 ^ (7 * k) := by rw [hsplit]

/-- Every 64-bit value is read back from its varint. -/
theorem reads_readVarint (errors : VarintErrors ε) (h : value < 2 ^ 64) :
    Reads (readVarint errors) (writeVarint value) value := by
  intro cursor tail
  have hrun := readVarintFrom_writeVarintFrom errors 9 0 0 value tail rfl (by simp) (by simpa)
  rw [run_readVarint_eq_ok_iff]
  constructor
  · simpa [writeVarint] using hrun
  · simp

/-- What one step of the reader does with the next byte. -/
theorem readVarintFrom_cons_eq_ok {s t : Bytes} {a : Nat}
    (h : readVarintFrom errors value shift (byte :: s) = .ok (a, t)) :
    (shift < 63 ∨ shift = 63 ∧ (byte &&& 0x7f).toNat ≤ 1) ∧
      (byte &&& 0x80 = 0 ∧ a = value ||| ((byte &&& 0x7f).toNat <<< shift) ∧ t = s ∨
        byte &&& 0x80 ≠ 0 ∧ shift + 7 ≤ 63 ∧
          readVarintFrom errors (value ||| ((byte &&& 0x7f).toNat <<< shift)) (shift + 7) s =
            .ok (a, t)) := by
  rw [readVarintFrom] at h
  split at h
  · contradiction
  · rename_i hguard
    refine ⟨by omega, ?_⟩
    split at h
    · rename_i hstop
      cases h
      exact .inl ⟨hstop, rfl, rfl⟩
    · rename_i hmore
      split at h
      · contradiction
      · exact .inr ⟨hmore, by omega, h⟩

/-- The bytes after a varint do not matter. -/
theorem readVarintFrom_local : ∀ {s : Bytes} {value shift a : Nat} {t : Bytes},
      readVarintFrom errors value shift s = .ok (a, t) →
      ∃ used, s = used ++ t ∧ used ≠ [] ∧
        ∀ tail, readVarintFrom errors value shift (used ++ tail) = .ok (a, tail)
  | [], _, _, _, _, h => by simp [readVarintFrom] at h
  | byte :: s, value, shift, a, t, h => by
      rcases readVarintFrom_cons_eq_ok h with ⟨hguard, hlast | hnext⟩
      · rcases hlast with ⟨hstop, rfl, rfl⟩
        refine ⟨[byte], rfl, by simp, fun tail => ?_⟩
        exact readVarintFrom_stop errors tail hguard hstop
      · rcases hnext with ⟨hmore, hshift, hrec⟩
        rcases readVarintFrom_local hrec with ⟨used, rfl, _, hused⟩
        refine ⟨byte :: used, rfl, by simp, fun tail => ?_⟩
        rw [cons_append, readVarintFrom_more errors _ hmore hshift, hused]

/-- The varint reader depends only on the bytes it consumes. -/
theorem local_readVarint (errors : VarintErrors ε) : Local (readVarint errors) := by
  intro s a t h
  rcases run_readVarint_eq_ok_iff.mp h with ⟨hread, hcursor⟩
  rcases readVarintFrom_local hread with ⟨used, hs, _, hused⟩
  refine ⟨used, hs, ?_, fun cursor tail => ?_⟩
  · rw [hcursor, hs]
    simp
  · rw [run_readVarint_eq_ok_iff]
    exact ⟨hused tail, by simp⟩

/-- A varint takes at least a byte. -/
theorem consumes_readVarint (errors : VarintErrors ε) : Consumes (readVarint errors) 1 := by
  intro s a t h
  rcases run_readVarint_eq_ok_iff.mp h with ⟨hread, _⟩
  rcases readVarintFrom_local hread with ⟨used, hs, hne, _⟩
  have hpos := length_pos_iff.mpr hne
  rw [hs, length_append]
  omega

theorem payload_lt (byte : UInt8) : (byte &&& 0x7f).toNat < 128 := by
  rw [UInt8.toNat_and]
  exact Nat.lt_of_le_of_lt Nat.and_le_right (by decide)

/-- A varint that is read fits 64 bits. -/
theorem readVarintFrom_lt : ∀ {s : Bytes} {value k a : Nat} {t : Bytes}, value < 2 ^ (7 * k) →
      readVarintFrom errors value (7 * k) s = .ok (a, t) → a < 2 ^ 64
  | [], _, _, _, _, _, h => by simp [readVarintFrom] at h
  | byte :: s, value, k, a, t, hvalue, h => by
      have hsum : value ||| ((byte &&& 0x7f).toNat <<< (7 * k)) < 2 ^ (7 * (k + 1)) := by
        rw [or_shiftLeft_of_lt _ hvalue]
        exact add_payload_lt hvalue (payload_lt byte)
      rcases readVarintFrom_cons_eq_ok h with ⟨hguard, hlast | hnext⟩
      · rcases hlast with ⟨_, rfl, _⟩
        rcases hguard with hlt | ⟨heq, hone⟩
        · exact Nat.lt_of_lt_of_le hsum (Nat.pow_le_pow_right (by decide) (by omega))
        · obtain rfl : k = 9 := by omega
          rw [or_shiftLeft_of_lt _ hvalue]
          omega
      · rcases hnext with ⟨_, _, hrec⟩
        have hshift : 7 * k + 7 = 7 * (k + 1) := by ring
        exact readVarintFrom_lt hsum hrec

/-- The varint reader only returns 64-bit values. -/
theorem readVarint_lt {s t : Input} {a : Nat} (h : (readVarint errors).run s = .ok (a, t)) :
    a < 2 ^ 64 :=
  readVarintFrom_lt (k := 0) (by simp) (run_readVarint_eq_ok_iff.mp h).1

/-! ## Encodings of one number -/

/-- Only the last byte has no continuation bit. -/
def IsVarint : Bytes → Prop
  | [] => False
  | byte :: rest => if byte &&& 0x80 = 0 then rest = [] else IsVarint rest

/-- The number that the payload bits spell. -/
def payloadNumber : Bytes → Nat
  | [] => 0
  | byte :: rest => (byte &&& 0x7f).toNat + 128 * payloadNumber rest

/-- What is read from an encoding is the number it spells. -/
theorem eq_payloadNumber_of_readVarintFrom : ∀ {used tail t : Bytes} {value k a : Nat},
    IsVarint used → value < 2 ^ (7 * k) →
      readVarintFrom errors value (7 * k) (used ++ tail) = .ok (a, t) →
      a = value + payloadNumber used * 2 ^ (7 * k)
  | byte :: rest, tail, t, value, k, a, hused, hvalue, h => by
      rw [IsVarint] at hused
      rcases readVarintFrom_cons_eq_ok h with ⟨_, ⟨hstop, rfl, _⟩ | ⟨hmore, _, hrec⟩⟩
      · rw [if_pos hstop] at hused
        rw [hused, or_shiftLeft_of_lt _ hvalue]
        simp [payloadNumber]
      · rw [if_neg hmore] at hused
        rw [or_shiftLeft_of_lt _ hvalue] at hrec
        have hsum := add_payload_lt hvalue (payload_lt byte)
        rw [eq_payloadNumber_of_readVarintFrom hused hsum hrec, payloadNumber, two_pow_seven_succ]
        ring

/-- An encoding of a number beyond 64 bits is refused. -/
theorem readVarint_of_overflow {used : Bytes} (hused : IsVarint used)
    (hlarge : 2 ^ 64 ≤ payloadNumber used) (cursor : Nat) (tail : Bytes) :
    ∃ e, (readVarint errors).run ⟨cursor, used ++ tail⟩ = .error e := by
  cases hread : (readVarint errors).run ⟨cursor, used ++ tail⟩ with
  | error e => exact ⟨e, rfl⟩
  | ok result =>
    have hlt := readVarint_lt hread
    have hvalue := eq_payloadNumber_of_readVarintFrom (k := 0) hused (by simp)
      (run_readVarint_eq_ok_iff.mp hread).1
    omega

end Integers
