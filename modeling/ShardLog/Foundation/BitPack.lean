import Mathlib.Data.Nat.Digits.Defs
import ShardLog.Foundation.Integers

/-!
# Foundation - Packed columns of fixed-width digits

Digits of the same width are packed without gaps, least significant bit first.
The bytes are the little-endian form of the number whose base-`2 ^ width` digits
are the column, which is how both directions are related.
-/

namespace BitPack

open ByteReader Integers List

/-! ## Packing -/

/-- Shift each digit in above the buffered bits and emit the full bytes; the
last byte is padded with zeros. -/
def packFrom (width : Nat) : List Nat → Nat → Nat → Bytes
  | [], buffered, bufferedBits => if 0 < bufferedBits then [UInt8.ofNat buffered] else []
  | digit :: digits, buffered, bufferedBits =>
    let filled := buffered ||| digit <<< bufferedBits
    let bits := bufferedBits + width
    leBytes (bits / 8) filled ++ packFrom width digits (filled >>> (8 * (bits / 8))) (bits % 8)

/-- Pack a column. -/
def pack (width : Nat) (digits : List Nat) : Bytes := packFrom width digits 0 0

/-! ## Unpacking -/

/-- The number spelled by `count` bytes from `start` on; missing bytes are zero. -/
def window (bytes : Bytes) (start count : Nat) : Nat :=
  (List.range count).foldl (fun window index =>
    match bytes[start + index]? with
    | some byte => window ||| byte.toNat <<< (index * 8)
    | none => window) 0

/-- The digit at an index, from the five bytes that can hold it. -/
def unpack (width : Nat) (bytes : Bytes) (index : Nat) : Nat :=
  let bit := index * width
  (window bytes (bit / 8) 5 >>> (bit % 8)) &&& (2 ^ width - 1)

/-! ## The number of a column -/

theorem two_pow_eight_mul (n : Nat) : 2 ^ (8 * n) = 256 ^ n := by
  rw [pow_mul, show (2 : Nat) ^ 8 = 256 from rfl]

variable {width : Nat} {digits : List Nat} {buffered bufferedBits : Nat} {bytes : Bytes}

/-- The packed bytes are the number with the given digits. -/
theorem fromLeBytes_packFrom (hdigits : ∀ digit ∈ digits, digit < 2 ^ width)
    (hbuffered : buffered < 2 ^ bufferedBits) (hbits : bufferedBits < 8) :
    fromLeBytes (packFrom width digits buffered bufferedBits) =
      buffered + 2 ^ bufferedBits * Nat.ofDigits (2 ^ width) digits := by
  induction digits generalizing buffered bufferedBits with
  | nil =>
    rw [packFrom, Nat.ofDigits_nil, Nat.mul_zero, Nat.add_zero]
    have hbyte : buffered < 256 := hbuffered.trans_le (Nat.pow_le_pow_right (by omega) hbits.le)
    by_cases hsome : 0 < bufferedBits
    · rw [if_pos hsome]
      simp [fromLeBytes, Nat.mod_eq_of_lt hbyte]
    · have hzero : bufferedBits = 0 := by omega
      rw [if_neg hsome]
      rw [hzero, pow_zero] at hbuffered
      simp [fromLeBytes]
      omega
  | cons digit digits ih =>
    rw [packFrom]
    have hdigit := hdigits digit mem_cons_self
    rw [or_shiftLeft_of_lt digit hbuffered]
    set filled := buffered + digit * 2 ^ bufferedBits with hfilled
    have hsum : 8 * ((bufferedBits + width) / 8) + (bufferedBits + width) % 8 =
        bufferedBits + width := by omega
    have hbound : filled < 2 ^ (bufferedBits + width) := by
      have hle : (digit + 1) * 2 ^ bufferedBits ≤ 2 ^ width * 2 ^ bufferedBits :=
        Nat.mul_le_mul_right _ hdigit
      rw [pow_add, Nat.mul_comm (2 ^ bufferedBits)]
      rw [Nat.add_mul, Nat.one_mul] at hle
      omega
    have hshift : filled / 256 ^ ((bufferedBits + width) / 8) <
        2 ^ ((bufferedBits + width) % 8) := by
      rw [Nat.div_lt_iff_lt_mul (by positivity), ← two_pow_eight_mul, ← pow_add, Nat.add_comm, hsum]
      exact hbound
    rw [Nat.shiftRight_eq_div_pow, two_pow_eight_mul, fromLeBytes_append, length_leBytes,
      fromLeBytes_leBytes_mod,
      ih (fun other hother => hdigits other (mem_cons_of_mem _ hother)) hshift (by omega),
      Nat.ofDigits_cons, Nat.mul_add, ← Nat.add_assoc, Nat.mod_add_div, ← Nat.mul_assoc,
      ← two_pow_eight_mul, ← pow_add, hsum, hfilled, pow_add]
    ring

/-- The bytes of a packed column spell its number. -/
theorem fromLeBytes_pack (h : ∀ digit ∈ digits, digit < 2 ^ width) :
    fromLeBytes (pack width digits) = Nat.ofDigits (2 ^ width) digits := by
  have hpack := @fromLeBytes_packFrom width digits 0 0 h (by decide) (by decide)
  simpa [pack] using hpack

/-- The bytes that the bits fill. -/
theorem length_packFrom (hbits : bufferedBits < 8) :
    (packFrom width digits buffered bufferedBits).length =
      (bufferedBits + digits.length * width + 7) / 8 := by
  induction digits generalizing buffered bufferedBits with
  | nil =>
    rw [packFrom]
    by_cases hsome : 0 < bufferedBits
    · grind
    · simp only [if_neg hsome, length_nil]
      omega
  | cons digit digits ih =>
    rw [packFrom, length_append, length_leBytes, ih (by omega), length_cons, Nat.add_mul]
    omega

/-- A packed column has as many bytes as its bits need. -/
theorem length_pack (width : Nat) (digits : List Nat) :
    (pack width digits).length = (digits.length * width + 7) / 8 := by
  rw [pack, length_packFrom (by decide), Nat.zero_add]

/-- The last byte of a packed column is zero above the bits in use. -/
theorem last_lt_of_pack (h : ∀ digit ∈ digits, digit < 2 ^ width) {before : Bytes} {last : UInt8}
    (hlast : pack width digits = before ++ [last]) (hused : digits.length * width % 8 ≠ 0) :
    last.toNat < 2 ^ (digits.length * width % 8) := by
  have hlength := length_pack width digits
  have hbase : 1 < 2 ^ width := by
    apply Nat.one_lt_two_pow
    intro hzero
    rw [hzero, Nat.mul_zero] at hused
    exact hused rfl
  have hvalue := Nat.ofDigits_lt_base_pow_length hbase h
  rw [← fromLeBytes_pack h, hlast, fromLeBytes_append, ← pow_mul] at hvalue
  rw [hlast, length_append, length_singleton] at hlength
  -- all bits but those of the last byte are in the bytes before it
  have hbits : width * digits.length = 8 * before.length + digits.length * width % 8 := by
    rw [Nat.mul_comm width]
    omega
  rw [hbits, pow_add, two_pow_eight_mul] at hvalue
  have hbyte : 256 ^ before.length * last.toNat <
      256 ^ before.length * 2 ^ (digits.length * width % 8) := by
    simp only [fromLeBytes, Nat.mul_zero, Nat.add_zero] at hvalue
    omega
  exact Nat.lt_of_mul_lt_mul_left hbyte

/-! ## Digits of the number -/

/-- Dropping bytes divides. -/
theorem fromLeBytes_drop (bytes : Bytes) :
    ∀ count, fromLeBytes (bytes.drop count) = fromLeBytes bytes / 256 ^ count := by
  induction bytes with
  | nil => simp [fromLeBytes]
  | cons byte bytes ih =>
    intro count
    cases count with
    | zero => simp
    | succ count =>
      have hbyte := byte.toNat_lt
      rw [drop_succ_cons, ih, fromLeBytes, pow_succ', ← Nat.div_div_eq_div_mul]
      congr 1
      omega

/-- Keeping bytes takes a remainder. -/
theorem fromLeBytes_take (bytes : Bytes) :
    ∀ count, fromLeBytes (bytes.take count) = fromLeBytes bytes % 256 ^ count := by
  induction bytes with
  | nil => simp [fromLeBytes]
  | cons byte bytes ih =>
    intro count
    cases count with
    | zero => simp [fromLeBytes, Nat.mod_one]
    | succ count =>
      have hbyte := byte.toNat_lt
      have hmod : (byte.toNat + 256 * fromLeBytes bytes) % 256 = byte.toNat := by omega
      have hdiv : (byte.toNat + 256 * fromLeBytes bytes) / 256 = fromLeBytes bytes := by omega
      rw [take_succ_cons, fromLeBytes, ih, fromLeBytes, pow_succ', Nat.mod_mul, hmod, hdiv]

/-- The window is a run of base-256 digits of the whole number. -/
theorem window_eq (bytes : Bytes) (start : Nat) :
    ∀ count, window bytes start count = fromLeBytes bytes / 256 ^ start % 256 ^ count := by
  intro count
  rw [← fromLeBytes_drop, ← fromLeBytes_take]
  induction count with
  | zero => simp [window, fromLeBytes]
  | succ count ih =>
    have hstep : window bytes start (count + 1) =
        match bytes[start + count]? with
        | some byte => window bytes start count ||| byte.toNat <<< (count * 8)
        | none => window bytes start count := by
      simp only [window, range_succ, foldl_append, foldl_cons, foldl_nil]
    rw [hstep, ih, take_add_one, getElem?_drop, fromLeBytes_append]
    cases hbyte : bytes[start + count]? with
    | none => simp [fromLeBytes]
    | some byte =>
      have hfull : ((bytes.drop start).take count).length = count := by grind
      have hlow : fromLeBytes ((bytes.drop start).take count) < 2 ^ (count * 8) := by
        grind [fromLeBytes_lt, two_pow_eight_mul]
      dsimp only
      rw [or_shiftLeft_of_lt _ hlow, hfull, Nat.mul_comm count, two_pow_eight_mul]
      simp [fromLeBytes, Nat.mul_comm]

/-- A digit of at most 32 bits is read from the whole number. -/
theorem unpack_eq (hwidth : width ≤ 32) (bytes : Bytes) (index : Nat) :
    unpack width bytes index = fromLeBytes bytes / 2 ^ (index * width) % 2 ^ width := by
  unfold unpack
  set bit := index * width with hbit
  have hsplit : 256 ^ 5 = 2 ^ (bit % 8) * 2 ^ (40 - bit % 8) := by
    rw [← pow_add, ← two_pow_eight_mul]
    congr 1
    omega
  have hdvd : 2 ^ width ∣ 2 ^ (40 - bit % 8) := Nat.pow_dvd_pow 2 (by omega)
  rw [Nat.and_two_pow_sub_one_eq_mod, Nat.shiftRight_eq_div_pow, window_eq, hsplit,
    Nat.mod_mul_right_div_self, Nat.mod_mod_of_dvd _ hdvd, Nat.div_div_eq_div_mul,
    ← two_pow_eight_mul, ← pow_add, Nat.div_add_mod]

/-- A digit by its index. -/
theorem ofDigits_div_pow_mod {base : Nat} :
    ∀ {index : Nat}, (∀ digit ∈ digits, digit < base) → (h : index < digits.length) →
      Nat.ofDigits base digits / base ^ index % base = digits[index] := by
  induction digits with
  | nil => exact fun _ h => absurd h (Nat.not_lt_zero _)
  | cons digit digits ih =>
    intro index hdigits h
    have hdigit := hdigits digit mem_cons_self
    rw [Nat.ofDigits_cons]
    cases index with
    | zero => simp [Nat.add_mul_mod_self_left, Nat.mod_eq_of_lt hdigit]
    | succ index =>
      have hpos : 0 < base := by omega
      have hdiv : (digit + base * Nat.ofDigits base digits) / base = Nat.ofDigits base digits := by
        rw [Nat.add_mul_div_left _ _ hpos, Nat.div_eq_of_lt hdigit, Nat.zero_add]
      rw [pow_succ', ← Nat.div_div_eq_div_mul]
      simp only [hdiv]
      exact ih (fun other hother => hdigits other (mem_cons_of_mem _ hother)) _

/-- Every digit of a packed column is found at its place. -/
theorem unpack_pack (hwidth : width ≤ 32) (h : ∀ digit ∈ digits, digit < 2 ^ width) {index : Nat}
    (hindex : index < digits.length) :
    unpack width (pack width digits) index = digits[index] := by
  rw [unpack_eq hwidth, fromLeBytes_pack h, Nat.mul_comm, pow_mul, ofDigits_div_pow_mod h hindex]

/-! ## Packing what was unpacked -/

/-- The first digits of a number. -/
theorem ofDigits_map_range (base number count : Nat) :
    Nat.ofDigits base ((range count).map fun index => number / base ^ index % base) =
      number % base ^ count := by
  induction count with
  | zero => simp [Nat.mod_one]
  | succ count ih =>
    rw [range_succ, map_append, Nat.ofDigits_append, ih, map_singleton,
      Nat.ofDigits_singleton, length_map, length_range, Nat.mod_pow_succ]

/-- Bytes that are zero above the bits in use spell a number of that many bits. -/
theorem fromLeBytes_lt_of_padding {bits : Nat} (hlength : bytes.length = (bits + 7) / 8)
    (hpadding : ∀ last ∈ bytes.getLast?, bits % 8 ≠ 0 → last.toNat < 2 ^ (bits % 8)) :
    fromLeBytes bytes < 2 ^ bits := by
  by_cases hused : bits % 8 = 0
  · have hbits : 8 * bytes.length = bits := by omega
    rw [← hbits, two_pow_eight_mul]
    exact fromLeBytes_lt bytes
  · cases hend : bytes.getLast? with
    | none =>
      rw [getLast?_eq_none_iff.mp hend] at hlength
      simp only [length_nil] at hlength
      omega
    | some last =>
      obtain ⟨before, rfl⟩ := getLast?_eq_some_iff.mp hend
      have hbefore := fromLeBytes_lt before
      have hlast := hpadding last hend hused
      rw [length_append, length_singleton] at hlength
      have hbits : bits = 8 * before.length + bits % 8 := by omega
      have hle := Nat.mul_le_mul_left (256 ^ before.length) (Nat.succ_le_of_lt hlast)
      rw [hbits, pow_add, two_pow_eight_mul, fromLeBytes_append]
      simp only [fromLeBytes, Nat.mul_zero, Nat.add_zero]
      rw [Nat.mul_succ] at hle
      omega

/-- A column without spare bytes or bits is packed from the digits it holds. -/
theorem pack_unpack (hwidth : width ≤ 32) {count : Nat}
    (hlength : bytes.length = (count * width + 7) / 8)
    (hpadding : ∀ last ∈ bytes.getLast?, count * width % 8 ≠ 0 →
      last.toNat < 2 ^ (count * width % 8)) :
    pack width ((range count).map (unpack width bytes)) = bytes := by
  set digits := (range count).map (unpack width bytes) with hdigits
  have hbound : ∀ digit ∈ digits, digit < 2 ^ width := by
    intro digit hdigit
    obtain ⟨index, _, rfl⟩ := mem_map.mp hdigit
    rw [unpack_eq hwidth]
    exact Nat.mod_lt _ (by positivity)
  have hnumber : fromLeBytes (pack width digits) = fromLeBytes bytes := by
    have hpow : ∀ index, 2 ^ (index * width) = (2 ^ width) ^ index := fun index => by
      rw [Nat.mul_comm, pow_mul]
    rw [fromLeBytes_pack hbound, hdigits]
    simp only [funext (unpack_eq hwidth bytes), hpow]
    rw [ofDigits_map_range, ← hpow, Nat.mod_eq_of_lt (fromLeBytes_lt_of_padding hlength hpadding)]
  have hsame : (pack width digits).length = bytes.length := by
    rw [length_pack, hlength, hdigits, length_map, length_range]
  rw [← leBytes_fromLeBytes (pack width digits), hsame, hnumber, leBytes_fromLeBytes]

end BitPack
