import ShardLog.Foundation.Integers
import ShardLog.Types

/-!
# Structural blocks - primitive reads and writes

The byte, varint, section and text primitives of the structural block format,
with the errors the source reports, and the codec law of each.
-/

namespace ShardLog.Structural

open ByteReader Utf8

/-- Report a malformed block. -/
abbrev invalid (message : String) : LogDbError := .invalidBlockEncoding message

/-- Readers of the structural format. -/
abbrev BlockReader := Reader LogDbError

/-! ## Writers -/

/-- Append a 64-bit varint. -/
abbrev writeVarint (value : Nat) : Bytes := Integers.writeVarint value

/-- A varint of a length or count. -/
def writeCount (count : Nat) : LogDbResult Bytes := do
  let count ← tryU64 count
  .ok (writeVarint count)

/-- A length-prefixed byte string. -/
def appendBytes (value : Bytes) : LogDbResult Bytes := do
  let length ← writeCount value.length
  .ok (length ++ value)

/-! ## Readers -/

/-- One byte at the cursor. -/
def readByte : BlockReader UInt8 := fun s =>
  match s.rest with
  | [] => .error (invalid "truncated block")
  | byte :: rest => .ok (byte, ⟨s.cursor + 1, rest⟩)

/-- Errors of the structural varint reader. -/
def varintErrors : Integers.VarintErrors LogDbError where
  truncated := invalid "truncated block"
  overflow := invalid "varint overflow"
  tooLong := invalid "varint is too long"

def readVarint : BlockReader Nat := Integers.readVarint varintErrors

/-- A varint length; `usize` is 64 bits wide, so the conversion never fails. -/
def readUsize : BlockReader Nat := readVarint

/-- A varint that must fit 32 bits. -/
def readU32 : BlockReader Nat := do
  let value ← readVarint
  require (decide (value < 2 ^ 32)) (invalid "value does not fit u32")
  pure value

/-- Take `length` bytes.  The sum of cursor and length can only overflow when
the bytes are not there. -/
def takeExactly (overflow truncated : String) (length : Nat) : BlockReader Bytes := fun s =>
  if length ≤ s.rest.length then .ok (s.rest.take length, ⟨s.cursor + length, s.rest.drop length⟩)
  else if 2 ^ 64 ≤ s.cursor + length then .error (invalid overflow)
  else .error (invalid truncated)

/-- The bytes of a section. -/
def takeBytes (length : Nat) : BlockReader Bytes :=
  takeExactly "section length overflow" "truncated section" length

/-- A length-prefixed byte string. -/
def readBytes : BlockReader Bytes := do
  let length ← readUsize
  takeBytes length

/-- A length-prefixed section of the block. -/
def readSection : BlockReader Bytes := readBytes

/-- A count of items still to be read cannot exceed the remaining bytes. -/
def ensureCountWithin (count : Nat) (label : String) : BlockReader Unit :=
  requireRemaining count (invalid label)

/-- The bytes at the cursor must be the given ones. -/
def expectMagic (magic : Bytes) (missing : LogDbError) : BlockReader Unit := fun s =>
  if s.rest.take magic.length = magic then
    .ok ((), ⟨s.cursor + magic.length, s.rest.drop magic.length⟩)
  else .error missing

/-- Text from owned bytes. -/
def decodeText (bytes : Bytes) : LogDbResult Str :=
  match fromUtf8 bytes with
  | some text => .ok text
  | none => .error (invalid "invalid UTF-8 text")

/-- A length-prefixed text of the embedded index. -/
def readArcStr : BlockReader Str := do
  let bytes ← readBytes
  match fromUtf8 bytes with
  | some text => pure text
  | none => fail (invalid "embedded string is invalid UTF-8")

/-- Nothing may follow the component. -/
def requireConsumed : BlockReader Unit := do
  let state ← input
  require state.rest.isEmpty (invalid "trailing component bytes")

/-- Run a reader on a byte string of its own. -/
def readAll {α : Type} (reader : BlockReader α) (encoded : Bytes) : LogDbResult α :=
  (reader.run (.start encoded)).map Prod.fst

/-- Read a whole component, which must end where the reader stops. -/
def readComponent {α : Type} (reader : BlockReader α) (encoded : Bytes) : LogDbResult α :=
  readAll (do
    let value ← reader
    requireConsumed
    pure value) encoded

/-! ## Codec laws -/

section Laws

variable {α : Type} {bytes : Bytes} {value : Nat} {s t : Input} {reader : BlockReader α}
  {encoded : Bytes} {a : α}

theorem writeCount_eq_ok_iff {count : Nat} :
    writeCount count = .ok bytes ↔ bytes = writeVarint count ∧ count < 2 ^ 64 := by
  unfold writeCount
  rw [bind_eq_ok_iff]
  constructor
  · grind [tryU64_eq_ok_iff]
  · grind [tryU64_eq_ok_iff]

/-- A length and that many bytes. -/
theorem appendBytes_eq_ok_iff {value : Bytes} : appendBytes value = .ok bytes ↔
      bytes = writeVarint value.length ++ value ∧ value.length < 2 ^ 64 := by
  unfold appendBytes
  rw [bind_eq_ok_iff]
  constructor
  · grind [writeCount_eq_ok_iff]
  · grind [writeCount_eq_ok_iff]

theorem appendBytes_ne_nil {value : Bytes} (h : appendBytes value = .ok bytes) : bytes ≠ [] := by
  rcases appendBytes_eq_ok_iff.mp h with ⟨rfl, _⟩
  simp [Integers.writeVarint_ne_nil]

/-- A varint is read back. -/
theorem reads_readVarint (h : value < 2 ^ 64) : Reads readVarint (writeVarint value) value :=
  Integers.reads_readVarint varintErrors h

theorem reads_readUsize (h : value < 2 ^ 64) : Reads readUsize (writeVarint value) value :=
  reads_readVarint h

theorem reads_readUsize_of_writeCount {count : Nat} (h : writeCount count = .ok bytes) :
    Reads readUsize bytes count := by
  rcases writeCount_eq_ok_iff.mp h with ⟨rfl, hlt⟩
  exact reads_readUsize hlt

/-- A small varint is read back. -/
theorem reads_readU32 (h : value < 2 ^ 32) : Reads readU32 (writeVarint value) value := by
  have hread : Reads readVarint (writeVarint value) value := reads_readVarint (by omega)
  exact hread.bind_nil ((reads_pure value).require_bind (decide_eq_true h))

theorem reads_readByte (byte : UInt8) : Reads readByte [byte] byte :=
  fun _ _ => rfl

/-- So many bytes are taken. -/
theorem reads_takeExactly (overflow truncated : String) (value : Bytes) :
    Reads (takeExactly overflow truncated value.length) value value := by
  intro cursor tail
  change takeExactly overflow truncated value.length ⟨cursor, value ++ tail⟩ = _
  simp [takeExactly]

theorem reads_expectMagic (magic : Bytes) (missing : LogDbError) :
    Reads (expectMagic magic missing) magic () := by
  intro cursor tail
  change expectMagic magic missing ⟨cursor, magic ++ tail⟩ = _
  simp [expectMagic]

/-- Bytes with their length are read back. -/
theorem reads_readBytes {value : Bytes} (h : appendBytes value = .ok bytes) :
    Reads readBytes bytes value := by
  rcases appendBytes_eq_ok_iff.mp h with ⟨rfl, hlt⟩
  exact (reads_readUsize hlt).bind (reads_takeExactly _ _ value)

@[simp] theorem decodeText_utf8 (text : Str) : decodeText (utf8 text) = .ok text := by
  simp [decodeText]

/-- Only UTF-8 is text. -/
theorem decodeText_eq_ok_iff {text : Str} : decodeText bytes = .ok text ↔ utf8 text = bytes := by
  unfold decodeText
  rw [← fromUtf8_eq_some_iff]
  cases fromUtf8 bytes with
  | none => simp
  | some other => simp

/-- A string is read back. -/
theorem reads_readArcStr {text : Str} (h : appendBytes (utf8 text) = .ok bytes) :
    Reads readArcStr bytes text :=
  (reads_readBytes h).bind_pure (by simp)

/-! ## Locality -/

theorem local_readByte : Local readByte := by
  intro s a t h
  change readByte s = _ at h
  cases hrest : s.rest with
  | nil => simp [readByte, hrest] at h
  | cons byte rest =>
    simp only [readByte, hrest, Except.ok.injEq, Prod.mk.injEq] at h
    rcases h with ⟨rfl, rfl⟩
    exact ⟨[byte], rfl, rfl, reads_readByte byte⟩

theorem local_readVarint : Local readVarint := Integers.local_readVarint varintErrors

theorem local_readUsize : Local readUsize := local_readVarint

/-- Every 64-bit number reads back, a result lies in the bytes that are there, and larger numbers
are refused. -/
theorem readVarint_exact :
    (∀ value < 2 ^ 64, Reads readVarint (writeVarint value) value) ∧
    (∀ s value t, readVarint.run s = .ok (value, t) → value < 2 ^ 64 ∧
      ∃ used, s.rest = used ++ t.rest ∧ t.cursor = s.cursor + used.length) ∧
    ∀ used, Integers.IsVarint used → 2 ^ 64 ≤ Integers.payloadNumber used →
      ∀ cursor tail, ∃ e, readVarint.run ⟨cursor, used ++ tail⟩ = .error e := by
  refine ⟨fun value h => reads_readVarint h, fun s value t h => ?_, fun used hused hlarge =>
    Integers.readVarint_of_overflow hused hlarge⟩
  obtain ⟨used, hrest, hcursor, _⟩ := local_readVarint s value t h
  exact ⟨Integers.readVarint_lt h, used, hrest, hcursor⟩

theorem consumes_readUsize : Consumes readUsize 1 := Integers.consumes_readVarint varintErrors

theorem readUsize_lt (h : readUsize.run s = .ok (value, t)) : value < 2 ^ 64 :=
  Integers.readVarint_lt h

/-- Bytes are taken if enough remain. -/
theorem run_takeExactly_eq_ok_iff {overflow truncated : String} {length : Nat} {value : Bytes} :
    (takeExactly overflow truncated length).run s = .ok (value, t) ↔
      length ≤ s.rest.length ∧ value = s.rest.take length ∧
        t = ⟨s.cursor + length, s.rest.drop length⟩ := by
  change takeExactly overflow truncated length s = _ ↔ _
  unfold takeExactly
  split
  · rename_i hfits
    simp [hfits, eq_comm]
  · rename_i hshort
    split <;> simp [hshort]

theorem local_takeExactly (overflow truncated : String) (length : Nat) :
    Local (takeExactly overflow truncated length) := by
  intro s a t h
  rcases run_takeExactly_eq_ok_iff.mp h with ⟨hfits, rfl, rfl⟩
  have hlength : (s.rest.take length).length = length := by simp [hfits]
  refine ⟨s.rest.take length, (List.take_append_drop _ _).symm, by simp [hfits], ?_⟩
  have hreads := reads_takeExactly overflow truncated (s.rest.take length)
  rwa [hlength] at hreads

theorem local_readBytes : Local readBytes := local_readUsize.bind (local_takeExactly _ _)

/-- Nothing may be left. -/
theorem run_requireConsumed_eq_ok_iff {u : Unit} :
    requireConsumed.run s = .ok (u, t) ↔ s.rest = [] ∧ t = s := by
  unfold requireConsumed
  rw [run_bind_ok (run_input s), run_require_eq_ok_iff, List.isEmpty_iff]

/-- A reading from the start. -/
theorem readAll_eq_ok_iff :
    readAll reader encoded = .ok a ↔ ∃ t, reader.run (.start encoded) = .ok (a, t) := by
  unfold readAll
  constructor
  · intro h
    rcases map_eq_ok_iff.mp h with ⟨⟨_, t⟩, hrun, rfl⟩
    exact ⟨t, hrun⟩
  · rintro ⟨t, hrun⟩
    rw [hrun]
    rfl

/-- A component is accepted when its reader stops at its end. -/
theorem readComponent_eq_ok_iff : readComponent reader encoded = .ok a ↔
      ∃ t, reader.run (.start encoded) = .ok (a, t) ∧ t.rest = [] := by
  unfold readComponent
  rw [readAll_eq_ok_iff]
  constructor
  · grind [run_bind_eq_ok_iff, run_requireConsumed_eq_ok_iff, run_pure_eq_ok_iff]
  · rintro ⟨t, hread, hempty⟩
    refine ⟨t, ?_⟩
    rw [run_bind_ok hread, run_bind_ok (run_requireConsumed_eq_ok_iff (u := ()).mpr ⟨hempty, rfl⟩)]
    rfl

/-- A component is read from its encoding. -/
theorem readComponent_of_reads (h : Reads reader encoded a) :
    readComponent reader encoded = .ok a :=
  readComponent_eq_ok_iff.mpr ⟨_, h.run_start, rfl⟩

end Laws

end ShardLog.Structural
