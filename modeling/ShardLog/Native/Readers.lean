import ShardLog.Foundation.OrderedMap
import ShardLog.Native.Events

/-!
# Native protocol - the four readers of a batch

Besides the borrowed view and the owned events there is a reader of compatibility
entries, with ordered maps for labels and metadata, and a reader that only
validates.  All four walk a payload in lockstep.

Main results:

- Theorem `native_readers_agree`: all four readers accept a payload and describe
  the same records, or all four reject it.
-/

namespace ShardLog.Native

open ByteReader Utf8 Cursor OrderedMap Lockstep

/-! ## Compatibility entries -/

/-- A map from text to text. -/
abbrev TextMap := OrderedMap Str Str

/-- One entry of the compatibility boundary. -/
structure LokiEntry where
  timestampUnixNanos : Int64
  labels : TextMap
  line : Str
  structuredMetadata : TextMap
deriving DecidableEq

/-- Decoded batch; the labels of a stream are repeated in its entries. -/
structure NativeLogBatch where
  tenant : Str
  entries : List LokiEntry
deriving DecidableEq

/-- Pairs of key and value; an empty or repeated key is rejected. -/
def readTextMap (keyField valueField : String) (rejected : NativeProtocolError) :
    Nat → TextMap → Cursor TextMap
  | 0, map => pure map
  | count + 1, map => do
      let key ← string16 keyField
      let value ← string16 valueField
      require (!(key.isEmpty || map.contains key)) rejected
      readTextMap keyField valueField rejected count (map.insert key value)

def readBatchLabels (count : Nat) : Cursor TextMap :=
  readTextMap "label key" "label value" emptyOrDuplicateLabel count empty

def readBatchMetadata (count : Nat) : Cursor TextMap :=
  readTextMap "metadata key" "metadata value" emptyOrDuplicateMetadata count empty

/-- One entry; its timestamp is checked after everything else was read. -/
def readBatchEntry (labels : TextMap) : Cursor LokiEntry := do
  let timestamp ← u64 "timestamp"
  let lineLength ← u32 "line length"
  let metadataCount ← u16 "metadata count"
  require (decide (metadataCount ≤ maxMetadataPerEntry))
    ⟨"native entry contains too much structured metadata"⟩
  let reserved ← u16 "entry reserved bytes"
  require (reserved == 0) ⟨"native entry reserved bytes must be zero"⟩
  let line ← string lineLength "log line"
  let structuredMetadata ← readBatchMetadata metadataCount
  require (decide (timestamp < 2 ^ 63)) ⟨"native log timestamp exceeds the signed i64 range"⟩
  pure ⟨(UInt64.ofNat timestamp).toInt64, labels, line, structuredMetadata⟩

def readBatchEntries (labels : TextMap) : Nat → List LokiEntry → Cursor (List LokiEntry)
  | 0, entries => pure entries
  | count + 1, entries => do
      let entry ← readBatchEntry labels
      readBatchEntries labels count (entries ++ [entry])

/-- One stream; its entry count is checked after the labels were read. -/
def readBatchStream (recordCount : Nat) (entries : List LokiEntry) : Cursor (List LokiEntry) := do
  let labelCount ← u16 "label count"
  require (decide (labelCount ≤ maxLabelsPerStream)) ⟨"native stream contains too many labels"⟩
  let reserved ← u16 "stream reserved bytes"
  require (reserved == 0) ⟨"native stream reserved bytes must be zero"⟩
  let entryCount ← u32 "entry count"
  let labels ← readBatchLabels labelCount
  require (decide (entries.length + entryCount ≤ recordCount))
    ⟨"native stream counts exceed declared record count"⟩
  readBatchEntries labels entryCount entries

def readBatchStreams (recordCount : Nat) : Nat → List LokiEntry → Cursor (List LokiEntry)
  | 0, entries => pure entries
  | count + 1, entries => do
      let entries ← readBatchStream recordCount entries
      readBatchStreams recordCount count entries

def readBatch (recordCount streamCount : Nat) : Cursor (List LokiEntry) := do
  let entries ← readBatchStreams recordCount streamCount []
  require (entries.length == recordCount) (recordCountMismatch entries.length recordCount)
  finish
  pure entries

/-- Decode a grouped batch into compatibility entries. -/
def decodeNativeLogBatch (payload : Bytes) : NativeResult NativeLogBatch := do
  let info ← inspectNativeLogBatch payload
  let entries ← ((readBatch info.recordCount (declaredStreams payload)).run
    (bodyInput payload info)).map Prod.fst
  .ok ⟨info.tenant, entries⟩

/-! ## Validation -/

/-- Pairs of key and value, of which only the keys are kept. -/
def validateKeys (keyField valueField : String) (rejected : NativeProtocolError) :
    Nat → List Str → Cursor Unit
  | 0, _ => pure ()
  | count + 1, keys => do
      let key ← string16 keyField
      let _ ← string16 valueField
      require (!(key.isEmpty || keys.contains key)) rejected
      validateKeys keyField valueField rejected count (keys ++ [key])

def validateLabels (count : Nat) : Cursor Unit :=
  validateKeys "label key" "label value" emptyOrDuplicateLabel count []

def validateMetadata : Nat → Cursor Unit
  | 0 => pure ()
  | 1 => do
      let key ← string16 "metadata key"
      let _ ← string16 "metadata value"
      require (!key.isEmpty) ⟨"native entry contains empty metadata"⟩
  | count => validateKeys "metadata key" "metadata value" emptyOrDuplicateMetadata count []

def validateEntries : Nat → Cursor Unit
  | 0 => pure ()
  | count + 1 => do
      let head ← readEntryHead
      validateMetadata head.metadataCount
      validateEntries count

/-- One stream; returns the number of records seen so far. -/
def validateStream (recordCount decodedCount : Nat) : Cursor Nat := do
  let head ← readStreamHead recordCount decodedCount
  validateLabels head.1
  validateEntries head.2
  pure (decodedCount + head.2)

def validateStreams (recordCount : Nat) : Nat → Nat → Cursor Nat
  | 0, decodedCount => pure decodedCount
  | count + 1, decodedCount => do
      let decodedCount ← validateStream recordCount decodedCount
      validateStreams recordCount count decodedCount

def validateBody (recordCount streamCount : Nat) : Cursor Unit := do
  let decodedCount ← validateStreams recordCount streamCount 0
  require (decodedCount == recordCount) (recordCountMismatch decodedCount recordCount)
  finish

/-- Validate a grouped batch without keeping its records. -/
def validateNativeLogBatch (payload : Bytes) : NativeResult Unit := do
  let info ← inspectNativeLogBatch payload
  ((validateBody info.recordCount (declaredStreams payload)).run
    (bodyInput payload info)).map Prod.fst

/-! ## Entries and events -/

/-- A map holds the pairs that an owned reader has turned into fields. -/
structure HoldsPairs (map : TextMap) (pairs : List (Str × Str)) : Prop where
  perm : map.entries.Perm pairs

theorem holdsPairs_empty : HoldsPairs empty [] := ⟨List.Perm.refl _⟩

variable {map : TextMap} {pairs : List (Str × Str)} {seen : List Str} {key : Str}
  {cache : EventCache} {tenant : Str} {labels : TextMap} {events : List OtlpLogEvent}
  {entries : List LokiEntry} {s t : Input}

/-- The map has the keys seen. -/
theorem HoldsPairs.contains_eq (h : HoldsPairs map pairs)
    (hseen : KnownKeys (some seen) (pairs.map Prod.fst)) (key : Str) :
    map.contains key = seen.contains key := by
  rw [hseen.contains_eq key, Bool.eq_iff_iff, contains_iff, List.contains_iff_mem]
  exact (h.perm.map Prod.fst).mem_iff

/-- A new pair is held. -/
theorem HoldsPairs.insert (h : HoldsPairs map pairs) (value : Str) (hnew : map.contains key = false) :
    HoldsPairs (map.insert key value) (pairs ++ [(key, value)]) :=
  ⟨(perm_insert value hnew).trans ((h.perm.cons _).trans (List.perm_append_singleton _ _).symm)⟩

/-- A key that passes the check is new. -/
theorem not_contains_of_accepted (h : (!(key.isEmpty || map.contains key)) = true) :
    map.contains key = false := by
  simp only [Bool.not_eq_true', Bool.or_eq_false_iff] at h
  exact h.2

/-- Events and batch read the same labels. -/
theorem lockstep_batchLabels (tenant : MetadataField) (count : Nat) {map : TextMap}
    {pairs : List (Str × Str)} {seen : List Str} (hash : UInt64) (hmap : HoldsPairs map pairs)
    (hseen : KnownKeys (some seen) (pairs.map Prod.fst)) :
    Lockstep (fun map read => ∃ pairs, HoldsPairs map pairs ∧
        read.1 = tenant :: pairs.map fun pair => labelField pair.1 pair.2)
      (readTextMap "label key" "label value" emptyOrDuplicateLabel count map)
      (readEventLabels count seen
        (tenant :: pairs.map fun pair => labelField pair.1 pair.2) hash) := by
  induction count generalizing map pairs seen hash with
  | zero => exact lockstep_pure ⟨pairs, hmap, rfl⟩
  | succ count ih =>
    apply bind_same
    intro key
    apply bind_same
    intro value
    apply Lockstep.require
    · rw [hmap.contains_eq hseen key]
    · intro haccepted
      have hnext := @ih _ (pairs ++ [(key, value)]) (key :: seen) (updateCohortHash hash key value)
        (hmap.insert value (not_contains_of_accepted haccepted)) (by simpa using hseen.cons key)
      simpa using hnext

/-- They read the same metadata. -/
theorem lockstep_batchPairs (base : List MetadataField) (count : Nat) {map : TextMap}
    {pairs : List (Str × Str)} {seen : List Str} (hmap : HoldsPairs map pairs)
    (hseen : KnownKeys (some seen) (pairs.map Prod.fst)) :
    Lockstep (fun map fields => ∃ pairs, HoldsPairs map pairs ∧
        fields = base ++ pairs.map fun pair => metadataField pair.1 pair.2)
      (readTextMap "metadata key" "metadata value" emptyOrDuplicateMetadata count map)
      (readEventMetadata count seen
        (base ++ pairs.map fun pair => metadataField pair.1 pair.2)) := by
  induction count generalizing map pairs seen with
  | zero => exact lockstep_pure ⟨pairs, hmap, rfl⟩
  | succ count ih =>
    apply bind_same
    intro key
    apply bind_same
    intro value
    apply Lockstep.require
    · rw [hmap.contains_eq hseen key]
    · intro haccepted
      have hnext := @ih _ (pairs ++ [(key, value)]) (key :: seen)
        (hmap.insert value (not_contains_of_accepted haccepted)) (by simpa using hseen.cons key)
      simpa using hnext

theorem knownKeys_nil : KnownKeys (some []) [] := by
  intro keys hkeys key
  cases hkeys
  rfl

/-- Metadata of an entry, whichever way the owned reader takes it. -/
theorem lockstep_batchMetadata (labelFields : List MetadataField) (hcache : cache.Valid labelFields)
    (count : Nat) :
    Lockstep (fun map read => (∃ pairs, HoldsPairs map pairs ∧
        read.1 = labelFields ++ pairs.map fun pair => metadataField pair.1 pair.2) ∧
        read.2.Valid labelFields)
      (readBatchMetadata count) (readEventFields labelFields cache count) := by
  match count with
  | 0 => exact lockstep_pure ⟨⟨[], holdsPairs_empty, by simp⟩, hcache⟩
  | 1 =>
    apply bind_same
    intro key
    apply bind_same
    intro value
    obtain ⟨hfields, hcache'⟩ := hcache.single key value
    apply Lockstep.require
    · simp [contains, keys, empty]
    · intro haccepted
      apply lockstep_pure
      exact ⟨⟨_, holdsPairs_empty.insert value (not_contains_of_accepted haccepted),
        by simpa using hfields⟩, hcache'⟩
  | count + 2 =>
    have hloop := lockstep_batchPairs labelFields (count + 2) holdsPairs_empty knownKeys_nil
    simp only [List.map_nil, List.append_nil] at hloop
    have hpure := hloop.bind_pure_right fun fields => (fields, cache)
    exact hpure.mono fun map read hread => by
      obtain ⟨fields, hfields, rfl⟩ := hread
      exact ⟨hfields, hcache⟩

/-- An entry and an event of the same record. -/
structure EntryEvent (tenant : Str) (entry : LokiEntry) (event : OtlpLogEvent) : Prop where
  timestamp : entry.timestampUnixNanos.toInt = event.timestampUnixNanos.toNat
  message : event.message = entry.line
  fields : ∃ labels metadata, entry.labels.entries.Perm labels ∧
    entry.structuredMetadata.entries.Perm metadata ∧
    event.fields = ⟨tenantField, tenant⟩ :: (labels.map (fun pair => labelField pair.1 pair.2) ++
        metadata.map fun pair => metadataField pair.1 pair.2)

/-- A signed integer is the unsigned one with its bits, or that less `2 ^ 64`. -/
theorem toInt_eq_toNat_cond (number : Int64) :
    number.toInt = if 2 * number.toUInt64.toNat < 2 ^ 64 then (number.toUInt64.toNat : Int)
      else number.toUInt64.toNat - 2 ^ 64 :=
  BitVec.toInt_eq_toNat_cond number.toBitVec

theorem toInt_timestamp {timestamp : Nat} (h : timestamp < 2 ^ 63) :
    (UInt64.ofNat timestamp).toInt64.toInt = (UInt64.ofNat timestamp).toNat := by
  have hsize : timestamp < UInt64.size := lt_trans h (by decide)
  have hcond := toInt_eq_toNat_cond (UInt64.ofNat timestamp).toInt64
  rw [UInt64.toUInt64_toInt64, UInt64.toNat_ofNat_of_lt' hsize, if_pos (by omega)] at hcond
  rw [hcond, UInt64.toNat_ofNat_of_lt' hsize]

/-- The fields that the labels of a stream give each of its events. -/
abbrev labelFieldsOf (tenant : Str) (pairs : List (Str × Str)) : List MetadataField :=
  ⟨tenantField, tenant⟩ :: pairs.map fun pair => labelField pair.1 pair.2

abbrev SameRecords (tenant : Str) (events : List OtlpLogEvent) (entries : List LokiEntry) : Prop :=
  List.Forall₂ (EntryEvent tenant) entries events

/-- They read the same entry. -/
theorem lockstep_batchEntry (hlabels : HoldsPairs labels pairs) (cohort : CompressionCohortId)
    (hcache : cache.Valid (labelFieldsOf tenant pairs)) :
    Lockstep (fun read entry => EntryEvent tenant entry read.1 ∧
        read.2.Valid (labelFieldsOf tenant pairs))
      (readEvent (labelFieldsOf tenant pairs) cohort cache)
      (readBatchEntry labels) := by
  simp only [readEvent, readEntryHead, readBatchEntry, bind_assoc, pure_bind]
  apply bind_same
  intro timestamp
  apply require_first
  · intro hfits
    have hlt := of_decide_eq_true hfits
    apply bind_same
    intro lineLength
    apply bind_same
    intro metadataCount
    apply require rfl
    intro _
    apply bind_same
    intro reserved
    apply require rfl
    intro _
    apply bind_same
    intro line
    apply bind (lockstep_batchMetadata _ (hcache.line line) metadataCount).flip
    rintro read metadata ⟨⟨metadataPairs, hmetadata, hfields⟩, hcache'⟩
    rw [hfits]
    apply lockstep_pure
    exact ⟨⟨toInt_timestamp hlt, cache.line_fst line, pairs, metadataPairs, hlabels.perm,
      hmetadata.perm, by simpa using hfields⟩, hcache'⟩
  · grind [Fails.bind, fails_require]

/-- They read the same entries of a stream. -/
theorem lockstep_batchEntries (hlabels : HoldsPairs labels pairs) (cohort : CompressionCohortId)
    (count : Nat) {cache : EventCache} (hcache : cache.Valid (labelFieldsOf tenant pairs))
    (h : SameRecords tenant events entries) :
    Lockstep (SameRecords tenant)
      (readEvents (labelFieldsOf tenant pairs) cohort count cache events)
      (readBatchEntries labels count entries) := by
  induction count generalizing cache events entries with
  | zero => exact lockstep_pure h
  | succ count ih =>
    apply bind (lockstep_batchEntry hlabels cohort hcache)
    intro read entry hread
    exact ih hread.2 (List.rel_append h (.cons hread.1 .nil))

/-- They read the same stream. -/
theorem lockstep_batchStream (tenant : Str) (recordCount : Nat)
    (h : SameRecords tenant events entries) :
    Lockstep (SameRecords tenant)
      (readEventStream tenant recordCount events) (readBatchStream recordCount entries) := by
  simp only [readEventStream, readStreamHead, readBatchStream, bind_assoc, pure_bind]
  rw [h.length_eq]
  apply bind_same
  intro labelCount
  apply require rfl
  intro _
  apply bind_same
  intro reserved
  apply require rfl
  intro _
  apply bind_same
  intro entryCount
  apply require_first
  · intro hcount
    apply bind (@lockstep_batchLabels ⟨tenantField, tenant⟩ labelCount _ _ _
      initialCohortHash holdsPairs_empty knownKeys_nil).flip
    rintro ⟨fields, hash⟩ labels ⟨pairs, hlabels, hfields⟩
    subst hfields
    rw [hcount]
    apply lockstep_batchEntries hlabels hash entryCount _ h
    intro key value fields hnone
    cases hnone
  · grind [Fails.bind, fails_require]

/-- They read the same streams. -/
theorem lockstep_batchStreams (tenant : Str) (recordCount count : Nat)
    (h : SameRecords tenant events entries) :
    Lockstep (SameRecords tenant) (readEventStreams tenant recordCount count events)
      (readBatchStreams recordCount count entries) := by
  induction count generalizing events entries with
  | zero => exact lockstep_pure h
  | succ count ih =>
    apply bind (lockstep_batchStream tenant recordCount h)
    exact fun _ _ h => ih h

/-- The readers of events and entries accept the same bodies and read the same
records. -/
theorem lockstep_batch (tenant : Str) (recordCount streamCount : Nat) :
    Lockstep (SameRecords tenant)
      (readEventBatch tenant recordCount streamCount) (readBatch recordCount streamCount) := by
  apply bind (lockstep_batchStreams tenant recordCount streamCount .nil)
  intro events entries h
  apply Lockstep.require
  · rw [h.length_eq]
  · intro _
    apply bind_same
    exact fun _ => lockstep_pure h

/-! ## Validation and events -/

/-- Validation accepts the labels that are read. -/
theorem lockstep_validateLabels (count : Nat) {keys : List Str} {fields : List MetadataField}
    (hash : UInt64) (hseen : KnownKeys (some seen) keys) :
    Lockstep (fun _ _ => True) (readEventLabels count seen fields hash)
      (validateKeys "label key" "label value" emptyOrDuplicateLabel count keys) := by
  induction count generalizing keys seen fields hash with
  | zero => exact lockstep_pure trivial
  | succ count ih =>
    apply bind_same
    intro key
    apply bind_same
    intro value
    apply Lockstep.require
    · rw [hseen.contains_eq key]
    · intro _
      exact ih _ (hseen.cons key)

/-- It accepts the pairs that are read. -/
theorem lockstep_validatePairs (count : Nat) {keys seen : List Str} {fields : List MetadataField}
    (hseen : KnownKeys (some seen) keys) :
    Lockstep (fun _ _ => True) (readEventMetadata count seen fields)
      (validateKeys "metadata key" "metadata value" emptyOrDuplicateMetadata count keys) := by
  induction count generalizing keys seen fields with
  | zero => exact lockstep_pure trivial
  | succ count ih =>
    apply bind_same
    intro key
    apply bind_same
    intro value
    apply Lockstep.require
    · rw [hseen.contains_eq key]
    · intro _
      exact ih (hseen.cons key)

/-- It accepts the fields that are read. -/
theorem lockstep_validateMetadata (labelFields : List MetadataField) (cache : EventCache)
    (count : Nat) :
    Lockstep (fun _ _ => True) (readEventFields labelFields cache count)
      (validateMetadata count) := by
  match count with
  | 0 => exact lockstep_pure trivial
  | 1 =>
    apply bind_same
    intro key
    apply bind_same
    intro value
    cases key.isEmpty with
    | true => exact fun s => .inr ⟨_, _, rfl, rfl⟩
    | false => exact lockstep_pure trivial
  | count + 2 =>
    have hloop := (@lockstep_validatePairs (count + 2) _ _ labelFields knownKeys_nil).flip
    exact (hloop.bind_pure_right fun fields => (fields, cache)).flip.mono fun _ _ _ => trivial

/-- It accepts the entries that are read. -/
theorem lockstep_validateEntries (labelFields : List MetadataField) (cohort : CompressionCohortId)
    (count : Nat) {cache : EventCache} {events : List OtlpLogEvent} :
    Lockstep (fun read _ => read.length = events.length + count)
      (readEvents labelFields cohort count cache events) (validateEntries count) := by
  induction count generalizing cache events with
  | zero => exact lockstep_pure rfl
  | succ count ih =>
    simp only [readEvents, readEvent, validateEntries, bind_assoc, pure_bind]
    apply bind_same
    intro head
    apply bind (lockstep_validateMetadata labelFields _ head.metadataCount)
    intro fields _ _
    apply ih.mono
    intro read _ hlength
    rw [hlength, List.length_append, List.length_singleton]
    omega

/-- It accepts the stream that is read, and counts its records. -/
theorem lockstep_validateStream (tenant : Str) (recordCount : Nat) (events : List OtlpLogEvent) :
    Lockstep (fun read decodedCount => decodedCount = read.length)
      (readEventStream tenant recordCount events)
      (validateStream recordCount events.length) := by
  apply bind_same
  intro head
  apply bind (lockstep_validateLabels head.1 initialCohortHash knownKeys_nil)
  intro labels _ _
  have hentries := (@lockstep_validateEntries labels.1 labels.2 head.2 {} events).bind_pure_right
    fun _ => events.length + head.2
  exact hentries.mono fun read decodedCount hread => by
    obtain ⟨_, hlength, rfl⟩ := hread
    exact hlength.symm

/-- It accepts the streams that are read, and counts their records. -/
theorem lockstep_validateStreams (tenant : Str) (recordCount count : Nat)
    {events : List OtlpLogEvent} :
    Lockstep (fun read decodedCount => decodedCount = read.length)
      (readEventStreams tenant recordCount count events)
      (validateStreams recordCount count events.length) := by
  induction count generalizing events with
  | zero => exact lockstep_pure rfl
  | succ count ih =>
    apply bind (lockstep_validateStream tenant recordCount events)
    intro read decodedCount hread
    rw [hread]
    exact ih

/-- Validation accepts the bodies that the reader of events accepts. -/
theorem lockstep_validate (tenant : Str) (recordCount streamCount : Nat) :
    Lockstep (fun _ _ => True) (readEventBatch tenant recordCount streamCount)
      (validateBody recordCount streamCount) := by
  apply bind (@lockstep_validateStreams tenant recordCount streamCount [])
  intro events decodedCount hcount
  subst hcount
  apply require rfl
  intro _
  have hfinish := (lockstep_refl finish).flip.bind_pure_right fun _ => events
  exact hfinish.flip.mono fun _ _ _ => trivial

/-! ## Bytes of a record -/

theorem consumes_bytes (length : Nat) (field : String) : Consumes (bytes length field) length := by
  intro s bytes t h
  simp only [Cursor.bytes, StateT.run] at h
  split at h
  · cases h
    simp only [List.length_drop]
    omega
  · cases h

theorem consumes_unsigned (width : Nat) (field : String) : Consumes (unsigned width field) width :=
  (consumes_bytes width field).bind fun _ => consumes_pure _

theorem consumes_string (length : Nat) (field : String) : Consumes (string length field) length :=
  (consumes_bytes length field).bind fun _ => (local_ofResult _).consumes_zero

theorem consumes_string16 (field : String) : Consumes (string16 field) 0 :=
  ((consumes_unsigned 2 field).bind fun length =>
    (consumes_string length field).mono (Nat.zero_le _)).mono (Nat.zero_le _)

/-- Timestamp, lengths and reserved bytes take sixteen bytes. -/
theorem consumes_readEntryHead : Consumes readEntryHead 16 := by
  have hall : Consumes readEntryHead (8 + (0 + (4 + (2 + (0 + (2 + (0 + (0 + 0)))))))) :=
    (consumes_unsigned 8 _).bind fun _ => (consumes_require _ _).bind fun _ =>
      (consumes_unsigned 4 _).bind fun lineLength => (consumes_unsigned 2 _).bind fun _ =>
      (consumes_require _ _).bind fun _ => (consumes_unsigned 2 _).bind fun _ =>
      (consumes_require _ _).bind fun _ =>
      ((consumes_string lineLength _).mono (Nat.zero_le _)).bind fun _ => consumes_pure _
  exact hall

theorem consumes_validateKeys (keyField valueField : String) (rejected : NativeProtocolError)
    (count : Nat) (keys : List Str) :
    Consumes (validateKeys keyField valueField rejected count keys) 0 := by
  induction count generalizing keys with
  | zero => exact consumes_pure ()
  | succ count ih =>
    exact (consumes_string16 _).bind fun _ => (consumes_string16 _).bind fun _ =>
      (consumes_require _ _).bind fun _ => ih _

theorem consumes_validateMetadata (count : Nat) : Consumes (validateMetadata count) 0 := by
  match count with
  | 0 => exact consumes_pure ()
  | 1 => exact (consumes_string16 _).bind fun _ => (consumes_string16 _).bind fun _ =>
    consumes_require _ _
  | count + 2 => exact consumes_validateKeys _ _ _ (count + 2) []

/-- Every entry has a header of 16 bytes. -/
theorem consumes_validateEntries (count : Nat) : Consumes (validateEntries count) (16 * count) := by
  induction count with
  | zero => exact consumes_pure ()
  | succ count ih =>
    have hall : Consumes (validateEntries (count + 1)) (16 + (0 + 16 * count)) :=
      consumes_readEntryHead.bind fun head =>
        (consumes_validateMetadata head.metadataCount).bind fun _ => ih
    exact hall.mono (by omega)

/-- Each record counted took sixteen bytes. -/
theorem validateStreams_bound (recordCount count : Nat) {decodedCount total : Nat}
    (h : (validateStreams recordCount count decodedCount).run s = .ok (total, t)) :
    t.rest.length + 16 * total ≤ s.rest.length + 16 * decodedCount := by
  induction count generalizing decodedCount total s t with
  | zero =>
    obtain ⟨rfl, rfl⟩ := run_pure_eq_ok_iff.mp h
    exact le_rfl
  | succ count ih =>
    obtain ⟨next, middle, hstream, hrest⟩ := run_bind_eq_ok_iff.mp h
    have hbound := ih hrest
    obtain ⟨head, first, hhead, hstream⟩ := run_bind_eq_ok_iff.mp hstream
    obtain ⟨_, second, hlabels, hstream⟩ := run_bind_eq_ok_iff.mp hstream
    obtain ⟨_, third, hentries, hstream⟩ := run_bind_eq_ok_iff.mp hstream
    obtain ⟨rfl, rfl⟩ := run_pure_eq_ok_iff.mp hstream
    have hfirst : first.rest.length ≤ s.rest.length := by
      have hhead' : Consumes (readStreamHead recordCount decodedCount) 0 :=
        Consumes.mono ((consumes_unsigned 2 _).bind fun _ => (consumes_require _ _).bind fun _ =>
          (consumes_unsigned 2 _).bind fun _ => (consumes_require _ _).bind fun _ =>
          (consumes_unsigned 4 _).bind fun _ => (consumes_require _ _).bind fun _ =>
          consumes_pure _) (Nat.zero_le _)
      exact hhead' _ _ _ hhead
    have hsecond := consumes_validateKeys _ _ _ _ _ _ _ _ hlabels
    have hthird := consumes_validateEntries head.2 _ _ _ hentries
    omega

/-- The declared records of an accepted body fit sixteen bytes each. -/
theorem validateBody_bound {recordCount streamCount : Nat}
    (h : (validateBody recordCount streamCount).run s = .ok ((), t)) :
    16 * recordCount ≤ s.rest.length := by
  obtain ⟨total, middle, hstreams, h⟩ := run_bind_eq_ok_iff.mp h
  obtain ⟨_, _, hcount, _⟩ := run_bind_eq_ok_iff.mp h
  have hbound := validateStreams_bound recordCount streamCount hstreams
  obtain ⟨htotal, _⟩ := run_require_eq_ok_iff.mp hcount
  rw [beq_iff_eq] at htotal
  omega

/-! ## Agreement -/

/-- The record of a view at an index shows an event. -/
structure NativeBatchView.ShowsEvent (view : NativeBatchView) (index : Nat)
    (event : OtlpLogEvent) : Prop where
  timestamp : view.recordTimestamp index = some event.timestampUnixNanos
  message : view.recordMessage index = some event.message
  fields : view.visitedRecordFields index =
    event.fields.map fun field => .ok (field.key, field.value)
  cohort : view.recordCohort index = some event.compressionCohort

/-- A described record shows its event. -/
theorem RecordEvent.showsEvent {view : NativeBatchView} {record : NativeRecordView}
    {event : OtlpLogEvent} (h : RecordEvent view record event) {index : Nat}
    (hindex : view.records[index]? = some record) : view.ShowsEvent index event := by
  obtain ⟨stream, _, hstream, hcohort, _⟩ := h.fields
  refine ⟨?_, ?_, h.visitedRecordFields_eq hindex, ?_⟩
  · simp [NativeBatchView.recordTimestamp, hindex, h.timestamp]
  · simp [NativeBatchView.recordMessage, hindex, h.message]
  · simp [NativeBatchView.recordCohort, hindex, hstream, hcohort]

/-- What the four readers make of an accepted payload. -/
structure ReadersAgree (payload : Bytes) (view : NativeBatchView) (events : List OtlpLogEvent)
    (batch : NativeLogBatch) : Prop where
  validated : validateNativeLogBatch payload = .ok ()
  viewed : decodeNativeLogBatchView payload = .ok view
  eventful : decodeNativeLogEvents payload = .ok (batch.tenant, events)
  batched : decodeNativeLogBatch payload = .ok batch
  tenant : view.tenant = batch.tenant
  count : view.records.length = events.length
  shows : ∀ index event, events[index]? = some event → view.ShowsEvent index event
  entries : List.Forall₂ (EntryEvent batch.tenant) batch.entries events

section Agreement

variable {payload : Bytes} {info : NativeBatchInfo} {view : NativeBatchView} {t : Input}

theorem length_bodyInput_le (payload : Bytes) (info : NativeBatchInfo) :
    (bodyInput payload info).rest.length ≤ payload.length := by
  simp [bodyInput]

section

variable (hinfo : inspectNativeLogBatch payload = .ok info)

include hinfo

/-- With a view all readers agree. -/
theorem readersAgree_of_readView
    (hview : (readView info.tenant info.recordCount (declaredStreams payload)).run
      (bodyInput payload info) = .ok (view, t)) :
    ∃ events entries, ReadersAgree payload view events ⟨info.tenant, entries⟩ := by
  obtain ⟨events, hevents, hdescribes, htenant⟩ :=
    (lockstep_readView info.tenant info.recordCount (declaredStreams payload)).run_eq_ok hview
  obtain ⟨entries, hentries, hrecords⟩ :=
    (lockstep_batch info.tenant info.recordCount (declaredStreams payload)).run_eq_ok hevents
  obtain ⟨_, hvalidate, _⟩ :=
    (lockstep_validate info.tenant info.recordCount (declaredStreams payload)).run_eq_ok hevents
  -- the bound that only the view checks follows from the sixteen bytes of each record
  have hcount : info.recordCount ≤ payload.length / 16 := by
    have hbound := validateBody_bound hvalidate
    have hlength := length_bodyInput_le payload info
    omega
  refine ⟨events, entries, ?_, ?_, ?_, ?_, htenant, hdescribes.records.length_eq, ?_, hrecords⟩
  · rw [validateNativeLogBatch, hinfo, ok_bind, hvalidate]
    rfl
  · rw [decodeNativeLogBatchView, hinfo, ok_bind, ensure_of_true hcount, ok_bind, hview]
    rfl
  · rw [decodeNativeLogEvents, hinfo, ok_bind, hevents]
    rfl
  · rw [decodeNativeLogBatch, hinfo, ok_bind, hentries]
    rfl
  · intro index event hevent
    obtain ⟨record, hrecord, hrelated⟩ := forall₂_getElem? hdescribes.records.flip hevent
    exact hrelated.showsEvent hrecord

/-- A body without a view has no events, no entries and is not valid. -/
theorem rejected_of_readView {e : NativeProtocolError}
    (hview : (readView info.tenant info.recordCount (declaredStreams payload)).run
      (bodyInput payload info) = .error e) :
    ∃ e₁ e₂ e₃ e₄, validateNativeLogBatch payload = .error e₁ ∧
      decodeNativeLogBatchView payload = .error e₂ ∧
      decodeNativeLogEvents payload = .error e₃ ∧ decodeNativeLogBatch payload = .error e₄ := by
  obtain ⟨e₃, hevents⟩ :=
    (lockstep_readView info.tenant info.recordCount (declaredStreams payload)).run_eq_error hview
  obtain ⟨e₄, hentries⟩ :=
    (lockstep_batch info.tenant info.recordCount (declaredStreams payload)).run_eq_error hevents
  obtain ⟨e₁, hvalidate⟩ :=
    (lockstep_validate info.tenant info.recordCount (declaredStreams payload)).run_eq_error hevents
  have hviewed : ∃ e₂, decodeNativeLogBatchView payload = .error e₂ := by
    rw [decodeNativeLogBatchView, hinfo, ok_bind]
    by_cases hcount : info.recordCount ≤ payload.length / 16
    · rw [ensure_of_true hcount, ok_bind, hview]
      exact ⟨e, rfl⟩
    · exact ⟨_, by rw [ensure, if_neg hcount]; rfl⟩
  obtain ⟨e₂, hviewed⟩ := hviewed
  refine ⟨e₁, e₂, e₃, e₄, ?_, hviewed, ?_, ?_⟩
  · rw [validateNativeLogBatch, hinfo, ok_bind, hvalidate]
    rfl
  · rw [decodeNativeLogEvents, hinfo, ok_bind, hevents]
    rfl
  · rw [decodeNativeLogBatch, hinfo, ok_bind, hentries]
    rfl

end

/-- All four readers accept a payload with the same tenant and records, or all reject it. -/
theorem native_readers_agree (payload : Bytes) :
    (∃ view events batch, ReadersAgree payload view events batch) ∨
      ∃ e₁ e₂ e₃ e₄, validateNativeLogBatch payload = .error e₁ ∧
        decodeNativeLogBatchView payload = .error e₂ ∧
        decodeNativeLogEvents payload = .error e₃ ∧ decodeNativeLogBatch payload = .error e₄ := by
  cases hinfo : inspectNativeLogBatch payload with
  | error e =>
    refine .inr ⟨e, e, e, e, ?_, ?_, ?_, ?_⟩
    · rw [validateNativeLogBatch, hinfo]
      rfl
    · rw [decodeNativeLogBatchView, hinfo]
      rfl
    · rw [decodeNativeLogEvents, hinfo]
      rfl
    · rw [decodeNativeLogBatch, hinfo]
      rfl
  | ok info =>
    cases hview : (readView info.tenant info.recordCount (declaredStreams payload)).run
        (bodyInput payload info) with
    | ok result => grind [readersAgree_of_readView]
    | error e => exact .inr (rejected_of_readView hinfo hview)

end Agreement

end ShardLog.Native
