import ShardLog.Native.Readers

/-!
# Native protocol - encoding a batch

Entries are grouped by their labels, which are written once for each stream.  The
encoder bounds counts and lengths as the reader does, but it does not look at the
keys: an empty key is written, and no reader accepts it.

Main results:

- Theorem `decodeNativeLogBatch_encode_iff`: the batches that read back.
-/

namespace ShardLog.Native

open List hiding contains contains_iff

open ByteReader Utf8 Runs Sorted Integers AssocMap OrderedMap Yields

/-! ## Writing -/

/-- A count or length written in `width` bytes. -/
def putUnsigned (width value : Nat) (exceeds : NativeProtocolError) : NativeResult Bytes :=
  if value < 256 ^ width then .ok (leBytes width value) else .error exceeds

def putU16 (value : Nat) (field : String) : NativeResult Bytes :=
  putUnsigned 2 value ⟨field ++ " exceeds u16"⟩

def putU32 (value : Nat) (field : String) : NativeResult Bytes :=
  putUnsigned 4 value ⟨field ++ " exceeds u32"⟩

def putString16 (value : Str) (field : String) : NativeResult Bytes := do
  let length ← putU16 (utf8 value).length field
  .ok (length ++ utf8 value)

def validateTenant (tenant : Str) : NativeResult Unit := do
  ensure (tenant ≠ []) ⟨"native tenant must not be empty"⟩
  ensure ((utf8 tenant).length ≤ maxTenantBytes ∧ (utf8 tenant).length < 2 ^ 16)
    ⟨"native tenant exceeds its length limit"⟩

def putPair (keyField valueField : String) (pair : Str × Str) : NativeResult Bytes := do
  let key ← putString16 pair.1 keyField
  let value ← putString16 pair.2 valueField
  .ok (key ++ value)

def encodeEntry (entry : LokiEntry) : NativeResult Bytes := do
  let lineLength ← putU32 (utf8 entry.line).length "log line"
  ensure (entry.structuredMetadata.entries.length ≤ maxMetadataPerEntry)
    ⟨"native entry contains too much structured metadata"⟩
  let metadataCount ← putU16 entry.structuredMetadata.entries.length "metadata count"
  let metadata ← encodeAll (putPair "metadata key" "metadata value")
    entry.structuredMetadata.entries
  .ok (leBytes 8 entry.timestampUnixNanos.toUInt64.toNat ++ (lineLength ++
    (metadataCount ++ ([0, 0] ++ (utf8 entry.line ++ metadata)))))

def encodeStream (stream : TextMap × List LokiEntry) : NativeResult Bytes := do
  ensure (stream.1.entries.length ≤ maxLabelsPerStream) ⟨"native stream contains too many labels"⟩
  let labelCount ← putU16 stream.1.entries.length "label count"
  let entryCount ← putUnsigned 4 stream.2.length ⟨"native stream contains too many entries"⟩
  let labels ← encodeAll (putPair "label key" "label value") stream.1.entries
  let entries ← encodeAll encodeEntry stream.2
  .ok (labelCount ++ ([0, 0] ++ (entryCount ++ (labels ++ entries))))

def maxStreams : Nat := 65535

/-- The entries of each label map, in the order of the maps. -/
def streamsOf (entries : List LokiEntry) : List (TextMap × List LokiEntry) :=
  sortBy (fun stream => stream.1.rank) (groupBy (entries.map fun entry => (entry.labels, entry)))

/-- Encode records with labels stored once per stream. -/
def encodeNativeLogBatch (tenant : Str) (entries : List LokiEntry) : NativeResult Bytes := do
  validateTenant tenant
  let recordCount ← putUnsigned 4 entries.length ⟨"native batch contains more than u32 records"⟩
  ensure (∀ entry ∈ entries, ¬ entry.timestampUnixNanos < 0)
    ⟨"negative native log timestamps are unsupported"⟩
  let streams := streamsOf entries
  ensure (streams.length ≤ maxStreams) ⟨"native batch contains too many streams"⟩
  let tenantLength ← putU16 (utf8 tenant).length "tenant"
  let streamCount ← putU16 streams.length "stream count"
  let body ← encodeAll encodeStream streams
  let encoded := batchMagic ++ (tenantLength ++ (streamCount ++ (recordCount ++
    ([0, 0, 0, 0] ++ (utf8 tenant ++ body)))))
  ensure (encoded.length ≤ maxNativeFrameBytes)
    ⟨"native batch is " ++ toString encoded.length ++ " bytes, exceeding " ++
      toString maxNativeFrameBytes⟩
  .ok encoded

/-! ## The order of the streams -/

/-- The same entries, ordered by their labels, and in their old order where the
labels are equal. -/
structure StablyGrouped (entries grouped : List LokiEntry) : Prop where
  perm : grouped.Perm entries
  ordered : grouped.Pairwise fun first second => first.labels.rank ≤ second.labels.rank
  stable : ∀ labels : TextMap, (grouped.filter fun entry => decide (entry.labels = labels)) =
    entries.filter fun entry => decide (entry.labels = labels)

/-- The entries as they are written. -/
def groupedEntries (entries : List LokiEntry) : List LokiEntry :=
  (streamsOf entries).flatMap Prod.snd

/-- A stream has the entries of its labels in order. -/
theorem valuesOf_labels (entries : List LokiEntry) (labels : TextMap) :
    valuesOf (entries.map fun entry => (entry.labels, entry)) labels =
      entries.filter fun entry => decide (entry.labels = labels) := by
  induction entries with
  | nil => rfl
  | cons entry rest ih =>
    unfold valuesOf at ih ⊢
    by_cases hlabels : entry.labels = labels <;> simp [hlabels, ih]

variable {entries : List LokiEntry} {stream : TextMap × List LokiEntry} {entry : LokiEntry}
  {labels : TextMap} {bytes : Bytes} {width value : Nat} {keyField valueField : String}
  {map : TextMap} {recordCount : Nat}

/-- A stream holds the entries with its labels. -/
theorem mem_streamsOf (h : stream ∈ streamsOf entries) :
    stream.2 = entries.filter fun entry => decide (entry.labels = stream.1) := by
  have hgroup := (mem_groupBy (mem_sortBy.mp h)).1
  rwa [valuesOf_labels] at hgroup

/-- Entries of a stream have its labels. -/
theorem labels_of_mem_streamsOf (h : stream ∈ streamsOf entries) (hentry : entry ∈ stream.2) :
    entry.labels = stream.1 := by
  rw [mem_streamsOf h] at hentry
  exact of_decide_eq_true (mem_filter.mp hentry).2

/-- Streams are sorted by labels. -/
theorem strictlySorted_streamsOf (entries : List LokiEntry) :
    StrictlySorted (fun stream => stream.1.rank) (streamsOf entries) := by
  apply strictlySorted_sortBy
  have hkeys := nodup_keys_groupBy (entries.map fun entry => (entry.labels, entry))
  have hranks := hkeys.map rank_injective
  rwa [map_map] at hranks

/-- Grouping keeps the entries. -/
theorem perm_groupedEntries (entries : List LokiEntry) : (groupedEntries entries).Perm entries := by
  have hgroups : (ungroup (streamsOf entries)).Perm
      (entries.map fun entry => (entry.labels, entry)) :=
    ((perm_sortBy _ _).flatMap_right _).trans (perm_groupBy _)
  have hentries := hgroups.map Prod.snd
  simpa [groupedEntries, ungroup, map_flatMap, Function.comp_def] using hentries

/-- Every entry has a stream. -/
theorem exists_stream_of_mem (h : entry ∈ entries) :
    ∃ stream ∈ streamsOf entries, stream.1 = entry.labels := by
  obtain ⟨stream, hstream, hentry⟩ := mem_flatMap.mp ((perm_groupedEntries entries).mem_iff.mpr h)
  exact ⟨stream, hstream, (labels_of_mem_streamsOf hstream hentry).symm⟩

/-- A stream with other labels has no entry with the labels. -/
theorem filter_other_stream (h : stream ∈ streamsOf entries) (hne : stream.1 ≠ labels) :
    (stream.2.filter fun entry => decide (entry.labels = labels)) = [] := by
  rw [filter_eq_nil_iff]
  intro entry hentry hlabels
  rw [labels_of_mem_streamsOf h hentry] at hlabels
  exact hne (of_decide_eq_true hlabels)

/-- Entries with some labels come from the stream of those labels alone. -/
theorem filter_groupedEntries (entries : List LokiEntry) (labels : TextMap) :
    ((groupedEntries entries).filter fun entry => decide (entry.labels = labels)) =
      entries.filter fun entry => decide (entry.labels = labels) := by
  rw [groupedEntries, filter_flatMap]
  by_cases hknown : ∃ stream ∈ streamsOf entries, stream.1 = labels
  · obtain ⟨stream, hstream, hlabels⟩ := hknown
    obtain ⟨before, after, hsplit⟩ := append_of_mem hstream
    have hsorted := strictlySorted_streamsOf entries
    rw [hsplit, StrictlySorted, pairwise_append, pairwise_cons] at hsorted
    obtain ⟨_, ⟨hafter, _⟩, hbefore⟩ := hsorted
    have hother : ∀ other ∈ before ++ after,
        (other.2.filter fun entry => decide (entry.labels = labels)) = [] := by
      intro other hmem
      rw [mem_append] at hmem
      have hin : other ∈ streamsOf entries := by
        rw [hsplit, mem_append, mem_cons]
        tauto
      apply filter_other_stream hin
      · grind
    have hnone : ∀ part, part ⊆ before ++ after → (part.flatMap fun other =>
        other.2.filter fun entry => decide (entry.labels = labels)) = [] := fun part hpart =>
      flatMap_eq_nil_iff.mpr fun other hin => hother other (hpart hin)
    rw [hsplit, flatMap_append, flatMap_cons, hnone before (subset_append_left _ _),
      hnone after (subset_append_right _ _), nil_append, append_nil,
      mem_streamsOf hstream, hlabels, filter_filter]
    simp
  · have hnone : (entries.filter fun entry => decide (entry.labels = labels)) = [] := by
      rw [filter_eq_nil_iff]
      intro entry hentry hlabels
      obtain ⟨stream, hstream, hsame⟩ := exists_stream_of_mem hentry
      exact hknown ⟨stream, hstream, hsame.trans (of_decide_eq_true hlabels)⟩
    rw [hnone, flatMap_eq_nil_iff]
    intro stream hstream
    exact filter_other_stream hstream fun hsame => hknown ⟨stream, hstream, hsame⟩

/-- The order in which entries are written. -/
theorem stablyGrouped_streams (entries : List LokiEntry) :
    StablyGrouped entries (groupedEntries entries) where
  perm := perm_groupedEntries entries
  ordered := by
    rw [groupedEntries, pairwise_flatMap]
    constructor
    · intro stream hstream
      apply pairwise_of_forall_mem_list
      intro first hfirst second hsecond
      rw [labels_of_mem_streamsOf hstream hfirst, labels_of_mem_streamsOf hstream hsecond]
    · refine (strictlySorted_streamsOf entries).imp_of_mem ?_
      intro left right hleft hright hlt first hfirst second hsecond
      rw [labels_of_mem_streamsOf hleft hfirst, labels_of_mem_streamsOf hright hsecond]
      exact hlt.le
  stable := filter_groupedEntries entries

/-! ## Reading back -/

/-- A number is written if it fits. -/
theorem putUnsigned_eq_ok_iff {e : NativeProtocolError} : putUnsigned width value e = .ok bytes ↔
      value < 256 ^ width ∧ bytes = leBytes width value := by
  unfold putUnsigned
  split
  · rename_i hfits
    simp [hfits, eq_comm]
  · rename_i hlarge
    simp [hlarge]

theorem reads_bytes {length : Nat} (h : bytes.length = length) (field : String) :
    Reads (Cursor.bytes length field) bytes bytes := by
  intro cursor tail
  subst h
  simp [Cursor.bytes, StateT.run]

theorem reads_unsigned (h : value < 256 ^ width) (field : String) :
    Reads (Cursor.unsigned width field) (leBytes width value) value :=
  (reads_bytes (length_leBytes width value) field).bind_pure (by rw [fromLeBytes_leBytes h])

/-- Two reserved bytes. -/
theorem reads_reserved (field : String) : Reads (Cursor.u16 field) [0, 0] 0 := by
  have hzero : 0 < 256 ^ 2 := by decide
  exact reads_unsigned hzero field

theorem reads_string (text : Str) (field : String) :
    Reads (Cursor.string (utf8 text).length field) (utf8 text) text :=
  (reads_bytes rfl field).bind_nil (reads_ofResult (by simp [textOf]))

/-- A written string is read back. -/
theorem reads_string16 {text : Str} {written field : String}
    (h : putString16 text written = .ok bytes) : Reads (Cursor.string16 field) bytes text := by
  obtain ⟨length, hlength, h⟩ := bind_eq_ok_iff.mp h
  obtain ⟨hfits, rfl⟩ := putUnsigned_eq_ok_iff.mp hlength
  cases h
  exact (reads_unsigned hfits field).bind (reads_string text field)

/-- Pairs with new keys that are not empty are read into the map. -/
theorem reads_readTextMap (rejected : NativeProtocolError) {pairs : List (Str × Str)}
    {bytes : Bytes} (h : encodeAll (putPair keyField valueField) pairs = .ok bytes)
    (hkeys : ∀ pair ∈ pairs, pair.1 ≠ []) (hnodup : ((pairs ++ map.entries).map Prod.fst).Nodup) :
    ∃ result : TextMap, result.entries.Perm (pairs ++ map.entries) ∧
      Reads (readTextMap keyField valueField rejected pairs.length map) bytes result := by
  induction pairs generalizing map bytes with
  | nil =>
    cases h
    exact ⟨map, Perm.refl _, reads_pure map⟩
  | cons pair rest ih =>
    obtain ⟨blobs, hblobs, rfl⟩ := encodeAll_eq_ok_iff.mp h
    obtain ⟨blob, others, hpair, hrest, rfl⟩ := forall₂_cons_left_iff.mp hblobs
    obtain ⟨key, hkey, hpair⟩ := bind_eq_ok_iff.mp hpair
    obtain ⟨value, hvalue, hpair⟩ := bind_eq_ok_iff.mp hpair
    cases hpair
    have hnew : map.contains pair.1 = false := by
      rw [← Bool.not_eq_true, contains_iff]
      intro hin
      simp only [cons_append, map_cons, nodup_cons, map_append] at hnodup
      exact hnodup.1 (mem_append_right _ hin)
    have hperm := perm_insert pair.2 hnew
    have hmoved : (rest ++ (map.insert pair.1 pair.2).entries).Perm (pair :: rest ++ map.entries) :=
      (hperm.append_left rest).trans perm_middle
    obtain ⟨result, hresult, hreads⟩ := ih (encodeAll_eq_ok_iff.mpr ⟨others, hrest, rfl⟩)
      (fun other hother => hkeys other (mem_cons_of_mem _ hother))
      ((hmoved.map Prod.fst).nodup_iff.mpr hnodup)
    refine ⟨result, hresult.trans hmoved, ?_⟩
    rw [flatten_cons, append_assoc]
    refine (reads_string16 hkey).bind ((reads_string16 hvalue).bind ?_)
    refine Reads.require_bind ?_ hreads
    have hne := hkeys pair mem_cons_self
    simp [hnew, hne]

/-- A written map whose keys are not empty reads back. -/
theorem reads_textMap (rejected : NativeProtocolError)
    (h : encodeAll (putPair keyField valueField) map.entries = .ok bytes)
    (hkeys : ∀ key ∈ map.keys, key ≠ []) :
    Reads (readTextMap keyField valueField rejected map.entries.length empty) bytes map := by
  have hnodup : ((map.entries ++ (empty : TextMap).entries).map Prod.fst).Nodup := by
    rw [empty, append_nil]
    exact map.nodup_keys
  obtain ⟨result, hperm, hreads⟩ := reads_readTextMap rejected h
    (fun pair hpair => hkeys pair.1 (mem_map_of_mem hpair)) hnodup
  have hsame : result = map := eq_of_perm (by simpa [empty] using hperm)
  rwa [hsame] at hreads

/-- No key of the labels or of the metadata is empty. -/
def LokiEntry.KeysNonempty (entry : LokiEntry) : Prop :=
  (∀ key ∈ entry.labels.keys, key ≠ []) ∧ ∀ key ∈ entry.structuredMetadata.keys, key ≠ []

theorem timestamp_of_nonneg {timestamp : Int64} (h : ¬ timestamp < 0) :
    timestamp.toUInt64.toNat < 2 ^ 63 := by
  rw [Int64.lt_iff_toInt_lt] at h
  have hnonneg : 0 ≤ timestamp.toInt := by simpa using h
  have hcond := toInt_eq_toNat_cond timestamp
  have hlt := timestamp.toUInt64.toNat_lt
  split at hcond
  · omega
  · omega

/-- A written entry is read back. -/
theorem reads_readBatchEntry (h : encodeEntry entry = .ok bytes)
    (htimestamp : ¬ entry.timestampUnixNanos < 0) (hkeys : entry.KeysNonempty) :
    Reads (readBatchEntry entry.labels) bytes entry := by
  simp only [encodeEntry, bind_eq_ok_iff] at h
  obtain ⟨lineLength, hline, _, hbound, metadataCount, hcount, metadata, hmetadata, h⟩ := h
  cases h
  obtain ⟨hlineFits, rfl⟩ := putUnsigned_eq_ok_iff.mp hline
  obtain ⟨hcountFits, rfl⟩ := putUnsigned_eq_ok_iff.mp hcount
  have hle := ensure_eq_ok_iff.mp hbound
  have hsigned := timestamp_of_nonneg htimestamp
  refine (reads_unsigned (UInt64.toNat_lt _) _).bind ((reads_unsigned hlineFits _).bind
    ((reads_unsigned hcountFits _).bind (Reads.require_bind (decide_eq_true hle)
      ((reads_reserved _).bind (Reads.require_bind rfl ((reads_string entry.line _).bind ?_))))))
  refine (reads_textMap emptyOrDuplicateMetadata hmetadata hkeys.2).bind_nil
    (Reads.require_bind (decide_eq_true hsigned) ?_)
  have hentry : (⟨(UInt64.ofNat entry.timestampUnixNanos.toUInt64.toNat).toInt64, entry.labels,
      entry.line, entry.structuredMetadata⟩ : LokiEntry) = entry := by
    rw [UInt64.ofNat_toNat]
    rfl
  rw [hentry]
  exact reads_pure entry

/-- The entries of a stream are appended in order. -/
theorem reads_readBatchEntries {stream entries : List LokiEntry}
    {bytes : Bytes} (h : encodeAll encodeEntry stream = .ok bytes)
    (hstream : ∀ entry ∈ stream, entry.labels = labels ∧ ¬ entry.timestampUnixNanos < 0 ∧
      entry.KeysNonempty) :
    Reads (readBatchEntries labels stream.length entries) bytes (entries ++ stream) := by
  induction stream generalizing entries bytes with
  | nil =>
    cases h
    rw [append_nil]
    exact reads_pure entries
  | cons entry rest ih =>
    obtain ⟨blobs, hblobs, rfl⟩ := encodeAll_eq_ok_iff.mp h
    obtain ⟨blob, others, hentry, hrest, rfl⟩ := forall₂_cons_left_iff.mp hblobs
    obtain ⟨rfl, htimestamp, hkeys⟩ := hstream entry mem_cons_self
    have hlater := @ih (entries ++ [entry]) _ (encodeAll_eq_ok_iff.mpr ⟨others, hrest, rfl⟩)
      fun other hother => hstream other (mem_cons_of_mem _ hother)
    rw [append_assoc] at hlater
    exact (reads_readBatchEntry hentry htimestamp hkeys).bind hlater

/-- The entries have the labels of the stream, nonnegative timestamps and nonempty keys. -/
def ReadableStream (stream : TextMap × List LokiEntry) : Prop :=
  (∀ key ∈ stream.1.keys, key ≠ []) ∧ ∀ entry ∈ stream.2, entry.labels = stream.1 ∧
    ¬ entry.timestampUnixNanos < 0 ∧ entry.KeysNonempty

/-- A written stream is read back. -/
theorem reads_readBatchStream (h : encodeStream stream = .ok bytes)
    (hstream : ReadableStream stream) (hcount : entries.length + stream.2.length ≤ recordCount) :
    Reads (readBatchStream recordCount entries) bytes (entries ++ stream.2) := by
  simp only [encodeStream, bind_eq_ok_iff] at h
  obtain ⟨_, hbound, labelCount, hlabelCount, entryCount, hentryCount, labels, hlabels, body, hbody,
    h⟩ := h
  cases h
  obtain ⟨hlabelFits, rfl⟩ := putUnsigned_eq_ok_iff.mp hlabelCount
  obtain ⟨hentryFits, rfl⟩ := putUnsigned_eq_ok_iff.mp hentryCount
  have hle := ensure_eq_ok_iff.mp hbound
  refine (reads_unsigned hlabelFits _).bind (Reads.require_bind (decide_eq_true hle)
    ((reads_reserved _).bind (Reads.require_bind rfl ((reads_unsigned hentryFits _).bind ?_))))
  exact (reads_textMap emptyOrDuplicateLabel hlabels hstream.1).bind
    (Reads.require_bind (decide_eq_true hcount) (reads_readBatchEntries hbody hstream.2))

/-- Written streams are read back. -/
theorem reads_readBatchStreams {streams : List (TextMap × List LokiEntry)}
    {entries : List LokiEntry} {bytes : Bytes} (h : encodeAll encodeStream streams = .ok bytes)
    (hstreams : ∀ stream ∈ streams, ReadableStream stream)
    (hcount : entries.length + (streams.flatMap Prod.snd).length ≤ recordCount) :
    Reads (readBatchStreams recordCount streams.length entries) bytes
      (entries ++ streams.flatMap Prod.snd) := by
  induction streams generalizing entries bytes with
  | nil =>
    cases h
    rw [flatMap_nil, append_nil]
    exact reads_pure entries
  | cons stream rest ih =>
    obtain ⟨blobs, hblobs, rfl⟩ := encodeAll_eq_ok_iff.mp h
    obtain ⟨blob, others, hstream, hrest, rfl⟩ := forall₂_cons_left_iff.mp hblobs
    rw [flatMap_cons, length_append] at hcount
    have hlater := @ih (entries ++ stream.2) _ (encodeAll_eq_ok_iff.mpr ⟨others, hrest, rfl⟩)
      (fun other hother => hstreams other (mem_cons_of_mem _ hother))
      (by rw [length_append]; omega)
    rw [append_assoc, ← flatMap_cons] at hlater
    exact (reads_readBatchStream hstream (hstreams stream mem_cons_self) (by omega)).bind hlater

/-! ## The header -/

theorem batchMagic_eq : batchMagic = [83, 76, 66, 49] := by decide +kernel

section Header

variable {tenant : Str} {streamCount : Nat} {body : Bytes}

/-- Header, tenant and body of a batch. -/
def batchBytes (tenant : Str) (streamCount recordCount : Nat) (body : Bytes) : Bytes :=
  batchMagic ++ (leBytes 2 (utf8 tenant).length ++ (leBytes 2 streamCount ++
    (leBytes 4 recordCount ++ ([0, 0, 0, 0] ++ (utf8 tenant ++ body)))))

theorem drop_header (tenant : Str) (streamCount recordCount : Nat) (body : Bytes) :
    (batchBytes tenant streamCount recordCount body).drop batchHeaderBytes =
      utf8 tenant ++ body := by
  rw [batchBytes, batchMagic_eq]
  rfl

/-- Inspection finds what the header was written with. -/
theorem inspectNativeLogBatch_batchBytes (hnonempty : tenant ≠ [])
    (hlength : (utf8 tenant).length ≤ maxTenantBytes) (hrecords : recordCount < 256 ^ 4) :
    inspectNativeLogBatch (batchBytes tenant streamCount recordCount body) =
      .ok ⟨tenant, recordCount⟩ := by
  have hdrop := drop_header tenant streamCount recordCount body
  have htotal : (batchBytes tenant streamCount recordCount body).length =
      batchHeaderBytes + ((utf8 tenant).length + body.length) := by
    simp [batchBytes, batchMagic_eq, batchHeaderBytes]
    omega
  have htenantLength : fromLeBytes
      (slice (batchBytes tenant streamCount recordCount body) ⟨4, 6⟩) = (utf8 tenant).length := by
    rw [batchBytes, batchMagic_eq]
    have hsmall : (utf8 tenant).length < 256 ^ 2 := lt_of_le_of_lt hlength (by decide)
    exact fromLeBytes_leBytes hsmall
  have hcount : fromLeBytes
      (slice (batchBytes tenant streamCount recordCount body) ⟨8, 12⟩) = recordCount := by
    rw [batchBytes, batchMagic_eq]
    exact fromLeBytes_leBytes hrecords
  have hmagic : (batchBytes tenant streamCount recordCount body).take 4 = batchMagic := by
    rw [batchBytes, batchMagic_eq]
    rfl
  have hreserved : slice (batchBytes tenant streamCount recordCount body) ⟨12, 16⟩ =
      [0, 0, 0, 0] := by
    rw [batchBytes, batchMagic_eq]
    rfl
  have hslice : slice (batchBytes tenant streamCount recordCount body)
      ⟨batchHeaderBytes, batchHeaderBytes + (utf8 tenant).length⟩ = utf8 tenant := by
    rw [slice, hdrop, Nat.add_sub_cancel_left, take_left]
  rw [inspectNativeLogBatch, htenantLength, hcount]
  dsimp only
  rw [hslice, ensure_of_true (by omega), ok_bind, ensure_of_true hmagic, ok_bind, ensure_of_true hreserved,
    ok_bind, ensure_of_true hlength, ok_bind, ensure_of_true (by omega), ok_bind]
  simp [tenantOf, hnonempty]

theorem declaredStreams_batchBytes (hstreams : streamCount < 256 ^ 2) :
    declaredStreams (batchBytes tenant streamCount recordCount body) = streamCount := by
  rw [declaredStreams, batchBytes, batchMagic_eq]
  exact fromLeBytes_leBytes hstreams

theorem bodyInput_batchBytes :
    bodyInput (batchBytes tenant streamCount recordCount body) ⟨tenant, recordCount⟩ =
      ⟨batchHeaderBytes + (utf8 tenant).length, body⟩ := by
  rw [bodyInput, ← drop_drop, drop_header, drop_left]

end Header

/-! ## Whole batches -/

section Batches

variable {tenant : Str}

/-- What an encoded batch consists of. -/
structure EncodesBatch (tenant : Str) (entries : List LokiEntry) (body bytes : Bytes) : Prop where
  nonempty : tenant ≠ []
  tenantLength : (utf8 tenant).length ≤ maxTenantBytes
  records : entries.length < 256 ^ 4
  timestamps : ∀ entry ∈ entries, ¬ entry.timestampUnixNanos < 0
  streams : (streamsOf entries).length < 256 ^ 2
  encoded : encodeAll encodeStream (streamsOf entries) = .ok body
  layout : bytes = batchBytes tenant (streamsOf entries).length entries.length body

/-- What an encoded batch consists of. -/
theorem exists_encodesBatch (h : encodeNativeLogBatch tenant entries = .ok bytes) :
    ∃ body, EncodesBatch tenant entries body bytes := by
  simp only [encodeNativeLogBatch, bind_eq_ok_iff] at h
  obtain ⟨_, htenant, recordCount, hrecords, _, htimestamps, _, _, tenantLength, hlength,
    streamCount, hstreams, body, hbody, _, _, h⟩ := h
  cases h
  obtain ⟨_, hnonempty, hbound⟩ := bind_eq_ok_iff.mp htenant
  obtain ⟨hrecordsFit, rfl⟩ := putUnsigned_eq_ok_iff.mp hrecords
  obtain ⟨_, rfl⟩ := putUnsigned_eq_ok_iff.mp hlength
  obtain ⟨hstreamsFit, rfl⟩ := putUnsigned_eq_ok_iff.mp hstreams
  exact ⟨body, ensure_eq_ok_iff.mp hnonempty, (ensure_eq_ok_iff.mp hbound).1, hrecordsFit,
    ensure_eq_ok_iff.mp htimestamps, hstreamsFit, hbody, rfl⟩

/-- All streams of readable entries can be read. -/
theorem readableStream_of_mem (htimestamps : ∀ entry ∈ entries, ¬ entry.timestampUnixNanos < 0)
    (hkeys : ∀ entry ∈ entries, entry.KeysNonempty) {stream : TextMap × List LokiEntry}
    (h : stream ∈ streamsOf entries) : ReadableStream stream := by
  have hmem : ∀ entry ∈ stream.2, entry ∈ entries := by
    intro entry hentry
    rw [mem_streamsOf h] at hentry
    exact (mem_filter.mp hentry).1
  constructor
  · -- a stream has an entry, and the entry has the labels of the stream
    have hne := (mem_groupBy (mem_sortBy.mp h)).2
    obtain ⟨entry, hentry⟩ := exists_mem_of_ne_nil stream.2 hne
    rw [← labels_of_mem_streamsOf h hentry]
    exact (hkeys entry (hmem entry hentry)).1
  · grind [labels_of_mem_streamsOf]

/-- A batch whose keys are not empty reads back, grouped by its labels. -/
theorem decodeNativeLogBatch_encode (h : encodeNativeLogBatch tenant entries = .ok bytes)
    (hkeys : ∀ entry ∈ entries, entry.KeysNonempty) :
    decodeNativeLogBatch bytes = .ok ⟨tenant, groupedEntries entries⟩ := by
  obtain ⟨body, hparts⟩ := exists_encodesBatch h
  have hlength := (perm_groupedEntries entries).length_eq
  have hstreams := @reads_readBatchStreams entries.length (streamsOf entries) [] body hparts.encoded
    (fun stream hstream => readableStream_of_mem hparts.timestamps hkeys hstream)
    (by rw [length_nil, Nat.zero_add]; exact hlength.le)
  have hrun : (readBatch entries.length (streamsOf entries).length).run
      ⟨batchHeaderBytes + (utf8 tenant).length, body⟩ =
      .ok (groupedEntries entries, ⟨batchHeaderBytes + (utf8 tenant).length + body.length, []⟩) := by
    have hread := hstreams (batchHeaderBytes + (utf8 tenant).length) []
    rw [append_nil, nil_append] at hread
    rw [readBatch, run_bind_ok hread]
    have hcount : ((streamsOf entries).flatMap Prod.snd).length = entries.length := hlength
    rw [hcount, beq_self_eq_true]
    rfl
  rw [hparts.layout, decodeNativeLogBatch, inspectNativeLogBatch_batchBytes hparts.nonempty
    hparts.tenantLength hparts.records, ok_bind, declaredStreams_batchBytes hparts.streams,
    bodyInput_batchBytes, hrun]
  rfl

/-! ## Keys that are accepted -/

/-- Text maps are read with nonempty keys only. -/
theorem yields_readTextMap {keyField valueField : String} {rejected : NativeProtocolError}
    (count : Nat) {map : TextMap} (h : ∀ key ∈ map.keys, key ≠ []) :
    Yields (readTextMap keyField valueField rejected count map) fun result =>
      ∀ key ∈ result.keys, key ≠ [] := by
  induction count generalizing map with
  | zero => exact yields_pure h
  | succ count ih =>
    refine bind_any fun key => bind_any fun value => require fun haccepted => ?_
    apply ih
    intro other hother
    rcases mem_keys_insertEntry.mp hother with rfl | hin
    · rintro rfl
      cases haccepted
    · exact h other hin

theorem yields_emptyTextMap (keyField valueField : String) (rejected : NativeProtocolError)
    (count : Nat) :
    Yields (readTextMap keyField valueField rejected count empty) fun result =>
      ∀ key ∈ result.keys, key ≠ [] :=
  yields_readTextMap count (by simp [empty, OrderedMap.keys])

/-- So are the maps of an entry. -/
theorem yields_readBatchEntry (hlabels : ∀ key ∈ labels.keys, key ≠ []) :
    Yields (readBatchEntry labels) LokiEntry.KeysNonempty := by
  refine bind_any fun timestamp => bind_any fun lineLength =>
    bind_any fun metadataCount => require fun _ => bind_any fun reserved =>
    require fun _ => bind_any fun line => ?_
  refine bind (yields_emptyTextMap _ _ _ metadataCount) ?_
  intro metadata hmetadata
  exact require fun _ => yields_pure ⟨hlabels, hmetadata⟩

theorem yields_readBatchEntries (hlabels : ∀ key ∈ labels.keys, key ≠ []) (count : Nat)
    (h : ∀ entry ∈ entries, entry.KeysNonempty) :
    Yields (readBatchEntries labels count entries) fun result =>
      ∀ entry ∈ result, entry.KeysNonempty := by
  induction count generalizing entries with
  | zero => exact yields_pure h
  | succ count ih =>
    refine bind (yields_readBatchEntry hlabels) ?_
    intro entry hentry
    exact ih (forall_mem_append.mpr ⟨h, forall_mem_singleton.mpr hentry⟩)

/-- So are those of all streams. -/
theorem yields_readBatchStreams (recordCount count : Nat)
    (h : ∀ entry ∈ entries, entry.KeysNonempty) :
    Yields (readBatchStreams recordCount count entries) fun result =>
      ∀ entry ∈ result, entry.KeysNonempty := by
  induction count generalizing entries with
  | zero => exact yields_pure h
  | succ count ih =>
    refine bind ?_ fun _ hresult => ih hresult
    refine bind_any fun labelCount => require fun _ => bind_any fun reserved =>
      require fun _ => bind_any fun entryCount => ?_
    refine bind (yields_emptyTextMap _ _ _ labelCount) ?_
    intro labels hlabels
    exact require fun _ => yields_readBatchEntries hlabels entryCount h

/-- No entry of a decoded batch has an empty key. -/
theorem keysNonempty_of_decodeNativeLogBatch {payload : Bytes} {batch : NativeLogBatch}
    (h : decodeNativeLogBatch payload = .ok batch) :
    ∀ entry ∈ batch.entries, entry.KeysNonempty := by
  obtain ⟨info, _, h⟩ := bind_eq_ok_iff.mp h
  obtain ⟨entries, hentries, h⟩ := bind_eq_ok_iff.mp h
  cases h
  obtain ⟨result, hrun, rfl⟩ := map_eq_ok_iff.mp hentries
  have hyields : Yields (readBatch info.recordCount (declaredStreams payload)) fun result =>
      ∀ entry ∈ result, entry.KeysNonempty := by
    refine bind (yields_readBatchStreams _ _ (by simp)) ?_
    intro entries hkeys
    exact require fun _ => bind_any fun _ => yields_pure hkeys
  exact hyields _ _ _ hrun

/-- What was encoded reads back, grouped by labels, exactly if no key is empty. -/
theorem decodeNativeLogBatch_encode_iff (h : encodeNativeLogBatch tenant entries = .ok bytes) :
    (∃ grouped, decodeNativeLogBatch bytes = .ok ⟨tenant, grouped⟩ ∧
      StablyGrouped entries grouped) ↔ ∀ entry ∈ entries, entry.KeysNonempty := by
  constructor
  · rintro ⟨grouped, hdecode, hgrouped⟩ entry hentry
    exact keysNonempty_of_decodeNativeLogBatch hdecode entry (hgrouped.perm.mem_iff.mpr hentry)
  · intro hkeys
    exact ⟨groupedEntries entries, decodeNativeLogBatch_encode h hkeys,
      stablyGrouped_streams entries⟩

end Batches

/-- An entry of a stream with one label. -/
def sampleEntry (timestamp : Int64) (key value line : String) : LokiEntry where
  timestampUnixNanos := timestamp
  labels := empty.insert key.toList value.toList
  line := line.toList
  structuredMetadata := empty

/-- A label with an empty name is encoded, and the encoding is rejected. -/
theorem empty_label_rejected : ∃ bytes,
    encodeNativeLogBatch "acme".toList [sampleEntry 7 "" "api" "GET 17"] = .ok bytes ∧
      decodeNativeLogBatch bytes = .error emptyOrDuplicateLabel := by
  obtain ⟨bytes, hbytes⟩ := exists_of_isOk (x := encodeNativeLogBatch "acme".toList
    [sampleEntry 7 "" "api" "GET 17"]) (by decide +kernel)
  refine ⟨bytes, hbytes, ?_⟩
  have hdecoded : (encodeNativeLogBatch "acme".toList [sampleEntry 7 "" "api" "GET 17"] >>=
      decodeNativeLogBatch) = .error emptyOrDuplicateLabel := by decide +kernel
  rw [hbytes, ok_bind] at hdecoded
  exact hdecoded

/-- Two streams, given out of order, are read back in the order of their labels. -/
theorem sampleEntries_read_back : ∃ bytes grouped, encodeNativeLogBatch "acme".toList
      [sampleEntry 7 "app" "web" "GET 17", sampleEntry 5 "app" "api" "done"] = .ok bytes ∧
      decodeNativeLogBatch bytes = .ok ⟨"acme".toList, grouped⟩ ∧
      StablyGrouped [sampleEntry 7 "app" "web" "GET 17", sampleEntry 5 "app" "api" "done"]
        grouped := by
  obtain ⟨bytes, hbytes⟩ := exists_of_isOk (x := encodeNativeLogBatch "acme".toList
    [sampleEntry 7 "app" "web" "GET 17", sampleEntry 5 "app" "api" "done"]) (by decide +kernel)
  have hkeys : ∀ entry ∈ [sampleEntry 7 "app" "web" "GET 17", sampleEntry 5 "app" "api" "done"],
      entry.KeysNonempty := by
    unfold LokiEntry.KeysNonempty
    decide +kernel
  obtain ⟨grouped, hdecode, hgrouped⟩ := (decodeNativeLogBatch_encode_iff hbytes).mpr hkeys
  exact ⟨bytes, grouped, hbytes, hdecode, hgrouped⟩

end ShardLog.Native
