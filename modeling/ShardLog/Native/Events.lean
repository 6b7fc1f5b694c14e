import ShardLog.Native.Batch

/-!
# Native protocol - the view and the events agree

The borrowed view interns metadata keys and keeps ranges, the owned reader
builds every field and shares neighbouring values.  Both walk the payload in
lockstep, and each record of the view describes the event at its place.
-/

namespace ShardLog.Native

open ByteReader Utf8 Runs Lockstep AssocMap List

/-! ## Seen keys -/

/-- A set of keys, if there is one, holds the known keys. -/
def KnownKeys (large : Option (List Str)) (known : List Str) : Prop :=
  ∀ keys, large = some keys → ∀ key, key ∈ keys ↔ key ∈ known

/-- No keys are known at first. -/
theorem knownKeys_keySet (count : Nat) : KnownKeys (keySet count) [] := by
  intro keys hkeys key
  unfold keySet at hkeys
  split at hkeys
  · cases hkeys
    simp
  · cases hkeys

variable {known : List Str} {large : Option (List Str)} {key : Str} {keys : List Str}
  {cache : EventCache} {labelFields : List MetadataField} {view : NativeBatchView}
  {record : NativeRecordView} {event : OtlpLogEvent} {events : List OtlpLogEvent} {streamId : Nat}
  {stream : NativeStreamView}

/-- Set and scan find the same. -/
theorem KnownKeys.noteKey_fst (h : KnownKeys large known) {scanned : Bool}
    (hscanned : scanned = known.contains key) :
    (noteKey large scanned key).1 = known.contains key := by
  cases large with
  | none => exact hscanned
  | some keys =>
    have hiff := h keys rfl key
    simp [noteKey, contains_eq_mem, hiff]

/-- A noted key is known. -/
theorem KnownKeys.noteKey_snd (h : KnownKeys large known) (scanned : Bool) (key : Str) :
    KnownKeys (noteKey large scanned key).2 (known ++ [key]) := by
  intro keys hkeys other
  cases large with
  | none => cases hkeys
  | some seen =>
    cases hkeys
    have hiff := h seen rfl other
    simp [hiff, or_comm]

/-- The keys of the owned reader grow at the front. -/
theorem KnownKeys.cons (h : KnownKeys (some keys) known) (key : Str) :
    KnownKeys (some (key :: keys)) (known ++ [key]) :=
  h.noteKey_snd false key

theorem KnownKeys.contains_eq (h : KnownKeys (some keys) known) (key : Str) :
    keys.contains key = known.contains key := by
  have hiff := h keys rfl key
  simp [contains_eq_mem, hiff]

/-! ## Labels -/

def NativeFieldView.field (label : NativeFieldView) : MetadataField := ⟨label.key, label.value⟩

/-- View and events read the same labels. -/
theorem lockstep_labels (tenant : MetadataField) (count : Nat) {large : Option (List Str)}
    {labels : List NativeFieldView} {keys : List Str} (hash : UInt64)
    (hlarge : KnownKeys large (labels.map (·.rawKey)))
    (hkeys : KnownKeys (some keys) (labels.map (·.rawKey))) :
    Lockstep (fun viewed read => read = (tenant :: viewed.1.map (·.field), viewed.2))
      (readViewLabels count large labels hash)
      (readEventLabels count keys (tenant :: labels.map (·.field)) hash) := by
  induction count generalizing large labels keys hash with
  | zero => exact lockstep_pure rfl
  | succ count ih =>
    apply bind_same
    intro key
    apply bind_same
    intro value
    have hscanned : (labels.any fun field => field.rawKey == key) =
        (labels.map (·.rawKey)).contains key := by
      rw [← any_beq', any_map]
      rfl
    apply Lockstep.require
    · rw [hlarge.noteKey_fst hscanned, hkeys.contains_eq key]
    · intro _
      have hnext := @ih _ (labels ++ [⟨labelPrefix ++ key, key, value⟩]) (key :: keys)
        (updateCohortHash hash key value)
        (by simpa using hlarge.noteKey_snd (labels.any fun field => field.rawKey == key) key)
        (by simpa using hkeys.cons key)
      simpa [NativeFieldView.field, labelField] using hnext

/-! ## Interned metadata keys -/

/-- Keys are distinct, keep their normalized form and, once hashed, are hashed
to their positions. -/
structure NativeMetadataKeys.Valid (keys : NativeMetadataKeys) : Prop where
  nodup : keys.raws.Nodup
  normalized : ∀ entry ∈ keys.entries, entry.normalized = metadataPrefix ++ entry.raw
  hashed : ∀ ids, keys.ids = some ids → ids = keys.raws.zipIdx

theorem NativeMetadataKeys.valid_empty : NativeMetadataKeys.Valid {} where
  nodup := nodup_nil
  normalized := by simp
  hashed := by simp

variable {keys : NativeMetadataKeys}

/-- The table finds the position of a key. -/
theorem NativeMetadataKeys.Valid.existing_eq (h : keys.Valid) (key : Str) :
    keys.existing key = position keys.raws key := by
  unfold NativeMetadataKeys.existing
  cases hids : keys.ids with
  | none => rfl
  | some ids =>
    have hzip := h.hashed ids hids
    subst hzip
    exact get_zipIdx keys.raws key

/-- Interning keeps the table valid, only appends to it and returns the position
of the key. -/
theorem NativeMetadataKeys.Valid.intern (h : keys.Valid) (key : Str) :
    (keys.intern key).2.Valid ∧ keys.entries <+: (keys.intern key).2.entries ∧
      (keys.intern key).2.entries[(keys.intern key).1]? = some ⟨key, metadataPrefix ++ key⟩ := by
  unfold NativeMetadataKeys.intern
  rw [h.existing_eq key]
  cases hposition : position keys.raws key with
  | some id =>
    have hraw := getElem?_of_position hposition
    simp only [NativeMetadataKeys.raws, getElem?_map, Option.map_eq_some_iff] at hraw
    obtain ⟨entry, hentry, hkey⟩ := hraw
    have hnormalized := h.normalized entry (mem_of_getElem? hentry)
    subst hkey
    refine ⟨h, prefix_refl _, ?_⟩
    rw [hentry, ← hnormalized]
  | none =>
    have hfresh := position_eq_none_iff.mp hposition
    refine ⟨⟨?_, ?_, ?_⟩, prefix_append _ _, by simp⟩
    · have hnodup := h.nodup
      simp only [NativeMetadataKeys.raws, map_append, map_cons, map_nil] at *
      rw [← concat_eq_append]
      exact hnodup.concat hfresh
    · exact forall_mem_append.mpr ⟨h.normalized, forall_mem_singleton.mpr rfl⟩
    · intro ids hids
      obtain ⟨old, hold, rfl⟩ := Option.map_eq_some_iff.mp hids
      have hzip : old = keys.raws.zipIdx := by
        unfold NativeMetadataKeys.hashed at hold
        split at hold
        · exact (Option.some.inj hold).symm
        · exact h.hashed old hold
      have hinsert := insert_zipIdx hfresh
      rw [hzip]
      simpa [NativeMetadataKeys.raws] using hinsert

/-- A metadata item holds the value of a pair under the identifier of its key. -/
def Interned (keys : NativeMetadataKeys) (item : NativeMetadataView) (pair : Str × Str) : Prop :=
  keys.entries[item.keyId]? = some ⟨pair.1, metadataPrefix ++ pair.1⟩ ∧ item.value = pair.2

/-- More keys keep an interned item. -/
theorem Interned.mono {keys' : NativeMetadataKeys} (hle : keys.entries <+: keys'.entries)
    {item : NativeMetadataView} {pair : Str × Str} (h : Interned keys item pair) :
    Interned keys' item pair :=
  ⟨getElem?_of_isPrefix hle h.1, h.2⟩

/-- Identifiers are equal exactly for equal keys, so scanning identifiers finds
repeated keys. -/
theorem scanned_eq_contains (h : keys.Valid) {items : List NativeMetadataView}
    {pairs : List (Str × Str)} (hitems : Forall₂ (Interned keys) items pairs) {id : Nat}
    (hid : keys.entries[id]? = some ⟨key, metadataPrefix ++ key⟩) :
    (items.any fun field => field.keyId == id) = (pairs.map Prod.fst).contains key := by
  have hraw : keys.raws[id]? = some key := by simp [NativeMetadataKeys.raws, hid]
  induction hitems with
  | nil => rfl
  | @cons item pair items pairs hitem _ ih =>
    have hitemRaw : keys.raws[item.keyId]? = some pair.1 := by
      simp [NativeMetadataKeys.raws, hitem.1]
    have hsame : (item.keyId == id) = (pair.1 == key) := by
      rw [Bool.eq_iff_iff, beq_iff_eq, beq_iff_eq]
      constructor
      · grind
      · intro heq
        have hlt := (List.getElem?_eq_some_iff.mp hitemRaw).1
        exact (getElem?_inj hlt h.nodup).mp (hitemRaw.trans (heq ▸ hraw.symm))
    rw [any_cons, ih, hsame, map_cons, contains_cons, Bool.beq_comm (a := key)]

/-! ## Metadata of one entry -/

/-- The view appended items to `before`, the owned reader appended the fields of
the same pairs to `base`. -/
structure MetadataRead (before : List NativeMetadataView) (keys : NativeMetadataKeys)
    (base : List MetadataField) (viewed : List NativeMetadataView × NativeMetadataKeys)
    (fields : List MetadataField) : Prop where
  valid : viewed.2.Valid
  grows : keys.entries <+: viewed.2.entries
  pairs : ∃ items pairs, viewed.1 = before ++ items ∧ List.Forall₂ (Interned viewed.2) items pairs ∧
    fields = base ++ pairs.map fun pair => metadataField pair.1 pair.2

/-- View and events read the same metadata. -/
theorem lockstep_metadata (before : List NativeMetadataView) (base : List MetadataField)
    (count : Nat) {large : Option (List Str)} {seen : List Str} {items : List NativeMetadataView}
    {pairs : List (Str × Str)} {keys : NativeMetadataKeys} (hvalid : keys.Valid)
    (hitems : Forall₂ (Interned keys) items pairs)
    (hlarge : KnownKeys large (pairs.map Prod.fst))
    (hseen : KnownKeys (some seen) (pairs.map Prod.fst)) :
    Lockstep (MetadataRead before keys base)
      (readViewMetadata before.length count large (before ++ items) keys)
      (readEventMetadata count seen
        (base ++ pairs.map fun pair => metadataField pair.1 pair.2)) := by
  induction count generalizing large seen items pairs keys with
  | zero => exact lockstep_pure ⟨hvalid, prefix_refl _, items, pairs, rfl, hitems, rfl⟩
  | succ count ih =>
    apply bind_same
    intro key
    apply bind_same
    intro value
    obtain ⟨hvalid', hgrows, hid⟩ := hvalid.intern key
    have hitems' := hitems.imp fun _ _ => Interned.mono hgrows
    have hscanned : (((before ++ items).drop before.length).any fun field =>
        field.keyId == (keys.intern key).1) = (pairs.map Prod.fst).contains key := by
      grind [scanned_eq_contains]
    apply Lockstep.require
    · rw [hlarge.noteKey_fst hscanned, hseen.contains_eq key]
    · intro _
      have hpairs : Forall₂ (Interned (keys.intern key).2)
          (items ++ [⟨(keys.intern key).1, value⟩]) (pairs ++ [(key, value)]) :=
        rel_append hitems' (.cons ⟨hid, rfl⟩ .nil)
      have hnext := @ih (noteKey large (((before ++ items).drop before.length).any
          fun field => field.keyId == (keys.intern key).1) key).2 (key :: seen) _ _ _ hvalid' hpairs
        (by simpa using hlarge.noteKey_snd _ key) (by simpa using hseen.cons key)
      simp only [map_append, ← append_assoc] at hnext
      exact hnext.mono fun viewed fields hread =>
        ⟨hread.valid, hgrows.trans hread.grows, hread.pairs⟩

/-- The shared fields of a stream's single-item events are the fields the owned
reader would build. -/
def EventCache.Valid (labelFields : List MetadataField) (cache : EventCache) : Prop :=
  ∀ key value fields, cache.previousSingleMetadata = some (key, value, fields) →
    fields = labelFields ++ [metadataField key value]

theorem EventCache.line_fst (cache : EventCache) (observed : Str) :
    (cache.line observed).1 = observed := by
  unfold EventCache.line
  split
  · split
    · assumption
    · rfl
  · rfl

/-- Caching a line keeps the cache valid. -/
theorem EventCache.Valid.line (h : cache.Valid labelFields) (observed : Str) :
    (cache.line observed).2.Valid labelFields := by
  unfold EventCache.line
  split
  · split
    · exact h
    · exact h
  · exact h

/-- A cached single field is the one read. -/
theorem EventCache.Valid.single (h : cache.Valid labelFields) (key value : Str) :
    (cache.single labelFields key value).1 = labelFields ++ [metadataField key value] ∧
      (cache.single labelFields key value).2.Valid labelFields := by
  have hkept : EventCache.Valid labelFields { cache with
      previousSingleMetadata := some (key, value, labelFields ++ [metadataField key value]) } := by
    intro otherKey otherValue fields heq
    cases heq
    rfl
  unfold EventCache.single
  split
  · rename_i previousKey previousValue fields hprevious
    split
    · rename_i hsame
      obtain ⟨rfl, rfl⟩ := hsame
      exact ⟨h _ _ _ hprevious, h⟩
    · exact ⟨rfl, hkept⟩
  · exact ⟨rfl, hkept⟩

/-- Metadata of an entry, whichever way the owned reader takes it. -/
theorem lockstep_fields (before : List NativeMetadataView) (labelFields : List MetadataField)
    (hvalid : keys.Valid) (hcache : cache.Valid labelFields) (count : Nat) :
    Lockstep (fun viewed read => MetadataRead before keys labelFields viewed read.1 ∧
        read.2.Valid labelFields)
      (readViewMetadata before.length count (keySet count) before keys)
      (readEventFields labelFields cache count) := by
  have hloop := @lockstep_metadata before labelFields count (keySet count) [] [] [] keys hvalid
    .nil (knownKeys_keySet count) (fun seen hseen key => by cases hseen; simp)
  simp only [append_nil, map_nil] at hloop
  match count with
  | 0 =>
    apply lockstep_pure
    exact ⟨⟨hvalid, prefix_refl _, [], [], by simp, .nil, by simp⟩, hcache⟩
  | 1 =>
    apply bind_same
    intro key
    apply bind_same
    intro value
    obtain ⟨hvalid', hgrows, hid⟩ := hvalid.intern key
    obtain ⟨hfields, hcache'⟩ := hcache.single key value
    apply Lockstep.require
    · simp [noteKey, keySet, linearNativeKeyLimit]
    · intro _
      apply lockstep_pure
      exact ⟨⟨hvalid', hgrows, _, [(key, value)], rfl, .cons ⟨hid, rfl⟩ .nil, hfields⟩, hcache'⟩
  | count + 2 =>
    have hpure := hloop.bind_pure_right (fun fields => (fields, cache))
    exact hpure.mono fun viewed read hread => by
      obtain ⟨fields, hfields, rfl⟩ := hread
      exact ⟨hfields, hcache⟩

/-! ## Records -/

/-- Fields shared by all records of a stream. -/
def NativeStreamView.fields (tenant : Str) (stream : NativeStreamView) : List MetadataField :=
  ⟨tenantField, tenant⟩ :: stream.labels.map (·.field)

/-- A record of the view describes an event. -/
structure RecordEvent (view : NativeBatchView) (record : NativeRecordView) (event : OtlpLogEvent) :
    Prop where
  timestamp : event.timestampUnixNanos = record.timestampUnixNanos
  message : event.message = record.message
  start_le : record.metadata.start ≤ record.metadata.stop
  stop_le : record.metadata.stop ≤ view.metadata.length
  fields : ∃ stream pairs, view.streams[record.streamId]? = some stream ∧
    event.compressionCohort = stream.compressionCohort ∧
    List.Forall₂ (Interned view.metadataKeys) (slice view.metadata record.metadata) pairs ∧
    event.fields = stream.fields view.tenant ++ pairs.map fun pair => metadataField pair.1 pair.2

/-- Later steps only append to the tables of a view. -/
structure NativeBatchView.Extends (view next : NativeBatchView) : Prop where
  tenant : next.tenant = view.tenant
  streams : view.streams <+: next.streams
  metadata : view.metadata <+: next.metadata
  keys : view.metadataKeys.entries <+: next.metadataKeys.entries

theorem slice_of_isPrefix {α : Type} {units more : List α} (h : units <+: more)
    {range : IndexRange} (hstop : range.stop ≤ units.length) :
    slice more range = slice units range := by
  obtain ⟨rest, rfl⟩ := h
  by_cases hstart : range.start ≤ range.stop
  · rw [slice, slice, drop_append_of_le_length (by omega), take_append_of_le_length]
    rw [length_drop]
    omega
  · have hzero : range.stop - range.start = 0 := by omega
    simp [slice, hzero]

/-- A record stays described as the view grows. -/
theorem RecordEvent.mono {next : NativeBatchView} (hext : view.Extends next)
    (h : RecordEvent view record event) :
    RecordEvent next record event := by
  obtain ⟨stream, pairs, hstream, hcohort, hpairs, hfields⟩ := h.fields
  refine ⟨h.timestamp, h.message, h.start_le, h.stop_le.trans hext.metadata.length_le,
    stream, pairs, getElem?_of_isPrefix hext.streams hstream, hcohort, ?_, ?_⟩
  · rw [slice_of_isPrefix hext.metadata h.stop_le]
    exact hpairs.imp fun _ _ => Interned.mono hext.keys
  · rw [hext.tenant]
    exact hfields

/-- The records read so far describe the events read so far. -/
structure Describes (view : NativeBatchView) (events : List OtlpLogEvent) : Prop where
  valid : view.metadataKeys.Valid
  records : List.Forall₂ (RecordEvent view) view.records events

/-- One entry. -/
theorem lockstep_entry (h : Describes view events) (hstream : view.streams[streamId]? = some stream)
    (hcache : cache.Valid (stream.fields view.tenant)) :
    Lockstep (fun next read => Describes next (events ++ [read.1]) ∧
        next.streams = view.streams ∧ next.tenant = view.tenant ∧
        read.2.Valid (stream.fields view.tenant))
      (readViewEntry streamId view)
      (readEvent (stream.fields view.tenant) stream.compressionCohort cache) := by
  apply bind_same
  intro head
  apply bind (lockstep_fields view.metadata _ h.valid (hcache.line head.message) _)
  intro viewed read hread
  obtain ⟨hread, hcache'⟩ := hread
  obtain ⟨items, pairs, hviewed, hitems, hfields⟩ := hread.pairs
  apply lockstep_pure
  have hext : view.Extends { view with
      records := view.records ++ [⟨streamId, head.timestampUnixNanos, head.message,
        ⟨view.metadata.length, viewed.1.length⟩⟩]
      metadata := viewed.1
      metadataKeys := viewed.2 } :=
    ⟨rfl, prefix_refl _, hviewed ▸ prefix_append _ _, hread.grows⟩
  refine ⟨⟨hread.valid, rel_append (h.records.imp fun _ _ => RecordEvent.mono hext)
    (.cons ?_ .nil)⟩, rfl, rfl, hcache'⟩
  have hslice : slice viewed.1 ⟨view.metadata.length, viewed.1.length⟩ = items := by
    rw [hviewed, slice, drop_left]
    simp
  refine ⟨rfl, cache.line_fst head.message, ?_, le_rfl, stream, pairs, hstream, rfl, ?_, hfields⟩
  · rw [hviewed, length_append]
    exact Nat.le_add_right _ _
  · dsimp only
    rw [hslice]
    exact hitems

/-- The entries of a stream. -/
theorem lockstep_entries (count : Nat) {view : NativeBatchView} {events : List OtlpLogEvent}
    {cache : EventCache} (h : Describes view events)
    (hstream : view.streams[streamId]? = some stream)
    (hcache : cache.Valid (stream.fields view.tenant)) :
    Lockstep (fun next read => Describes next read ∧ next.streams = view.streams ∧
        next.tenant = view.tenant)
      (readViewEntries streamId count view)
      (readEvents (stream.fields view.tenant) stream.compressionCohort count cache events) := by
  induction count generalizing view events cache with
  | zero => exact lockstep_pure ⟨h, rfl, rfl⟩
  | succ count ih =>
    apply bind (lockstep_entry h hstream hcache)
    intro next read hread
    obtain ⟨hdescribes, hstreams, htenant, hcache'⟩ := hread
    have hrest := ih hdescribes (hstreams ▸ hstream) (htenant ▸ hcache')
    rw [hstreams, htenant] at hrest
    exact hrest

/-- One stream. -/
theorem lockstep_stream (recordCount : Nat) (h : Describes view events) :
    Lockstep (fun next read => Describes next read ∧
        next.streams.length = view.streams.length + 1 ∧ next.tenant = view.tenant)
      (readViewStream recordCount view.streams.length view)
      (readEventStream view.tenant recordCount events) := by
  unfold readViewStream readEventStream
  rw [h.records.length_eq]
  apply bind_same
  intro head
  apply bind (@lockstep_labels ⟨tenantField, view.tenant⟩ head.1 (keySet head.1) [] []
    initialCohortHash (knownKeys_keySet head.1) (fun seen hseen key => by cases hseen; simp))
  intro labels fields hfields
  subst hfields
  -- the new stream is appended before its entries are read
  have hext : view.Extends { view with streams := view.streams ++ [⟨labels.1, labels.2⟩] } :=
    ⟨rfl, prefix_append _ _, prefix_refl _, prefix_refl _⟩
  have hentries := @lockstep_entries view.streams.length ⟨labels.1, labels.2⟩ head.2
    { view with streams := view.streams ++ [⟨labels.1, labels.2⟩] } events {}
    ⟨h.valid, h.records.imp fun _ _ => RecordEvent.mono hext⟩ (by simp) (by
      intro key value shared hnone
      cases hnone)
  exact hentries.mono fun next read hread =>
    ⟨hread.1, by rw [hread.2.1, length_append]; rfl, hread.2.2⟩

/-- All streams. -/
theorem lockstep_streams (recordCount count : Nat) {view : NativeBatchView}
    {events : List OtlpLogEvent} (h : Describes view events) :
    Lockstep (fun next read => Describes next read ∧ next.tenant = view.tenant)
      (readViewStreams recordCount count view.streams.length view)
      (readEventStreams view.tenant recordCount count events) := by
  induction count generalizing view events with
  | zero => exact lockstep_pure ⟨h, rfl⟩
  | succ count ih =>
    apply bind (lockstep_stream recordCount h)
    intro next read hread
    obtain ⟨hdescribes, hstreams, htenant⟩ := hread
    have hrest := ih hdescribes
    rw [hstreams, htenant] at hrest
    exact hrest

/-- The readers of view and events accept the same bodies, and the view
describes the events. -/
theorem lockstep_readView (tenant : Str) (recordCount streamCount : Nat) :
    Lockstep (fun view events => Describes view events ∧ view.tenant = tenant)
      (readView tenant recordCount streamCount)
      (readEventBatch tenant recordCount streamCount) := by
  have hempty : Describes ⟨tenant, [], [], [], {}⟩ [] := ⟨NativeMetadataKeys.valid_empty, .nil⟩
  apply bind (lockstep_streams recordCount streamCount hempty)
  intro view events h
  apply Lockstep.require
  · rw [h.1.records.length_eq]
  · intro _
    apply bind_same
    intro _
    exact lockstep_pure h

/-- The events of a batch that has a view. -/
theorem exists_events_of_view {payload : Bytes} (h : decodeNativeLogBatchView payload = .ok view) :
    ∃ events, decodeNativeLogEvents payload = .ok (view.tenant, events) ∧
      Describes view events := by
  obtain ⟨info, hinfo, h⟩ := bind_eq_ok_iff.mp h
  obtain ⟨_, _, h⟩ := bind_eq_ok_iff.mp h
  obtain ⟨result, hrun, rfl⟩ := map_eq_ok_iff.mp h
  obtain ⟨events, hevents, hdescribes, htenant⟩ :=
    (lockstep_readView info.tenant info.recordCount (declaredStreams payload)).run_eq_ok hrun
  refine ⟨events, ?_, hdescribes⟩
  rw [decodeNativeLogEvents, hinfo, ok_bind, hevents, htenant]
  rfl

/-- The fields visited through the view are the fields of the event. -/
theorem RecordEvent.visitedRecordFields_eq (h : RecordEvent view record event) {index : Nat}
    (hindex : view.records[index]? = some record) :
    view.visitedRecordFields index = event.fields.map fun field => .ok (field.key, field.value) := by
  obtain ⟨stream, pairs, hstream, _, hpairs, hfields⟩ := h.fields
  have hmetadata : view.visitedMetadata record.metadata =
      pairs.map fun pair => .ok (metadataPrefix ++ pair.1, pair.2) := by
    clear hfields
    unfold NativeBatchView.visitedMetadata
    rw [if_pos ⟨h.start_le, h.stop_le⟩]
    generalize slice view.metadata record.metadata = items at hpairs
    induction hpairs with
    | nil => rfl
    | cons hitem _ ih =>
      rw [map_cons, map_cons, ih]
      simp [NativeBatchView.metadataPair, hitem.1, hitem.2]
  unfold NativeBatchView.visitedRecordFields
  simp only [hindex, hstream]
  rw [hmetadata, hfields]
  simp [NativeStreamView.fields, NativeFieldView.field, metadataField, Function.comp_def]

end ShardLog.Native
