import ShardLog.Structural.Block

/-!
# Structural blocks - the encoder sees views only

The attribute pass remembers addresses to save comparisons.  Here the pass is
repeated without addresses, and the two are shown to give the same tables, also
the same error when they fail.  So a block depends only on the offsets, timestamps,
messages and visited fields of its records.
-/

namespace ShardLog.Structural

open ByteReader Utf8 AssocMap List

/-! ## The pass without addresses -/

/-- The counts without the remembered address. -/
def AttributeValueCounts.forget (counts : AttributeValueCounts) : AttributeValueCounts :=
  { entries := counts.entries
    ids := counts.ids }

/-- The builder without remembered addresses. -/
def AttributeBuilder.forget (builder : AttributeBuilder) : AttributeBuilder :=
  { builder with
    valueCounts := builder.valueCounts.map AttributeValueCounts.forget
    keyCache := fun _ => emptyCachedAttributeKey }

/-- Number a value by looking it up. -/
def AttributeValueCounts.plainIncrement (counts : AttributeValueCounts) (value : Bytes) :
    LogDbResult ((Nat × Bool) × AttributeValueCounts) :=
  (counts.incrementSlow value 0).map fun counted => (counted.1, counted.2.forget)

/-- Number a key by looking it up. -/
def AttributeBuilder.plainLookup (builder : AttributeBuilder) (key : Bytes) :
    LogDbResult (Nat × AttributeBuilder) := do
  let interned := builder.internKey key
  let _ ← tryU32 interned.1
  .ok interned

def AttributeBuilder.plainField (builder : AttributeBuilder) (field : Str × Str) :
    LogDbResult AttributeBuilder := do
  let keyed ← builder.plainLookup (utf8 field.1)
  let counted ← (keyed.2.valueCounts.getD keyed.1 {}).plainIncrement (utf8 field.2)
  let keyId ← tryU32 keyed.1
  .ok { keyed.2 with
    valueCounts := keyed.2.valueCounts.set keyed.1 counted.2
    fieldMembership :=
      if counted.1.2 then keyed.2.fieldMembership.insertPair (utf8 field.1) (utf8 field.2)
      else keyed.2.fieldMembership
    resolved :=
      { keyed.2.resolved with
        entries := keyed.2.resolved.entries ++ [⟨keyId, counted.1.1⟩] } }

def AttributeBuilder.plainFields :
    AttributeBuilder → List (LogDbResult (Str × Str)) → LogDbResult AttributeBuilder
  | builder, [] => .ok builder
  | builder, visited :: rest => do
      let field ← visited
      let builder ← builder.plainField field
      builder.plainFields rest

def AttributeBuilder.plainRecords :
    AttributeBuilder → List (List (LogDbResult (Str × Str))) → LogDbResult AttributeBuilder
  | builder, [] => .ok builder
  | builder, fields :: rest => do
      let builder ← builder.plainFields fields
      let stop ← tryU32 builder.resolved.entries.length
      (builder.endRecord stop).plainRecords rest

/-- Tables, resolved fields and membership filter of visited fields. -/
def plainAttributeTables (fields : List (List (LogDbResult (Str × Str)))) :
    LogDbResult (AttributeTables × ResolvedFields × MembershipFilter) := do
  let builder ← AttributeBuilder.plainRecords {} fields
  let values ← collect AttributeValueCounts.intoTable builder.valueCounts
  .ok (⟨builder.keys, values⟩, builder.resolved, builder.fieldMembership)

/-! ## Values -/

section Values

variable {memory : Memory} {counts : AttributeValueCounts} {value : Bytes} {address : Nat}

/-- Counting without addresses. -/
theorem forget_incrementSlow (counts : AttributeValueCounts) (value : Bytes) (address : Nat) :
    (counts.incrementSlow value address).map (fun counted => (counted.1, counted.2.forget)) =
      counts.forget.plainIncrement value := by
  unfold AttributeValueCounts.plainIncrement AttributeValueCounts.incrementSlow
  have hfind : counts.forget.findEntry value = counts.findEntry value := rfl
  rw [hfind]
  cases counts.findEntry value with
  | none => simp only [map_bind]; rfl
  | some found => simp only [map_bind, AttributeValueCounts.countAgain, bind_assoc]; rfl

/-- A nodup list names an item by its position. -/
theorem position_of_getElem? {items : List Bytes} (hnodup : items.Nodup) {index : Nat}
    {item : Bytes} (h : items[index]? = some item) : position items item = some index := by
  cases hposition : position items item with
  | none => exact absurd (mem_of_getElem? h) (position_eq_none_iff.mp hposition)
  | some other =>
    have hother := getElem?_of_position hposition
    have hlt := (List.getElem?_eq_some_iff.mp hother).1
    rw [(getElem?_inj hlt hnodup).mp (hother.trans h.symm)]

/-- The remembered entry is found by looking the value up. -/
theorem forget_increment (hvalid : counts.Valid memory) (hsmall : counts.lastEntryId < 2 ^ 32)
    (hvalue : memory address value.length = value) :
    (counts.increment value address).map (fun counted => (counted.1, counted.2.forget)) =
      counts.forget.plainIncrement value := by
  unfold AttributeValueCounts.increment
  split
  · rename_i hlast
    obtain ⟨hentry, rfl, hlength⟩ := hlast
    have hnamed := hvalid.last hentry
    rw [hlength, hvalue] at hnamed
    have hfind : counts.forget.findEntry value = some counts.lastEntryId :=
      (findEntry_eq_position hvalid value).trans (position_of_getElem? hvalid.nodup hnamed)
    have hid : tryU32 counts.lastEntryId = .ok counts.lastEntryId :=
      tryU32_eq_ok_iff.mpr ⟨rfl, hsmall⟩
    unfold AttributeValueCounts.plainIncrement AttributeValueCounts.incrementSlow
    rw [hfind]
    simp only [map_bind, AttributeValueCounts.countAgain, bind_assoc, hid, ok_bind]
    rfl
  · exact forget_incrementSlow counts value address

/-- The remembered entry always fits 32 bits. -/
theorem small_increment {counted : (Nat × Bool) × AttributeValueCounts}
    (hsmall : counts.lastEntryId < 2 ^ 32) (h : counts.increment value address = .ok counted) :
    counted.2.lastEntryId < 2 ^ 32 := by
  unfold AttributeValueCounts.increment at h
  split at h
  · obtain ⟨again, hagain, h⟩ := bind_eq_ok_iff.mp h
    cases h
    rw [(countAgain_eq_ok hagain).2.2.2.2]
    exact hsmall
  · unfold AttributeValueCounts.incrementSlow at h
    split at h
    · obtain ⟨again, _, h⟩ := bind_eq_ok_iff.mp h
      obtain ⟨id, hid, h⟩ := bind_eq_ok_iff.mp h
      cases h
      obtain ⟨rfl, hlt⟩ := tryU32_eq_ok_iff.mp hid
      exact hlt
    · obtain ⟨id, hid, h⟩ := bind_eq_ok_iff.mp h
      cases h
      obtain ⟨rfl, hlt⟩ := tryU32_eq_ok_iff.mp hid
      exact hlt

end Values

/-! ## Keys -/

/-- The remembered numbers fit 32 bits. -/
structure AttributeBuilder.Small (builder : AttributeBuilder) : Prop where
  counts : ∀ counts ∈ builder.valueCounts, counts.lastEntryId < 2 ^ 32
  cache : ∀ slot, (builder.keyCache slot).keyId < 2 ^ 32

theorem small_default : AttributeBuilder.Small {} where
  counts := by simp
  cache := fun _ => Nat.sub_lt (by decide) (by decide)

section Keys

variable {memory : Memory} {builder : AttributeBuilder} {fields : List (Str × Str)} {key : Bytes}
  {address : Nat}

/-- Interning without addresses. -/
theorem forget_internKey (builder : AttributeBuilder) (key : Bytes) :
    ((builder.internKey key).1, (builder.internKey key).2.forget) =
      builder.forget.internKey key := by
  unfold AttributeBuilder.internKey
  have hfind : builder.forget.findKey key = builder.findKey key := rfl
  rw [hfind]
  cases builder.findKey key with
  | some keyId => rfl
  | none =>
    simp only [AttributeBuilder.forget, map_append]
    rfl

/-- The cached number of a key is found by looking the key up. -/
theorem forget_lookupKey (htracks : builder.Tracks memory fields) (hsmall : builder.Small)
    (hkey : memory address key.length = key) :
    (builder.lookupKey key address).map (fun keyed => (keyed.1, keyed.2.forget)) =
      builder.forget.plainLookup key := by
  unfold AttributeBuilder.plainLookup
  rw [← forget_internKey]
  unfold AttributeBuilder.lookupKey
  dsimp only
  split
  · rename_i hcached
    obtain ⟨hslot, haddress, hlength⟩ := hcached
    have hnamed := htracks.cache _ hslot
    rw [haddress, hlength, hkey] at hnamed
    have hposition := position_of_getElem? htracks.nodup hnamed
    have hinterned : builder.internKey key =
        ((builder.keyCache (attributeKeyCacheSlot address key.length)).keyId, builder) := by
      rw [AttributeBuilder.internKey, findKey_eq_position htracks, hposition]
    rw [hinterned, tryU32_eq_ok_iff.mpr ⟨rfl, hsmall.cache _⟩]
    rfl
  · rw [map_bind]
    rfl

theorem small_lookupKey (hsmall : builder.Small) {keyed : Nat × AttributeBuilder}
    (h : builder.lookupKey key address = .ok keyed) :
    keyed.2.Small := by
  unfold AttributeBuilder.lookupKey at h
  dsimp only at h
  split at h
  · cases h
    exact hsmall
  · obtain ⟨id, hid, h⟩ := bind_eq_ok_iff.mp h
    cases h
    obtain ⟨rfl, hlt⟩ := tryU32_eq_ok_iff.mp hid
    have hinterned : (builder.internKey key).2.Small := by
      unfold AttributeBuilder.internKey
      split
      · exact hsmall
      · exact ⟨forall_mem_append.mpr
          ⟨hsmall.counts, forall_mem_singleton.mpr (by decide)⟩, hsmall.cache⟩
    refine ⟨hinterned.counts, ?_⟩
    intro slot
    dsimp only
    split
    · exact hlt
    · exact hinterned.cache slot

theorem getD_forget (valueCounts : List AttributeValueCounts) (keyId : Nat) :
    (valueCounts.map AttributeValueCounts.forget).getD keyId {} =
      (valueCounts.getD keyId {}).forget := by
  rw [getD_eq_getElem?_getD, getD_eq_getElem?_getD, getElem?_map]
  cases valueCounts[keyId]? <;> rfl

theorem valid_getD (htracks : builder.Tracks memory fields) (keyId : Nat) :
    (builder.valueCounts.getD keyId {}).Valid memory := by
  rw [getD_eq_getElem?_getD]
  cases hcounts : builder.valueCounts[keyId]? with
  | none => exact valid_default memory
  | some counts => exact htracks.valid counts (mem_of_getElem? hcounts)

theorem small_getD (hsmall : builder.Small) (keyId : Nat) :
    (builder.valueCounts.getD keyId {}).lastEntryId < 2 ^ 32 := by
  rw [getD_eq_getElem?_getD]
  cases hcounts : builder.valueCounts[keyId]? with
  | none => exact by decide
  | some counts => exact hsmall.counts counts (mem_of_getElem? hcounts)

/-- One field, with and without addresses. -/
theorem forget_addField (htracks : builder.Tracks memory fields) (hsmall : builder.Small)
    (field : PlacedField memory) :
    (builder.addField field).map AttributeBuilder.forget = builder.forget.plainField field.text := by
  unfold AttributeBuilder.addField AttributeBuilder.plainField
  have hlookup := forget_lookupKey htracks hsmall field.key_at
  have htext : (utf8 field.text.1) = utf8 field.key := rfl
  rw [htext, ← hlookup]
  cases hkeyed : builder.lookupKey (utf8 field.key) field.keyAddress with
  | error e => rfl
  | ok keyed =>
    obtain ⟨htracks', _⟩ := lookupKey_spec htracks ⟨field.key, rfl⟩ field.key_at hkeyed
    have hincrement := forget_increment (valid_getD htracks' keyed.1)
      (small_getD (small_lookupKey hsmall hkeyed) keyed.1) field.value_at
    rw [← getD_forget] at hincrement
    simp only [ok_bind, Except.map]
    change _ = AttributeValueCounts.plainIncrement
      ((keyed.2.valueCounts.map AttributeValueCounts.forget).getD keyed.1 {})
      (utf8 field.value) >>= _
    rw [← hincrement]
    cases (keyed.2.valueCounts.getD keyed.1 {}).increment (utf8 field.value)
      field.valueAddress with
    | error e => rfl
    | ok counted =>
      cases tryU32 keyed.1 with
      | error e => rfl
      | ok keyId =>
        simp only [Except.map, ok_bind, AttributeBuilder.forget, map_set]
        rfl

theorem small_addField (hsmall : builder.Small) (field : PlacedField memory)
    {after : AttributeBuilder} (h : builder.addField field = .ok after) : after.Small := by
  unfold AttributeBuilder.addField at h
  simp only [bind_eq_ok_iff] at h
  obtain ⟨keyed, hkeyed, counted, hcounted, keyId, _, h⟩ := h
  cases h
  have hkeyedSmall := small_lookupKey hsmall hkeyed
  refine ⟨?_, hkeyedSmall.cache⟩
  intro counts hcounts
  rcases mem_or_eq_of_mem_set hcounts with hold | hnew
  · exact hkeyedSmall.counts counts hold
  · grind [small_increment, small_getD]

end Keys

/-! ## The whole pass -/

section Pass

variable {memory : Memory} {visited : List (LogDbResult (PlacedField memory))}

/-- The fields of a record, with and without addresses. -/
theorem forget_addFields {builder : AttributeBuilder} {fields : List (Str × Str)}
    (htracks : builder.Tracks memory fields) (hsmall : builder.Small) :
    (builder.addFields visited).map AttributeBuilder.forget =
      builder.forget.plainFields (visited.map (Except.map PlacedField.text)) := by
  induction visited generalizing builder fields with
  | nil => rfl
  | cons visit visited ih =>
    rw [AttributeBuilder.addFields, map_cons, AttributeBuilder.plainFields]
    cases visit with
    | error e => rfl
    | ok field =>
      have hfield := forget_addField htracks hsmall field
      simp only [Except.map, ok_bind] at hfield ⊢
      rw [← hfield]
      cases hadded : builder.addField field with
      | error e => rfl
      | ok added => exact ih (addField_spec htracks hadded) (small_addField hsmall field hadded)

/-- Numbers stay small over all fields. -/
theorem small_addFields {builder after : AttributeBuilder} (hsmall : builder.Small)
    (h : builder.addFields visited = .ok after) :
    after.Small := by
  induction visited generalizing builder after with
  | nil =>
    cases h
    exact hsmall
  | cons visit visited ih =>
    obtain ⟨field, _, h⟩ := bind_eq_ok_iff.mp h
    obtain ⟨added, hadded, h⟩ := bind_eq_ok_iff.mp h
    exact ih (small_addField hsmall field hadded) h

/-- The fields of a batch, with and without addresses. -/
theorem forget_addRecords {visited : List (List (LogDbResult (PlacedField memory)))}
    {builder : AttributeBuilder} {fields : List (Str × Str)}
    (htracks : builder.Tracks memory fields) (hsmall : builder.Small) :
    (builder.addRecords visited).map AttributeBuilder.forget =
      builder.forget.plainRecords (visited.map (List.map (Except.map PlacedField.text))) := by
  induction visited generalizing builder fields with
  | nil => rfl
  | cons record visited ih =>
    rw [AttributeBuilder.addRecords, map_cons, AttributeBuilder.plainRecords,
      AttributeBuilder.addRecord, ← forget_addFields htracks hsmall]
    cases hadded : builder.addFields record with
    | error e => rfl
    | ok added =>
      have hentries : added.forget.resolved = added.resolved := rfl
      simp only [Except.map, ok_bind, hentries]
      cases tryU32 added.resolved.entries.length with
      | error e => rfl
      | ok stop =>
        obtain ⟨own, _, htracked, _⟩ := addFields_spec htracks hadded
        have hsmall' : (added.endRecord stop).Small :=
          ⟨(small_addFields hsmall hadded).counts, (small_addFields hsmall hadded).cache⟩
        exact ih (htracked.endRecord stop) hsmall'

end Pass

/-- The tables depend on the visited fields only. -/
theorem buildAttributeTables_eq {R : Type} [StructuralRecordView R] {records : List R}
    (placement : Placement records) :
    buildAttributeTables placement = plainAttributeTables (records.map visitedFields) := by
  have hpass := @forget_addRecords _ placement.fields _ _
    (tracks_default placement.memory) small_default
  rw [placement.contents] at hpass
  have hstart : AttributeBuilder.forget {} = {} := rfl
  rw [hstart] at hpass
  rw [buildAttributeTables, plainAttributeTables, ← hpass]
  cases AttributeBuilder.addRecords {} placement.fields with
  | error e => rfl
  | ok builder =>
    have hvalues : collect AttributeValueCounts.intoTable builder.forget.valueCounts =
        collect AttributeValueCounts.intoTable builder.valueCounts :=
      collect_map _ _ _
    simp only [Except.map, ok_bind, hvalues]
    rfl

/-! ## Records with the same views -/

/-- The two record lists show the encoder the same data. -/
structure SameViews {R S : Type} [StructuralRecordView R] [StructuralRecordView S]
    (left : List R) (right : List S) : Prop where
  offsets : left.map structuralOffset = right.map structuralOffset
  timestamps : left.map structuralTimestampUnixNanos = right.map structuralTimestampUnixNanos
  messages : left.map structuralMessage = right.map structuralMessage
  fields : left.map visitedFields = right.map visitedFields

section Same

variable {R S : Type} [StructuralRecordView R] [StructuralRecordView S] {left : List R}
  {right : List S}

theorem SameViews.length (h : SameViews left right) : left.length = right.length := by
  have hlength := congrArg List.length h.offsets
  rwa [length_map, length_map] at hlength

/-- Views that agree one by one. -/
theorem sameViews_of_forall₂ (h : Forall₂ (fun (record : R) (other : S) =>
    structuralOffset record = structuralOffset other ∧
    structuralTimestampUnixNanos record = structuralTimestampUnixNanos other ∧
    structuralMessage record = structuralMessage other ∧
    visitedFields record = visitedFields other) left right) : SameViews left right := by
  have hmap {α : Type} {f : R → α} {g : S → α} (heach : Forall₂
      (fun record other => f record = g other) left right) : left.map f = right.map g := by
    rw [← forall₂_eq_eq_eq]
    exact forall₂_map_left_iff.mpr (forall₂_map_right_iff.mpr heach)
  exact ⟨hmap (h.imp fun _ _ same => same.1), hmap (h.imp fun _ _ same => same.2.1),
    hmap (h.imp fun _ _ same => same.2.2.1), hmap (h.imp fun _ _ same => same.2.2.2)⟩

/-- Records with the same views have the same block, wherever their fields lie. -/
theorem encodeIndexedStructuralRecords_congr (h : SameViews left right) (tables : UnicodeTables)
    (pco : Pco) (placement : Placement left) (placement' : Placement right) :
    encodeIndexedStructuralRecords tables pco placement =
      encodeIndexedStructuralRecords tables pco placement' := by
  have hmessages : parseMessages tables left = parseMessages tables right := by
    have hbytes := congrArg (List.map utf8) h.messages
    rw [map_map, map_map] at hbytes
    exact congrArg (parseMessagesFrom tables · ⟨[], [], []⟩ fun _ => emptySlot) hbytes
  have hattributes : buildAttributeTables placement = buildAttributeTables placement' := by
    rw [buildAttributeTables_eq, buildAttributeTables_eq, h.fields]
  have hoffsets : encodeOffsets left = encodeOffsets right := by
    rw [encodeOffsets, encodeOffsets, h.offsets]
  have htimestamps : encodeTimestamps pco left = encodeTimestamps pco right := by
    have hempty : left = [] ↔ right = [] := by
      rw [← length_eq_zero_iff, ← length_eq_zero_iff, h.length]
    simp only [encodeTimestamps, h.timestamps, hempty]
  rw [encodeIndexedStructuralRecords, encodeIndexedStructuralRecords, hmessages, hattributes,
    hoffsets, htimestamps, h.length]

end Same

end ShardLog.Structural
