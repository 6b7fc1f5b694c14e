import ShardLog.Structural.Attributes
import ShardLog.Structural.Lane

/-!
# Structural blocks - the field lane

A record's fields are stored as a count, and for every field the number of its
key with either the number of its value in the dictionary of that key or the
value itself.  The dictionary pairs of a record are its field set, by which the
embedded index finds it.  The sequential decoder shares the fields of a record
that repeats its predecessor.
-/

namespace ShardLog.Structural

open ByteReader Utf8 Runs Reads List

def directAttributeValue : UInt8 := 0

def dictionaryAttributeValue : UInt8 := 1

def fieldSetCacheEntries : Nat := 1024

/-! ## Keys and dictionaries -/

/-- A key and its dictionary. -/
def encodeAttributeEntry (entry : Bytes × AttributeValueTable) : LogDbResult Bytes := do
  let key ← appendBytes entry.1
  let length ← writeCount entry.2.dictionaryLen
  let dictionary ← encodeAll appendBytes entry.2.dictionary
  .ok (key ++ (length ++ dictionary))

def encodeAttributeTables (tables : AttributeTables) : LogDbResult Bytes := do
  let count ← writeCount tables.keys.length
  let entries ← encodeAll encodeAttributeEntry (tables.keys.zip tables.values)
  .ok (count ++ entries)

/-- Keys, and the dictionary of each key. -/
abbrev DecodedAttributeTables := List Str × List (List Str)

def readText : BlockReader Str := do
  let bytes ← readBytes
  ofResult (decodeText bytes)

def readAttributeEntry : BlockReader (Str × List Str) := do
  let key ← readText
  let valueCount ← readUsize
  ensureCountWithin valueCount "attribute value count"
  let dictionary ← readMany readText valueCount
  pure (key, dictionary)

def decodeAttributeTables (encoded : Bytes) : LogDbResult DecodedAttributeTables :=
  readComponent (do
    let keyCount ← readUsize
    ensureCountWithin keyCount "attribute key count"
    let entries ← readMany readAttributeEntry keyCount
    pure (entries.map Prod.fst, entries.map Prod.snd)) encoded

/-! ## Encoding the lane -/

/-- Field sets by their dictionary pairs, and the set of every record. -/
structure ParsedFieldSets where
  sets : List (List (Nat × Nat))
  setIds : List Nat
  membershipFilter : MembershipFilter

def hashFieldIdPairs (pairs : List (Nat × Nat)) : UInt64 :=
  let hash := pairs.foldl (fun hash pair =>
    let pair := (UInt64.ofNat pair.1 <<< 32) ||| UInt64.ofNat pair.2
    rotateLeft (hash ^^^ pair * 0x517cc1b727220a95) 23 * 0x9e3779b185ebca87)
    (UInt64.ofNat pairs.length * 0x9e3779b185ebca87)
  hash ^^^ (hash >>> 31)

/-- The state of the loop over the records. -/
structure FieldSetBuilder where
  fieldStart : Nat := 0
  sets : List (List (Nat × Nat)) := []
  setIds : List Nat := []
  cache : Nat → Nat := fun _ => emptySlot

/-- Give a record the field set found in its cache slot, or a new one. -/
def FieldSetBuilder.addSet (builder : FieldSetBuilder) (indexedPairs : List (Nat × Nat)) :
    LogDbResult FieldSetBuilder :=
  let slot := (hashFieldIdPairs indexedPairs).toNat % fieldSetCacheEntries
  let cached := builder.cache slot
  if cached ≠ emptySlot ∧ builder.sets[cached]? = some indexedPairs then
    .ok { builder with setIds := builder.setIds ++ [cached] }
  else do
    let fieldSetId ← tryU32 builder.sets.length
    .ok { builder with
      sets := builder.sets ++ [indexedPairs]
      setIds := builder.setIds ++ [fieldSetId]
      cache := setSlot builder.cache slot fieldSetId }

/-- One field occurrence, and its dictionary pair if it has one. -/
def encodeField (tables : AttributeTables) (field : ResolvedField) :
    LogDbResult (Bytes × List (Nat × Nat)) :=
  match tables.values[field.keyId]? with
  | none => .error (invalid "resolved attribute key ID is out of range")
  | some values => do
      let resolved ← values.resolve field.valueId
      if resolved.1 < values.dictionaryLen then do
        let valueId ← tryU32 resolved.1
        .ok (writeVarint field.keyId ++ dictionaryAttributeValue :: writeVarint valueId,
          [(field.keyId, valueId)])
      else do
        let value ← appendBytes resolved.2
        .ok (writeVarint field.keyId ++ directAttributeValue :: value, [])

/-- The fields of the record that ends at `fieldEnd`. -/
def encodeRecordFields (tables : AttributeTables) (resolved : ResolvedFields) (fieldEnd : Nat)
    (builder : FieldSetBuilder) : LogDbResult (Bytes × FieldSetBuilder) := do
  ensure (builder.fieldStart ≤ fieldEnd ∧ fieldEnd ≤ resolved.entries.length)
    (invalid "resolved record field range is invalid")
  let recordFields := slice resolved.entries ⟨builder.fieldStart, fieldEnd⟩
  let count ← writeCount recordFields.length
  let encoded ← collect (encodeField tables) recordFields
  let builder ← builder.addSet (encoded.flatMap Prod.snd)
  .ok (count ++ (encoded.map Prod.fst).flatten, { builder with fieldStart := fieldEnd })

/-- The field lane and the field sets of a batch. -/
def encodeFields (resolved : ResolvedFields) (tables : AttributeTables)
    (membershipFilter : MembershipFilter) : LogDbResult (Bytes × ParsedFieldSets) := do
  let lane ← encodeLaneFrom (encodeRecordFields tables resolved) resolved.recordEnds 0 {} [] []
  let encoded ← encodeSeekableRecordLane lane.1 lane.2.1
  .ok (encoded, ⟨lane.2.2.sets, lane.2.2.setIds, membershipFilter⟩)

/-! ## Decoding the lane -/

/-- The key with a number. -/
def attributeKey (tables : DecodedAttributeTables) (keyId : Nat) : LogDbResult Str :=
  match tables.1[keyId]? with
  | some key => .ok key
  | none => .error (invalid "unknown attribute key ID")

/-- The dictionary value with a number. -/
def attributeValue (tables : DecodedAttributeTables) (keyId valueId : Nat) : LogDbResult Str :=
  match tables.2[keyId]?.bind fun values => values[valueId]? with
  | some value => .ok value
  | none => .error (invalid "unknown attribute value dictionary ID")

def readFieldValue (tables : DecodedAttributeTables) (keyId : Nat) : BlockReader Str := do
  let kind ← readByte
  if kind = directAttributeValue then readText
  else if kind = dictionaryAttributeValue then do
    let valueId ← readUsize
    ofResult (attributeValue tables keyId valueId)
  else fail (invalid "invalid attribute value kind")

def readField (tables : DecodedAttributeTables) : BlockReader MetadataField := do
  let keyId ← readUsize
  let key ← ofResult (attributeKey tables keyId)
  let value ← readFieldValue tables keyId
  pure ⟨key, value⟩

/-- The fields of one record. -/
def readFields (tables : DecodedAttributeTables) : BlockReader (List MetadataField) := do
  let fieldCount ← readUsize
  ensureCountWithin fieldCount "field count"
  readMany (readField tables) fieldCount

/-- The fields of a record so far; `none` while they repeat the previous
record. -/
def retainField (previous : List MetadataField) (fieldIndex : Nat) (field : MetadataField) :
    Option (List MetadataField) → Option (List MetadataField)
  | some fields => some (fields ++ [field])
  | none =>
    if previous[fieldIndex]? = some field then none
    else some (previous.take fieldIndex ++ [field])

/-- Read fields while comparing them with the previous record. -/
def readFieldsFrom (tables : DecodedAttributeTables) (previous : List MetadataField) :
    Nat → Nat → Option (List MetadataField) → BlockReader (Option (List MetadataField))
  | 0, _, fields => pure fields
  | count + 1, fieldIndex, fields => do
      let field ← readField tables
      readFieldsFrom tables previous count (fieldIndex + 1)
        (retainField previous fieldIndex field fields)

/-- The fields of one record, shared with the previous record when equal. -/
def readSharedFields (tables : DecodedAttributeTables) (previous : Option (List MetadataField)) :
    BlockReader (List MetadataField) := do
  let fieldCount ← readUsize
  ensureCountWithin fieldCount "field count"
  let fields ← readFieldsFrom tables (previous.getD []) fieldCount 0
    (if previous.map List.length = some fieldCount then none else some [])
  pure (fields.getD (previous.getD []))

/-- The record loop of the sequential decoder. -/
def decodeFieldsFrom (lane : SeekableRecordLane) (tables : DecodedAttributeTables) :
    Nat → Nat → Option (List MetadataField) → BlockReader (List (List MetadataField))
  | 0, _, _ => pure []
  | count + 1, ordinal, previous => do
      validateCheckpointCursor lane ordinal
      let fields ← readSharedFields tables previous
      let rest ← decodeFieldsFrom lane tables count (ordinal + 1) (some fields)
      pure (fields :: rest)

def decodeFields (encoded : Bytes) (tables : DecodedAttributeTables) (recordCount : Nat) :
    LogDbResult (List (List MetadataField)) := do
  let lane ← decodeSeekableRecordLane encoded recordCount
  readComponent (decodeFieldsFrom lane tables recordCount 0 none) lane.payload

/-! ## Sharing the previous record is invisible -/

/-- Comparing with the previous record delivers the fields read. -/
theorem readFieldsFrom_eq (tables : DecodedAttributeTables) (previous : List MetadataField)
    (count : Nat) (fields : Option (List MetadataField)) (done : List MetadataField)
    (h : done.length + count = previous.length ∧ fields = none ∧ previous.take done.length =
      done ∨ fields = some done) :
    (readFieldsFrom tables previous count done.length fields >>= fun fields =>
        (pure (fields.getD previous) : BlockReader (List MetadataField))) =
      readMany (readField tables) count >>= fun rest => pure (done ++ rest) := by
  induction count generalizing fields done with
  | zero =>
    rcases h with ⟨hlength, rfl, htake⟩ | rfl
    · rw [Nat.add_zero] at hlength
      rw [hlength, take_length] at htake
      simp [readFieldsFrom, readMany, htake]
    · simp [readFieldsFrom, readMany]
  | succ count ih =>
    rw [readFieldsFrom, readMany]
    simp only [bind_assoc, pure_bind]
    apply bind_congr
    intro field
    have hlength : (done ++ [field]).length = done.length + 1 := by simp
    have hrest := ih (retainField previous done.length field fields) (done ++ [field]) (by
      rcases h with ⟨hcount, rfl, htake⟩ | rfl
      · unfold retainField
        by_cases hsame : previous[done.length]? = some field
        · rw [if_pos hsame]
          refine .inl ⟨by rw [hlength]; omega, rfl, ?_⟩
          rw [hlength, take_succ_eq_append_getElem (by omega), htake]
          rw [getElem?_eq_getElem (by omega)] at hsame
          rw [Option.some.inj hsame]
        · rw [if_neg hsame, htake]
          exact .inr rfl
      · exact .inr rfl)
    rw [hlength] at hrest
    rw [hrest]
    apply bind_congr
    intro rest
    rw [append_assoc, singleton_append]

/-- Sharing does not change what is read. -/
theorem readSharedFields_eq (tables : DecodedAttributeTables)
    (previous : Option (List MetadataField)) :
    readSharedFields tables previous = readFields tables := by
  apply bind_congr
  intro fieldCount
  apply bind_congr
  intro _
  have h := readFieldsFrom_eq tables (previous.getD []) fieldCount
    (if previous.map List.length = some fieldCount then none else some []) [] (by
      by_cases hsame : previous.map List.length = some fieldCount
      · rw [if_pos hsame]
        rcases Option.map_eq_some_iff.mp hsame with ⟨fields, rfl, hlength⟩
        exact .inl ⟨by simp [hlength], rfl, rfl⟩
      · rw [if_neg hsame]
        exact .inr rfl)
  simpa using h

/-- The decoder reads record after record. -/
theorem decodeFieldsFrom_eq (lane : SeekableRecordLane) (tables : DecodedAttributeTables)
    (count ordinal : Nat) (previous : Option (List MetadataField)) :
    decodeFieldsFrom lane tables count ordinal previous =
      readLaneFrom lane (readFields tables) count ordinal := by
  induction count generalizing ordinal previous with
  | zero => exact rfl
  | succ count ih =>
    rw [decodeFieldsFrom, readLaneFrom, readSharedFields_eq]
    apply bind_congr
    intro _
    apply bind_congr
    intro fields
    rw [ih]

/-- The sequential decoder reads what the plain record reader reads. -/
theorem decodeFields_eq_readLane (encoded : Bytes) (tables : DecodedAttributeTables)
    (recordCount : Nat) :
    decodeFields encoded tables recordCount =
      decodeSeekableRecordLane encoded recordCount >>= fun lane =>
        readLane lane (readFields tables) recordCount := by
  unfold decodeFields readLane
  apply bind_congr
  intro lane
  rw [decodeFieldsFrom_eq]

/-! ## Locality of the field reader -/

theorem local_readText : Local readText := local_readBytes.bind fun _ => local_ofResult _

section

variable (tables : DecodedAttributeTables)

include tables

theorem local_readFieldValue (keyId : Nat) : Local (readFieldValue tables keyId) := by
  refine local_readByte.bind fun kind => ?_
  by_cases hdirect : kind = directAttributeValue
  · rw [if_pos hdirect]
    exact local_readText
  · rw [if_neg hdirect]
    by_cases hdictionary : kind = dictionaryAttributeValue
    · rw [if_pos hdictionary]
      exact local_readUsize.bind fun _ => local_ofResult _
    · rw [if_neg hdictionary]
      exact local_fail _

theorem local_readField : Local (readField tables) :=
  local_readUsize.bind fun keyId => (local_ofResult _).bind fun _ =>
    (local_readFieldValue tables keyId).bind fun _ => local_pure _

theorem consumes_readField : Consumes (readField tables) 1 :=
  consumes_readUsize.bind fun keyId => Local.consumes_zero <|
    (local_ofResult _).bind fun _ => (local_readFieldValue tables keyId).bind fun _ => local_pure _

theorem local_readFields : Local (readFields tables) :=
  local_readUsize.bind fun count =>
    (local_readMany (local_readField tables) count).requireRemaining_bind
      (consumes_readMany (consumes_readField tables) count)

end

/-! ## Reading keys and dictionaries back -/

/-- The text of bytes that are the bytes of some text. -/
def textOf (bytes : Bytes) : Str := (fromUtf8 bytes).getD []

variable {bytes : Bytes} {fields : List (List (Str × Str))} {tables : AttributeTables}
  {resolved : ResolvedFields} {filter : MembershipFilter} {encoded : Bytes}
  {table : AttributeValueTable}

theorem utf8_textOf (h : IsText bytes) : utf8 (textOf bytes) = bytes := by
  rcases h with ⟨text, rfl⟩
  simp [textOf]

/-- The tables as the decoder sees them. -/
def AttributeTables.decoded (tables : AttributeTables) : DecodedAttributeTables :=
  (tables.keys.map textOf, tables.values.map fun table => table.dictionary.map textOf)

/-- Text is read back. -/
theorem reads_readText {value : Bytes} (htext : IsText value) (h : appendBytes value = .ok bytes) :
    Reads readText bytes (textOf value) :=
  (reads_readBytes h).bind_nil (reads_ofResult (decodeText_eq_ok_iff.mpr (utf8_textOf htext)))

/-- A table entry is read back. -/
theorem reads_readAttributeEntry {entry : Bytes × AttributeValueTable} (hkey : IsText entry.1)
    (hvalues : ∀ value ∈ entry.2.entries, IsText value)
    (hlength : entry.2.dictionaryLen ≤ entry.2.entries.length)
    (h : encodeAttributeEntry entry = .ok bytes) :
    Reads readAttributeEntry bytes (textOf entry.1, entry.2.dictionary.map textOf) := by
  unfold encodeAttributeEntry at h
  simp only [bind_eq_ok_iff] at h
  obtain ⟨key, hkeyBytes, length, hlengthBytes, dictionary, hdictionary, h⟩ := h
  cases h
  have hcount : entry.2.dictionary.length = entry.2.dictionaryLen := by
    rw [AttributeValueTable.dictionary, length_take, Nat.min_eq_left hlength]
  have hread : Reads (readMany readText entry.2.dictionaryLen) dictionary
      (entry.2.dictionary.map textOf) := by
    rw [← hcount]
    refine readMany_encodeAll textOf (fun value hvalue bytes hbytes => ?_) hdictionary
    exact reads_readText (hvalues value (mem_of_mem_take hvalue)) hbytes
  have hfits : entry.2.dictionaryLen ≤ dictionary.length := by
    rw [← hcount]
    exact length_le_of_encodeAll (fun _ _ _ => appendBytes_ne_nil) hdictionary
  refine (reads_readText hkey hkeyBytes).bind ?_
  refine (reads_readUsize_of_writeCount hlengthBytes).bind ?_
  refine requireRemaining_bind hfits ?_
  exact hread.bind_pure rfl

/-- Keys and dictionaries read back. -/
theorem decodeAttributeTables_encode (hof : AttributesOf fields tables resolved filter)
    (h : encodeAttributeTables tables = .ok encoded) :
    decodeAttributeTables encoded = .ok tables.decoded := by
  rcases bind_eq_ok_iff.mp h with ⟨count, hcount, h⟩
  rcases bind_eq_ok_iff.mp h with ⟨entries, hentries, h⟩
  cases h
  have hlength : (tables.keys.zip tables.values).length = tables.keys.length := by
    rw [length_zip, hof.length, Nat.min_self]
  have hentry : ∀ entry ∈ tables.keys.zip tables.values, ∀ bytes,
      encodeAttributeEntry entry = .ok bytes →
        Reads readAttributeEntry bytes (textOf entry.1, entry.2.dictionary.map textOf) := by
    intro entry hentry bytes hbytes
    have hmem := of_mem_zip (a := entry.1) (b := entry.2) hentry
    exact reads_readAttributeEntry (hof.keysText _ hmem.1) (hof.valuesText _ hmem.2)
      (hof.dictionaryLe _ hmem.2) hbytes
  have hread := readMany_encodeAll _ hentry hentries
  have hfits : tables.keys.length ≤ entries.length := by
    rw [← hlength]
    exact length_le_of_encodeAll (fun entry hmem bytes hbytes =>
      (hentry entry hmem bytes hbytes).ne_nil rfl) hentries
  rw [hlength] at hread
  apply readComponent_of_reads
  refine (reads_readUsize_of_writeCount hcount).bind ?_
  refine requireRemaining_bind hfits (hread.bind_pure ?_)
  have hkeys : (tables.keys.zip tables.values).map Prod.fst = tables.keys :=
    map_fst_zip hof.length.ge
  have hvalues : (tables.keys.zip tables.values).map Prod.snd = tables.values :=
    map_snd_zip hof.length.le
  have hdecoded : tables.decoded = (((tables.keys.zip tables.values).map Prod.fst).map textOf,
      ((tables.keys.zip tables.values).map Prod.snd).map fun table =>
        table.dictionary.map textOf) := by
    rw [hkeys, hvalues, AttributeTables.decoded]
  rw [hdecoded]
  simp only [map_map]
  rfl

/-! ## The lane of a batch -/

/-- The dictionary pairs of a record name every field whose value is in the
dictionary of its key. -/
def IndexesFields (tables : AttributeTables) (pairs : List (Nat × Nat))
    (fields : List (Str × Str)) : Prop :=
  ∀ field ∈ fields, ∃ keyId table entryId, tables.keys[keyId]? = some (utf8 field.1) ∧
    tables.values[keyId]? = some table ∧ table.entries[entryId]? = some (utf8 field.2) ∧
    (entryId < table.dictionaryLen → (keyId, entryId) ∈ pairs)

/-- A resolved number names its value. -/
theorem resolve_eq_ok {unresolvedId entryId : Nat} {value : Bytes}
    (h : table.resolve unresolvedId = .ok (entryId, value)) :
    table.entries[entryId]? = some value := by
  unfold AttributeValueTable.resolve at h
  split at h
  · cases h
  · grind

theorem getElem?_dictionary {entryId : Nat} (h : entryId < table.dictionaryLen) :
    table.dictionary[entryId]? = table.entries[entryId]? := by
  rw [AttributeValueTable.dictionary, getElem?_take, if_pos h]

/-- One field occurrence reads back as its key and its value. -/
theorem encodeField_spec {entry : ResolvedField} {field : Str × Str}
    (hresolves : Resolves tables entry field) {encoded : Bytes × List (Nat × Nat)}
    (h : encodeField tables entry = .ok encoded) :
    Reads (readField tables.decoded) encoded.1 ⟨field.1, field.2⟩ ∧
      IndexesFields tables encoded.2 [field] := by
  rcases hresolves.value with ⟨table, entryId, htable, hresolve⟩
  have hentry := resolve_eq_ok hresolve
  have hkey : attributeKey tables.decoded entry.keyId = .ok field.1 := by
    simp [attributeKey, AttributeTables.decoded, getElem?_map, hresolves.key, textOf]
  unfold encodeField at h
  rw [htable] at h
  dsimp only at h
  rw [hresolve, ok_bind] at h
  have hsmall := hresolves.small
  have hreadKey : Reads readUsize (writeVarint entry.keyId) entry.keyId :=
    reads_readUsize (by omega)
  split at h
  · rename_i hin
    rcases bind_eq_ok_iff.mp h with ⟨valueId, hvalueId, hencoded⟩
    rcases tryU32_eq_ok_iff.mp hvalueId with ⟨rfl, hlt⟩
    cases hencoded
    constructor
    · have hvalue : attributeValue tables.decoded entry.keyId valueId = .ok field.2 := by
        simp [attributeValue, AttributeTables.decoded, getElem?_map, htable,
          getElem?_dictionary hin, hentry, textOf]
      refine hreadKey.bind ?_
      refine ofResult_bind hkey ?_
      refine bind_pure (a := field.2) ?_ rfl
      refine (reads_readByte dictionaryAttributeValue).bind ?_
      exact (reads_readUsize (by omega)).bind_nil (reads_ofResult hvalue)
    · intro other hother
      rw [mem_singleton.mp hother]
      exact ⟨entry.keyId, table, valueId, hresolves.key, htable, hentry, by simp⟩
  · rename_i hout
    rcases bind_eq_ok_iff.mp h with ⟨bytes, hbytes, h⟩
    cases h
    constructor
    · have htext : textOf (utf8 field.2) = field.2 := by simp [textOf]
      refine hreadKey.bind ?_
      refine ofResult_bind hkey ?_
      refine bind_pure (a := field.2) ?_ rfl
      refine (reads_readByte directAttributeValue).bind ?_
      have hread := reads_readText ⟨field.2, rfl⟩ hbytes
      rw [htext] at hread
      exact hread
    · intro other hother
      rw [mem_singleton.mp hother]
      exact ⟨entry.keyId, table, entryId, hresolves.key, htable, hentry, fun h => absurd h hout⟩

/-- A field of a decoded record. -/
def metadataField (field : Str × Str) : MetadataField := ⟨field.1, field.2⟩

/-- Field sets of parts. -/
theorem IndexesFields.append {pairs more : List (Nat × Nat)} {fields rest : List (Str × Str)}
    (h : IndexesFields tables pairs fields) (hrest : IndexesFields tables more rest) :
    IndexesFields tables (pairs ++ more) (fields ++ rest) := by
  intro field hfield
  rcases mem_append.mp hfield with hin | hin
  · rcases h field hin with ⟨keyId, table, entryId, hkey, htable, hentry, hpair⟩
    exact ⟨keyId, table, entryId, hkey, htable, hentry, fun hlt => mem_append_left _ (hpair hlt)⟩
  · rcases hrest field hin with ⟨keyId, table, entryId, hkey, htable, hentry, hpair⟩
    exact ⟨keyId, table, entryId, hkey, htable, hentry, fun hlt => mem_append_right _ (hpair hlt)⟩

/-- The field occurrences of one record. -/
theorem collect_encodeField_spec {entries : List ResolvedField} {fields : List (Str × Str)}
    (h : Forall₂ (Resolves tables) entries fields)
    {encoded : List (Bytes × List (Nat × Nat))}
    (hok : collect (encodeField tables) entries = .ok encoded) :
    Forall₂ (Reads (readField tables.decoded)) (encoded.map Prod.fst) (fields.map metadataField) ∧
      IndexesFields tables (encoded.flatMap Prod.snd) fields := by
  induction h generalizing encoded with
  | nil =>
    cases hok
    exact ⟨.nil, by simp [IndexesFields]⟩
  | @cons entry field entries fields hhead htail ih =>
    rcases bind_eq_ok_iff.mp hok with ⟨first, hfirst, hok⟩
    rcases bind_eq_ok_iff.mp hok with ⟨rest, hrest, hok⟩
    cases hok
    rcases encodeField_spec hhead hfirst with ⟨hreads, hindexes⟩
    rcases ih hrest with ⟨hmore, hothers⟩
    exact ⟨.cons hreads hmore, hindexes.append hothers⟩

/-- A record finds its pairs in the field set it is given. -/
theorem addSet_spec {builder next : FieldSetBuilder} {pairs : List (Nat × Nat)}
    (h : builder.addSet pairs = .ok next) :
    ∃ id, next.setIds = builder.setIds ++ [id] ∧ next.sets[id]? = some pairs ∧
      builder.sets <+: next.sets := by
  unfold FieldSetBuilder.addSet at h
  dsimp only at h
  split at h
  · grind
  · grind [bind_eq_ok_iff, tryU32_eq_ok_iff]

/-- The fields of one record read back, and its field set names them. -/
theorem encodeRecordFields_spec {builder next : FieldSetBuilder} {fieldEnd : Nat}
    {fields : List (Str × Str)} {blob : Bytes} (hfields : Forall₂ (Resolves tables)
      (slice resolved.entries ⟨builder.fieldStart, fieldEnd⟩) fields)
    (h : encodeRecordFields tables resolved fieldEnd builder = .ok (blob, next)) :
    Reads (readFields tables.decoded) blob (fields.map metadataField) ∧
      next.fieldStart = fieldEnd ∧ builder.sets <+: next.sets ∧
      ∃ id pairs, next.setIds = builder.setIds ++ [id] ∧ next.sets[id]? = some pairs ∧
        IndexesFields tables pairs fields := by
  unfold encodeRecordFields at h
  simp only [bind_eq_ok_iff] at h
  obtain ⟨_, _, count, hcount, encoded, hencoded, added, hadded, h⟩ := h
  cases h
  rcases collect_encodeField_spec hfields hencoded with ⟨hreads, hindexes⟩
  rcases addSet_spec hadded with ⟨id, hid, hset, hextends⟩
  have hmany := many hreads
  rw [length_map] at hmany
  have hsize : fields.length ≤ (encoded.map Prod.fst).flatten.length := by
    have hconsumes := consumes_readMany (consumes_readField tables.decoded) fields.length _ _ _
      hmany.run_start
    simpa [Input.start] using hconsumes
  have hlength : (slice resolved.entries ⟨builder.fieldStart, fieldEnd⟩).length = fields.length :=
    hfields.length_eq
  rw [hlength] at hcount
  refine ⟨?_, rfl, hextends, id, _, hid, hset, hindexes⟩
  refine (reads_readUsize_of_writeCount hcount).bind ?_
  exact requireRemaining_bind hsize hmany

/-- The record loop: every record reads back, and finds its pairs in its set. -/
theorem encodeRecords_fields {builder final : FieldSetBuilder} {blobs : List Bytes}
    (hresolves : Forall₂ (Resolves tables) (resolved.entries.drop builder.fieldStart)
      fields.flatten)
    (h : encodeRecords (encodeRecordFields tables resolved) (endsFrom builder.fieldStart fields)
      builder = .ok (blobs, final)) :
    Forall₂ (Reads (readFields tables.decoded)) blobs
      (fields.map fun own => own.map metadataField) ∧
    builder.sets <+: final.sets ∧
    ∃ ids, final.setIds = builder.setIds ++ ids ∧
      Forall₂ (fun own id => ∃ pairs, final.sets[id]? = some pairs ∧
        IndexesFields tables pairs own) fields ids := by
  induction fields generalizing builder final blobs with
  | nil =>
    cases h
    exact ⟨.nil, prefix_rfl, [], by simp, .nil⟩
  | cons own fields ih =>
    rcases bind_eq_ok_iff.mp h with ⟨⟨blob, next⟩, hrecord, h⟩
    rcases bind_eq_ok_iff.mp h with ⟨⟨rest, last⟩, hrest, h⟩
    cases h
    have hown : Forall₂ (Resolves tables) (slice resolved.entries
        ⟨builder.fieldStart, builder.fieldStart + own.length⟩) own := by
      have htake := forall₂_take_append _ _ _ hresolves
      simpa [slice] using htake
    rcases encodeRecordFields_spec hown hrecord with
      ⟨hreads, hstart, hextends, id, pairs, hid, hset, hindexes⟩
    have hothers : Forall₂ (Resolves tables) (resolved.entries.drop next.fieldStart)
        fields.flatten := by
      have hdrop := forall₂_drop_append _ _ _ hresolves
      rwa [drop_drop, ← hstart] at hdrop
    rw [← hstart] at hrest
    rcases ih hothers hrest with ⟨hblobs, hmore, ids, hids, hsets⟩
    refine ⟨.cons hreads hblobs, hextends.trans hmore, id :: ids, ?_, .cons ?_ hsets⟩
    · rw [hids, hid, append_assoc, singleton_append]
    · exact ⟨pairs, AssocMap.getElem?_of_isPrefix hmore hset, hindexes⟩

/-- The lane written for a batch holds the fields of its records, and the field
set of a record names its fields. -/
theorem fields_lane {fieldSets : ParsedFieldSets} (hof : AttributesOf fields tables resolved filter)
    (h : encodeFields resolved tables filter = .ok (encoded, fieldSets)) :
    (∃ lane blobs, decodeSeekableRecordLane encoded fields.length = .ok lane ∧
      0 < lane.interval ∧ blobs.length = fields.length ∧
      LaneRecords lane (readFields tables.decoded) blobs
        (fields.map fun own => own.map metadataField)) ∧
    fieldSets.membershipFilter = filter ∧
    Forall₂ (fun own id => ∃ pairs, fieldSets.sets[id]? = some pairs ∧
      IndexesFields tables pairs own) fields fieldSets.setIds := by
  rcases bind_eq_ok_iff.mp h with ⟨⟨payload, checkpoints, final⟩, hlane, h⟩
  rcases bind_eq_ok_iff.mp h with ⟨bytes, hbytes, h⟩
  cases h
  rcases @encodeLaneFrom_eq_ok _ _ _ _ [] _ _ _ _ hlane with ⟨blobs, hblobs, rfl, rfl⟩
  rw [hof.ends] at hblobs
  rcases @encodeRecords_fields fields tables resolved {} final blobs hof.resolves hblobs with
    ⟨hrecords, _, ids, hids, hsets⟩
  refine ⟨?_, rfl, ?_⟩
  · have hopened := exists_lane_of_blobs hrecords rfl hbytes
    rwa [length_map] at hopened
  · simpa [hids] using hsets

end ShardLog.Structural
