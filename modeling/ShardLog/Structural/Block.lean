import ShardLog.Structural.Body
import ShardLog.Structural.Candidates

/-!
# Structural blocks

A block is a magic, a record count and seven sections: offsets, timestamps,
templates, bodies, attribute tables, fields and the embedded index.  The
timestamp codec is a parameter.

Main results:

- Theorem `decodeStructuralBlock_encode`: a block decodes to its records.
- Theorems `termCandidateOrdinals_encode` and `fieldCandidateOrdinals_encode`:
  the index built with a block misses no record.
- Theorem `decodeEmbeddedFrameIndex_encode`: the index read from a block is the
  index built with it.
-/

namespace ShardLog.Structural

open ByteReader Utf8 Runs Integers EmbeddedFrameIndex List

/-! ## The timestamp codec -/

/-- The codec of the timestamps. Decompression fills a buffer of the given length and reports how
many numbers it wrote and whether its input ended. -/
structure Pco where
  simpleCompress : List UInt64 → Except String Bytes
  simpleDecompressInto : Bytes → Nat → Except Unit (List UInt64 × Nat × Bool)
  length_buffer : ∀ bytes count result, simpleDecompressInto bytes count = .ok result →
    result.1.length = count

/-- Compressed numbers decompress to themselves. -/
structure Pco.Lawful (pco : Pco) : Prop where
  decompress_compress : ∀ numbers bytes, pco.simpleCompress numbers = .ok bytes →
    pco.simpleDecompressInto bytes numbers.length = .ok (numbers, numbers.length, true)

/-- A codec that stores eight bytes for each number. -/
def wordPco : Pco where
  simpleCompress numbers := .ok (numbers.flatMap fun number => leBytes 8 number.toNat)
  simpleDecompressInto bytes count := .ok ((List.range count).map fun index =>
    UInt64.ofNat (fromLeBytes (slice bytes ⟨8 * index, 8 * index + 8⟩)), count, true)
  length_buffer := by
    intro bytes count result h
    cases h
    simp

theorem wordPco_lawful : wordPco.Lawful where
  decompress_compress := by
    intro numbers bytes h
    cases h
    have hnumbers : ((range numbers.length).map fun index =>
        UInt64.ofNat (fromLeBytes (slice (numbers.flatMap fun number =>
          leBytes 8 number.toNat) ⟨8 * index, 8 * index + 8⟩))) = numbers := by
      apply ext_getElem
      · simp
      · intro index hleft hright
        rw [getElem_map, getElem_range, slice_flatMap_leBytes hright,
          fromLeBytes_leBytes (UInt64.toNat_lt _), UInt64.ofNat_toNat]
    simp only [wordPco, hnumbers]

/-! ## Offsets and timestamps -/

section Columns

variable {R : Type} [StructuralRecordView R]

/-- Differences of neighbouring offsets. -/
def offsetDeltas : UInt64 → List UInt64 → LogDbResult Bytes
  | _, [] => .ok []
  | previous, offset :: rest => do
      ensure (previous.toNat ≤ offset.toNat) (invalid "offsets must increase")
      let deltas ← offsetDeltas offset rest
      .ok (writeVarint (offset.toNat - previous.toNat) ++ deltas)

def encodeOffsets (records : List R) : LogDbResult Bytes :=
  match records.map structuralOffset with
  | [] => .ok []
  | first :: rest => do
      let deltas ← offsetDeltas first rest
      .ok (writeVarint first.toNat ++ deltas)

def encodeTimestamps (pco : Pco) (records : List R) : LogDbResult Bytes :=
  if records = [] then .ok []
  else
    match pco.simpleCompress (records.map structuralTimestampUnixNanos) with
    | .ok bytes => .ok bytes
    | .error e => .error (.compressionFailed ("Pco timestamp encoding failed: " ++ e))

end Columns

def readOffsetDeltas : Nat → Nat → BlockReader (List LogicalOffset)
  | 0, _ => pure []
  | count + 1, previous => do
      let delta ← readVarint
      let offset := previous + delta
      require (decide (offset < 2 ^ 64)) (invalid "offset delta overflow")
      let rest ← readOffsetDeltas count offset
      pure (UInt64.ofNat offset :: rest)

def decodeOffsets (encoded : Bytes) (recordCount : Nat) : LogDbResult (List LogicalOffset) :=
  match recordCount with
  | 0 => if encoded = [] then .ok [] else .error (invalid "offsets for empty block")
  | count + 1 =>
    readComponent (do
      let first ← readVarint
      let rest ← readOffsetDeltas count first
      pure (UInt64.ofNat first :: rest)) encoded

def decodeTimestamps (pco : Pco) (encoded : Bytes) (recordCount : Nat) :
    LogDbResult (List UInt64) :=
  if recordCount = 0 then
    if encoded = [] then .ok [] else .error (invalid "timestamps for empty block")
  else
    match pco.simpleDecompressInto encoded recordCount with
    | .error _ => .error (invalid "invalid Pco timestamp section")
    | .ok (timestamps, processed, finished) =>
      if processed = recordCount ∧ finished = true then .ok timestamps
      else .error (invalid "Pco timestamp count mismatch")

/-! ## Encoding a block -/

def structuralBlockMagic : Bytes := utf8 "SLOG".toList

/-- A block with the index that was built for it. -/
structure IndexedStructuralBlock where
  structural : Bytes
  index : EmbeddedFrameIndex
  embeddedIndexBytes : Nat

def encodeIndexedStructuralRecords {R : Type} [StructuralRecordView R] (tables : UnicodeTables)
    (pco : Pco) {records : List R} (placement : Placement records) :
    LogDbResult IndexedStructuralBlock := do
  let parsedMessages ← parseMessages tables records
  let selected ← selectTemplates parsedMessages
  let attributes ← buildAttributeTables placement
  let offsets ← encodeOffsets records
  let timestamps ← encodeTimestamps pco records
  let templates ← encodeTemplates selected.1
  let bodies ← encodeBodies parsedMessages selected.2
  let attributeTables ← encodeAttributeTables attributes.1
  let fields ← encodeFields attributes.2.1 attributes.1 attributes.2.2
  let index ← build tables parsedMessages selected.2 attributes.1 fields.2
  let embeddedIndex ← index.encode
  let count ← writeCount records.length
  let sections ← encodeAll appendBytes
    [offsets, timestamps, templates, bodies, attributeTables, fields.1, embeddedIndex]
  .ok ⟨structuralBlockMagic ++ (count ++ sections), index, embeddedIndex.length⟩

/-! ## Decoding a block -/

/-- The decoded sections of a block. -/
structure BlockParts where
  offsets : List LogicalOffset
  timestamps : List UInt64
  messages : List Str
  fields : List (List MetadataField)

/-- Decode one section. -/
def readSectionAs {α : Type} (decode : Bytes → LogDbResult α) : BlockReader α := do
  let bytes ← readSection
  ofResult (decode bytes)

/-- The sections in order. Full and selective decoder read bodies and fields in different ways and
check the record count differently. -/
def readBlockSections (pco : Pco) (validate : Nat → LogDbResult Unit)
    (decodeMessages : Bytes → List TemplateEntry → Nat → LogDbResult (List Str))
    (decodeFieldLists : Bytes → DecodedAttributeTables → Nat →
      LogDbResult (List (List MetadataField))) : BlockReader BlockParts := do
  expectMagic structuralBlockMagic (invalid "missing structural block magic")
  let recordCount ← readUsize
  ensureCountWithin recordCount "record count"
  ofResult (validate recordCount)
  let offsets ← readSectionAs fun bytes => decodeOffsets bytes recordCount
  let timestamps ← readSectionAs fun bytes => decodeTimestamps pco bytes recordCount
  let templates ← readSectionAs decodeTemplates
  let messages ← readSectionAs fun bytes => decodeMessages bytes templates recordCount
  let attributes ← readSectionAs decodeAttributeTables
  let fields ← readSectionAs fun bytes => decodeFieldLists bytes attributes recordCount
  let index ← readSectionAs decode
  require (index.recordCount == recordCount) (invalid "embedded index record count mismatch")
  pure ⟨offsets, timestamps, messages, fields⟩

/-- The sections of a whole block. -/
def readBlockParts (pco : Pco) (validate : Nat → LogDbResult Unit)
    (decodeMessages : Bytes → List TemplateEntry → Nat → LogDbResult (List Str))
    (decodeFieldLists : Bytes → DecodedAttributeTables → Nat →
      LogDbResult (List (List MetadataField))) : BlockReader BlockParts := do
  let parts ← readBlockSections pco validate decodeMessages decodeFieldLists
  let state ← input
  require state.rest.isEmpty (invalid "trailing bytes")
  pure parts

/-- One record for every offset, timestamp, message and field list. -/
def BlockParts.records (parts : BlockParts) : List DecodedStructuralRecord :=
  (((parts.offsets.zip parts.timestamps).zip parts.messages).zip parts.fields).map fun entry =>
    ⟨entry.1.1.1, entry.1.1.2, entry.1.2, entry.2⟩

/-- The full decoder accepts every record count. -/
def acceptRecordCount (_ : Nat) : LogDbResult Unit := .ok ()

def decodeStructuralBlock (pco : Pco) (encoded : Bytes) :
    LogDbResult (List DecodedStructuralRecord) := do
  let parts ← readAll (readBlockParts pco acceptRecordCount decodeBodies decodeFields) encoded
  .ok parts.records

/-- Record count and index section of a block. -/
def structuralSections (encoded : Bytes) : LogDbResult (Nat × Bytes) :=
  readComponent (do
    expectMagic structuralBlockMagic (invalid "missing structural block magic")
    let recordCount ← readUsize
    let _ ← readMany readSection 6
    let embeddedIndex ← readSection
    pure (recordCount, embeddedIndex)) encoded

def decodeEmbeddedFrameIndexSection (encoded : Bytes) (expectedRecordCount : Nat) :
    LogDbResult EmbeddedFrameIndex := do
  let index ← decode encoded
  ensure (index.recordCount = expectedRecordCount) (invalid "embedded index record count mismatch")
  .ok index

def decodeEmbeddedFrameIndex (encoded : Bytes) : LogDbResult EmbeddedFrameIndex := do
  let sections ← structuralSections encoded
  decodeEmbeddedFrameIndexSection sections.2 sections.1

/-! ## Offsets and timestamps read back -/

/-- Written offsets are read back. -/
theorem reads_readOffsetDeltas {offsets : List UInt64} {previous : UInt64} {bytes : Bytes}
    (h : offsetDeltas previous offsets = .ok bytes) :
    Reads (readOffsetDeltas offsets.length previous.toNat) bytes offsets ∧
      offsets.length ≤ bytes.length := by
  induction offsets generalizing previous bytes with
  | nil =>
    cases h
    exact ⟨reads_pure [], Nat.zero_le _⟩
  | cons offset offsets ih =>
    rcases bind_eq_ok_iff.mp h with ⟨_, hordered, h⟩
    rcases bind_eq_ok_iff.mp h with ⟨deltas, hdeltas, h⟩
    cases h
    have hle := ensure_eq_ok_iff.mp hordered
    have hlt := offset.toNat_lt
    have hsum : previous.toNat + (offset.toNat - previous.toNat) = offset.toNat := by omega
    obtain ⟨hreads, hsize⟩ := ih hdeltas
    constructor
    · refine (reads_readVarint (by omega)).bind ?_
      rw [hsum]
      refine Reads.require_bind (decide_eq_true hlt) ?_
      exact hreads.bind_pure (by rw [UInt64.ofNat_toNat])
    · have hfirst : 0 < (writeVarint (offset.toNat - previous.toNat)).length :=
        length_pos_iff.mpr (writeVarint_ne_nil _)
      rw [length_append, length_cons]
      omega

section Columns

variable {R : Type} [StructuralRecordView R] {records : List R} {bytes : Bytes}

/-- The offset section reads back. -/
theorem decodeOffsets_encodeOffsets (h : encodeOffsets records = .ok bytes) :
    decodeOffsets bytes records.length = .ok (records.map structuralOffset) ∧
      records.length ≤ bytes.length := by
  unfold encodeOffsets at h
  cases records with
  | nil =>
    cases h
    exact ⟨rfl, Nat.zero_le _⟩
  | cons record records =>
    rcases bind_eq_ok_iff.mp h with ⟨deltas, hdeltas, h⟩
    cases h
    have hrest := reads_readOffsetDeltas hdeltas
    rw [length_map] at hrest
    constructor
    · apply readComponent_of_reads
      refine (reads_readVarint (UInt64.toNat_lt _)).bind ?_
      exact hrest.1.bind_pure (by rw [UInt64.ofNat_toNat, map_cons])
    · have hfirst : 0 < (writeVarint (structuralOffset record).toNat).length :=
        length_pos_iff.mpr (writeVarint_ne_nil _)
      rw [length_append, length_cons]
      omega

/-- The timestamp section reads back. -/
theorem decodeTimestamps_encodeTimestamps {pco : Pco} (hpco : pco.Lawful)
    (h : encodeTimestamps pco records = .ok bytes) :
    decodeTimestamps pco bytes records.length = .ok (records.map structuralTimestampUnixNanos) := by
  unfold encodeTimestamps at h
  unfold decodeTimestamps
  by_cases hempty : records = []
  · rw [if_pos hempty] at h
    cases h
    simp [hempty]
  · have hlength : records.length ≠ 0 := fun hzero => hempty (eq_nil_of_length_eq_zero hzero)
    rw [if_neg hempty] at h
    rw [if_neg hlength]
    cases hcompress : pco.simpleCompress (records.map structuralTimestampUnixNanos) with
    | error e =>
      rw [hcompress] at h
      cases h
    | ok compressed =>
      rw [hcompress] at h
      cases h
      have hdecompress := hpco.decompress_compress _ _ hcompress
      rw [length_map] at hdecompress
      rw [hdecompress]
      simp

end Columns

/-! ## The pieces of an encoded block -/

/-- Everything the encoder computes on the way to a block. -/
structure BlockPieces where
  messages : ParsedMessages
  templates : List TemplateEntry
  templateIds : List (Option Nat)
  attributes : AttributeTables
  resolved : ResolvedFields
  filter : MembershipFilter
  fieldSets : ParsedFieldSets
  offsets : Bytes
  timestamps : Bytes
  templateBytes : Bytes
  bodies : Bytes
  attributeBytes : Bytes
  fieldBytes : Bytes
  indexBytes : Bytes

/-- The sections of a block, in order. -/
def BlockPieces.sections (pieces : BlockPieces) : List Bytes :=
  [pieces.offsets, pieces.timestamps, pieces.templateBytes, pieces.bodies, pieces.attributeBytes,
    pieces.fieldBytes, pieces.indexBytes]

section Encoded

variable {R : Type} [StructuralRecordView R] {tables : UnicodeTables} {pco : Pco}
  {records : List R} {placement : Placement records} {block : IndexedStructuralBlock}
  {pieces : BlockPieces}

/-- The pieces are those of this block. -/
structure BlockPieces.PiecesOf (tables : UnicodeTables) (pco : Pco) {records : List R}
    (placement : Placement records) (block : IndexedStructuralBlock) (pieces : BlockPieces) :
    Prop where
  messages : parseMessages tables records = .ok pieces.messages
  templates : selectTemplates pieces.messages = .ok (pieces.templates, pieces.templateIds)
  attributes : buildAttributeTables placement =
    .ok (pieces.attributes, pieces.resolved, pieces.filter)
  offsets : encodeOffsets records = .ok pieces.offsets
  timestamps : encodeTimestamps pco records = .ok pieces.timestamps
  templateBytes : encodeTemplates pieces.templates = .ok pieces.templateBytes
  bodies : encodeBodies pieces.messages pieces.templateIds = .ok pieces.bodies
  attributeBytes : encodeAttributeTables pieces.attributes = .ok pieces.attributeBytes
  fields : encodeFields pieces.resolved pieces.attributes pieces.filter =
    .ok (pieces.fieldBytes, pieces.fieldSets)
  index : build tables pieces.messages pieces.templateIds pieces.attributes
    pieces.fieldSets = .ok block.index
  indexBytes : block.index.encode = .ok pieces.indexBytes
  structural : ∃ count blobs, writeCount records.length = .ok count ∧
    List.Forall₂ (fun content blob => appendBytes content = .ok blob) pieces.sections blobs ∧
    block.structural = structuralBlockMagic ++ (count ++ blobs.flatten)

/-- What an encoded block consists of. -/
theorem exists_piecesOf (h : encodeIndexedStructuralRecords tables pco placement = .ok block) :
    ∃ pieces, BlockPieces.PiecesOf tables pco placement block pieces := by
  unfold encodeIndexedStructuralRecords at h
  simp only [bind_eq_ok_iff] at h
  obtain ⟨messages, hmessages, ⟨templates, templateIds⟩, htemplates, ⟨attributes, resolved, filter⟩,
    hattributes, offsets, hoffsets, timestamps, htimestamps, templateBytes, htemplateBytes, bodies,
    hbodies, attributeBytes, hattributeBytes, ⟨fieldBytes, fieldSets⟩, hfields, index, hindex,
    indexBytes, hindexBytes, count, hcount, sections, hsections, h⟩ := h
  cases h
  rcases encodeAll_eq_ok_iff.mp hsections with ⟨blobs, hblobs, rfl⟩
  exact ⟨⟨messages, templates, templateIds, attributes, resolved, filter, fieldSets, offsets,
    timestamps, templateBytes, bodies, attributeBytes, fieldBytes, indexBytes⟩, hmessages,
    htemplates, hattributes, hoffsets, htimestamps, htemplateBytes, hbodies, hattributeBytes,
    hfields, hindex, hindexBytes, count, blobs, hcount, hblobs, rfl⟩

/-! ## Sections of an encoded block -/

variable {fields : List (List (Str × Str))}

namespace BlockPieces.PiecesOf

variable (h : BlockPieces.PiecesOf tables pco placement block pieces)

include h

/-- The templates are decoded. -/
theorem decodeTemplates_eq :
    decodeTemplates pieces.templateBytes = .ok pieces.templates := by
  apply decodeTemplates_encodeTemplates _ h.templateBytes
  intro template htemplate
  rcases (selectTemplates_spec h.templates).2.1 template htemplate with ⟨layout, hlayout, rfl⟩
  rcases (parseMessages_spec h.messages).layouts layout hlayout with ⟨message, _, rfl⟩
  intro hnil
  have hlength := @length_literals_parseMessage tables message
  have hzero := congrArg List.length hnil
  rw [ParsedMessage.literalBytes, length_map, hlength] at hzero
  cases hzero

/-- The messages are decoded. -/
theorem decodeBodies_eq :
    decodeBodies pieces.bodies pieces.templates records.length =
      .ok (records.map structuralMessage) := by
  have hlayouts := parseMessages_spec h.messages
  have hmap : (records.map fun record => utf8 (structuralMessage record)) =
      (records.map structuralMessage).map utf8 := by
    rw [map_map]
    rfl
  rw [hmap] at hlayouts
  rcases bodies_lane hlayouts (selectTemplates_spec h.templates).1 h.bodies with
    ⟨lane, blobs, hlane, hinterval, hlength, hrecords⟩
  rw [length_map] at hlane hlength
  rw [decodeBodies_eq_readLane, hlane, ok_bind,
    readLane_eq_ok_iff (local_readBody pieces.templates) hinterval]
  exact ⟨blobs, hlength, hrecords⟩

/-- The fields of the records, as the attribute pass saw them. -/
theorem exists_fields :
    ∃ fields : List (List (Str × Str)), records.map visitedFields = fields.map (List.map .ok) ∧
      AttributesOf fields pieces.attributes pieces.resolved pieces.filter :=
  buildAttributeTables_spec h.attributes

/-- The fields are decoded. -/
theorem decodeFields_eq (hlength : fields.length = records.length)
    (hof : AttributesOf fields pieces.attributes pieces.resolved pieces.filter) :
    decodeFields pieces.fieldBytes pieces.attributes.decoded records.length =
      .ok (fields.map fun own => own.map metadataField) := by
  rcases (fields_lane hof h.fields).1 with ⟨lane, blobs, hlane, hinterval, hblobs, hrecords⟩
  rw [hlength] at hlane hblobs
  rw [decodeFields_eq_readLane, hlane, ok_bind,
    readLane_eq_ok_iff (local_readFields pieces.attributes.decoded) hinterval]
  exact ⟨blobs, hblobs, hrecords⟩

theorem recordCount_eq :
    pieces.messages.layoutIds.length = records.length := by
  have hids := (parseMessages_spec h.messages).ids.length_eq
  rw [length_map] at hids
  exact hids.symm

/-- The index section decodes to the index built with the block. -/
theorem decodeIndex_eq : decode pieces.indexBytes = .ok block.index ∧
      block.index.recordCount = records.length := by
  rcases build_spec h.index with ⟨fallbackLayoutId, builder, fieldSets, hindex⟩
  have hlength := hindex.wellFormed.layoutLength
  rw [length_map, h.recordCount_eq] at hlength
  exact ⟨decode_encode hindex.wellFormed h.indexBytes, hlength.symm⟩

end BlockPieces.PiecesOf

/-! ## Reading an encoded block -/

/-- A section is read as its content. -/
theorem reads_readSectionAs {α : Type} {decode : Bytes → LogDbResult α} {content blob : Bytes}
    {value : α} (hblob : appendBytes content = .ok blob) (hvalue : decode content = .ok value) :
    Reads (readSectionAs decode) blob value := by
  have hread : Reads readSection blob content := reads_readBytes hblob
  exact hread.bind_nil (reads_ofResult hvalue)

theorem forall₂_visitedFields (h : records.map visitedFields = fields.map (List.map .ok)) :
    Forall₂ (fun record own => visitedFields record = own.map .ok) records fields := by
  have heq : Forall₂ Eq (records.map visitedFields) (fields.map (List.map .ok)) := by
    rw [h, forall₂_eq_eq_eq]
  rwa [forall₂_map_left_iff, forall₂_map_right_iff] at heq

/-- The parts of an encoded batch assemble to its records. -/
theorem represents_records
    (h : Forall₂ (fun record own => visitedFields record = own.map .ok) records fields) :
    Forall₂ Represents records (BlockParts.records ⟨records.map structuralOffset,
      records.map structuralTimestampUnixNanos, records.map structuralMessage,
      fields.map fun own => own.map metadataField⟩) := by
  induction h with
  | nil => exact .nil
  | @cons record own records fields hhead _ ih =>
    refine .cons ⟨rfl, rfl, rfl, ?_⟩ ih
    rw [hhead, map_map]
    rfl

variable {validate : Nat → LogDbResult Unit}
  {decodeMessages : Bytes → List TemplateEntry → Nat → LogDbResult (List Str)}
  {decodeFieldLists : Bytes → DecodedAttributeTables → Nat → LogDbResult (List (List MetadataField))}

/-- Reading the sections of an encoded block, with whatever readers deliver its
messages and fields. -/
theorem reads_readBlockSections (hpco : pco.Lawful)
    (h : BlockPieces.PiecesOf tables pco placement block pieces)
    (hof : AttributesOf fields pieces.attributes pieces.resolved pieces.filter)
    {messages : List Str} {fieldLists : List (List MetadataField)}
    (hvalidate : validate records.length = .ok ())
    (hmessages : decodeMessages pieces.bodies pieces.templates records.length = .ok messages)
    (hfields : decodeFieldLists pieces.fieldBytes pieces.attributes.decoded records.length =
      .ok fieldLists) :
    Reads (readBlockSections pco validate decodeMessages decodeFieldLists) block.structural
      ⟨records.map structuralOffset, records.map structuralTimestampUnixNanos, messages,
        fieldLists⟩ := by
  rcases h.structural with ⟨count, blobs, hcount, hblobs, hstructural⟩
  have hoffsets := decodeOffsets_encodeOffsets h.offsets
  have hindex := h.decodeIndex_eq
  obtain _ | ⟨hoffsetBytes, _ | ⟨htimestamps, _ | ⟨htemplates, _ | ⟨hbodies,
    _ | ⟨hattributes, _ | ⟨hfieldBytes, _ | ⟨hindexBytes, _ | _⟩⟩⟩⟩⟩⟩⟩ := hblobs
  simp only [flatten_cons, flatten_nil, append_nil] at hstructural
  rw [hstructural]
  refine (reads_expectMagic _ _).bind ?_
  refine (reads_readUsize_of_writeCount hcount).bind ?_
  -- every record takes at least one byte of the offset section
  refine Reads.requireRemaining_bind (by grind [appendBytes_eq_ok_iff]) ?_
  refine Reads.ofResult_bind hvalidate ?_
  refine (reads_readSectionAs hoffsetBytes hoffsets.1).bind ?_
  refine (reads_readSectionAs htimestamps
    (decodeTimestamps_encodeTimestamps hpco h.timestamps)).bind ?_
  refine (reads_readSectionAs htemplates h.decodeTemplates_eq).bind ?_
  refine (reads_readSectionAs hbodies hmessages).bind ?_
  refine (reads_readSectionAs hattributes
    (decodeAttributeTables_encode hof h.attributeBytes)).bind ?_
  refine (reads_readSectionAs hfieldBytes hfields).bind ?_
  refine (reads_readSectionAs hindexBytes hindex.1).bind_nil ?_
  exact Reads.require_bind (by rw [hindex.2, beq_self_eq_true]) (reads_pure _)

/-- The trailing-byte check passes at the end of a block. -/
theorem readAll_readBlockParts {encoded : Bytes} {parts : BlockParts}
    (h : Reads (readBlockSections pco validate decodeMessages decodeFieldLists) encoded parts) :
    readAll (readBlockParts pco validate decodeMessages decodeFieldLists) encoded = .ok parts := by
  rw [readAll_eq_ok_iff]
  refine ⟨⟨encoded.length, []⟩, ?_⟩
  unfold readBlockParts
  rw [run_bind_ok h.run_start]
  rfl

end Encoded

/-! ## What a block says about its records -/

section Contents

variable {R : Type} [StructuralRecordView R] {tables : UnicodeTables} {pco : Pco}
  {records : List R} {placement : Placement records} {block : IndexedStructuralBlock}
  {pieces : BlockPieces}

section

variable (hpieces : pieces.PiecesOf tables pco placement block)

include hpieces

/-- The pieces decode to the records. -/
theorem BlockPieces.PiecesOf.exists_decoded (hpco : pco.Lawful) :
    ∃ decoded, decodeStructuralBlock pco block.structural = .ok decoded ∧
      Forall₂ Represents records decoded := by
  rcases hpieces.exists_fields with ⟨fields, hvisited, hof⟩
  have hown := forall₂_visitedFields hvisited
  have hvalidate : acceptRecordCount records.length = .ok () := rfl
  have hparts := reads_readBlockSections hpco hpieces hof hvalidate hpieces.decodeBodies_eq
    (hpieces.decodeFields_eq hown.length_eq.symm hof)
  refine ⟨_, ?_, represents_records hown⟩
  rw [decodeStructuralBlock, readAll_readBlockParts hparts, ok_bind]

/-- Term candidates cover the records with a term of the same normal form. -/
theorem BlockPieces.PiecesOf.termCandidates (query : Str) :
    ∃ ordinals, block.index.termCandidateOrdinals tables query = .ok ordinals ∧
      OrdinalsBelow records.length ordinals ∧
      ∀ (ordinal : Nat) (record : R), records[ordinal]? = some record →
        ∀ term ∈ scanMessageTerms tables (structuralMessage record),
          normalizeTerm tables query = normalizeTerm tables term → ordinal ∈ ordinals := by
  rcases build_spec hpieces.index with ⟨fallbackLayoutId, builder, fieldSets, hindex⟩
  rcases termCandidateOrdinals_spec hindex query with ⟨ordinals, hordinals, hbelow, hcomplete⟩
  rw [hpieces.decodeIndex_eq.2] at hbelow
  refine ⟨ordinals, hordinals, hbelow, ?_⟩
  intro ordinal record hrecord term hterm hnormal
  -- the layout of the record was parsed from its own message
  have hids := forall₂_map_left_iff.mp (parseMessages_spec hpieces.messages).ids
  rcases forall₂_getElem? hids hrecord with ⟨layoutId, hordinal, hlayout, _⟩
  rcases mem_map.mp hterm with ⟨range, hrange, hslice⟩
  have htext : (parseMessage tables (utf8 (structuralMessage record))).termText range =
      .ok term := by
    rw [← hslice, ParsedMessage.termText, message_parseMessage, ← utf8_strSlice tables hrange,
      fromUtf8_utf8]
  refine hcomplete ordinal _ _ range term hordinal hlayout ?_ htext hnormal
  rw [terms_parseMessage]
  exact hrange

/-- Field candidates cover the records with the field. -/
theorem BlockPieces.PiecesOf.fieldCandidates (key value : Str) :
    ∃ ordinals, block.index.fieldCandidateOrdinals key value = .ok ordinals ∧
      OrdinalsBelow records.length ordinals ∧
      ∀ (ordinal : Nat) (record : R), records[ordinal]? = some record →
        .ok (key, value) ∈ visitedFields record → ordinal ∈ ordinals := by
  rcases build_spec hpieces.index with ⟨fallbackLayoutId, builder, fieldSets, hindex⟩
  rcases hpieces.exists_fields with ⟨fields, hvisited, hof⟩
  rcases fields_lane hof hpieces.fields with ⟨_, hfilter, hsets⟩
  rcases fieldCandidateOrdinals_spec hindex hof hfilter hsets key value with
    ⟨ordinals, hordinals, hbelow, hcomplete⟩
  rw [hpieces.decodeIndex_eq.2] at hbelow
  refine ⟨ordinals, hordinals, hbelow, ?_⟩
  intro ordinal record hrecord hfield
  rcases forall₂_getElem? (forall₂_visitedFields hvisited) hrecord with ⟨own, hown, hvisit⟩
  refine hcomplete ordinal own hown ?_
  rw [hvisit] at hfield
  rcases mem_map.mp hfield with ⟨pair, hpair, heq⟩
  cases heq
  exact hpair

end

variable (h : encodeIndexedStructuralRecords tables pco placement = .ok block)

include h

/-- The index built with a block counts its records. -/
theorem recordCount_index : block.index.recordCount = records.length := by
  rcases exists_piecesOf h with ⟨pieces, hpieces⟩
  exact hpieces.decodeIndex_eq.2

/-- The encoded index reads back outside its block. -/
theorem decodeEmbeddedFrameIndexSection_encode {bytes : Bytes}
    (hbytes : block.index.encode = .ok bytes) :
    decodeEmbeddedFrameIndexSection bytes records.length = .ok block.index := by
  rcases exists_piecesOf h with ⟨pieces, hpieces⟩
  have hindex := hpieces.decodeIndex_eq
  have hsame := hpieces.indexBytes
  rw [hbytes] at hsame
  cases hsame
  rw [decodeEmbeddedFrameIndexSection, hindex.1, ok_bind, ensure_of_true hindex.2, ok_bind]

end Contents

/-! ## Round trip and candidates -/

/-- Two records of one template; they share a field, and the second repeats a
key. -/
def sampleRecords : List DecodedStructuralRecord :=
  [⟨3, 1700, "GET 17".toList, [⟨"level".toList, "info".toList⟩]⟩, ⟨4, 1701, "GET 18".toList,
      [⟨"level".toList, "info".toList⟩, ⟨"level".toList, "warn".toList⟩]⟩]

theorem exists_sampleBlock : ∃ block, encodeIndexedStructuralRecords latinTables wordPco
    (Placement.byContent sampleRecords) = .ok block :=
  exists_of_isOk (by decide +kernel)

section Results

variable {R : Type} [StructuralRecordView R]

/-- A block decodes to its records in order, with offset, timestamp, message and fields. -/
theorem decodeStructuralBlock_encode {tables : UnicodeTables} {pco : Pco} (hpco : pco.Lawful)
    {records : List R} (placement : Placement records) {block : IndexedStructuralBlock}
    (h : encodeIndexedStructuralRecords tables pco placement = .ok block) :
    ∃ decoded, decodeStructuralBlock pco block.structural = .ok decoded ∧
      List.Forall₂ Represents records decoded := by
  rcases exists_piecesOf h with ⟨pieces, hpieces⟩
  exact hpieces.exists_decoded hpco

theorem decodeStructuralBlock_sampleRecords : ∃ block decoded,
    encodeIndexedStructuralRecords latinTables wordPco (Placement.byContent sampleRecords) =
      .ok block ∧
    decodeStructuralBlock wordPco block.structural = .ok decoded ∧
    List.Forall₂ Represents sampleRecords decoded := by
  rcases exists_sampleBlock with ⟨block, hblock⟩
  rcases decodeStructuralBlock_encode wordPco_lawful _ hblock with ⟨decoded, hdecoded, hrecords⟩
  exact ⟨block, decoded, hblock, hdecoded, hrecords⟩

/-- The index of a block lists every record that has a term of the same normal form, in increasing
order. -/
theorem termCandidateOrdinals_encode {tables : UnicodeTables} {pco : Pco} {records : List R}
    (placement : Placement records) {block : IndexedStructuralBlock}
    (h : encodeIndexedStructuralRecords tables pco placement = .ok block) (query : Str) :
    ∃ ordinals, block.index.termCandidateOrdinals tables query = .ok ordinals ∧
      ordinals.Pairwise (· < ·) ∧ (∀ ordinal ∈ ordinals, ordinal < records.length) ∧
      ∀ (ordinal : Nat) (record : R), records[ordinal]? = some record →
        ∀ term ∈ scanMessageTerms tables (structuralMessage record),
          normalizeTerm tables query = normalizeTerm tables term → ordinal ∈ ordinals := by
  rcases exists_piecesOf h with ⟨pieces, hpieces⟩
  rcases hpieces.termCandidates query with ⟨ordinals, hordinals, hbelow, hcomplete⟩
  exact ⟨ordinals, hordinals, hbelow.1, hbelow.2, hcomplete⟩

theorem termCandidateOrdinals_sampleRecords : ∃ block ordinals,
    encodeIndexedStructuralRecords latinTables wordPco (Placement.byContent sampleRecords) =
      .ok block ∧
    block.index.termCandidateOrdinals latinTables "get".toList = .ok ordinals ∧ 1 ∈ ordinals := by
  rcases exists_sampleBlock with ⟨block, hblock⟩
  rcases termCandidateOrdinals_encode _ hblock "get".toList with
    ⟨ordinals, hordinals, _, _, hcomplete⟩
  exact ⟨block, ordinals, hblock, hordinals,
    hcomplete 1 _ rfl "GET".toList (by decide +kernel) (by decide +kernel)⟩

/-- The index of a block lists every record that has a field, in increasing order. -/
theorem fieldCandidateOrdinals_encode {tables : UnicodeTables} {pco : Pco} {records : List R}
    (placement : Placement records) {block : IndexedStructuralBlock}
    (h : encodeIndexedStructuralRecords tables pco placement = .ok block) (key value : Str) :
    ∃ ordinals, block.index.fieldCandidateOrdinals key value = .ok ordinals ∧
      ordinals.Pairwise (· < ·) ∧ (∀ ordinal ∈ ordinals, ordinal < records.length) ∧
      ∀ (ordinal : Nat) (record : R), records[ordinal]? = some record →
        .ok (key, value) ∈ visitedFields record → ordinal ∈ ordinals := by
  rcases exists_piecesOf h with ⟨pieces, hpieces⟩
  rcases hpieces.fieldCandidates key value with ⟨ordinals, hordinals, hbelow, hcomplete⟩
  exact ⟨ordinals, hordinals, hbelow.1, hbelow.2, hcomplete⟩

theorem fieldCandidateOrdinals_sampleRecords : ∃ block ordinals,
    encodeIndexedStructuralRecords latinTables wordPco (Placement.byContent sampleRecords) =
      .ok block ∧
    block.index.fieldCandidateOrdinals "level".toList "warn".toList = .ok ordinals ∧
    1 ∈ ordinals := by
  rcases exists_sampleBlock with ⟨block, hblock⟩
  rcases fieldCandidateOrdinals_encode _ hblock "level".toList "warn".toList with
    ⟨ordinals, hordinals, _, _, hcomplete⟩
  exact ⟨block, ordinals, hblock, hordinals, hcomplete 1 _ rfl (by decide +kernel)⟩

/-- The index read from a block is the index built with it. -/
theorem decodeEmbeddedFrameIndex_encode {tables : UnicodeTables} {pco : Pco} {records : List R}
    {placement : Placement records} {block : IndexedStructuralBlock}
    (h : encodeIndexedStructuralRecords tables pco placement = .ok block) :
    decodeEmbeddedFrameIndex block.structural = .ok block.index := by
  rcases exists_piecesOf h with ⟨pieces, hpieces⟩
  rcases hpieces.structural with ⟨count, blobs, hcount, hblobs, hstructural⟩
  have hindex := hpieces.decodeIndex_eq
  have hsections : Forall₂ (Reads readSection) blobs pieces.sections :=
    (hblobs.imp fun _ _ hblob => reads_readBytes hblob).flip
  have hread : structuralSections block.structural = .ok (records.length, pieces.indexBytes) := by
    -- the index is the section after the first six
    have hbefore := forall₂_take_append blobs (pieces.sections.take 6) [pieces.indexBytes] hsections
    have hlast := forall₂_drop_append blobs (pieces.sections.take 6) [pieces.indexBytes] hsections
    rcases forall₂_cons_right_iff.mp hlast with ⟨blob, rest, hblob, hrest, hdrop⟩
    cases hrest
    have hflatten : blobs.flatten = (blobs.take (pieces.sections.take 6).length).flatten ++ blob := by
      conv_lhs => rw [← take_append_drop (pieces.sections.take 6).length blobs, hdrop]
      simp
    rw [hstructural, hflatten]
    apply readComponent_of_reads
    refine (reads_expectMagic _ _).bind ?_
    refine (reads_readUsize_of_writeCount hcount).bind ?_
    refine (Reads.many hbefore).bind ?_
    exact hblob.bind_pure rfl
  rw [decodeEmbeddedFrameIndex, hread, ok_bind, decodeEmbeddedFrameIndexSection, hindex.1, ok_bind,
    ensure_of_true hindex.2, ok_bind]

end Results

end ShardLog.Structural
