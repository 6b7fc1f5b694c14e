import ShardLog.Persistent.Candidates

/-!
# Persistent index - Encoding of the directory

The directory is stored block by block: the metadata, the trigram filter, and the
postings the merged maps hold for the block, sorted by key.  Decoding collects the
blocks again and merges them.

Main results:

- Theorem `encode_decode_same`: directories keep their contents through the codec.
-/

namespace ShardLog.Persistent

open List hiding erase get insert

open ByteReader Utf8 AssocMap Sorted
open Structural (BlockReader invalid writeVarint writeCount writeCount_eq_ok_iff takeExactly
  reads_takeExactly run_takeExactly_eq_ok_iff expectMagic reads_expectMagic appendBytes
  appendBytes_eq_ok_iff appendBytes_ne_nil)

/-! ## Keys -/

/-- How a key of a posting map is stored. -/
structure KeyCodec (κ : Type) where
  encode : κ → LogDbResult Bytes
  read : BlockReader κ
  reads : ∀ {key : κ} {bytes : Bytes}, encode key = .ok bytes → Reads read bytes key
  ne_nil : ∀ {key : κ} {bytes : Bytes}, encode key = .ok bytes → bytes ≠ []
  encodes : Yields read fun key => ∃ bytes, encode key = .ok bytes

def appendText (text : Str) : LogDbResult Bytes := appendBytes (utf8 text)

/-- Text that is read can be written. -/
theorem yields_readQueryText : Yields readQueryText fun text =>
    ∃ bytes, appendText text = .ok bytes := by
  intro s text t h
  obtain ⟨bytes, _, hbytes, h⟩ := run_bind_eq_ok_iff.mp h
  obtain ⟨length, _, hlength, hbytes⟩ := run_bind_eq_ok_iff.mp hbytes
  obtain ⟨hle, htake, _⟩ := run_takeExactly_eq_ok_iff.mp hbytes
  obtain ⟨htext, _⟩ := run_ofResult_eq_ok_iff.mp h
  have hdecoded : utf8 text = bytes := by
    unfold decodeQueryText at htext
    split at htext
    · grind [fromUtf8_eq_some_iff]
    · cases htext
  refine ⟨_, appendBytes_eq_ok_iff.mpr ⟨rfl, ?_⟩⟩
  rw [hdecoded, htake, length_take, min_eq_left hle]
  exact lt_of_readQueryVarint hlength

/-- Terms are single texts. -/
def termCodec : KeyCodec Str where
  encode := appendText
  read := readQueryText
  reads := reads_readQueryText
  ne_nil := appendBytes_ne_nil
  encodes := yields_readQueryText

def appendField (field : Str × Str) : LogDbResult Bytes := do
  let key ← appendText field.1
  let value ← appendText field.2
  .ok (key ++ value)

def readQueryField : BlockReader (Str × Str) := do
  let key ← readQueryText
  let value ← readQueryText
  pure (key, value)

variable {bytes : Bytes} {width : Nat} {entry : BlockEntry} {directory : PersistentQueryIndex}
  {tables : UnicodeTables}

theorem appendField_eq_ok_iff {field : Str × Str} :
    appendField field = .ok bytes ↔
      ∃ key value, appendText field.1 = .ok key ∧ appendText field.2 = .ok value ∧
        bytes = key ++ value := by
  unfold appendField
  simp only [bind_eq_ok_iff, Except.ok.injEq]
  constructor
  · grind
  · grind

/-- Fields are a key and a value. -/
def fieldCodec : KeyCodec (Str × Str) where
  encode := appendField
  read := readQueryField
  reads := by
    intro field bytes h
    obtain ⟨key, value, hkey, hvalue, rfl⟩ := appendField_eq_ok_iff.mp h
    exact (reads_readQueryText hkey).bind ((reads_readQueryText hvalue).bind_pure rfl)
  ne_nil := by
    intro field bytes h
    obtain ⟨key, value, hkey, _, rfl⟩ := appendField_eq_ok_iff.mp h
    exact List.append_ne_nil_of_left_ne_nil (appendBytes_ne_nil hkey) value
  encodes := by
    refine yields_readQueryText.bind fun key hkey => yields_readQueryText.bind fun value hvalue =>
      yields_pure ?_
    obtain ⟨keyBytes, hkey⟩ := hkey
    obtain ⟨valueBytes, hvalue⟩ := hvalue
    exact ⟨_, appendField_eq_ok_iff.mpr ⟨keyBytes, valueBytes, hkey, hvalue, rfl⟩⟩

/-! ## The postings of one block -/

section Postings

variable {κ : Type} (codec : KeyCodec κ)

def encodeEntry (entry : κ × PostingList) : LogDbResult Bytes := do
  let key ← codec.encode entry.1
  let posting ← encodePosting entry.2
  .ok (key ++ posting)

def encodePostings (entries : List (κ × PostingList)) : LogDbResult Bytes := do
  let count ← writeCount entries.length
  let body ← encodeAll (encodeEntry codec) entries
  .ok (count ++ body)

variable [DecidableEq κ]

/-- Read entries into a map that may hold no key twice. -/
def readEntries (recordCount : Nat) (duplicate : String) :
    Nat → List (κ × PostingList) → BlockReader (List (κ × PostingList))
  | 0, entries => pure entries
  | count + 1, entries => do
      let key ← codec.read
      let posting ← decodePosting recordCount
      require (get entries key).isNone (invalid duplicate)
      readEntries recordCount duplicate count (insert entries key posting)

def readPostings (recordCount : Nat) (duplicate : String) :
    BlockReader (List (κ × PostingList)) := do
  let count ← readQueryUsize
  ensureQueryCount count
  readEntries codec recordCount duplicate count []

/-- The keys and their number can be stored. -/
structure Writable (entries : List (κ × PostingList)) : Prop where
  few : entries.length < 2 ^ 64
  keys : ∀ entry ∈ entries, ∃ bytes, codec.encode entry.1 = .ok bytes

variable {codec} {recordCount : Nat} {duplicate : String}

omit [DecidableEq κ] in
variable {entries : List (κ × PostingList)}

omit [DecidableEq κ] in
variable {other : List (κ × PostingList)}

/-- The order does not matter. -/
theorem PostingsFit.of_perm (h : PostingsFit recordCount entries) (hperm : other.Perm entries) :
    PostingsFit recordCount other where
  nodup := (hperm.map Prod.fst).nodup_iff.mpr h.nodup
  fits := fun entry hentry => h.fits entry (hperm.mem_iff.mp hentry)

omit [DecidableEq κ] in
theorem Writable.of_perm (h : Writable codec entries) (hperm : other.Perm entries) :
    Writable codec other where
  few := hperm.length_eq ▸ h.few
  keys := fun entry hentry => h.keys entry (hperm.mem_iff.mp hentry)

omit [DecidableEq κ] in
theorem encodeEntry_eq_ok_iff {entry : κ × PostingList} {bytes : Bytes} :
    encodeEntry codec entry = .ok bytes ↔
      ∃ key posting, codec.encode entry.1 = .ok key ∧ encodePosting entry.2 = .ok posting ∧
        bytes = key ++ posting := by
  unfold encodeEntry
  simp only [bind_eq_ok_iff, Except.ok.injEq]
  constructor
  · grind
  · grind

variable {done : List (κ × PostingList)}

section

variable (hsmall : recordCount < 2 ^ 32)

include hsmall

/-- Encoded entries are read into the map one after another. -/
theorem reads_readEntries {body : Bytes} (hfit : PostingsFit recordCount (done ++ entries))
    (hbody : encodeAll (encodeEntry codec) entries = .ok body) :
    Reads (readEntries codec recordCount duplicate entries.length done) body (done ++ entries) := by
  induction entries generalizing done body with
  | nil =>
    obtain ⟨blobs, hblobs, rfl⟩ := encodeAll_eq_ok_iff.mp hbody
    cases hblobs
    rw [append_nil]
    exact reads_pure done
  | cons entry entries ih =>
    obtain ⟨blobs, hblobs, rfl⟩ := encodeAll_eq_ok_iff.mp hbody
    obtain ⟨blob, rest, hblob, hrest, rfl⟩ := forall₂_cons_left_iff.mp hblobs
    obtain ⟨key, posting, hkey, hposting, rfl⟩ := encodeEntry_eq_ok_iff.mp hblob
    have hfits := hfit.fits entry (mem_append_right _ mem_cons_self)
    have hnew : get done entry.1 = none := by
      cases hget : get done entry.1 with
      | none => rfl
      | some other =>
        have hnodup := hfit.nodup
        rw [map_append, map_cons] at hnodup
        have hmem := mem_map_of_mem (f := Prod.fst) (mem_of_get hget)
        exact absurd rfl ((nodup_append.mp hnodup).2.2 _ hmem _ mem_cons_self)
    have hmoved : done ++ entry :: entries = done ++ [entry] ++ entries := by simp
    rw [hmoved] at hfit ⊢
    rw [flatten_cons, append_assoc]
    refine (codec.reads hkey).bind ((reads_decodePosting hsmall hfits hposting).bind ?_)
    refine Reads.require_bind (by rw [hnew]; rfl) ?_
    rw [insert_of_get_eq_none _ hnew]
    exact ih hfit (encodeAll_eq_ok_iff.mpr ⟨rest, hrest, rfl⟩)

/-- Encoded postings read back in order. -/
theorem reads_readPostings (hfit : PostingsFit recordCount entries) {bytes : Bytes}
    (hbytes : encodePostings codec entries = .ok bytes) :
    Reads (readPostings codec recordCount duplicate) bytes entries := by
  obtain ⟨count, hcount, h⟩ := bind_eq_ok_iff.mp hbytes
  obtain ⟨body, hbody, h⟩ := bind_eq_ok_iff.mp h
  cases h
  obtain ⟨rfl, hlt⟩ := writeCount_eq_ok_iff.mp hcount
  refine (reads_readQueryVarint hlt).bind ?_
  refine Reads.requireRemaining_bind (length_le_of_encodeAll ?_ hbody) ?_
  · intro entry _ blob hblob
    obtain ⟨key, posting, hkey, _, rfl⟩ := encodeEntry_eq_ok_iff.mp hblob
    exact append_ne_nil_of_left_ne_nil (codec.ne_nil hkey) posting
  · exact reads_readEntries hsmall (nil_append entries ▸ hfit) hbody

/-- Entries that are read extend the map by new keys. -/
theorem readEntries_spec {count : Nat} (hfit : PostingsFit recordCount done)
    (hkeys : ∀ entry ∈ done, ∃ bytes, codec.encode entry.1 = .ok bytes) :
    Yields (readEntries codec recordCount duplicate count done) fun entries =>
      PostingsFit recordCount entries ∧ entries.length = done.length + count ∧
        ∀ entry ∈ entries, ∃ bytes, codec.encode entry.1 = .ok bytes := by
  induction count generalizing done with
  | zero => exact yields_pure ⟨hfit, rfl, hkeys⟩
  | succ count ih =>
    have hposting : Yields (decodePosting recordCount) fun posting => posting.Fits recordCount :=
      fun _ _ _ h => fits_of_decodePosting hsmall h
    refine codec.encodes.bind fun key hkey => hposting.bind fun posting hposting =>
      Yields.require fun hnew => ?_
    have hinsert := insert_of_get_eq_none posting (Option.isNone_iff_eq_none.mp hnew)
    have hgrown : PostingsFit recordCount (insert done key posting) := by
      refine ⟨nodup_keys_insert hfit.nodup key posting, ?_⟩
      rw [hinsert]
      exact forall_mem_append.mpr ⟨hfit.fits, forall_mem_singleton.mpr hposting⟩
    rw [hinsert] at hgrown ⊢
    intro s entries t h
    obtain ⟨hall, hlength, hencoded⟩ := ih hgrown
      (forall_mem_append.mpr ⟨hkeys, forall_mem_singleton.mpr hkey⟩) s entries t h
    rw [length_append, length_singleton] at hlength
    exact ⟨hall, by omega, hencoded⟩

/-- Postings that are read fit and can be written. -/
theorem yields_readPostings :
    Yields (readPostings codec recordCount duplicate) fun entries =>
      PostingsFit recordCount entries ∧ Writable codec entries := by
  intro s entries t h
  obtain ⟨count, _, hcount, h⟩ := run_bind_eq_ok_iff.mp h
  obtain ⟨_, _, _, h⟩ := run_bind_eq_ok_iff.mp h
  have hnone : PostingsFit recordCount ([] : List (κ × PostingList)) := ⟨nodup_nil, by simp⟩
  obtain ⟨hfit, hlength, hkeys⟩ := readEntries_spec hsmall hnone (by simp) _ _ _ h
  refine ⟨hfit, ?_, hkeys⟩
  rw [hlength, length_nil, Nat.zero_add]
  exact lt_of_readQueryVarint hcount

end

omit [DecidableEq κ] in
/-- Every map of posting lists with keys that can be stored can be stored. -/
theorem exists_encodePostings (hsmall : recordCount < 2 ^ 32)
    (hfit : PostingsFit recordCount entries) (hwritable : Writable codec entries) :
    ∃ bytes, encodePostings codec entries = .ok bytes := by
  have hentry : ∀ entry ∈ entries, ∃ bytes, encodeEntry codec entry = .ok bytes := by
    intro entry hentry
    obtain ⟨key, hkey⟩ := hwritable.keys entry hentry
    obtain ⟨posting, hposting⟩ := exists_encodePosting hsmall (hfit.fits entry hentry)
    exact ⟨_, encodeEntry_eq_ok_iff.mpr ⟨key, posting, hkey, hposting, rfl⟩⟩
  obtain ⟨body, hbody⟩ := exists_encodeAll hentry
  have hcount : writeCount entries.length = .ok (writeVarint entries.length) :=
    writeCount_eq_ok_iff.mpr ⟨rfl, hwritable.few⟩
  exact ⟨_, by rw [encodePostings, hcount, ok_bind, hbody, ok_bind]⟩

end Postings

/-! ## Filters and metadata -/

def messageTrigramFilterBytes : Nat := messageTrigramFilterWords * 8

namespace MessageTrigramFilter

def toBytes (filter : MessageTrigramFilter) : Bytes :=
  filter.words.flatMap fun word => Integers.leBytes 8 word.toNat

def fromBytes (encoded : Bytes) : LogDbResult MessageTrigramFilter :=
  if encoded.length ≠ messageTrigramFilterBytes then
    .error (invalid "invalid message trigram filter length")
  else
    .ok ⟨(List.range messageTrigramFilterWords).map fun index =>
      littleEndianU64 ((encoded.drop (index * 8)).take 8), by simp⟩

end MessageTrigramFilter

/-- Fields of a fixed width. -/
def readFixed (overflow truncated : String) (width : Nat) : BlockReader Nat := do
  let bytes ← takeExactly overflow truncated width
  pure (Integers.fromLeBytes bytes)

def readFilter : BlockReader MessageTrigramFilter := do
  let bytes ← takeExactly "message trigram filter overflow" "truncated message trigram filter"
    messageTrigramFilterBytes
  ofResult (MessageTrigramFilter.fromBytes bytes)

def encodeMetadata (metadata : QueryBlockMetadata) : Bytes :=
  writeVarint metadata.blockOrdinal ++ (Integers.leBytes 16 metadata.topicPartition.topic ++
    (Integers.leBytes 4 metadata.topicPartition.partition ++
    (writeVarint metadata.firstOffset.toNat ++ (writeVarint metadata.lastOffset.toNat ++
    (writeVarint metadata.minTimestampUnixNanos.toNat ++
    (writeVarint metadata.maxTimestampUnixNanos.toNat ++
    writeVarint metadata.recordCount))))))

def readQueryU64 : BlockReader UInt64 := do
  let value ← readQueryVarint
  pure (UInt64.ofNat value)

def readMetadata : BlockReader QueryBlockMetadata := do
  let blockOrdinal ← readQueryU32
  let topic ← readFixed "query topic overflow" "truncated query topic" 16
  let partition ← readFixed "query partition overflow" "truncated query partition" 4
  let firstOffset ← readQueryU64
  let lastOffset ← readQueryU64
  let minTimestampUnixNanos ← readQueryU64
  let maxTimestampUnixNanos ← readQueryU64
  let recordCount ← readQueryU32
  pure
    { blockOrdinal := Fin.ofNat (2 ^ 32) blockOrdinal
      topicPartition := ⟨topic, partition⟩
      firstOffset, lastOffset, minTimestampUnixNanos, maxTimestampUnixNanos, recordCount }

/-- Pieces of one width stand at the multiples of the width. -/
theorem take_drop_flatMap {α β : Type} {piece : α → List β}
    (hwidth : ∀ item, (piece item).length = width) (items : List α) (index : Nat) :
    ((items.flatMap piece).drop (index * width)).take width = (items[index]?.map piece).getD [] := by
  induction items generalizing index with
  | nil => simp
  | cons item items ih =>
    cases index with
    | zero => grind
    | succ index =>
      rw [flatMap_cons, Nat.succ_mul, Nat.add_comm, ← drop_drop, ← hwidth item,
        drop_left, hwidth item, ih]
      simp

theorem MessageTrigramFilter.length_toBytes (filter : MessageTrigramFilter) :
    filter.toBytes.length = messageTrigramFilterBytes := by
  simp [toBytes, length_flatMap, Integers.length_leBytes, filter.length_words,
    messageTrigramFilterBytes]

theorem littleEndianU64_leBytes (word : UInt64) :
    littleEndianU64 (Integers.leBytes 8 word.toNat) = word := by
  have hword : word.toNat < 256 ^ 8 := word.toNat_lt
  rw [littleEndianU64, Integers.fromLeBytes_leBytes hword, UInt64.ofNat_toNat]

/-- A filter is read back. -/
theorem MessageTrigramFilter.fromBytes_toBytes (filter : MessageTrigramFilter) :
    fromBytes filter.toBytes = .ok filter := by
  obtain ⟨words, hwords⟩ := filter
  have hlength := length_toBytes ⟨words, hwords⟩
  have hread : ((range messageTrigramFilterWords).map fun index =>
      littleEndianU64 (((toBytes ⟨words, hwords⟩).drop (index * 8)).take 8)) = words := by
    apply ext_getElem
    · simp [hwords]
    · intro index hindex hlt
      rw [getElem_map, getElem_range, toBytes,
        take_drop_flatMap fun word : UInt64 => Integers.length_leBytes 8 word.toNat,
        getElem?_eq_getElem hlt]
      exact littleEndianU64_leBytes _
  rw [fromBytes, if_neg (not_not.mpr hlength)]
  congr

theorem reads_readFilter (filter : MessageTrigramFilter) :
    Reads readFilter filter.toBytes filter := by
  have htake := reads_takeExactly "message trigram filter overflow"
    "truncated message trigram filter" filter.toBytes
  rw [filter.length_toBytes] at htake
  exact htake.bind_nil (reads_ofResult filter.fromBytes_toBytes)

theorem reads_readFixed {overflow truncated : String} {value : Nat} (h : value < 256 ^ width) :
    Reads (readFixed overflow truncated width) (Integers.leBytes width value) value := by
  have htake := reads_takeExactly overflow truncated (Integers.leBytes width value)
  rw [Integers.length_leBytes] at htake
  exact htake.bind_pure (by rw [Integers.fromLeBytes_leBytes h])

theorem yields_readFixed {overflow truncated : String} :
    Yields (readFixed overflow truncated width) fun value => value < 256 ^ width := by
  intro s value t h
  obtain ⟨bytes, _, hbytes, h⟩ := run_bind_eq_ok_iff.mp h
  obtain ⟨hle, htake, _⟩ := run_takeExactly_eq_ok_iff.mp hbytes
  obtain ⟨rfl, _⟩ := run_pure_eq_ok_iff.mp h
  have hlength : bytes.length = width := by rw [htake, length_take, min_eq_left hle]
  exact hlength ▸ Integers.fromLeBytes_lt bytes

theorem reads_readQueryU64 (value : UInt64) :
    Reads readQueryU64 (writeVarint value.toNat) value :=
  (reads_readQueryVarint value.toNat_lt).bind_pure (by rw [UInt64.ofNat_toNat])

/-- Metadata is read back. -/
theorem reads_readMetadata {metadata : QueryBlockMetadata}
    (hrange : InRange metadata.topicPartition) (hcount : metadata.recordCount < 2 ^ 32) :
    Reads readMetadata (encodeMetadata metadata) metadata := by
  refine (reads_readQueryU32 metadata.blockOrdinal.isLt).bind ?_
  refine (reads_readFixed (by simpa using hrange.topic)).bind ?_
  refine (reads_readFixed (by simpa using hrange.partition)).bind ?_
  refine (reads_readQueryU64 _).bind ((reads_readQueryU64 _).bind ?_)
  refine (reads_readQueryU64 _).bind ((reads_readQueryU64 _).bind ?_)
  refine (reads_readQueryU32 hcount).bind_pure ?_
  simp

/-- Metadata that is read is in range. -/
theorem yields_readMetadata : Yields readMetadata fun metadata =>
    InRange metadata.topicPartition ∧ metadata.recordCount < 2 ^ 32 := by
  refine Yields.bind_any fun ordinal => yields_readFixed.bind fun topic htopic =>
    yields_readFixed.bind fun partition hpartition => Yields.bind_any fun _ =>
    Yields.bind_any fun _ => Yields.bind_any fun _ => Yields.bind_any fun _ => ?_
  have hcount : Yields readQueryU32 fun count => count < 2 ^ 32 :=
    fun _ _ _ h => lt_of_readQueryU32 h
  exact hcount.bind fun count hlt =>
    yields_pure ⟨⟨by simpa using htopic, by simpa using hpartition⟩, hlt⟩

/-! ## Blocks -/

def encodeBlock (entry : QueryBlockMetadata × BlockQueryIndex) : LogDbResult Bytes := do
  let terms ← encodePostings termCodec entry.2.termPostings
  let fields ← encodePostings fieldCodec entry.2.fieldPostings
  .ok (encodeMetadata entry.1 ++ (entry.2.messageTrigrams.toBytes ++ (terms ++ fields)))

def readBlock : BlockReader (QueryBlockMetadata × BlockQueryIndex) := do
  let metadata ← readMetadata
  let messageTrigrams ← readFilter
  let termPostings ← readPostings termCodec metadata.recordCount "duplicate indexed term"
  let fieldPostings ← readPostings fieldCodec metadata.recordCount "duplicate indexed field"
  pure (metadata, ⟨metadata.recordCount, messageTrigrams, termPostings, fieldPostings⟩)

/-- A block the codec can represent. -/
structure BlockFits (entry : QueryBlockMetadata × BlockQueryIndex) : Prop where
  inRange : InRange entry.1.topicPartition
  recordCount : entry.2.recordCount = entry.1.recordCount
  recordCount_lt : entry.1.recordCount < 2 ^ 32
  terms : PostingsFit entry.1.recordCount entry.2.termPostings
  fields : PostingsFit entry.1.recordCount entry.2.fieldPostings

/-- A block whose keys can be stored. -/
structure BlockWritable (entry : QueryBlockMetadata × BlockQueryIndex) : Prop where
  terms : Writable termCodec entry.2.termPostings
  fields : Writable fieldCodec entry.2.fieldPostings

/-- What an encoded block consists of. -/
theorem encodeBlock_eq_ok_iff :
    encodeBlock entry = .ok bytes ↔
      ∃ terms fields, encodePostings termCodec entry.2.termPostings = .ok terms ∧
        encodePostings fieldCodec entry.2.fieldPostings = .ok fields ∧
        bytes = encodeMetadata entry.1 ++
          (entry.2.messageTrigrams.toBytes ++ (terms ++ fields)) := by
  unfold encodeBlock
  simp only [bind_eq_ok_iff, Except.ok.injEq]
  constructor
  · grind
  · grind

/-- An encoded block reads back unchanged. -/
theorem reads_readBlock (hfits : BlockFits entry) (hbytes : encodeBlock entry = .ok bytes) :
    Reads readBlock bytes entry := by
  obtain ⟨terms, fields, hterms, hfields, rfl⟩ := encodeBlock_eq_ok_iff.mp hbytes
  refine (reads_readMetadata hfits.inRange hfits.recordCount_lt).bind ?_
  refine (reads_readFilter _).bind ?_
  refine (reads_readPostings hfits.recordCount_lt hfits.terms hterms).bind ?_
  refine (reads_readPostings hfits.recordCount_lt hfits.fields hfields).bind_pure ?_
  rw [← hfits.recordCount]

/-- What is read is a block that can be encoded. -/
theorem yields_readBlock : Yields readBlock fun entry => BlockFits entry ∧ BlockWritable entry := by
  refine yields_readMetadata.bind fun metadata hmetadata => Yields.bind_any fun trigrams => ?_
  obtain ⟨hrange, hcount⟩ := hmetadata
  refine (yields_readPostings hcount).bind fun terms hterms => ?_
  refine (yields_readPostings hcount).bind fun fields hfields => yields_pure ?_
  exact ⟨⟨hrange, rfl, hcount, hterms.1, hfields.1⟩, ⟨hterms.2, hfields.2⟩⟩

/-- A block that fits can be written. -/
theorem exists_encodeBlock (hfits : BlockFits entry) (hwritable : BlockWritable entry) :
    ∃ bytes, encodeBlock entry = .ok bytes := by
  obtain ⟨terms, hterms⟩ := exists_encodePostings hfits.recordCount_lt hfits.terms hwritable.terms
  obtain ⟨fields, hfields⟩ :=
    exists_encodePostings hfits.recordCount_lt hfits.fields hwritable.fields
  exact ⟨_, encodeBlock_eq_ok_iff.mpr ⟨terms, fields, hterms, hfields, rfl⟩⟩

/-! ## The directory -/

def queryIndexMagic : Bytes := utf8 "SLOGQIX2".toList

/-- The postings a merged map holds for one block. -/
def blockPostings {κ : Type} (postings : List ((TopicPartition × κ) × List BlockPosting))
    (metadata : QueryBlockMetadata) : List (κ × PostingList) :=
  postings.filterMap fun group =>
    if group.1.1 = metadata.topicPartition then
      (postingForBlock group.2 metadata.blockOrdinal).map fun posting => (group.1.2, posting)
    else none

namespace PersistentQueryIndex

/-- What is written of one block: its metadata, its filter and its postings sorted
by key. -/
def storedBlock (directory : PersistentQueryIndex)
    (block : QueryBlockMetadata × MessageTrigramFilter) : BlockEntry :=
  (block.1,
    { recordCount := block.1.recordCount
      messageTrigrams := block.2
      termPostings := sortBy (fun term => term.1) (blockPostings directory.termPostings block.1)
      fieldPostings := sortBy (fun field => toLex field.1)
        (blockPostings directory.fieldPostings block.1) })

def encode (directory : PersistentQueryIndex) : LogDbResult Bytes := do
  let count ← writeCount directory.blocks.length
  let blocks ← encodeAll (fun block => encodeBlock (directory.storedBlock block))
    (directory.blocks.zip directory.messageTrigrams)
  .ok (queryIndexMagic ++ (count ++ blocks))

end PersistentQueryIndex

open PersistentQueryIndex

def readDirectory : BlockReader (List (QueryBlockMetadata × BlockQueryIndex)) := do
  expectMagic queryIndexMagic (invalid "missing query index magic")
  let count ← readQueryUsize
  ensureQueryCount count
  readMany readBlock count

def PersistentQueryIndex.decode (encoded : Bytes) : LogDbResult PersistentQueryIndex := do
  let (entries, final) ← readDirectory.run (.start encoded)
  ensure (final.rest = []) (invalid "trailing query index bytes")
  fromBlocks entries

/-! ## The postings of a block in the merged maps -/

section Merged

variable {κ : Type} [DecidableEq κ] {posting : PostingList}
  {postings : List ((TopicPartition × κ) × List BlockPosting)}

/-- The postings of one block. -/
theorem mem_blockPostings (hnodup : (postings.map Prod.fst).Nodup) {metadata : QueryBlockMetadata}
    {key : κ} :
    (key, posting) ∈ blockPostings postings metadata ↔
      ∃ column, get postings (metadata.topicPartition, key) = some column ∧
        postingForBlock column metadata.blockOrdinal = some posting := by
  simp only [blockPostings, mem_filterMap]
  constructor
  · rintro ⟨⟨⟨partition, other⟩, column⟩, hgroup, h⟩
    split at h
    · rename_i hpartition
      obtain ⟨found, hfound, heq⟩ := Option.map_eq_some_iff.mp h
      cases heq
      subst hpartition
      exact ⟨column, get_of_mem hnodup hgroup, hfound⟩
    · cases h
  · rintro ⟨column, hget, hfound⟩
    exact ⟨((metadata.topicPartition, key), column), mem_of_get hget, by simp [hfound]⟩

omit [DecidableEq κ] in
/-- Each key has one posting. -/
theorem nodup_blockPostings (hnodup : (postings.map Prod.fst).Nodup) (metadata : QueryBlockMetadata) :
    ((blockPostings postings metadata).map Prod.fst).Nodup := by
  rw [Nodup, pairwise_map] at hnodup ⊢
  refine Pairwise.filterMap _ ?_ hnodup
  intro left right hne first hfirst second hsecond
  split at hfirst
  · rename_i hleft
    split at hsecond
    · rename_i hright
      obtain ⟨_, _, rfl⟩ := Option.map_eq_some_iff.mp hfirst
      obtain ⟨_, _, rfl⟩ := Option.map_eq_some_iff.mp hsecond
      intro hkey
      exact hne (Prod.ext (hleft.trans hright.symm) hkey)
    · cases hsecond
  · cases hfirst

variable {entries : List BlockEntry} {postings : BlockQueryIndex → List (κ × PostingList)}

/-- The merged maps hold for a block exactly the postings it was entered with. -/
theorem perm_blockPostings (hsorted : StrictlySorted (fun entry => entry.1.blockOrdinal) entries)
    (hnodup : ∀ entry ∈ entries, ((postings entry.2).map Prod.fst).Nodup)
    {entry : BlockEntry} (hentry : entry ∈ entries) :
    (blockPostings (groupBy (entries.flatMap fun entry => blockEntries entry.1 (postings entry.2)))
      entry.1).Perm (postings entry.2) := by
  have hkeys := nodup_keys_groupBy
    (entries.flatMap fun entry => blockEntries entry.1 (postings entry.2))
  refine (perm_ext_iff_of_nodup (nodup_blockPostings hkeys entry.1).of_map
    (hnodup entry hentry).of_map).mpr fun pair => ?_
  obtain ⟨key, posting⟩ := pair
  rw [mem_blockPostings hkeys, mem_iff_get (hnodup entry hentry), ← Option.bind_eq_some_iff,
    get_groupBy_blockEntries hnodup, listed_bind_postingForBlock hsorted
      (mem_filter.mpr ⟨hentry, decide_eq_true rfl⟩)]

end Merged

/-! ## Directories with the same contents -/

/-- Directories that hold the same blocks, filters and postings; maps are compared by
their entries. -/
structure SameIndex (left right : PersistentQueryIndex) : Prop where
  blocks : left.blocks = right.blocks
  messageTrigrams : left.messageTrigrams = right.messageTrigrams
  messageTrigramUnion : left.messageTrigramUnion = right.messageTrigramUnion
  messageTrigramIntersection :
    left.messageTrigramIntersection = right.messageTrigramIntersection
  partitionBlocks : ∀ partition,
    get left.partitionBlocks partition = get right.partitionBlocks partition
  termPostings : ∀ key, get left.termPostings key = get right.termPostings key
  fieldPostings : ∀ key, get left.fieldPostings key = get right.fieldPostings key

/-- Blocks with the same contents, whatever the order of their maps. -/
structure SameBlock (left right : BlockEntry) : Prop where
  metadata : left.1 = right.1
  recordCount : left.2.recordCount = right.2.recordCount
  messageTrigrams : left.2.messageTrigrams = right.2.messageTrigrams
  termPostings : left.2.termPostings.Perm right.2.termPostings
  fieldPostings : left.2.fieldPostings.Perm right.2.fieldPostings

/-- Equal contents are valid alike. -/
theorem SameBlock.valid {left right : BlockEntry}
    (h : SameBlock left right) (hvalid : left.1.Valid left.2) : right.1.Valid right.2 := by
  obtain ⟨hcount, hrest⟩ := hvalid
  rw [h.metadata] at hcount hrest
  exact ⟨hcount.trans h.recordCount, hrest⟩

section RoundTrip

variable {entries : List BlockEntry} {stored : BlockEntry → BlockEntry} {bytes : Bytes}

/-- Replacing blocks by ones with the same postings keeps the merged postings. -/
theorem get_groupBy_map {κ : Type} [DecidableEq κ]
    {postings : BlockQueryIndex → List (κ × PostingList)}
    (hmetadata : ∀ entry ∈ entries, entry.1 = (stored entry).1)
    (hperm : ∀ entry ∈ entries, (postings entry.2).Perm (postings (stored entry).2))
    (hnodup : ∀ entry ∈ entries, ((postings entry.2).map Prod.fst).Nodup) (key : TopicPartition × κ) :
    get (groupBy (entries.flatMap fun entry => blockEntries entry.1 (postings entry.2))) key =
      get (groupBy ((entries.map stored).flatMap fun entry =>
        blockEntries entry.1 (postings entry.2))) key := by
  have hstored : ∀ entry ∈ entries.map stored, ((postings entry.2).map Prod.fst).Nodup :=
    forall_mem_map.mpr fun entry hentry =>
      ((hperm entry hentry).map Prod.fst).nodup_iff.mp (hnodup entry hentry)
  obtain ⟨partition, key⟩ := key
  rw [get_groupBy_blockEntries hnodup, get_groupBy_blockEntries hstored, entryColumn, entryColumn,
    filterMap_map]
  congr 1
  apply filterMap_congr
  intro entry hentry
  rw [Function.comp_apply, ← hmetadata entry hentry,
    get_of_perm (hnodup entry hentry) (hperm entry hentry)]

/-- Replacing blocks by ones with the same contents keeps the contents. -/
theorem sameIndex_map (hsame : ∀ entry ∈ entries, SameBlock entry (stored entry))
    (hfits : ∀ entry ∈ entries, BlockFits entry) :
    SameIndex (withAggregates (directoryOf entries))
      (withAggregates (directoryOf (entries.map stored))) := by
  have htrigrams : (directoryOf entries).messageTrigrams =
      (directoryOf (entries.map stored)).messageTrigrams := by
    simp only [directoryOf, map_map]
    exact map_congr_left fun entry hentry => (hsame entry hentry).messageTrigrams
  have hmetadata : entries.map Prod.fst = (entries.map stored).map Prod.fst := by
    rw [map_map]
    exact map_congr_left fun entry hentry => (hsame entry hentry).metadata
  have hpairs : (directoryOf entries).partitionBlocks =
      (directoryOf (entries.map stored)).partitionBlocks := by
    have h := congrArg (fun blocks => groupBy (blocks.map fun metadata : QueryBlockMetadata =>
      (metadata.topicPartition, metadata.blockOrdinal))) hmetadata
    simpa only [directoryOf, map_map, Function.comp_def] using h
  exact
    { blocks := hmetadata
      messageTrigrams := htrigrams
      messageTrigramUnion := congrArg (fun filters => (aggregateMessageTrigrams filters).1) htrigrams
      messageTrigramIntersection :=
        congrArg (fun filters => (aggregateMessageTrigrams filters).2) htrigrams
      partitionBlocks := fun partition => congrArg (get · partition) hpairs
      termPostings := get_groupBy_map (fun entry hentry => (hsame entry hentry).metadata)
        (fun entry hentry => (hsame entry hentry).termPostings)
        fun entry hentry => (hfits entry hentry).terms.nodup
      fieldPostings := get_groupBy_map (fun entry hentry => (hsame entry hentry).metadata)
        (fun entry hentry => (hsame entry hentry).fieldPostings)
        fun entry hentry => (hfits entry hentry).fields.nodup }

/-- What the directory of some blocks writes of one of them. -/
def written (entries : List BlockEntry)
    (entry : BlockEntry) : BlockEntry :=
  (withAggregates (directoryOf entries)).storedBlock (entry.1, entry.2.messageTrigrams)

/-- What an encoded directory consists of. -/
theorem encode_directoryOf_eq_ok_iff :
    (withAggregates (directoryOf entries)).encode = .ok bytes ↔
      ∃ count body, writeCount entries.length = .ok count ∧
        encodeAll (fun entry => encodeBlock (written entries entry)) entries = .ok body ∧
        bytes = queryIndexMagic ++ (count ++ body) := by
  have hzip : (withAggregates (directoryOf entries)).blocks.zip
      (withAggregates (directoryOf entries)).messageTrigrams =
        entries.map fun entry => (entry.1, entry.2.messageTrigrams) :=
    zip_map'
  have hblocks : encodeAll
      (fun block => encodeBlock ((withAggregates (directoryOf entries)).storedBlock block))
      (entries.map fun entry => (entry.1, entry.2.messageTrigrams)) =
        encodeAll (fun entry => encodeBlock (written entries entry)) entries := by
    rw [encodeAll, collect_map]
    rfl
  have hlength : (withAggregates (directoryOf entries)).blocks.length = entries.length :=
    length_map _
  unfold encode
  rw [hzip, hlength, hblocks]
  simp only [bind_eq_ok_iff, Except.ok.injEq]
  constructor
  · grind
  · grind

variable (hsorted : StrictlySorted (fun entry => entry.1.blockOrdinal) entries)
  (hfits : ∀ entry ∈ entries, BlockFits entry)

include hsorted hfits

variable {entry : BlockEntry}

/-- The directory writes of each block what was entered. -/
theorem sameBlock_written (hentry : entry ∈ entries) :
    SameBlock entry (written entries entry) where
  metadata := rfl
  recordCount := (hfits entry hentry).recordCount
  messageTrigrams := rfl
  termPostings := ((perm_sortBy _ _).trans (perm_blockPostings hsorted
    (fun other hother => (hfits other hother).terms.nodup) hentry)).symm
  fieldPostings := ((perm_sortBy _ _).trans (perm_blockPostings hsorted
    (fun other hother => (hfits other hother).fields.nodup) hentry)).symm

/-- A written block fits. -/
theorem blockFits_written (hentry : entry ∈ entries) : BlockFits (written entries entry) := by
  have hsame := sameBlock_written hsorted hfits hentry
  have hfit := hfits entry hentry
  exact ⟨hfit.inRange, rfl, hfit.recordCount_lt, hfit.terms.of_perm hsame.termPostings.symm,
    hfit.fields.of_perm hsame.fieldPostings.symm⟩

/-- The encoding of a directory reads back as its blocks. -/
theorem reads_readDirectory (hbytes : (withAggregates (directoryOf entries)).encode = .ok bytes) :
    Reads readDirectory bytes (entries.map (written entries)) := by
  obtain ⟨count, body, hcount, hbody, rfl⟩ := encode_directoryOf_eq_ok_iff.mp hbytes
  obtain ⟨rfl, hlt⟩ := writeCount_eq_ok_iff.mp hcount
  have hread : ∀ entry ∈ entries, ∀ blob, encodeBlock (written entries entry) = .ok blob →
      Reads readBlock blob (written entries entry) :=
    fun entry hentry _ => reads_readBlock (blockFits_written hsorted hfits hentry)
  refine (reads_expectMagic queryIndexMagic _).bind ((reads_readQueryVarint hlt).bind ?_)
  refine Reads.requireRemaining_bind (length_le_of_encodeAll ?_ hbody) ?_
  · exact fun entry hentry blob hblob => (hread entry hentry blob hblob).ne_nil rfl
  · exact Reads.readMany_encodeAll _ hread hbody

/-- Decoding an encoded directory gives a directory with the same contents. -/
theorem decode_of_encode (hvalid : ∀ entry ∈ entries, entry.1.Valid entry.2)
    (hbytes : (withAggregates (directoryOf entries)).encode = .ok bytes) :
    ∃ decoded, decode bytes = .ok decoded ∧
      SameIndex (withAggregates (directoryOf entries)) decoded := by
  have hreads := reads_readDirectory hsorted hfits hbytes
  have hstrict : StrictlySorted (fun entry => entry.1.blockOrdinal)
      (entries.map (written entries)) := by
    unfold StrictlySorted
    rw [pairwise_map]
    exact hsorted
  have hmerged : fromBlocks (entries.map (written entries)) =
      .ok (withAggregates (directoryOf (entries.map (written entries)))) := by
    rw [fromBlocks_eq_ok_iff, sortBy_eq_of_perm (Perm.refl _) hstrict]
    refine ⟨hstrict, forall_mem_map.mpr fun entry hentry => ?_, rfl⟩
    exact (sameBlock_written hsorted hfits hentry).valid (hvalid entry hentry)
  refine ⟨_, ?_, sameIndex_map (fun entry hentry => sameBlock_written hsorted hfits hentry) hfits⟩
  rw [decode, hreads.run_start, ok_bind]
  dsimp only
  rw [ensure_of_true rfl, ok_bind, hmerged]

/-- Blocks whose keys can be stored have a directory that can be encoded. -/
theorem exists_encode (hfew : entries.length < 2 ^ 64)
    (hwritable : ∀ entry ∈ entries, BlockWritable entry) :
    ∃ bytes, (withAggregates (directoryOf entries)).encode = .ok bytes := by
  have hblocks : ∀ entry ∈ entries, ∃ bytes, encodeBlock (written entries entry) = .ok bytes := by
    intro entry hentry
    have hsame := sameBlock_written hsorted hfits hentry
    refine exists_encodeBlock (blockFits_written hsorted hfits hentry) ⟨?_, ?_⟩
    · exact (hwritable entry hentry).terms.of_perm hsame.termPostings.symm
    · exact (hwritable entry hentry).fields.of_perm hsame.fieldPostings.symm
  obtain ⟨body, hbody⟩ := exists_encodeAll hblocks
  have hcount : writeCount entries.length = .ok (writeVarint entries.length) :=
    writeCount_eq_ok_iff.mpr ⟨rfl, hfew⟩
  exact ⟨_, encode_directoryOf_eq_ok_iff.mpr ⟨_, body, hcount, hbody, rfl⟩⟩

end RoundTrip

/-! ## Both directions -/

/-- A decoded directory merges blocks that can be encoded. -/
theorem entries_of_decode (h : decode bytes = .ok directory) :
    ∃ entries : List BlockEntry, entries.length < 2 ^ 64 ∧
      (∀ entry ∈ entries, BlockFits entry ∧ BlockWritable entry) ∧
      fromBlocks entries = .ok directory := by
  obtain ⟨⟨entries, final⟩, hread, h⟩ := bind_eq_ok_iff.mp h
  obtain ⟨_, _, h⟩ := bind_eq_ok_iff.mp h
  obtain ⟨_, _, _, hread⟩ := run_bind_eq_ok_iff.mp hread
  obtain ⟨count, _, hcount, hread⟩ := run_bind_eq_ok_iff.mp hread
  obtain ⟨_, _, _, hread⟩ := run_bind_eq_ok_iff.mp hread
  obtain ⟨hlength, hall⟩ := yields_readMany yields_readBlock count _ _ _ hread
  exact ⟨entries, hlength ▸ lt_of_readQueryVarint hcount, hall, h⟩

/-- The index of a block was built from its records. -/
def BuiltFrom (tables : UnicodeTables) (index : BlockQueryIndex) : Prop :=
  ∃ (R : Type) (_ : StructuralRecordView R) (records : List R),
    BlockQueryIndex.build tables records = .ok index

/-- A built index with matching metadata can be represented. -/
theorem blockFits_of_builtFrom (laws : tables.Lawful) {entry : BlockEntry}
    (hbuilt : BuiltFrom tables entry.2) (hrange : InRange entry.1.topicPartition)
    (hvalid : entry.1.Valid entry.2) :
    BlockFits entry := by
  obtain ⟨R, view, records, hindex⟩ := hbuilt
  have hfits := entryFits_of_build laws hindex hvalid
  exact ⟨hrange, hvalid.1.symm, hfits.recordCount_lt, hfits.terms, hfits.fields⟩

/-- A built map can be stored when the keys of its documents can. -/
theorem writable_of_postingTable {κ : Type} [DecidableEq κ] {codec : KeyCodec κ}
    {postings : List (κ × PostingList)} {documents : List (List κ)}
    (h : PostingTable postings documents) (hfew : documents.flatten.length < 2 ^ 64)
    (hkeys : ∀ key ∈ documents.flatten, ∃ bytes, codec.encode key = .ok bytes) :
    Writable codec postings := by
  have hsubset : ∀ entry ∈ postings, entry.1 ∈ documents.flatten := by
    intro entry hentry
    obtain ⟨_, _, hne⟩ := h.get_some entry.1 entry.2 ((mem_iff_get h.nodup).mp hentry)
    obtain ⟨ordinal, hordinal⟩ := exists_mem_of_ne_nil _ hne
    obtain ⟨hlt, hkey⟩ := mem_ordinalsWith.mp hordinal
    exact mem_flatten.mpr ⟨_, getElem_mem hlt, hkey⟩
  refine ⟨lt_of_le_of_lt ?_ hfew, fun entry hentry => hkeys entry.1 (hsubset entry hentry)⟩
  have hsubperm := h.nodup.subperm (forall_mem_map.mpr hsubset)
  simpa using hsubperm.length_le

/-- The order of the blocks does not matter to what they have to satisfy. -/
theorem forall_mem_sortBy {α κ : Type} [LinearOrder κ] {key : α → κ} {items : List α}
    {property : α → Prop} (h : ∀ item ∈ items, property item) :
    ∀ item ∈ sortBy key items, property item :=
  fun item hitem => h item (mem_sortBy.mp hitem)

/-- Directories keep their contents through the codec: one built from blocks can be decoded, and a
decoded one can be encoded and decoded again. -/
theorem encode_decode_same {tables : UnicodeTables} (laws : tables.Lawful) :
    (∀ (blocks : List (QueryBlockMetadata × BlockQueryIndex)) (directory : PersistentQueryIndex)
        (bytes : Bytes),
      (∀ block ∈ blocks, InRange block.1.topicPartition ∧ BuiltFrom tables block.2) →
      fromBlocks blocks = .ok directory →
      directory.encode = .ok bytes →
      ∃ decoded, decode bytes = .ok decoded ∧ SameIndex directory decoded) ∧
    ∀ (bytes : Bytes) (directory : PersistentQueryIndex), decode bytes = .ok directory →
      ∃ again decoded, directory.encode = .ok again ∧
        decode again = .ok decoded ∧ SameIndex directory decoded := by
  constructor
  · intro blocks directory bytes hblocks hdirectory hbytes
    obtain ⟨hsorted, hvalid, rfl⟩ := fromBlocks_eq_ok_iff.mp hdirectory
    have hfits : ∀ block ∈ blocks, BlockFits block := fun block hblock =>
      blockFits_of_builtFrom laws (hblocks block hblock).2 (hblocks block hblock).1
        (hvalid block hblock)
    exact decode_of_encode hsorted (forall_mem_sortBy hfits) (forall_mem_sortBy hvalid) hbytes
  · intro bytes directory hdecode
    obtain ⟨entries, hfew, hall, hdirectory⟩ := entries_of_decode hdecode
    obtain ⟨hsorted, hvalid, rfl⟩ := fromBlocks_eq_ok_iff.mp hdirectory
    have hfits : ∀ entry ∈ sortBy (fun entry => entry.1.blockOrdinal) entries, BlockFits entry :=
      forall_mem_sortBy fun entry hentry => (hall entry hentry).1
    have hlength := (perm_sortBy (fun entry => entry.1.blockOrdinal) entries).length_eq
    obtain ⟨again, hagain⟩ := exists_encode hsorted hfits (hlength ▸ hfew)
      (forall_mem_sortBy fun entry hentry => (hall entry hentry).2)
    obtain ⟨decoded, hdecoded, hsame⟩ :=
      decode_of_encode hsorted hfits (forall_mem_sortBy hvalid) hagain
    exact ⟨again, decoded, hagain, hdecoded, hsame⟩

/-- Two records, one of them with a field. -/
def codecRecords : List DecodedStructuralRecord :=
  [sampleRecord 5 "ready".toList [],
    sampleRecord 7 "disk full".toList [⟨"host".toList, "a".toList⟩]]

theorem blockWritable_codecRecords {index : BlockQueryIndex}
    (h : index.Indexes latinTables codecRecords) (metadata : QueryBlockMetadata) :
    BlockWritable (metadata, index) := by
  constructor
  · refine writable_of_postingTable h.terms (by decide +kernel) fun key hkey => ?_
    have hall : ∀ key ∈ (codecRecords.map fun record =>
        messageKeys latinTables (structuralMessage record)).flatten,
        (termCodec.encode key).isOk = true := by decide +kernel
    exact exists_of_isOk (hall key hkey)
  · refine writable_of_postingTable h.fields (by decide +kernel) fun key hkey => ?_
    have hall : ∀ key ∈ (codecRecords.map recordFields).flatten,
        (fieldCodec.encode key).isOk = true := by decide +kernel
    exact exists_of_isOk (hall key hkey)

/-- The sample records have a directory. -/
theorem exists_codecDirectory :
    ∃ index, BlockQueryIndex.build latinTables codecRecords = .ok index ∧
      ∃ directory, fromBlocks [(sampleMetadata 0 5 7 2, index)] = .ok directory := by
  obtain ⟨index, hindex, hindexes⟩ := exists_build latinTables_lawful
    (by decide : codecRecords.length < 2 ^ 32) fun record _ => fieldsReadable_decoded record
  have hvalid : (sampleMetadata 0 5 7 2).Valid index :=
    ⟨hindexes.recordCount.symm, by decide, by decide⟩
  exact ⟨index, hindex, _, fromBlocks_eq_ok_iff.mpr
    ⟨pairwise_singleton _ _, by simpa using hvalid, rfl⟩⟩

/-- A directory of one block. -/
theorem codecRecords_directory_same :
    ∃ (index : BlockQueryIndex) (directory decoded : PersistentQueryIndex) (bytes : Bytes),
      BlockQueryIndex.build latinTables codecRecords = .ok index ∧
      fromBlocks [(sampleMetadata 0 5 7 2, index)] = .ok directory ∧
      directory.encode = .ok bytes ∧ decode bytes = .ok decoded ∧
      SameIndex directory decoded ∧
      ∃ again second, decoded.encode = .ok again ∧
        decode again = .ok second ∧ SameIndex decoded second := by
  obtain ⟨index, hindex, _, hdirectory⟩ := exists_codecDirectory
  obtain ⟨hsorted, hvalid, rfl⟩ := fromBlocks_eq_ok_iff.mp hdirectory
  have hrange : InRange (sampleMetadata 0 5 7 2).topicPartition := ⟨by decide, by decide⟩
  have hbuilt : BuiltFrom latinTables index := ⟨_, _, _, hindex⟩
  have hfits := blockFits_of_builtFrom latinTables_lawful hbuilt hrange
    (hvalid _ List.mem_cons_self)
  obtain ⟨bytes, hbytes⟩ := exists_encode hsorted
    (forall_mem_sortBy (by simpa using hfits)) (by simp [sortBy])
    (forall_mem_sortBy (by simpa using
      blockWritable_codecRecords (build_spec latinTables_lawful hindex) _))
  obtain ⟨decoded, hdecoded, hsame⟩ := (encode_decode_same latinTables_lawful).1 _ _ bytes
    (by simpa using ⟨hrange, hbuilt⟩) hdirectory hbytes
  exact ⟨index, _, decoded, bytes, hindex, hdirectory, hbytes, hdecoded, hsame,
    (encode_decode_same latinTables_lawful).2 bytes decoded hdecoded⟩

/-! ## The planners of a directory -/

/-- How a directory comes about: from blocks indexed by their records, or from bytes. -/
inductive Obtained (tables : UnicodeTables) (directory : PersistentQueryIndex) : Prop
  | built (blocks : List (QueryBlockMetadata × BlockQueryIndex))
      (hblocks : ∀ block ∈ blocks, BuiltFrom tables block.2)
      (hdirectory : fromBlocks blocks = .ok directory)
  | decoded (bytes : Bytes) (hdecode : decode bytes = .ok directory)

theorem Obtained.exists_mergesEntries (laws : tables.Lawful) (h : Obtained tables directory) :
    ∃ entries, MergesEntries directory entries := by
  cases h with
  | built blocks hblocks hdirectory =>
    have hvalid := (fromBlocks_eq_ok_iff.mp hdirectory).2.1
    refine ⟨_, mergesEntries_of_fromBlocks hdirectory fun block hblock => ?_⟩
    obtain ⟨R, view, records, hindex⟩ := hblocks block hblock
    exact entryFits_of_build laws hindex (hvalid block hblock)
  | decoded bytes hdecode =>
    obtain ⟨entries, _, hall, hdirectory⟩ := entries_of_decode hdecode
    refine ⟨_, mergesEntries_of_fromBlocks hdirectory fun entry hentry => ?_⟩
    have hfits := (hall entry hentry).1
    exact ⟨hfits.recordCount_lt, hfits.terms, hfits.fields⟩

/-- Without a limit the candidate records are those of the candidate blocks, and no other block has
any. -/
theorem mem_candidateHits_iff_candidateBlocks {tables : UnicodeTables} (laws : tables.Lawful)
    {directory : PersistentQueryIndex} (h : Obtained tables directory) {query : LogQuery}
    (hlimit : query.limit = none) :
    (∀ hit, hit ∈ directory.candidateHits tables query ↔
        ∃ ordinal ∈ directory.candidateBlocks tables query,
          hit ∈ directory.candidateHitsInBlock tables query ordinal) ∧
      ∀ ordinal, ordinal ∉ directory.candidateBlocks tables query →
        directory.candidateHitsInBlock tables query ordinal = [] := by
  obtain ⟨entries, hmerges⟩ := h.exists_mergesEntries laws
  exact hmerges.planners_agree hlimit

/-- The planners on the query for a full disk. -/
theorem codecRecords_planners :
    ∃ (index : BlockQueryIndex) (directory : PersistentQueryIndex),
      BlockQueryIndex.build latinTables codecRecords = .ok index ∧
      fromBlocks [(sampleMetadata 0 5 7 2, index)] = .ok directory ∧
      diskQuery.limit = none ∧
      ∀ hit, hit ∈ directory.candidateHits latinTables diskQuery ↔
        ∃ ordinal ∈ directory.candidateBlocks latinTables diskQuery,
          hit ∈ directory.candidateHitsInBlock latinTables diskQuery ordinal := by
  obtain ⟨index, hindex, directory, hdirectory⟩ := exists_codecDirectory
  have hobtained : Obtained latinTables directory :=
    .built _ (by simpa using ⟨_, _, _, hindex⟩) hdirectory
  exact ⟨index, directory, hindex, hdirectory, rfl,
    (mem_candidateHits_iff_candidateBlocks latinTables_lawful hobtained rfl).1⟩

end ShardLog.Persistent
