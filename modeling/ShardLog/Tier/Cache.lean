import Mathlib.Data.Prod.Lex
import ShardLog.Foundation.Integers
import ShardLog.Foundation.Slices
import ShardLog.Foundation.Sorted
import ShardLog.Foundation.Stateful
import ShardLog.Tier.Manifest

/-!
# Object tier - The local cache of object ranges

Objects are read through chunks of a fixed size that are kept as files of a local
directory.  A chunk file is named by a hash of the object key, the version token and
the number of the chunk, and carries its length and a hash of its bytes.

The size of the chunks is not part of the name, so a chunk that was cached under
another size can be taken for the wrong part of the object.

Main results:

- Theorem `evictLocked_spec`: eviction takes the least recently used entries and ends
  within the budget, or at a file that cannot be removed.
- Theorem `read_transparent`: every read returns the bytes of its object, in runs in
  which all caches use one size of chunks.
-/

namespace ShardLog.Tier

open List hiding erase get insert

open ByteReader Utf8 AssocMap Sorted Stateful Slices

/-! ## Chunk files -/

/-- The hash in its two renderings: as the name of a file and as 32 bytes. -/
structure CacheHashes (δ : Type) where
  checksumBytes : Bytes → δ
  hash : Bytes → Bytes
  length_hash : ∀ bytes, (hash bytes).length = 32

def cacheHeaderMagic : Bytes := utf8 "SLCACHE1".toList

def cacheHeaderBytes : Nat := 8 + 8 + 32

section Frames

variable {δ : Type} (hashes : CacheHashes δ)

/-- What `write_cache_chunk_atomically` writes. -/
def frameChunk (bytes : Bytes) : Bytes :=
  cacheHeaderMagic ++ (Integers.leBytes 8 bytes.length ++ (hashes.hash bytes ++ bytes))

/-- Read a chunk file, if it is there, and verify it. -/
def readCacheChunk (file : Option Bytes) : LogDbResult Bytes :=
  match file with
  | none => .error (.storageIo "read SSD cache chunk")
  | some framed => do
      ensure (cacheHeaderBytes ≤ framed.length ∧ framed.take 8 = cacheHeaderMagic)
        (.corruptTier "SSD cache chunk header is invalid")
      let payload := framed.drop cacheHeaderBytes
      ensure (payload.length = Integers.fromLeBytes ((framed.drop 8).take 8) ∧
          hashes.hash payload = (framed.drop 16).take 32)
        (.corruptTier "SSD cache chunk failed integrity verification")
      .ok payload

theorem drop_frameChunk (bytes : Bytes) :
    (frameChunk hashes bytes).drop cacheHeaderBytes = bytes := by
  have hmagic : cacheHeaderMagic.length = 8 := by decide
  have hlength : (cacheHeaderMagic ++ (Integers.leBytes 8 bytes.length ++ hashes.hash bytes)).length =
      cacheHeaderBytes := by
    simp [hmagic, Integers.length_leBytes, hashes.length_hash, cacheHeaderBytes]
  rw [frameChunk, ← append_assoc (Integers.leBytes 8 bytes.length), ← append_assoc, ← hlength]
  exact drop_left

/-- A chunk file holds at most the bytes it was written with. -/
theorem eq_of_readCacheChunk {bytes payload : Bytes}
    (h : readCacheChunk hashes (some (frameChunk hashes bytes)) = .ok payload) :
    payload = bytes := by
  obtain ⟨_, _, h⟩ := bind_eq_ok_iff.mp h
  obtain ⟨_, _, h⟩ := bind_eq_ok_iff.mp h
  rw [drop_frameChunk] at h
  exact (Except.ok.inj h).symm

end Frames

/-! ## Cache state -/

/-- Limits of a cache. -/
structure SsdCacheConfig where
  maxBytes : Nat
  chunkBytes : Nat
  maxReadBytes : Nat
deriving DecidableEq, Repr

def SsdCacheConfig.validate (config : SsdCacheConfig) : LogDbResult Unit := do
  ensure (config.maxBytes ≠ 0 ∧ config.chunkBytes ≠ 0 ∧ config.maxReadBytes ≠ 0)
    (.invalidConfig "SSD cache byte limits must be nonzero")
  ensure (config.chunkBytes ≤ config.maxReadBytes)
    (.invalidConfig "SSD cache chunks cannot exceed the read limit")

/-- A chunk file known to a cache.  Its path is given by its key. -/
structure CacheEntry where
  bytes : Nat
  stamp : UInt64
deriving DecidableEq, Repr

structure CacheState (δ : Type) where
  entries : List (δ × CacheEntry) := []
  usedBytes : Nat := 0
  clock : UInt64 := 0

/-- The state of a cache and the chunk files of its directory. -/
structure CacheDisk (δ : Type) where
  state : CacheState δ
  files : List (δ × Bytes)

/-- Operations of a cache. -/
abbrev CacheM (δ : Type) := EStateM LogDbError (CacheDisk δ)

section Operations

variable {δ : Type} [LinearOrder δ]

/-- Entries are evicted in the order of their stamps and keys. -/
def age (entry : δ × CacheEntry) : Nat ×ₗ δ := toLex (entry.2.stamp.toNat, entry.1)

/-- The entry that was used least recently. -/
def oldestEntry (entries : List (δ × CacheEntry)) : Option (δ × CacheEntry) :=
  (sortBy age entries).head?

/-- The oldest entry is one of them. -/
theorem mem_of_oldestEntry {entries : List (δ × CacheEntry)} {entry : δ × CacheEntry}
    (h : oldestEntry entries = some entry) : entry ∈ entries :=
  mem_sortBy.mp (mem_of_mem_head? h)

theorem length_erase_lt {entries : List (δ × CacheEntry)} {entry : δ × CacheEntry}
    (h : entry ∈ entries) : (erase entries entry.1).length < entries.length := by
  rw [erase, length_filter_lt_length_iff_exists]
  exact ⟨entry, h, by simp⟩

/-- An entry is no longer counted; its file is still there. -/
def forget (disk : CacheDisk δ) (key : δ) (entry : CacheEntry) : CacheDisk δ :=
  { disk with
    state := { disk.state with
      entries := erase disk.state.entries key
      usedBytes := disk.state.usedBytes - entry.bytes } }

/-- An entry and its file are removed. -/
def evictEntry (disk : CacheDisk δ) (key : δ) (entry : CacheEntry) : CacheDisk δ :=
  { forget disk key entry with files := erase disk.files key }

/-- The error of `remove_cache_file`. -/
def evictError : LogDbError := .storageIo "evict SSD cache chunk"

/-- The eviction loop. It ends at the first file that the file system `refuses` to remove, with its
entry forgotten; a file that is gone already is no error. -/
def evictLocked (refuses : δ → Bool) (maxBytes : Nat) (disk : CacheDisk δ) :
    EStateM.Result LogDbError (CacheDisk δ) PUnit :=
  if disk.state.usedBytes ≤ maxBytes then .ok ⟨⟩ disk
  else
    match _holdest : oldestEntry disk.state.entries with
    | none => .ok ⟨⟩ { disk with state := { disk.state with usedBytes := 0 } }
    | some (key, entry) =>
      if refuses key then .error evictError (forget disk key entry)
      else evictLocked refuses maxBytes (evictEntry disk key entry)
termination_by disk.state.entries.length
decreasing_by exact length_erase_lt (mem_of_oldestEntry _holdest)

/-- Mark an entry as used; whether there is one. -/
def cacheHit (cacheKey : δ) : CacheM δ Bool :=
  modifyGet fun disk =>
    let clock := disk.state.clock + 1
    match get disk.state.entries cacheKey with
    | none => (false, { disk with
        state := { disk.state with
          clock := clock } })
    | some entry => (true, { disk with
        state := { disk.state with
          clock := clock
          entries := insert disk.state.entries cacheKey { entry with
            stamp := clock } } })

variable (refuses : δ → Bool)

/-- Forget an entry and delete its file. -/
def removeEntry (cacheKey : δ) : CacheM δ PUnit := fun disk =>
  match get disk.state.entries cacheKey with
  | none => .ok ⟨⟩ disk
  | some entry =>
    if refuses cacheKey then .error evictError (forget disk cacheKey entry)
    else .ok ⟨⟩ (evictEntry disk cacheKey entry)

variable (hashes : CacheHashes δ) (config : SsdCacheConfig)

/-- Write a chunk file, unless it cannot fit, and make room for it. -/
def installChunk (cacheKey : δ) (bytes : Bytes) : CacheM δ PUnit := fun disk =>
  let framedBytes := saturatingAdd bytes.length cacheHeaderBytes
  if config.maxBytes < framedBytes then .ok ⟨⟩ disk
  else
    let clock := disk.state.clock + 1
    let previous := ((get disk.state.entries cacheKey).map CacheEntry.bytes).getD 0
    evictLocked refuses config.maxBytes
      { state :=
          { entries := insert disk.state.entries cacheKey ⟨framedBytes, clock⟩
            usedBytes := saturatingAdd (disk.state.usedBytes - previous) framedBytes
            clock := clock }
        files := insert disk.files cacheKey (frameChunk hashes bytes) }

/-- A cached chunk of the expected length; any other is removed. -/
def lookupChunk (cacheKey : δ) (length : Nat) : CacheM δ (Option Bytes) := do
  if ← cacheHit cacheKey then
    let disk ← get
    match readCacheChunk hashes (get disk.files cacheKey) with
    | .ok bytes =>
      if bytes.length = length then pure (some bytes)
      else do
        removeEntry refuses cacheKey
        pure none
    | .error _ => do
        removeEntry refuses cacheKey
        pure none
  else pure none

/-- What names a chunk: the object key, its version and the number of the chunk. -/
def identity (objectKey versionToken : Str) (chunkIndex : Nat) : Bytes :=
  utf8 (objectKey ++ '\x00' :: (versionToken ++ '\x00' :: decimal chunkIndex))

/-- One read request, with the answers of the object store. -/
structure ReadRequest where
  objectKey : Str
  metadata : ObjectMetadata
  getRange : Nat → Nat → LogDbResult Bytes
  start : Nat
  stop : Nat

def loadOrFetchChunk (request : ReadRequest) (chunkIndex start stop : Nat) : CacheM δ Bytes := do
  let cacheKey := hashes.checksumBytes
    (identity request.objectKey request.metadata.versionToken chunkIndex)
  match ← lookupChunk refuses hashes cacheKey (stop - start) with
  | some bytes => pure bytes
  | none => do
      let bytes ← liftResult (request.getRange start stop)
      installChunk refuses hashes config cacheKey bytes
      pure bytes

/-- The loop over the chunks that a range meets. A chunk has the expected length, so its slice lies
inside. -/
def readChunks (request : ReadRequest) : List Nat → CacheM δ Bytes
  | [] => pure []
  | chunkIndex :: rest => do
      let chunkStart := chunkIndex * config.chunkBytes
      liftResult (ensure (chunkStart < 2 ^ 64) (.objectStore "cache chunk offset overflow"))
      let chunkEnd := min (saturatingAdd chunkStart config.chunkBytes) request.metadata.bytes
      let chunk ← loadOrFetchChunk refuses hashes config request chunkIndex chunkStart chunkEnd
      let later ← readChunks request rest
      pure (slice chunk (max request.start chunkStart - chunkStart)
        (min request.stop chunkEnd - chunkStart) ++ later)

def ensureReadable (start stop : Nat) : LogDbResult Unit :=
  ensure (start ≤ stop ∧ stop - start ≤ config.maxReadBytes)
    (.objectStore "SSD cache read range is invalid or exceeds its limit")

def readRangeWithMetadata (request : ReadRequest) : CacheM δ Bytes := do
  liftResult (ensureReadable config request.start request.stop)
  liftResult (ensure (request.stop ≤ request.metadata.bytes)
    (.objectStore ("SSD cache range exceeds object " ++ String.ofList request.objectKey)))
  if request.start = request.stop then pure []
  else
    let firstChunk := request.start / config.chunkBytes
    let lastChunk := (request.stop - 1) / config.chunkBytes
    readChunks refuses hashes config request (List.range' firstChunk (lastChunk - firstChunk + 1))

/-- A read that asks the store for the metadata of the object first. -/
def readRange (head : LogDbResult (Option ObjectMetadata)) (request : ReadRequest) :
    CacheM δ Bytes := do
  liftResult (ensureReadable config request.start request.stop)
  match ← liftResult head with
  | none => throw (.objectStore ("object " ++ String.ofList request.objectKey ++ " does not exist"))
  | some metadata => readRangeWithMetadata refuses hashes config { request with
      metadata := metadata }

/-- A cache over a directory. -/
structure SsdObjectCache (δ : Type) where
  config : SsdCacheConfig
  state : CacheState δ

/-- Enter the files found in the directory and make room. -/
def openCache (files : List (δ × Bytes)) : LogDbResult (SsdObjectCache δ) × List (δ × Bytes) :=
  match config.validate with
  | .error e => (.error e, files)
  | .ok _ =>
    match evictLocked refuses config.maxBytes
      { state :=
          { entries := files.map fun file => (file.1, ⟨file.2.length, 0⟩)
            usedBytes := files.foldl (fun used file => saturatingAdd used file.2.length) 0 }
        files := files } with
    | .ok _ disk => (.ok ⟨config, disk.state⟩, disk.files)
    | .error e disk => (.error e, disk.files)

end Operations

/-! ## Eviction -/

section Eviction

variable {δ : Type} [LinearOrder δ] {entries : List (δ × CacheEntry)} {key : δ} {entry : CacheEntry}

/-- The bytes of some entries. -/
def entryBytes (entries : List (δ × CacheEntry)) : Nat :=
  (entries.map fun entry => entry.2.bytes).sum

/-- The used bytes are those of the entries. -/
def CacheState.Accounted (state : CacheState δ) : Prop := state.usedBytes = entryBytes state.entries

/-- An eviction removes one file. -/
theorem get_files_evictEntry (disk : CacheDisk δ) (key name : δ) (entry : CacheEntry) :
    get (evictEntry disk key entry).files name = if name = key then none else get disk.files name :=
  get_erase _ _ _

/-- What evicting entries of `before` has left. -/
structure Evicts (maxBytes : Nat) (before after : CacheDisk δ) : Prop where
  kept : after.state.entries.Sublist before.state.entries
  oldest : ∀ gone ∈ before.state.entries, gone ∉ after.state.entries →
    ∀ kept ∈ after.state.entries, age gone < age kept
  files : ∀ name, get after.files name = get before.files name ∨
    get after.files name = none ∧ ∃ gone ∈ before.state.entries, gone ∉ after.state.entries ∧
      gone.1 = name
  accounted : before.state.Accounted → after.state.Accounted ∧
    (after.state.entries ≠ before.state.entries → ∃ gone ∈ before.state.entries,
      gone ∉ after.state.entries ∧ maxBytes < after.state.usedBytes + gone.2.bytes)

section Rounds

variable {maxBytes : Nat} {disk after final : CacheDisk δ} {refuses : δ → Bool}

/-- Evictions in a row. -/
theorem Evicts.trans (h : Evicts maxBytes disk after) (h' : Evicts maxBytes after final) :
    Evicts maxBytes disk final where
  kept := h'.kept.trans h.kept
  oldest gone hgone hnot kept hkept := by
    by_cases hmiddle : gone ∈ after.state.entries
    · exact h'.oldest gone hmiddle hnot kept hkept
    · exact h.oldest gone hgone hmiddle kept (h'.kept.subset hkept)
  files name := by
    rcases h'.files name with hsame | ⟨hnone, gone, hgone, hnot, hname⟩
    · rw [hsame]
      exact (h.files name).imp_right fun ⟨hnone, gone, hgone, hnot, hname⟩ =>
        ⟨hnone, gone, hgone, fun hkept => hnot (h'.kept.subset hkept), hname⟩
    · exact .inr ⟨hnone, gone, h.kept.subset hgone, hnot, hname⟩
  accounted hbefore := by
    obtain ⟨hafter, hneeded⟩ := h.accounted hbefore
    obtain ⟨hfinal, hneeded'⟩ := h'.accounted hafter
    refine ⟨hfinal, fun hne => ?_⟩
    by_cases hsame : final.state.entries = after.state.entries
    · have hused : final.state.usedBytes = after.state.usedBytes := by rw [hfinal, hafter, hsame]
      rw [hsame, hused]
      exact hneeded (hsame ▸ hne)
    · obtain ⟨gone, hgone, hnot, hexceeds⟩ := hneeded' hsame
      exact ⟨gone, h.kept.subset hgone, hnot, hexceeds⟩

end Rounds

/-- Files are only removed. -/
def KeepsFiles (before after : List (δ × Bytes)) : Prop :=
  ∀ name file, get after name = some file → get before name = some file

theorem keepsFiles_refl (files : List (δ × Bytes)) : KeepsFiles files files := fun _ _ h => h

theorem KeepsFiles.trans {first second third : List (δ × Bytes)} (h : KeepsFiles first second)
    (h' : KeepsFiles second third) : KeepsFiles first third :=
  fun name file hfile => h name file (h' name file hfile)

theorem keepsFiles_evictEntry (disk : CacheDisk δ) (key : δ) (entry : CacheEntry) :
    KeepsFiles disk.files (evictEntry disk key entry).files := by
  intro name file h
  rw [get_files_evictEntry] at h
  split at h
  · cases h
  · exact h

/-- Evictions only remove files. -/
theorem keepsFiles_evictLocked (refuses : δ → Bool) (maxBytes : Nat) (disk : CacheDisk δ) :
    KeepsFiles disk.files (finalState (evictLocked refuses maxBytes disk)).files := by
  fun_induction evictLocked refuses maxBytes disk with
  | case1 disk => exact keepsFiles_refl _
  | case2 disk => exact keepsFiles_refl _
  | case3 disk => exact keepsFiles_refl _
  | case4 disk _ key entry _ _ ih => exact (keepsFiles_evictEntry disk key entry).trans ih

/-- So do removals. -/
theorem keepsFiles_removeEntry (refuses : δ → Bool) (cacheKey : δ) (disk : CacheDisk δ) :
    KeepsFiles disk.files (finalState ((removeEntry refuses cacheKey).run disk)).files := by
  change KeepsFiles disk.files (finalState (removeEntry refuses cacheKey disk)).files
  rw [removeEntry]
  split
  · exact keepsFiles_refl _
  · split
    · exact keepsFiles_refl _
    · exact keepsFiles_evictEntry _ _ _

end Eviction

/-! ## Names of chunks -/

/-- Texts are split at the first NUL. -/
theorem split_at_nul {key key' rest rest' : Str} (hkey : '\x00' ∉ key) (hkey' : '\x00' ∉ key')
    (h : key ++ '\x00' :: rest = key' ++ '\x00' :: rest') : key = key' ∧ rest = rest' := by
  induction key generalizing key' with
  | nil =>
    cases key' with
    | nil => simpa using h
    | cons c tail => grind
  | cons c tail ih =>
    cases key' with
    | nil => grind
    | cons c' tail' => grind

theorem nul_not_mem_decimal (value : Nat) : '\x00' ∉ decimal value := by
  intro hmem
  have hdigit := Nat.isDigit_of_mem_toDigits (by decide) (by decide) hmem
  exact absurd hdigit (by decide)

theorem decimal_injective : Function.Injective decimal := by
  intro left right h
  have hparsed := congrArg (fun digits => Nat.ofDigitChars 10 digits 0) h
  simpa [decimal] using hparsed

/-- Chunks of objects whose keys have no NUL character are told apart. -/
theorem identity_injective {key key' token token' : Str} {index index' : Nat}
    (hkey : '\x00' ∉ key) (hkey' : '\x00' ∉ key')
    (h : identity key token index = identity key' token' index') :
    key = key' ∧ token = token' ∧ index = index' := by
  have htext := Option.some.inj ((fromUtf8_utf8 _).symm.trans ((congrArg fromUtf8 h).trans
    (fromUtf8_utf8 _)))
  obtain ⟨rfl, hrest⟩ := split_at_nul hkey hkey' htext
  -- the digits hold no NUL character, so the last one ends the token
  have hreversed := congrArg reverse hrest
  simp only [reverse_append, reverse_cons, append_assoc, singleton_append] at hreversed
  obtain ⟨hdigits, htoken⟩ := split_at_nul (by simpa using nul_not_mem_decimal index)
    (by simpa using nul_not_mem_decimal index') hreversed
  exact ⟨rfl, reverse_injective htoken, decimal_injective (reverse_injective hdigits)⟩

/-! ## Reads of immutable objects -/

/-- Immutable objects: the key and the version determine the bytes of those stored. -/
structure ImmutableObjects where
  stored : Str → Str → Prop
  content : Str → Str → Bytes
  length_lt : ∀ key token, (content key token).length < 2 ^ 64

/-- The metadata and the ranges the store returns for a request are those of the
object. -/
structure ReadRequest.Honest (objects : ImmutableObjects) (request : ReadRequest) : Prop where
  stored : objects.stored request.objectKey request.metadata.versionToken
  bytes : request.metadata.bytes =
    (objects.content request.objectKey request.metadata.versionToken).length
  getRange : ∀ start stop bytes, request.getRange start stop = .ok bytes →
    bytes = slice (objects.content request.objectKey request.metadata.versionToken) start stop

/-- The bytes a request asks for. -/
def ReadRequest.expected (objects : ImmutableObjects) (request : ReadRequest) : Bytes :=
  slice (objects.content request.objectKey request.metadata.versionToken) request.start request.stop

section Transparency

variable {δ : Type} [LinearOrder δ] (hashes : CacheHashes δ) (objects : ImmutableObjects)
  (chunkBytes : Nat)

/-- The stored objects have a chunk with this number. -/
def HasChunk (key token : Str) (index : Nat) : Prop :=
  objects.stored key token ∧ index * chunkBytes < (objects.content key token).length

/-- The hash tells the names of the chunks of the stored objects apart. -/
def NamesApart : Prop :=
  ∀ key token index key' token' index', HasChunk objects chunkBytes key token index →
    HasChunk objects chunkBytes key' token' index' →
    hashes.checksumBytes (identity key token index) =
      hashes.checksumBytes (identity key' token' index') →
    identity key token index = identity key' token' index'

/-- Every file that verifies holds the chunk its name stands for. -/
def Holds (files : List (δ × Bytes)) : Prop :=
  ∀ key token index payload, '\x00' ∉ key → HasChunk objects chunkBytes key token index →
    readCacheChunk hashes (get files (hashes.checksumBytes (identity key token index))) =
      .ok payload →
    payload = piece chunkBytes (objects.content key token) index

abbrev DiskHolds (disk : CacheDisk δ) : Prop := Holds hashes objects chunkBytes disk.files

variable {hashes objects chunkBytes}

theorem holds_nil : Holds hashes objects chunkBytes [] := by
  intro key token index payload _ _ h
  cases h

/-- Removing files keeps the others. -/
theorem Holds.of_keepsFiles {before after : List (δ × Bytes)}
    (h : Holds hashes objects chunkBytes before) (hkeeps : KeepsFiles before after) :
    Holds hashes objects chunkBytes after := by
  intro key token index payload hkey hchunk hread
  cases hfile : get after (hashes.checksumBytes (identity key token index)) with
  | none =>
    rw [hfile] at hread
    cases hread
  | some file =>
    rw [hfile, ← hkeeps _ _ hfile] at hread
    exact h key token index payload hkey hchunk hread

/-- Removing files does no harm. -/
theorem triple_of_keepsFiles {program : CacheM δ PUnit}
    (h : ∀ disk, KeepsFiles disk.files (finalState (program.run disk)).files) :
    Triple (DiskHolds hashes objects chunkBytes) program
      (fun _ => DiskHolds hashes objects chunkBytes) (DiskHolds hashes objects chunkBytes) :=
  triple_of_finalState fun disk hholds => hholds.of_keepsFiles (h disk)

variable (hnames : NamesApart hashes objects chunkBytes)

include hnames in
/-- Writing the chunk that a name stands for. -/
theorem Holds.insert_frame
    {files : List (δ × Bytes)} (h : Holds hashes objects chunkBytes files) {key token : Str}
    {index : Nat} (hkey : '\x00' ∉ key) (hchunk : HasChunk objects chunkBytes key token index)
    {bytes : Bytes} (hbytes : bytes = piece chunkBytes (objects.content key token) index) :
    Holds hashes objects chunkBytes (insert files
      (hashes.checksumBytes (identity key token index)) (frameChunk hashes bytes)) := by
  intro other otherToken otherIndex payload hother hotherChunk hread
  rw [get_insert] at hread
  split at hread
  · rename_i hname
    obtain ⟨rfl, rfl, rfl⟩ := identity_injective hother hkey
      (hnames _ _ _ _ _ _ hotherChunk hchunk hname)
    exact (eq_of_readCacheChunk hashes hread).trans hbytes
  · exact h other otherToken otherIndex payload hother hotherChunk hread

variable {config : SsdCacheConfig} {request : ReadRequest} {refuses : δ → Bool}

/-- Neither does a lookup. -/
theorem triple_cacheHit (cacheKey : δ) :
    Triple (DiskHolds hashes objects chunkBytes) (cacheHit cacheKey)
      (fun _ => DiskHolds hashes objects chunkBytes)
      (DiskHolds hashes objects chunkBytes) := by
  refine triple_modifyGet fun disk hholds => ?_
  split <;> exact hholds

/-- A cached chunk is the one its name stands for. -/
theorem triple_lookupChunk {key token : Str} {index : Nat} (hkey : '\x00' ∉ key)
    (hchunk : HasChunk objects chunkBytes key token index) (length : Nat) :
    Triple (DiskHolds hashes objects chunkBytes)
      (lookupChunk refuses hashes (hashes.checksumBytes (identity key token index)) length)
      (fun found disk => DiskHolds hashes objects chunkBytes disk ∧
        ∀ bytes, found = some bytes → bytes = piece chunkBytes (objects.content key token) index)
      (DiskHolds hashes objects chunkBytes) := by
  have hremoved : Triple (DiskHolds hashes objects chunkBytes)
      (do
        removeEntry refuses (hashes.checksumBytes (identity key token index))
        pure none)
      (fun (found : Option Bytes) disk => DiskHolds hashes objects chunkBytes disk ∧
        ∀ bytes, found = some bytes → bytes = piece chunkBytes (objects.content key token) index)
      (DiskHolds hashes objects chunkBytes) :=
    (triple_of_keepsFiles (keepsFiles_removeEntry refuses _)).bind _ fun _ =>
      triple_pure fun disk hholds => ⟨hholds, by simp⟩
  refine (triple_cacheHit _).bind _ fun hit => ?_
  cases hit with
  | false => exact triple_pure fun disk hholds => ⟨hholds, by simp⟩
  | true =>
    refine triple_get_bind fun current hcurrent => ?_
    cases hread : readCacheChunk hashes
        (get current.files (hashes.checksumBytes (identity key token index))) with
    | error e => exact hremoved.consequence fun _ hstate => hstate.2
    | ok bytes =>
      dsimp only
      split
      · refine triple_pure fun disk hstate => ⟨hstate.2, fun found hfound => ?_⟩
        cases hfound
        exact hcurrent key token index bytes hkey hchunk hread
      · exact hremoved.consequence fun _ hstate => hstate.2

include hnames

/-- Neither does installing the right chunk. -/
theorem triple_installChunk {key token : Str} {index : Nat} (hkey : '\x00' ∉ key)
    (hchunk : HasChunk objects chunkBytes key token index) {bytes : Bytes}
    (hbytes : bytes = piece chunkBytes (objects.content key token) index) :
    Triple (DiskHolds hashes objects chunkBytes)
      (installChunk refuses hashes config (hashes.checksumBytes (identity key token index)) bytes)
      (fun _ => DiskHolds hashes objects chunkBytes)
      (DiskHolds hashes objects chunkBytes) := by
  refine triple_of_finalState fun disk hholds => ?_
  change DiskHolds hashes objects chunkBytes (finalState (installChunk _ _ _ _ _ disk))
  dsimp only [installChunk]
  split
  · exact hholds
  · exact (hholds.insert_frame hnames hkey hchunk hbytes).of_keepsFiles
      (keepsFiles_evictLocked _ _ _)

section

variable (hhonest : request.Honest objects)

include hhonest

/-- A chunk that is loaded or fetched is the chunk of the object. -/
theorem triple_loadOrFetchChunk (hkey : '\x00' ∉ request.objectKey) {index : Nat}
    (hindex : index * chunkBytes < request.metadata.bytes) :
    Triple (DiskHolds hashes objects chunkBytes)
      (loadOrFetchChunk refuses hashes config request index (index * chunkBytes)
        (min ((index + 1) * chunkBytes) request.metadata.bytes))
      (fun bytes disk => DiskHolds hashes objects chunkBytes disk ∧ bytes =
        piece chunkBytes (objects.content request.objectKey request.metadata.versionToken) index)
      (DiskHolds hashes objects chunkBytes) := by
  have hchunk : HasChunk objects chunkBytes request.objectKey request.metadata.versionToken index :=
    ⟨hhonest.stored, hhonest.bytes ▸ hindex⟩
  refine (triple_lookupChunk hkey hchunk _).bind _ fun found => ?_
  cases found with
  | some bytes => exact triple_pure fun disk hstate => ⟨hstate.1, hstate.2 bytes rfl⟩
  | none =>
    refine triple_liftResult_bind (fun disk hstate => hstate.1) fun bytes hrange => ?_
    have hbytes : bytes = piece chunkBytes
        (objects.content request.objectKey request.metadata.versionToken) index := by
      rw [hhonest.getRange _ _ bytes hrange, hhonest.bytes]
      rfl
    refine Triple.bind _ ((triple_installChunk hnames hkey hchunk hbytes).consequence
      fun _ hstate => hstate.1) fun _ => ?_
    exact triple_pure fun disk hholds => ⟨hholds, hbytes⟩

/-- The loop returns the parts of the chunks that lie in the range. -/
theorem triple_readChunks (hkey : '\x00' ∉ request.objectKey)
    (hsize : config.chunkBytes = chunkBytes) (indices : List Nat)
    (hindices : ∀ index ∈ indices, index * chunkBytes < request.metadata.bytes) :
    Triple (DiskHolds hashes objects chunkBytes) (readChunks refuses hashes config request indices)
      (fun bytes disk => DiskHolds hashes objects chunkBytes disk ∧ bytes =
        (indices.map (common chunkBytes
          (objects.content request.objectKey request.metadata.versionToken) request.start
          request.stop)).flatten)
      (DiskHolds hashes objects chunkBytes) := by
  subst hsize
  induction indices with
  | nil => exact triple_pure fun disk hholds => ⟨hholds, rfl⟩
  | cons index rest ih =>
    have hend : min (saturatingAdd (index * config.chunkBytes) config.chunkBytes)
        request.metadata.bytes = min ((index + 1) * config.chunkBytes) request.metadata.bytes := by
      have hlt := objects.length_lt request.objectKey request.metadata.versionToken
      rw [← hhonest.bytes] at hlt
      rw [saturatingAdd, Nat.succ_mul]
      omega
    refine triple_liftResult_bind (fun _ hholds => hholds) fun _ _ => ?_
    rw [hend]
    have hindex := hindices index mem_cons_self
    have hrest := ih fun later hlater => hindices later (mem_cons_of_mem _ hlater)
    refine (triple_loadOrFetchChunk hnames hhonest hkey hindex).bind _ fun chunk => ?_
    refine Triple.consequence (triple_of_and fun hchunk => hrest.bind _ fun later => ?_)
      fun disk hstate => ⟨hstate.2, hstate.1⟩
    refine triple_pure fun disk hstate => ⟨hstate.1, ?_⟩
    rw [map_cons, flatten_cons, hstate.2, hchunk, hhonest.bytes]
    rfl

/-- Over chunks of the size of the cache, a read returns the bytes of the object. -/
theorem triple_readRangeWithMetadata (hkey : '\x00' ∉ request.objectKey)
    (hsize : config.chunkBytes = chunkBytes) (hpositive : chunkBytes ≠ 0) :
    Triple (DiskHolds hashes objects chunkBytes)
      (readRangeWithMetadata refuses hashes config request)
      (fun bytes disk => DiskHolds hashes objects chunkBytes disk ∧
        bytes = request.expected objects)
      (DiskHolds hashes objects chunkBytes) := by
  subst hsize
  refine triple_liftResult_bind (fun _ hholds => hholds) fun _ hreadable => ?_
  have hordered := (ensure_eq_ok_iff.mp hreadable).1
  refine triple_liftResult_bind (fun _ hholds => hholds) fun _ hchecked => ?_
  have hwithin := ensure_eq_ok_iff.mp hchecked
  split
  · rename_i hempty
    refine triple_pure fun disk hholds => ⟨hholds, ?_⟩
    rw [ReadRequest.expected, slice_eq_nil _ hempty.ge]
  · rename_i hne
    have hindices : ∀ index ∈ List.range' (request.start / config.chunkBytes)
        ((request.stop - 1) / config.chunkBytes - request.start / config.chunkBytes + 1),
        index * config.chunkBytes < request.metadata.bytes := by
      intro index hindex
      have hlast : index ≤ (request.stop - 1) / config.chunkBytes := by
        have hfirst := Nat.div_le_div_right (c := config.chunkBytes)
          (show request.start ≤ request.stop - 1 by omega)
        have hrange := List.mem_range'_1.mp hindex
        omega
      have hbelow := (Nat.mul_le_mul_right config.chunkBytes hlast).trans
        (Nat.div_mul_le_self (request.stop - 1) config.chunkBytes)
      omega
    refine (triple_readChunks hnames hhonest hkey rfl _ hindices).consequence (fun _ h => h)
      fun bytes disk hstate => ⟨hstate.1, ?_⟩
    rw [hstate.2]
    exact flatten_pieces (Nat.pos_of_ne_zero hpositive) (lt_of_le_of_ne hordered hne)
      (hhonest.bytes ▸ hwithin)

end

end Transparency

/-! ## Runs over one directory -/

/-- Where a read takes the metadata of its object from. -/
inductive MetadataSource where
  | manifest (metadata : ObjectMetadata)
  | head (answer : LogDbResult (Option ObjectMetadata))

/-- What happens to a directory and to the caches opened on it, and the files that the
file system refuses to remove meanwhile. -/
inductive CacheEvent (δ : Type) where
  | opens (config : SsdCacheConfig) (refuses : δ → Bool)
  | reads (cache : Nat) (source : MetadataSource) (request : ReadRequest) (refuses : δ → Bool)
  | changes (files : List (δ × Bytes))

/-- A directory and all caches that were opened on it. -/
structure CacheWorld (δ : Type) where
  files : List (δ × Bytes) := []
  caches : List (SsdObjectCache δ) := []

section Runs

variable {δ : Type} [LinearOrder δ] (hashes : CacheHashes δ)

/-- The program of a read; the metadata of the manifest, or of the store, replaces the
one in the request. -/
def readProgram (refuses : δ → Bool) (config : SsdCacheConfig) (source : MetadataSource)
    (request : ReadRequest) : CacheM δ Bytes :=
  match source with
  | .manifest metadata => readRangeWithMetadata refuses hashes config { request with
      metadata := metadata }
  | .head answer => readRange refuses hashes config answer request

/-- The result of a read and the world after an event. -/
def stepCache (world : CacheWorld δ) : CacheEvent δ → Option (LogDbResult Bytes) × CacheWorld δ
  | .opens config refuses =>
    match openCache refuses config world.files with
    | (.error _, files) => (none, { world with files := files })
    | (.ok cache, files) => (none, ⟨files, world.caches ++ [cache]⟩)
  | .reads cache source request refuses =>
    match world.caches[cache]? with
    | none => (none, world)
    | some opened =>
      match (readProgram hashes refuses opened.config source request).run
          ⟨opened.state, world.files⟩ with
      | .ok bytes disk => (some (.ok bytes),
          ⟨disk.files, world.caches.set cache ⟨opened.config, disk.state⟩⟩)
      | .error e disk => (some (.error e),
          ⟨disk.files, world.caches.set cache ⟨opened.config, disk.state⟩⟩)
  | .changes files => (none, { world with
      files := files })

/-- The metadata a read works with. -/
def MetadataSource.metadata : MetadataSource → Option ObjectMetadata
  | .manifest metadata => some metadata
  | .head (.ok found) => found
  | .head (.error _) => none

/-- The store answers for immutable objects. -/
def CacheEvent.Honest (objects : ImmutableObjects) : CacheEvent δ → Prop
  | .reads _ source request _ => ∀ metadata, source.metadata = some metadata →
      ReadRequest.Honest objects { request with
        metadata := metadata }
  | _ => True

/-- A read that succeeds returns the bytes of the object. -/
def CacheEvent.Exact (objects : ImmutableObjects) (world : CacheWorld δ) : CacheEvent δ → Prop
  | .reads cache source request refuses => ∀ bytes,
      (stepCache hashes world (.reads cache source request refuses)).1 = some (.ok bytes) →
      ∃ metadata, source.metadata = some metadata ∧
        bytes = ReadRequest.expected objects { request with
          metadata := metadata }
  | _ => True

/-- All caches use one chunk size, object keys have no NUL, and a file changed from outside is
unverifiable, gone, or the chunk it is named after. -/
def CacheEvent.Consistent (objects : ImmutableObjects) (chunkBytes : Nat)
    (world : CacheWorld δ) :
    CacheEvent δ → Prop
  | .opens config _ => config.chunkBytes = chunkBytes
  | .reads _ _ request _ => '\x00' ∉ request.objectKey
  | .changes files => ∀ name payload, readCacheChunk hashes (get files name) = .ok payload →
      get files name = get world.files name ∨
        ∀ key token index, '\x00' ∉ key → HasChunk objects chunkBytes key token index →
          name = hashes.checksumBytes (identity key token index) →
          payload = piece chunkBytes (objects.content key token) index

/-- Worlds reached from an empty directory by events that satisfy a condition. -/
inductive CacheReachable (condition : CacheWorld δ → CacheEvent δ → Prop) : CacheWorld δ → Prop
  | start : CacheReachable condition {}
  | step {world : CacheWorld δ} {event : CacheEvent δ} : CacheReachable condition world →
      condition world event → CacheReachable condition (stepCache hashes world event).2

variable {hashes} {objects : ImmutableObjects} {chunkBytes : Nat}
  (hnames : NamesApart hashes objects chunkBytes)

/-- What holds in every world reached with one size of chunks. -/
structure CacheInvariant (hashes : CacheHashes δ) (objects : ImmutableObjects) (chunkBytes : Nat)
    (world : CacheWorld δ) : Prop where
  holds : Holds hashes objects chunkBytes world.files
  size : ∀ cache ∈ world.caches, cache.config.chunkBytes = chunkBytes ∧ chunkBytes ≠ 0

include hnames in
/-- A read keeps the files right and returns the bytes of the object. -/
theorem triple_readProgram {refuses : δ → Bool} {config : SsdCacheConfig} {source : MetadataSource}
    {request : ReadRequest}
    (hhonest : ∀ metadata, source.metadata = some metadata → ReadRequest.Honest objects { request with
      metadata := metadata })
    (hkey : '\x00' ∉ request.objectKey) (hsize : config.chunkBytes = chunkBytes)
    (hpositive : chunkBytes ≠ 0) :
    Triple (DiskHolds hashes objects chunkBytes) (readProgram hashes refuses config source request)
      (fun bytes disk => DiskHolds hashes objects chunkBytes disk ∧
        ∃ metadata, source.metadata = some metadata ∧
          bytes = ReadRequest.expected objects { request with
            metadata := metadata })
      (DiskHolds hashes objects chunkBytes) := by
  cases source with
  | manifest metadata =>
    exact (triple_readRangeWithMetadata hnames (hhonest metadata rfl) hkey hsize
      hpositive).consequence (fun _ h => h) fun _ _ h => ⟨h.1, metadata, rfl, h.2⟩
  | head answer =>
    refine triple_liftResult_bind (fun _ h => h) fun _ _ => ?_
    refine triple_liftResult_bind (fun _ h => h) fun found hanswer => ?_
    subst hanswer
    cases found with
    | none => exact triple_throw fun _ h => h
    | some metadata =>
      exact (triple_readRangeWithMetadata hnames (hhonest metadata rfl) hkey hsize
        hpositive).consequence (fun _ h => h) fun _ _ h => ⟨h.1, metadata, rfl, h.2⟩

/-- An open removes files only, and leaves a cache of the configuration. -/
theorem openCache_spec (refuses : δ → Bool) (config : SsdCacheConfig) (files : List (δ × Bytes)) :
    KeepsFiles files (openCache refuses config files).2 ∧
      ∀ cache, (openCache refuses config files).1 = .ok cache →
        cache.config = config ∧ config.chunkBytes ≠ 0 := by
  rw [openCache]
  cases hvalid : config.validate with
  | error e => exact ⟨keepsFiles_refl _, nofun⟩
  | ok _ =>
    obtain ⟨_, hlimits, _⟩ := bind_eq_ok_iff.mp hvalid
    have hchunk := (ensure_eq_ok_iff.mp hlimits).2.1
    have hkeeps := keepsFiles_evictLocked refuses config.maxBytes
      { state :=
          { entries := files.map fun file => (file.1, ⟨file.2.length, 0⟩)
            usedBytes := files.foldl (fun used file => saturatingAdd used file.2.length) 0 }
        files := files }
    dsimp only
    split
    · rename_i hrun
      rw [hrun] at hkeeps
      exact ⟨hkeeps, fun cache hcache => by cases hcache; exact ⟨rfl, hchunk⟩⟩
    · rename_i hrun
      rw [hrun] at hkeeps
      exact ⟨hkeeps, nofun⟩

include hnames in
/-- One event keeps the invariant, and a read returns the bytes of the object. -/
theorem CacheInvariant.step {world : CacheWorld δ} {event : CacheEvent δ}
    (h : CacheInvariant hashes objects chunkBytes world)
    (hhonest : event.Honest objects) (hconsistent : event.Consistent hashes objects chunkBytes world) :
    CacheInvariant hashes objects chunkBytes (stepCache hashes world event).2 ∧
      event.Exact hashes objects world := by
  cases event with
  | opens config refuses =>
    refine ⟨?_, trivial⟩
    obtain ⟨hkeeps, hopened⟩ := openCache_spec refuses config world.files
    rw [stepCache]
    split
    · rename_i hopen
      rw [hopen] at hkeeps
      exact ⟨h.holds.of_keepsFiles hkeeps, h.size⟩
    · rename_i cache files hopen
      rw [hopen] at hkeeps hopened
      obtain ⟨hconfig, hpositive⟩ := hopened cache rfl
      refine ⟨h.holds.of_keepsFiles hkeeps,
        forall_mem_append.mpr ⟨h.size, forall_mem_singleton.mpr ?_⟩⟩
      rw [hconfig]
      exact ⟨hconsistent, hconsistent ▸ hpositive⟩
  | reads cache source request refuses =>
    cases hopened : world.caches[cache]? with
    | none =>
      refine ⟨?_, fun bytes hbytes => ?_⟩
      · rw [stepCache, hopened]
        exact h
      · rw [stepCache, hopened] at hbytes
        cases hbytes
    | some opened =>
      obtain ⟨hsize, hpositive⟩ := h.size opened (mem_of_getElem? hopened)
      have htriple := @triple_readProgram _ _ _ _ _ hnames refuses _ _ _ hhonest hconsistent hsize
        hpositive ⟨opened.state, world.files⟩ h.holds
      have hcaches : ∀ state : CacheState δ, ∀ other ∈ world.caches.set cache
          ⟨opened.config, state⟩, other.config.chunkBytes = chunkBytes ∧ chunkBytes ≠ 0 := by
        intro state other hother
        rcases mem_or_eq_of_mem_set hother with hold | rfl
        · exact h.size other hold
        · exact ⟨hsize, hpositive⟩
      cases hrun : (readProgram hashes refuses opened.config source request).run
          ⟨opened.state, world.files⟩ with
      | ok bytes disk =>
        have hstep : stepCache hashes world (.reads cache source request refuses) = (some (.ok bytes),
              ⟨disk.files, world.caches.set cache ⟨opened.config, disk.state⟩⟩) := by
          rw [stepCache, hopened]
          dsimp only
          rw [hrun]
        rw [hrun] at htriple
        refine ⟨by rw [hstep]; exact ⟨htriple.1, hcaches disk.state⟩, fun found hfound => ?_⟩
        rw [hstep] at hfound
        cases hfound
        exact htriple.2
      | error e disk =>
        have hstep : stepCache hashes world (.reads cache source request refuses) = (some (.error e),
              ⟨disk.files, world.caches.set cache ⟨opened.config, disk.state⟩⟩) := by
          rw [stepCache, hopened]
          dsimp only
          rw [hrun]
        rw [hrun] at htriple
        refine ⟨by rw [hstep]; exact ⟨htriple, hcaches disk.state⟩, fun found hfound => ?_⟩
        rw [hstep] at hfound
        cases hfound
  | changes files =>
    refine ⟨⟨fun key token index payload hkey hchunk hread => ?_, h.size⟩, trivial⟩
    rcases hconsistent _ payload hread with hsame | hnamed
    · exact h.holds key token index payload hkey hchunk (hsame ▸ hread)
    · exact hnamed key token index hkey hchunk rfl

include hnames in
/-- The invariant holds over a run. -/
theorem cacheInvariant_of_reachable {world : CacheWorld δ}
    (hrun : CacheReachable hashes (fun world event => event.Honest objects ∧
      event.Consistent hashes objects chunkBytes world) world) :
    CacheInvariant hashes objects chunkBytes world := by
  induction hrun with
  | start => exact ⟨holds_nil, by simp⟩
  | step _ hcondition ih => exact (ih.step hnames hcondition.1 hcondition.2).1

/-- In every run over one size of chunks, each successful read returns exactly the
bytes of the object. -/
theorem read_transparent (hnames : NamesApart hashes objects chunkBytes)
    {world : CacheWorld δ} {event : CacheEvent δ}
    (hrun : CacheReachable hashes (fun world event => event.Honest objects ∧
      event.Consistent hashes objects chunkBytes world) world)
    (hhonest : event.Honest objects) (hconsistent : event.Consistent hashes objects chunkBytes world) :
    event.Exact hashes objects world :=
  ((cacheInvariant_of_reachable hnames hrun).step hnames hhonest hconsistent).2

end Runs

/-! ## Two sizes of chunks -/

/-- A stand-in for the hash that names a file by what it hashes. -/
def plainHashes : CacheHashes (List Nat) where
  checksumBytes bytes := bytes.map UInt8.toNat
  hash bytes := List.replicate 31 0 ++ [(bytes.foldl (· + ·) 0)]
  length_hash _ := by simp

/-- One object of three bytes. -/
def threeBytes : ImmutableObjects where
  stored key token := key = "k".toList ∧ token = "v".toList
  content _ _ := [10, 20, 30]
  length_lt _ _ := by decide

theorem namesApart_threeBytes (chunkBytes : Nat) : NamesApart plainHashes threeBytes chunkBytes :=
  fun _ _ _ _ _ _ _ _ h => map_injective_iff.mpr (fun _ _ h => UInt8.toNat_inj.mp h) h

def threeMetadata : ObjectMetadata := ⟨3, "v".toList, []⟩

def cacheOf (chunkBytes : Nat) : CacheEvent (List Nat) :=
  .opens ⟨1000, chunkBytes, 1000⟩ fun _ => false

/-- A read of the object through the cache with a number, with the answer of the store. -/
def readThree (cache start stop : Nat)
    (getRange : Nat → Nat → LogDbResult Bytes := fun start stop =>
      .ok (slice [10, 20, 30] start stop)) : CacheEvent (List Nat) :=
  .reads cache (.manifest threeMetadata)
    { objectKey := "k".toList
      metadata := threeMetadata
      getRange := getRange
      start := start
      stop := stop } fun _ => false

theorem honest_readThree (cache start stop : Nat) : (readThree cache start stop).Honest threeBytes := by
  intro metadata hmetadata
  cases hmetadata
  exact ⟨⟨rfl, rfl⟩, rfl, fun _ _ _ h => (Except.ok.inj h).symm⟩

/-- The directory after the last byte was read in chunks of two bytes and the cache was opened with
chunks of another size. -/
def reopenedWorld (chunkBytes : Nat) : CacheWorld (List Nat) :=
  (stepCache plainHashes (stepCache plainHashes (stepCache plainHashes {} (cacheOf 2)).2
    (readThree 0 2 3)).2 (cacheOf chunkBytes)).2

/-- The chunk of the last byte has the name and the length of the chunk of the second
byte, which is then read as the last one. -/
theorem reopened_cache_returns_other_byte :
    CacheReachable plainHashes (fun _ event => event.Honest threeBytes) (reopenedWorld 1) ∧
      (readThree 1 1 2).Honest threeBytes ∧
      (stepCache plainHashes (reopenedWorld 1) (readThree 1 1 2)).1 = some (.ok [30]) ∧
      ¬(readThree 1 1 2).Exact plainHashes threeBytes (reopenedWorld 1) := by
  have hread : (stepCache plainHashes (reopenedWorld 1) (readThree 1 1 2)).1 =
      some (.ok [30]) := by decide +kernel
  refine ⟨?_, honest_readThree 1 1 2, hread, fun hexact => ?_⟩
  · have hfirst : CacheReachable plainHashes (fun _ event => event.Honest threeBytes)
        (stepCache plainHashes {} (cacheOf 2)).2 := .step .start trivial
    exact .step (.step hfirst (honest_readThree 0 2 3)) trivial
  · obtain ⟨metadata, hmetadata, hbytes⟩ := hexact [30] hread
    cases hmetadata
    exact absurd hbytes (by decide +kernel)

/-- Reopened with the same chunk size, the cache reads the last byte from its file, though the store
does not answer. -/
theorem cached_byte_is_exact :
    let read := readThree 1 2 3 fun _ _ => .error (.objectStore "unavailable")
    (stepCache plainHashes (reopenedWorld 2) read).1 = some (.ok [30]) ∧
      read.Exact plainHashes threeBytes (reopenedWorld 2) := by
  intro read
  have hkey : '\x00' ∉ "k".toList := by decide
  have hhonest : read.Honest threeBytes := by
    intro metadata hmetadata
    cases hmetadata
    exact ⟨⟨rfl, rfl⟩, rfl, nofun⟩
  have hfirst : CacheReachable plainHashes (fun world event => event.Honest threeBytes ∧
      event.Consistent plainHashes threeBytes 2 world) (stepCache plainHashes {} (cacheOf 2)).2 :=
    .step .start ⟨trivial, rfl⟩
  have hreopened : CacheReachable plainHashes (fun world event => event.Honest threeBytes ∧
      event.Consistent plainHashes threeBytes 2 world) (reopenedWorld 2) :=
    .step (.step hfirst ⟨honest_readThree 0 2 3, hkey⟩) ⟨trivial, rfl⟩
  exact ⟨by decide +kernel, read_transparent (namesApart_threeBytes 2) hreopened hhonest hkey⟩

end ShardLog.Tier
