import ShardLog.Persistent.Posting
import ShardLog.Persistent.Trigrams
import ShardLog.Structural.Index

/-!
# Persistent index - The index of one block

Exact postings of the normalized terms and of the metadata fields of the records
of a block, built with a cache of analyzed messages and a cache of numbered terms.

Main results:

- Theorem `build_eq_ok_iff`: building succeeds on every block of less than 2^32
  records whose fields can be read, and gives the naive index.
-/

namespace ShardLog.Persistent

open List hiding erase get insert

open ByteReader Utf8 AssocMap PostingList
open Structural (pushDistinct mem_pushDistinct rotateLeft fnvBytes)
open Sorted (ordinalsWith mem_ordinalsWith ordinalsWith_append_replicate ordinalsWith_eq_nil
  pairwise_ordinalsWith)

/-! ## Caches -/

def messageTermCacheEntries : Nat := 1024

def termCacheEntries : Nat := 4096

def littleEndianU64 (bytes : Bytes) : UInt64 := UInt64.ofNat (Integers.fromLeBytes bytes)

/-- Slot of a message in the cache of analyzed messages. -/
def messageTermCacheSlot (message : Bytes) : Nat :=
  let seed := UInt64.ofNat message.length ^^^ 0x9e3779b97f4a7c15
  let mixed :=
    if 16 ≤ message.length then
      seed ^^^ (rotateLeft (littleEndianU64 (message.take 8)) 17 ^^^
        rotateLeft (littleEndianU64 (message.drop (message.length - 8))) 41)
    else fnvBytes seed message
  let folded := (mixed ^^^ (mixed >>> 33)) * 0xff51afd7ed558ccd
  folded.toNat % messageTermCacheEntries

/-- Slot of a term in the cache of numbered terms. -/
def termCacheSlot (term : Bytes) : Nat :=
  let seed := UInt64.ofNat term.length ^^^ 0x517cc1b727220a95
  let first := match term.head? with
    | some byte => seed ^^^ (byte.toUInt64 <<< 8)
    | none => seed
  let last := match term.getLast? with
    | some byte => first ^^^ (byte.toUInt64 <<< 24)
    | none => first
  let mixed :=
    if 8 ≤ term.length then last ^^^ littleEndianU64 (term.take 8) else fnvBytes last term
  (mixed ^^^ (mixed >>> 32)).toNat % termCacheEntries

variable (tables : UnicodeTables)

/-- Whether a stored term is the index key of a scanned term. -/
def termMatchesCached (indexed observed : Str) : Bool :=
  if isAscii observed then eqIgnoreAsciiCase indexed observed
  else normalizeTerm tables observed == indexed

/-! ## Building -/

/-- Postings of one block and the filter of its messages. Nested maps of the source are maps from
pairs. -/
structure BlockQueryIndex where
  recordCount : Nat
  messageTrigrams : MessageTrigramFilter
  termPostings : List (Str × PostingList)
  fieldPostings : List ((Str × Str) × PostingList)

/-- Numbers of the terms of a message analyzed before. -/
structure CachedMessageTerms where
  message : Str
  termIds : List Nat
deriving DecidableEq, Repr

/-- The local variables of the building loop. -/
structure BlockIndexBuilder where
  termIds : List (Str × Nat) := []
  termEntries : List (Str × List Nat) := []
  messageCache : Nat → Option CachedMessageTerms := fun _ => none
  termCache : Nat → Option Nat := fun _ => none
  messageTrigrams : MessageTrigramFilter := .new
  fieldPostings : List ((Str × Str) × List Nat) := []

namespace BlockIndexBuilder

/-- The cached number of a term, if the slot holds this term. -/
def cachedTermId (builder : BlockIndexBuilder) (term : Str) : Option Nat :=
  (builder.termCache (termCacheSlot (utf8 term))).filter fun termId =>
    builder.termEntries[termId]?.any fun entry => termMatchesCached tables entry.1 term

/-- The number of a term; a new term gets an empty posting list. -/
def internTerm (builder : BlockIndexBuilder) (term : Str) : Nat × BlockIndexBuilder :=
  match builder.cachedTermId tables term with
  | some termId => (termId, builder)
  | none =>
    let normalized := normalizeTerm tables term
    let cached (termId : Nat) :=
      Function.update builder.termCache (termCacheSlot (utf8 term)) (some termId)
    match get builder.termIds normalized with
    | some termId => (termId, { builder with termCache := cached termId })
    | none =>
      let termId := builder.termEntries.length
      (termId,
        { builder with
          termIds := insert builder.termIds normalized termId
          termEntries := builder.termEntries ++ [(normalized, [])]
          termCache := cached termId })

/-- The numbers of scanned terms, in order. -/
def internTerms : List Str → List Nat → BlockIndexBuilder → List Nat × BlockIndexBuilder
  | [], termIds, builder => (termIds, builder)
  | term :: rest, termIds, builder =>
    let interned := builder.internTerm tables term
    internTerms rest (termIds ++ [interned.1]) interned.2

/-- Post a record under numbered terms. -/
def postTerms (builder : BlockIndexBuilder) (termIds : List Nat) (ordinal : Nat) :
    BlockIndexBuilder :=
  { builder with
    termEntries := termIds.foldl
      (fun entries termId => entries.modify termId fun entry =>
        (entry.1, pushDistinct entry.2 ordinal))
      builder.termEntries }

/-- Enter the trigrams of a message and take what its cache slot holds. -/
def observe (builder : BlockIndexBuilder) (message : Str) : BlockIndexBuilder :=
  { builder with
    messageTrigrams := builder.messageTrigrams.insertMessage tables message
    messageCache := Function.update builder.messageCache (messageTermCacheSlot (utf8 message))
      none }

/-- Analyze a message that the cache does not hold. -/
def analyze (builder : BlockIndexBuilder) (message : Str) (ordinal : Nat) : BlockIndexBuilder :=
  let interned := internTerms tables (analyzeMessageTerms tables message) []
    (builder.observe tables message)
  let posted := interned.2.postTerms interned.1 ordinal
  { posted with
    messageCache := Function.update posted.messageCache (messageTermCacheSlot (utf8 message))
      (some ⟨message, interned.1⟩) }

/-- Post a record under the terms of its message. -/
def addMessage (builder : BlockIndexBuilder) (message : Str) (ordinal : Nat) : BlockIndexBuilder :=
  match builder.messageCache (messageTermCacheSlot (utf8 message)) with
  | some cached =>
    if cached.message = message then builder.postTerms cached.termIds ordinal
    else builder.analyze tables message ordinal
  | none => builder.analyze tables message ordinal

end BlockIndexBuilder

open BlockIndexBuilder

/-- Post a record under one field. -/
def postField (ordinal : Nat) (postings : List ((Str × Str) × List Nat)) (field : Str × Str) :
    List ((Str × Str) × List Nat) :=
  update postings field [] fun ordinals => pushDistinct ordinals ordinal

section Build

variable {R : Type} [StructuralRecordView R]

/-- Post a record under its fields. -/
def addFields (postings : List ((Str × Str) × List Nat)) (record : R) (ordinal : Nat) :
    LogDbResult (List ((Str × Str) × List Nat)) :=
  (List.range (structuralFieldCount record)).foldlM
    (fun postings index =>
      match structuralField record index with
      | some field => .ok (postField ordinal postings field)
      | none => .error (.invalidBlockEncoding "record field count changed while indexing"))
    postings

def BlockIndexBuilder.addRecord (builder : BlockIndexBuilder) (entry : R × Nat) :
    LogDbResult BlockIndexBuilder := do
  let ordinal ← tryU32 entry.2
  let builder := builder.addMessage tables (structuralMessage entry.1) ordinal
  let fieldPostings ← addFields builder.fieldPostings entry.1 ordinal
  .ok { builder with fieldPostings := fieldPostings }

/-- Store every list of ordinals as a posting list. -/
def storePostings {κ : Type} (entries : List (κ × List Nat)) :
    LogDbResult (List (κ × PostingList)) :=
  collect (fun entry => do
    let posting ← fromOrdinals entry.2
    .ok (entry.1, posting)) entries

def BlockQueryIndex.build (records : List R) : LogDbResult BlockQueryIndex := do
  let recordCount ← tryU32 records.length
  let builder ← records.zipIdx.foldlM (addRecord tables) {}
  let termPostings ← storePostings builder.termEntries
  let fieldPostings ← storePostings builder.fieldPostings
  .ok {
    recordCount := recordCount
    messageTrigrams := builder.messageTrigrams
    termPostings := termPostings
    fieldPostings := fieldPostings }

end Build

/-! ## Cached terms -/

section CachedTerms

variable {tables} {term : Str}

/-- Lowercasing an index key of ASCII letters changes nothing. -/
theorem map_toAsciiLower_normalizeTerm (laws : tables.Lawful)
    (h : isAscii (normalizeTerm tables term) = true) :
    (normalizeTerm tables term).map toAsciiLower = normalizeTerm tables term := by
  have hlt : ∀ c ∈ normalizeTerm tables term, c.toNat < 128 := by simpa [isAscii] using h
  have hself : ∀ c ∈ normalizeTerm tables term, toAsciiLower c = c := by
    intro c hc
    have hascii := hlt c hc
    unfold normalizeTerm at hc
    split at hc
    · have hstable := (mem_toLowercaseFrom laws hc).1
      rw [laws.ascii_toLower c hascii, cons.injEq] at hstable
      exact hstable.1
    · rename_i hupper
      have hlower : tables.isUppercase c ≠ true := by grind
      rw [laws.ascii_isUppercase c hascii, Ne, decide_eq_true_eq] at hlower
      exact if_neg hlower
  conv_rhs => rw [← map_id (normalizeTerm tables term)]
  exact map_congr_left hself

/-- ASCII terms are lowercased. -/
theorem normalizeTerm_of_ascii (laws : tables.Lawful) (h : isAscii term = true) :
    normalizeTerm tables term = term.map toAsciiLower := by
  by_cases hupper : term.any tables.isUppercase = true
  · rw [normalizeTerm, if_pos hupper, toLowercase_of_ascii laws h]
  · have hkey : normalizeTerm tables term = term := by rw [normalizeTerm, if_neg hupper]
    have hlower := map_toAsciiLower_normalizeTerm laws (by rwa [hkey])
    rw [hkey] at hlower
    rw [hkey, hlower]

/-- Lowercasing ASCII letters leaves a text inside or outside ASCII. -/
theorem isAscii_map_toAsciiLower (text : Str) : isAscii (text.map toAsciiLower) = isAscii text := by
  simp only [isAscii, all_map, Function.comp_def]
  congr 1
  funext c
  rw [decide_eq_decide, toAsciiLower_toNat]
  split
  · omega
  · rfl

/-- The cache recognises a term exactly by its index key. -/
theorem termMatchesCached_iff (laws : tables.Lawful) (term observed : Str) :
    termMatchesCached tables (normalizeTerm tables term) observed = true ↔
      normalizeTerm tables term = normalizeTerm tables observed := by
  unfold termMatchesCached
  split
  · rename_i hascii
    rw [eqIgnoreAsciiCase, beq_iff_eq, normalizeTerm_of_ascii laws hascii]
    constructor
    · grind [isAscii_map_toAsciiLower, map_toAsciiLower_normalizeTerm]
    · simp_all [toAsciiLower_idempotent]
  · rw [beq_iff_eq, eq_comm]

end CachedTerms

/-! ## Posting a record -/

section Posting

theorem pushDistinct_pushDistinct (ordinals : List Nat) (ordinal : Nat) :
    pushDistinct (pushDistinct ordinals ordinal) ordinal = pushDistinct ordinals ordinal := by
  have hlast : (pushDistinct ordinals ordinal).getLast? = some ordinal := by
    unfold pushDistinct
    split
    · assumption
    · simp
  rw [pushDistinct, if_pos hlast]

/-- Changing items repeatedly by a change that settles at once changes each of
them once. -/
theorem getElem?_foldl_modify {α : Type} {f : α → α} (hf : ∀ item, f (f item) = f item)
    (ids : List Nat) (id : Nat) :
    ∀ {items : List α}, (ids.foldl (fun items id => items.modify id f) items)[id]? =
      if id ∈ ids then items[id]?.map f else items[id]? := by
  induction ids with
  | nil => simp
  | cons first rest ih => grind

variable {κ : Type} [DecidableEq κ]

/-- One more document adds its ordinal under each of its keys. -/
theorem ordinalsWith_append_singleton (documents : List (List κ)) (document : List κ) (key : κ) :
    ordinalsWith (documents ++ [document]) key =
      if key ∈ document then pushDistinct (ordinalsWith documents key) documents.length
      else ordinalsWith documents key := by
  have hrepeat := ordinalsWith_append_replicate documents document 1 key
  rw [replicate_one] at hrepeat
  have hnew : documents.length ∉ ordinalsWith documents key := by
    rw [mem_ordinalsWith]
    rintro ⟨hlt, _⟩
    exact Nat.lt_irrefl _ hlt
  rw [hrepeat, pushDistinct, if_neg fun hlast => hnew (mem_of_getLast? hlast)]
  by_cases hkey : key ∈ document
  · simp [hkey]
  · simp [hkey]

end Posting

/-! ## The table of terms -/

section Terms

variable {tables} {builder : BlockIndexBuilder} {documents : List (List Str)} {current : List Str}
  {ids : List Nat} {id : Nat} {term : Str}

/-- The index keys of the terms of a message. -/
def messageKeys (tables : UnicodeTables) (message : Str) : List Str :=
  (analyzeMessageTerms tables message).map (normalizeTerm tables)

def BlockIndexBuilder.keys (builder : BlockIndexBuilder) : List Str :=
  builder.termEntries.map Prod.fst

/-- The numbers of terms, one for one. -/
def Numbered (keys terms : List Str) (ids : List Nat) : Prop :=
  List.Forall₂ (fun term id => keys[id]? = some term) terms ids

/-- Later keys keep the numbers. -/
theorem Numbered.mono {keys larger terms : List Str} (h : Numbered keys terms ids)
    (hgrows : keys <+: larger) : Numbered larger terms ids :=
  h.imp fun _ _ hkey => getElem?_of_isPrefix hgrows hkey

/-- Terms are numbered by their entries, which list the earlier documents with the term; `current`
are the terms of the document at hand. -/
structure TermTable (tables : UnicodeTables) (builder : BlockIndexBuilder)
    (documents : List (List Str)) (current : List Str) : Prop where
  ids : builder.termIds = builder.keys.zipIdx
  nodup : builder.keys.Nodup
  normalized : ∀ key ∈ builder.keys, ∃ term, key = normalizeTerm tables term
  posting : ∀ entry ∈ builder.termEntries, entry.2 = ordinalsWith documents entry.1
  complete : ∀ document ∈ documents, ∀ key ∈ document, key ∈ builder.keys
  used : ∀ key ∈ builder.keys, (∃ document ∈ documents, key ∈ document) ∨ key ∈ current

/-- A step of the scan only adds terms. -/
structure Grows (builder grown : BlockIndexBuilder) : Prop where
  keys : builder.keys <+: grown.keys
  messageCache : grown.messageCache = builder.messageCache
  messageTrigrams : grown.messageTrigrams = builder.messageTrigrams
  fieldPostings : grown.fieldPostings = builder.fieldPostings

theorem Grows.refl : Grows builder builder := ⟨prefix_refl _, rfl, rfl, rfl⟩

theorem Grows.trans {grown later : BlockIndexBuilder} (h : Grows builder grown)
    (h' : Grows grown later) : Grows builder later where
  keys := h.keys.trans h'.keys
  messageCache := h'.messageCache.trans h.messageCache
  messageTrigrams := h'.messageTrigrams.trans h.messageTrigrams
  fieldPostings := h'.fieldPostings.trans h.fieldPostings

/-- A table stays exact when more terms of the document at hand are known. -/
theorem TermTable.widen (h : TermTable tables builder documents current) (term : Str) :
    TermTable tables builder documents (current ++ [term]) :=
  { h with
    used := fun key hkey => (h.used key hkey).imp_right (mem_append_left _) }

/-- A table is determined by the numbers and the entries. -/
theorem TermTable.of_eq (h : TermTable tables builder documents current)
    {other : BlockIndexBuilder} (hids : other.termIds = builder.termIds)
    (hentries : other.termEntries = builder.termEntries) :
    TermTable tables other documents current := by
  have hkeys : other.keys = builder.keys := by
    rw [BlockIndexBuilder.keys, hentries, BlockIndexBuilder.keys]
  exact ⟨by rw [hids, hkeys, h.ids], hkeys ▸ h.nodup, hkeys ▸ h.normalized,
    hentries ▸ h.posting, hkeys ▸ h.complete, hkeys ▸ h.used⟩

theorem getElem?_keys : builder.keys[id]? = builder.termEntries[id]?.map Prod.fst := getElem?_map

/-- A cached number is the number of the term. -/
theorem keys_of_cachedTermId (laws : tables.Lawful) (h : TermTable tables builder documents current)
    (hid : builder.cachedTermId tables term = some id) :
    builder.keys[id]? = some (normalizeTerm tables term) := by
  obtain ⟨_, hmatch⟩ := Option.filter_eq_some_iff.mp hid
  obtain ⟨entry, hentry, hcached⟩ := (Option.any_eq_true _ _).mp hmatch
  have hkey : builder.keys[id]? = some entry.1 := by rw [getElem?_keys, hentry, Option.map_some]
  obtain ⟨stored, hstored⟩ := h.normalized entry.1 (mem_of_getElem? hkey)
  rw [hstored] at hcached
  rw [hkey, hstored, (termMatchesCached_iff laws stored term).mp hcached]

/-- A term not seen before gets the next number and an empty list. -/
theorem TermTable.insert (h : TermTable tables builder documents current)
    (hnew : normalizeTerm tables term ∉ builder.keys) (cache : Nat → Option Nat) :
    TermTable tables
      { builder with
        termIds := AssocMap.insert builder.termIds (normalizeTerm tables term)
          builder.termEntries.length
        termEntries := builder.termEntries ++ [(normalizeTerm tables term, [])]
        termCache := cache }
      documents (current ++ [normalizeTerm tables term]) := by
  have hkeys : (builder.termEntries ++ [(normalizeTerm tables term, ([] : List Nat))]).map
      Prod.fst = builder.keys ++ [normalizeTerm tables term] := by
    simp [BlockIndexBuilder.keys]
  have hlength : builder.termEntries.length = builder.keys.length := by
    simp [BlockIndexBuilder.keys]
  refine ⟨?_, ?_, ?_, ?_, ?_, ?_⟩
  · change AssocMap.insert builder.termIds _ _ = zipIdx (List.map Prod.fst _)
    rw [hkeys, h.ids, hlength]
    exact insert_zipIdx hnew
  · change (List.map Prod.fst _).Nodup
    rw [hkeys, nodup_append]
    refine ⟨h.nodup, nodup_singleton _, ?_⟩
    rintro key hkey _ hsame rfl
    exact hnew (mem_singleton.mp hsame ▸ hkey)
  · change ∀ key ∈ List.map Prod.fst _, _
    rw [hkeys]
    exact forall_mem_append.mpr ⟨h.normalized, forall_mem_singleton.mpr ⟨term, rfl⟩⟩
  · refine forall_mem_append.mpr ⟨h.posting, forall_mem_singleton.mpr ?_⟩
    refine (ordinalsWith_eq_nil fun document hdocument hkey => ?_).symm
    exact hnew (h.complete document hdocument _ hkey)
  · change ∀ document ∈ documents, ∀ key ∈ document, key ∈ List.map Prod.fst _
    rw [hkeys]
    exact fun document hdocument key hkey =>
      mem_append_left _ (h.complete document hdocument key hkey)
  · change ∀ key ∈ List.map Prod.fst _, _
    rw [hkeys]
    intro key hkey
    rcases mem_append.mp hkey with hold | hlast
    · exact (h.used key hold).imp_right (mem_append_left _)
    · exact .inr (mem_append_right _ hlast)

/-- Numbering a term keeps the table exact. -/
theorem internTerm_spec (laws : tables.Lawful) (h : TermTable tables builder documents current)
    (term : Str) :
    TermTable tables (builder.internTerm tables term).2 documents
        (current ++ [normalizeTerm tables term]) ∧
      Grows builder (builder.internTerm tables term).2 ∧
      (builder.internTerm tables term).2.keys[(builder.internTerm tables term).1]? =
        some (normalizeTerm tables term) := by
  unfold internTerm
  cases hcached : builder.cachedTermId tables term with
  | some id => exact ⟨h.widen _, Grows.refl, keys_of_cachedTermId laws h hcached⟩
  | none =>
    dsimp only
    cases hid : get builder.termIds (normalizeTerm tables term) with
    | some id =>
      rw [h.ids, get_zipIdx] at hid
      exact ⟨(h.widen _).of_eq rfl rfl, ⟨prefix_refl _, rfl, rfl, rfl⟩, getElem?_of_position hid⟩
    | none =>
      rw [h.ids, get_zipIdx, position_eq_none_iff] at hid
      refine ⟨h.insert hid _, ⟨?_, rfl, rfl, rfl⟩, ?_⟩
      · simp [BlockIndexBuilder.keys]
      · simp [BlockIndexBuilder.keys]

/-- Numbering the terms of a message keeps the table exact. -/
theorem internTerms_spec (laws : tables.Lawful) {terms : List Str} {builder : BlockIndexBuilder}
    {current : List Str} {ids : List Nat} (h : TermTable tables builder documents current)
    (hids : Numbered builder.keys current ids) :
    TermTable tables (internTerms tables terms ids builder).2 documents
        (current ++ terms.map (normalizeTerm tables)) ∧
      Grows builder (internTerms tables terms ids builder).2 ∧
      Numbered (internTerms tables terms ids builder).2.keys
        (current ++ terms.map (normalizeTerm tables))
        (internTerms tables terms ids builder).1 := by
  induction terms generalizing builder current ids with
  | nil => simpa [internTerms] using ⟨h, Grows.refl, hids⟩
  | cons term rest ih =>
    obtain ⟨htable, hgrows, hid⟩ := internTerm_spec laws h term
    have hnumbered : Numbered (builder.internTerm tables term).2.keys
        (current ++ [normalizeTerm tables term]) (ids ++ [(builder.internTerm tables term).1]) :=
      rel_append (hids.mono hgrows.keys) (.cons hid .nil)
    obtain ⟨htable', hgrows', hids'⟩ := ih htable hnumbered
    rw [append_assoc, singleton_append, ← map_cons] at htable' hids'
    exact ⟨htable', hgrows.trans hgrows', hids'⟩

/-- Posting adds no keys. -/
theorem keys_postTerms (builder : BlockIndexBuilder) (ids : List Nat) (ordinal : Nat) :
    (builder.postTerms ids ordinal).keys = builder.keys := by
  apply ext_getElem?
  intro id
  rw [getElem?_keys, getElem?_keys, postTerms]
  rw [getElem?_foldl_modify (fun entry => by rw [pushDistinct_pushDistinct])]
  split
  · rw [Option.map_map]
    rfl
  · rfl

/-- Posting a document under the numbers of its terms indexes the document. -/
theorem TermTable.postTerms (h : TermTable tables builder documents current)
    (hids : Numbered builder.keys current ids) :
    TermTable tables (builder.postTerms ids documents.length) (documents ++ [current]) [] := by
  have hkeys := keys_postTerms builder ids documents.length
  refine ⟨?_, ?_, ?_, ?_, ?_, ?_⟩
  · rw [hkeys]
    exact h.ids
  · rw [hkeys]
    exact h.nodup
  · rw [hkeys]
    exact h.normalized
  · intro entry hentry
    obtain ⟨id, hid⟩ := mem_iff_getElem?.mp hentry
    rw [BlockIndexBuilder.postTerms,
      getElem?_foldl_modify (fun entry => by rw [pushDistinct_pushDistinct])] at hid
    -- the entry is posted exactly when the document has its term
    have hposted : ∀ old, builder.termEntries[id]? = some old → (id ∈ ids ↔ old.1 ∈ current) := by
      intro old hold
      have hkey : builder.keys[id]? = some old.1 := by rw [getElem?_keys, hold, Option.map_some]
      constructor
      · intro hmem
        obtain ⟨term, hterm, hsame⟩ := forall₂_mem hids.flip hmem
        rw [hkey, Option.some.injEq] at hsame
        rw [hsame]
        exact hterm
      · intro hmem
        obtain ⟨other, hother, hsame⟩ := forall₂_mem hids hmem
        have hlt := (List.getElem?_eq_some_iff.mp hkey).1
        have heq := (getElem?_inj hlt h.nodup).mp (hkey.trans hsame.symm)
        rw [heq]
        exact hother
    rw [ordinalsWith_append_singleton]
    split at hid
    · rename_i hmem
      obtain ⟨old, hold, rfl⟩ := Option.map_eq_some_iff.mp hid
      rw [if_pos ((hposted old hold).mp hmem), h.posting old (mem_of_getElem? hold)]
    · rename_i hmem
      rw [if_neg (hmem ∘ (hposted entry hid).mpr), h.posting entry (mem_of_getElem? hid)]
  · rw [hkeys]
    refine forall_mem_append.mpr ⟨h.complete, forall_mem_singleton.mpr fun key hkey => ?_⟩
    obtain ⟨id, _, hid⟩ := forall₂_mem hids hkey
    exact mem_of_getElem? hid
  · rw [hkeys]
    intro key hkey
    left
    rcases h.used key hkey with ⟨document, hdocument, hmem⟩ | hmem
    · exact ⟨document, mem_append_left _ hdocument, hmem⟩
    · exact ⟨current, mem_append_right _ mem_cons_self, hmem⟩

end Terms

/-! ## The map of fields -/

section Fields

/-- The postings of the keys that occur. -/
def occurring {κ : Type} [DecidableEq κ] (documents : List (List κ)) (key : κ) :
    Option (List Nat) :=
  if ordinalsWith documents key = [] then none else some (ordinalsWith documents key)

/-- A map with distinct keys holds the ordinals of the documents with each key. -/
structure FieldTable (postings : List ((Str × Str) × List Nat))
    (documents : List (List (Str × Str))) : Prop where
  nodup : (postings.map Prod.fst).Nodup
  get : ∀ field, get postings field = occurring documents field

theorem nodup_foldl_postField (ordinal : Nat) (fields : List (Str × Str)) :
    ∀ {postings : List ((Str × Str) × List Nat)}, (postings.map Prod.fst).Nodup →
      ((fields.foldl (postField ordinal) postings).map Prod.fst).Nodup := by
  induction fields with
  | nil => exact fun h => h
  | cons field rest ih => exact fun h => ih (nodup_keys_update h _ _ _)

variable {postings : List ((Str × Str) × List Nat)}

/-- Posting under several fields posts once under each of them. -/
theorem get_foldl_postField (ordinal : Nat) (fields : List (Str × Str)) (field : Str × Str) :
    AssocMap.get (fields.foldl (postField ordinal) postings) field =
      if field ∈ fields then
        some (pushDistinct ((AssocMap.get postings field).getD []) ordinal)
      else AssocMap.get postings field := by
  induction fields generalizing postings with
  | nil => simp
  | cons first rest ih =>
    rw [foldl_cons, ih, postField, get_update]
    by_cases hfirst : field = first
    · subst hfirst
      simp [pushDistinct_pushDistinct]
    · simp [hfirst]

/-- Posting a document under its fields indexes the document. -/
theorem FieldTable.append {postings : List ((Str × Str) × List Nat)}
    {documents : List (List (Str × Str))} (h : FieldTable postings documents)
    (fields : List (Str × Str)) :
    FieldTable (fields.foldl (postField documents.length) postings) (documents ++ [fields]) where
  nodup := nodup_foldl_postField _ _ h.nodup
  get field := by
    rw [get_foldl_postField, h.get, occurring, occurring, ordinalsWith_append_singleton]
    by_cases hfield : field ∈ fields
    · have hne : pushDistinct (ordinalsWith documents field) documents.length ≠ [] := by
        intro hnil
        have hmem : documents.length ∈
            pushDistinct (ordinalsWith documents field) documents.length :=
          mem_pushDistinct.mpr (.inr rfl)
        rw [hnil] at hmem
        cases hmem
      simp only [if_pos hfield, if_neg hne]
      by_cases hempty : ordinalsWith documents field = []
      · simp [hempty]
      · simp [hempty]
    · simp only [if_neg hfield]

variable {R : Type} [StructuralRecordView R]

/-- Every field of the record can be read. -/
def FieldsReadable (record : R) : Prop :=
  ∀ index < structuralFieldCount record, (structuralField record index).isSome = true

theorem fieldsReadable_decoded (record : DecodedStructuralRecord) : FieldsReadable record := by
  intro index hindex
  have hlt : index < record.fields.length := hindex
  simp [structuralField, storedField, hlt]

/-- The loop over the fields posts under the fields of the record. -/
theorem addFields_eq_ok_iff {result : List ((Str × Str) × List Nat)} {record : R} {ordinal : Nat} :
    addFields postings record ordinal = .ok result ↔
      FieldsReadable record ∧ result = (recordFields record).foldl (postField ordinal) postings := by
  have hloop : ∀ (indexes : List Nat) (postings : List ((Str × Str) × List Nat)),
      indexes.foldlM (fun postings index =>
        match structuralField record index with
        | some field => .ok (postField ordinal postings field)
        | none => .error (.invalidBlockEncoding "record field count changed while indexing"))
        postings = (.ok result : LogDbResult _) ↔
      (∀ index ∈ indexes, (structuralField record index).isSome = true) ∧
        result = (indexes.filterMap (structuralField record)).foldl (postField ordinal)
          postings := by
    intro indexes
    induction indexes with
    | nil => grind [pure_eq_ok]
    | cons index rest ih =>
      intro postings
      rw [foldlM_cons]
      cases hfield : structuralField record index with
      | none => simp [hfield]
      | some field => simp [hfield, ih]
  rw [addFields, hloop]
  simp only [FieldsReadable, mem_range, recordFields]

end Fields

/-! ## What the loop over the records establishes -/

section Records

variable {tables} {R : Type} [StructuralRecordView R] {builder : BlockIndexBuilder}
  {messages : List Str} {records : List R} {index : BlockQueryIndex}

/-- The messages seen so far are indexed, and every cached one of them has the numbers of its terms.
-/
structure MessagesIndexed (tables : UnicodeTables) (builder : BlockIndexBuilder)
    (messages : List Str) : Prop where
  table : TermTable tables builder (messages.map (messageKeys tables)) []
  cached : ∀ slot cached, builder.messageCache slot = some cached → cached.message ∈ messages ∧
      Numbered builder.keys (messageKeys tables cached.message) cached.termIds
  trigrams : ∀ slot, builder.messageTrigrams.Reports slot ↔
    ∃ message ∈ messages, slot ∈ normalizedTrigramSlots tables message

theorem messagesIndexed_empty : MessagesIndexed tables {} [] where
  table := ⟨rfl, nodup_nil, by simp [BlockIndexBuilder.keys], by simp, by simp,
    by simp [BlockIndexBuilder.keys]⟩
  cached slot cached h := by cases h
  trigrams slot := by
    simp only [not_mem_nil, false_and, exists_false, iff_false]
    exact MessageTrigramFilter.not_reports_new slot

/-- Analyzing a message indexes it. -/
theorem MessagesIndexed.analyze (laws : tables.Lawful) (h : MessagesIndexed tables builder messages)
    (message : Str) :
    MessagesIndexed tables (builder.analyze tables message messages.length)
      (messages ++ [message]) := by
  have hstart : TermTable tables (builder.observe tables message)
      (messages.map (messageKeys tables)) [] :=
    h.table.of_eq rfl rfl
  obtain ⟨htable, hgrows, hids⟩ := @internTerms_spec tables _ laws
    (analyzeMessageTerms tables message) _ [] [] hstart .nil
  have hposted := htable.postTerms hids
  rw [length_map] at hposted
  refine ⟨?_, ?_, ?_⟩
  · rw [map_append, map_singleton]
    exact hposted.of_eq rfl rfl
  · intro slot cached hcached
    unfold BlockIndexBuilder.analyze at hcached ⊢
    dsimp only at hcached
    change cached.message ∈ messages ++ [message] ∧ Numbered (postTerms _ _ _).keys _ _
    rw [keys_postTerms]
    rw [Function.update_apply] at hcached
    split at hcached
    · cases hcached
      exact ⟨mem_append_right _ mem_cons_self, hids⟩
    · -- other slots hold what they held, and the numbers stay valid
      rw [postTerms, hgrows.messageCache] at hcached
      simp only [observe, Function.update_apply] at hcached
      split at hcached
      · cases hcached
      · obtain ⟨hmem, hnumbered⟩ := h.cached slot cached hcached
        exact ⟨mem_append_left _ hmem, hnumbered.mono hgrows.keys⟩
  · intro slot
    have hfilter : (builder.analyze tables message messages.length).messageTrigrams =
        builder.messageTrigrams.insertMessage tables message := hgrows.messageTrigrams
    rw [hfilter, MessageTrigramFilter.insertMessage, MessageTrigramFilter.reports_foldl_setBit
      fun _ => lt_of_mem_normalizedTrigramSlots tables, h.trigrams]
    simp only [mem_append, mem_singleton, or_and_right, exists_or, exists_eq_left]
    exact or_comm

/-- Posting a message, cached or not, indexes it. -/
theorem MessagesIndexed.addMessage (laws : tables.Lawful)
    (h : MessagesIndexed tables builder messages) (message : Str) :
    MessagesIndexed tables (builder.addMessage tables message messages.length)
      (messages ++ [message]) := by
  unfold BlockIndexBuilder.addMessage
  cases hcached : builder.messageCache (messageTermCacheSlot (utf8 message)) with
  | none => exact h.analyze laws message
  | some cached =>
    dsimp only
    by_cases hsame : cached.message = message
    · rw [if_pos hsame]
      subst hsame
      obtain ⟨hmem, hids⟩ := h.cached _ cached hcached
      have hcurrent : TermTable tables builder (messages.map (messageKeys tables))
          (messageKeys tables cached.message) :=
        { h.table with
          used := fun key hkey => .inl ((h.table.used key hkey).resolve_right not_mem_nil) }
      have hposted := hcurrent.postTerms hids
      rw [length_map] at hposted
      refine ⟨by rwa [map_append, map_singleton], ?_, ?_⟩
      · intro slot other hother
        obtain ⟨hold, hnumbered⟩ := h.cached slot other hother
        rw [keys_postTerms]
        exact ⟨mem_append_left _ hold, hnumbered⟩
      · -- the trigrams of a cached message were inserted with it
        intro slot
        change builder.messageTrigrams.Reports slot ↔ _
        rw [h.trigrams]
        constructor
        · grind
        · grind
    · rw [if_neg hsame]
      exact h.analyze laws message

/-- Terms do not touch the fields. -/
theorem fieldPostings_internTerms {terms : List Str} {ids : List Nat}
    {builder : BlockIndexBuilder} :
    (internTerms tables terms ids builder).2.fieldPostings = builder.fieldPostings := by
  induction terms generalizing ids builder with
  | nil => exact rfl
  | cons term rest ih =>
    rw [internTerms, ih, internTerm]
    split
    · rfl
    · dsimp only
      split
      · rfl
      · rfl

/-- Posting a message leaves the fields alone. -/
theorem fieldPostings_addMessage (builder : BlockIndexBuilder) (message : Str) (ordinal : Nat) :
    (builder.addMessage tables message ordinal).fieldPostings = builder.fieldPostings := by
  have hanalyze : (builder.analyze tables message ordinal).fieldPostings =
      builder.fieldPostings := by
    exact fieldPostings_internTerms
  unfold addMessage
  split
  · split
    · rfl
    · exact hanalyze
  · exact hanalyze

/-- The records seen so far are indexed. -/
structure RecordsIndexed (tables : UnicodeTables) (builder : BlockIndexBuilder)
    (records : List R) : Prop where
  messages : MessagesIndexed tables builder (records.map structuralMessage)
  fields : FieldTable builder.fieldPostings (records.map recordFields)

/-- A step fails exactly on an ordinal or a field that cannot be read, and indexes the record
otherwise. -/
theorem addRecord_spec (laws : tables.Lawful) (h : RecordsIndexed tables builder records)
    {record : R} (hlt : records.length < 2 ^ 32) (hreadable : FieldsReadable record) :
    ∃ grown, builder.addRecord tables (record, records.length) = .ok grown ∧
      RecordsIndexed tables grown (records ++ [record]) := by
  have hmessages := h.messages.addMessage laws (structuralMessage record)
  have hfields := h.fields.append (recordFields record)
  rw [length_map] at hmessages hfields
  have hadd := addFields_eq_ok_iff.mpr
    ⟨hreadable, (rfl : (recordFields record).foldl (postField records.length)
      builder.fieldPostings = _)⟩
  unfold addRecord
  rw [tryU32_eq_ok_iff.mpr ⟨rfl, hlt⟩, ok_bind]
  dsimp only
  rw [fieldPostings_addMessage, hadd, ok_bind]
  refine ⟨_, rfl, ⟨?_, ?_⟩⟩
  · rw [map_append, map_singleton]
    exact ⟨hmessages.table.of_eq rfl rfl, hmessages.cached, hmessages.trigrams⟩
  · rwa [map_append, map_singleton]

/-- The loop succeeds only if every field can be read. -/
theorem fieldsReadable_of_addRecord {entry : R × Nat} {grown : BlockIndexBuilder}
    (h : builder.addRecord tables entry = .ok grown) : FieldsReadable entry.1 := by
  obtain ⟨ordinal, _, h⟩ := bind_eq_ok_iff.mp h
  obtain ⟨postings, hadd, _⟩ := bind_eq_ok_iff.mp h
  exact (addFields_eq_ok_iff.mp hadd).1

/-- The loop over the records indexes them all. -/
theorem foldlM_addRecord_spec (laws : tables.Lawful) {rest : List R} :
    ∀ {records : List R} {builder : BlockIndexBuilder}, RecordsIndexed tables builder records →
      (records ++ rest).length < 2 ^ 32 → (∀ record ∈ rest, FieldsReadable record) →
      ∃ built, (rest.zipIdx records.length).foldlM (addRecord tables) builder =
        .ok built ∧ RecordsIndexed tables built (records ++ rest) := by
  induction rest with
  | nil => simp_all
  | cons record rest ih =>
    intro records builder h hlength hreadable
    have hlt : records.length < 2 ^ 32 := by
      rw [length_append, length_cons] at hlength
      omega
    obtain ⟨grown, hgrown, hindexed⟩ := addRecord_spec laws h hlt (hreadable record mem_cons_self)
    obtain ⟨built, hbuilt, hall⟩ := ih hindexed (by simpa using hlength)
      fun later hlater => hreadable later (mem_cons_of_mem _ hlater)
    refine ⟨built, ?_, by simpa using hall⟩
    rw [zipIdx_cons, foldlM_cons, hgrown, ok_bind]
    simpa using hbuilt

/-! ## The built index -/

/-- A map of posting lists holds the ordinals of the documents with each key. -/
structure PostingTable {κ : Type} [DecidableEq κ] (postings : List (κ × PostingList))
    (documents : List (List κ)) : Prop where
  nodup : (postings.map Prod.fst).Nodup
  get_none : ∀ key, get postings key = none → ordinalsWith documents key = []
  get_some : ∀ key posting, get postings key = some posting →
    posting.WellFormed ∧ posting.toVec = ordinalsWith documents key ∧
      ordinalsWith documents key ≠ []

/-- Storing the lists of a map that lists every occurring key once. -/
theorem storePostings_spec {κ : Type} [DecidableEq κ] {entries : List (κ × List Nat)}
    {documents : List (List κ)} (hnodup : (entries.map Prod.fst).Nodup)
    (hentries : ∀ entry ∈ entries, entry.2 = ordinalsWith documents entry.1 ∧ entry.2 ≠ [])
    (hcomplete : ∀ key, ordinalsWith documents key ≠ [] → key ∈ entries.map Prod.fst)
    (hlength : documents.length < 2 ^ 32) :
    ∃ postings, storePostings entries = .ok postings ∧ PostingTable postings documents := by
  have hstored : ∀ entry ∈ entries, ∃ posting, fromOrdinals entry.2 = .ok posting ∧
      posting.WellFormed ∧ posting.toVec = ordinalsWith documents entry.1 := by
    grind [fromOrdinals_spec, pairwise_ordinalsWith, mem_ordinalsWith]
  -- the stored list of an entry stands at the place of the entry
  have hall : ∃ postings : List (κ × PostingList), Forall₂ (fun entry stored =>
      fromOrdinals entry.2 = .ok stored.2 ∧ stored.1 = entry.1 ∧
        stored.2.WellFormed ∧ stored.2.toVec = ordinalsWith documents entry.1) entries postings := by
    clear hnodup hentries hcomplete
    induction entries with
    | nil => exact ⟨[], .nil⟩
    | cons entry rest ih =>
      obtain ⟨posting, hposting, hwell, hvec⟩ := hstored entry mem_cons_self
      obtain ⟨postings, hrest⟩ := ih fun later hlater => hstored later (mem_cons_of_mem _ hlater)
      exact ⟨(entry.1, posting) :: postings, .cons ⟨hposting, rfl, hwell, hvec⟩ hrest⟩
  obtain ⟨postings, hall⟩ := hall
  have hkeys : postings.map Prod.fst = entries.map Prod.fst := by
    clear hstored hnodup hentries hcomplete
    induction hall with
    | nil => rfl
    | cons hentry _ ih => rw [map_cons, map_cons, ih, hentry.2.1]
  refine ⟨postings, ?_, ⟨hkeys ▸ hnodup, ?_, ?_⟩⟩
  · refine collect_eq_ok_iff.mpr (hall.imp ?_)
    rintro entry ⟨key, posting⟩ ⟨hposting, rfl, _⟩
    rw [hposting, ok_bind]
  · intro key hnone
    by_contra hne
    have hmem := hcomplete key hne
    rw [← hkeys] at hmem
    obtain ⟨stored, hstored', rfl⟩ := mem_map.mp hmem
    rw [get_of_mem (hkeys ▸ hnodup) hstored'] at hnone
    cases hnone
  · intro key posting hsome
    obtain ⟨entry, hentry, _, hkey, hwell, hvec⟩ := forall₂_mem hall.flip (mem_of_get hsome)
    obtain ⟨hordinals, hne⟩ := hentries entry hentry
    dsimp only at hkey hwell hvec
    rw [hkey]
    exact ⟨hwell, hvec, hordinals ▸ hne⟩

/-- What a built index says about the records of its block. -/
structure BlockQueryIndex.Indexes (tables : UnicodeTables) (index : BlockQueryIndex)
    (records : List R) : Prop where
  recordCount : index.recordCount = records.length
  recordCount_lt : records.length < 2 ^ 32
  terms : PostingTable index.termPostings
    (records.map fun record => messageKeys tables (structuralMessage record))
  fields : PostingTable index.fieldPostings (records.map recordFields)
  trigrams : ∀ slot, index.messageTrigrams.Reports slot ↔
    ∃ record ∈ records, slot ∈ normalizedTrigramSlots tables (structuralMessage record)

/-- Building succeeds on readable records and indexes them. -/
theorem exists_build (laws : tables.Lawful) (hlength : records.length < 2 ^ 32)
    (hreadable : ∀ record ∈ records, FieldsReadable record) :
    ∃ index, BlockQueryIndex.build tables records = .ok index ∧ index.Indexes tables records := by
  have hempty : RecordsIndexed tables {} ([] : List R) :=
    ⟨messagesIndexed_empty, ⟨nodup_nil, fun _ => rfl⟩⟩
  obtain ⟨builder, hbuilder, hindexed⟩ := foldlM_addRecord_spec laws hempty
    (by simpa using hlength) hreadable
  rw [length_nil] at hbuilder
  rw [nil_append] at hindexed
  have htable := hindexed.messages.table
  obtain ⟨terms, hterms, htermTable⟩ := storePostings_spec htable.nodup
    (fun entry hentry => ⟨htable.posting entry hentry, fun hnil => by
      obtain ⟨document, hdocument, hkey⟩ :=
        (htable.used entry.1 (mem_map_of_mem hentry)).resolve_right not_mem_nil
      obtain ⟨ordinal, hordinal⟩ := mem_iff_getElem.mp hdocument
      obtain ⟨hlt, rfl⟩ := hordinal
      have hin := mem_ordinalsWith.mpr ⟨hlt, hkey⟩
      rw [← htable.posting entry hentry, hnil] at hin
      cases hin⟩)
    (fun key hne => by
      obtain ⟨ordinal, hordinal⟩ := exists_mem_of_ne_nil _ hne
      obtain ⟨hlt, hkey⟩ := mem_ordinalsWith.mp hordinal
      exact htable.complete _ (getElem_mem hlt) key hkey)
    (by simpa using hlength)
  have hfieldTable := hindexed.fields
  obtain ⟨fields, hfields, hfieldPostings⟩ := storePostings_spec hfieldTable.nodup
    (fun entry hentry => by
      have hget := get_of_mem hfieldTable.nodup (show (entry.1, entry.2) ∈ _ from hentry)
      rw [hfieldTable.get, occurring] at hget
      split at hget
      · cases hget
      · rename_i hne
        rw [Option.some.injEq] at hget
        exact ⟨hget.symm, hget ▸ hne⟩)
    (fun key hne => by
      have hget : AssocMap.get builder.fieldPostings key =
          some (ordinalsWith (records.map recordFields) key) := by
        rw [hfieldTable.get, occurring, if_neg hne]
      exact mem_map_of_mem (f := Prod.fst) (mem_of_get hget))
    (by simpa using hlength)
  refine ⟨⟨records.length, builder.messageTrigrams, terms, fields⟩, ?_,
    ⟨rfl, hlength, ?_, hfieldPostings, ?_⟩⟩
  · rw [BlockQueryIndex.build, tryU32_eq_ok_iff.mpr ⟨rfl, hlength⟩, ok_bind, hbuilder, ok_bind,
      hterms, ok_bind, hfields, ok_bind]
  · simpa only [map_map, Function.comp_def] using htermTable
  · intro slot
    rw [hindexed.messages.trigrams]
    simp

/-- A build has read every field. -/
theorem readable_of_build (h : BlockQueryIndex.build tables records = .ok index) :
    ∀ record ∈ records, FieldsReadable record := by
  obtain ⟨_, _, h⟩ := bind_eq_ok_iff.mp h
  obtain ⟨builder, hbuilder, _⟩ := bind_eq_ok_iff.mp h
  intro record hrecord
  obtain ⟨position, hposition⟩ := mem_iff_getElem?.mp hrecord
  have hentry : (record, position) ∈ records.zipIdx := by
    rw [mem_zipIdx_iff_getElem?]
    exact hposition
  have hfacts := Folds.foldlM_accumulates (fun _ => True) (fun _ _ => True)
    (fun (_ : BlockIndexBuilder) (entry : R × Nat) => FieldsReadable entry.1)
    (fun _ => trivial) (fun _ _ _ _ _ => trivial) (fun _ _ _ _ hfact => hfact)
    (fun builder entry grown _ _ hadd => ⟨trivial, trivial, fieldsReadable_of_addRecord hadd⟩)
    trivial hbuilder
  exact hfacts.2.2 _ hentry

/-- A built index indexes the records. -/
theorem build_spec (laws : tables.Lawful) (h : BlockQueryIndex.build tables records = .ok index) :
    index.Indexes tables records := by
  obtain ⟨count, hcount, _⟩ := bind_eq_ok_iff.mp h
  obtain ⟨built, hbuilt, hindexes⟩ :=
    exists_build laws (tryU32_eq_ok_iff.mp hcount).2 (readable_of_build h)
  rw [h, Except.ok.injEq] at hbuilt
  rwa [hbuilt]

/-- A posting lists the documents with its key. -/
theorem PostingTable.map_toVec {κ : Type} [DecidableEq κ] {postings : List (κ × PostingList)}
    {documents : List (List κ)} (h : PostingTable postings documents) (key : κ) :
    (get postings key).map toVec = occurring documents key := by
  cases hget : get postings key with
  | none => rw [occurring, if_pos (h.get_none key hget), Option.map_none]
  | some posting =>
    obtain ⟨_, hvec, hne⟩ := h.get_some key posting hget
    rw [occurring, if_neg hne, Option.map_some, hvec]

/-- Building fails only on too many records or unreadable fields; otherwise the postings list the
records with each key, and the filter reports the trigrams of all messages. -/
theorem build_eq_ok_iff (laws : tables.Lawful) (records : List R) :
    ((∃ index, BlockQueryIndex.build tables records = .ok index) ↔
      records.length < 2 ^ 32 ∧ ∀ record ∈ records, FieldsReadable record) ∧
    ∀ index, BlockQueryIndex.build tables records = .ok index → index.recordCount = records.length ∧
      (∀ term, (get index.termPostings term).map toVec =
        occurring (records.map fun record => messageKeys tables (structuralMessage record)) term) ∧
      (∀ field, (get index.fieldPostings field).map toVec =
        occurring (records.map recordFields) field) ∧
      ∀ slot, index.messageTrigrams.Reports slot ↔
        ∃ record ∈ records, slot ∈ normalizedTrigramSlots tables (structuralMessage record) := by
  refine ⟨⟨fun ⟨index, h⟩ => ?_, fun ⟨hlength, hreadable⟩ => ?_⟩, fun index h => ?_⟩
  · exact ⟨(build_spec laws h).recordCount_lt, readable_of_build h⟩
  · obtain ⟨index, hindex, _⟩ := exists_build laws hlength hreadable
    exact ⟨index, hindex⟩
  · have hindexes := build_spec laws h
    exact ⟨hindexes.recordCount, hindexes.terms.map_toVec, hindexes.fields.map_toVec,
      hindexes.trigrams⟩

/-- A repeated term and a message without it. -/
theorem build_repeated_term :
    let records : List DecodedStructuralRecord :=
      [⟨1, 0, ['a'], []⟩, ⟨2, 0, ['b'], []⟩, ⟨3, 0, ['A', ' ', 'a'], []⟩]
    ∃ index, BlockQueryIndex.build latinTables records = .ok index ∧
      (get index.termPostings ['a']).map toVec = some [0, 2] := by
  intro records
  have hbuild := build_eq_ok_iff latinTables_lawful records
  obtain ⟨index, hindex⟩ := hbuild.1.mpr ⟨by decide, fun record _ => fieldsReadable_decoded record⟩
  refine ⟨index, hindex, ((hbuild.2 index hindex).2.1 ['a']).trans ?_⟩
  decide +kernel

end Records

end ShardLog.Persistent
