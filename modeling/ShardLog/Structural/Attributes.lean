import Mathlib.Data.List.Sort
import ShardLog.Foundation.AssocMap
import ShardLog.Structural.Membership

/-!
# Structural blocks - attribute tables

Keys and values of the metadata fields are numbered in order of appearance.
Values that occur at least twice under their key form a sorted dictionary; the
others are stored where they are used.  The builder remembers the addresses of
the strings it saw last, so that a string found again at the same place is not
compared.
-/

namespace ShardLog.Structural

open ByteReader Utf8 AssocMap List

def linearAttributeDictionaryLimit : Nat := 16

def attributeKeyCacheEntries : Nat := 32

/-! ## Borrowed fields -/

/-- The bytes that stand at an address, by their number.  They do not change
while the records are borrowed. -/
abbrev Memory := Nat → Nat → Bytes

/-- A field passed to the visitor, with the addresses of its two strings. -/
structure PlacedField (memory : Memory) where
  key : Str
  value : Str
  keyAddress : Nat
  valueAddress : Nat
  key_at : memory keyAddress (utf8 key).length = utf8 key
  value_at : memory valueAddress (utf8 value).length = utf8 value

/-- The two strings of a field. -/
def PlacedField.text {memory : Memory} (field : PlacedField memory) : Str × Str :=
  (field.key, field.value)

/-- The fields of a batch of records, wherever their strings stand in memory. -/
structure Placement {R : Type} [StructuralRecordView R] (records : List R) where
  memory : Memory
  fields : List (List (LogDbResult (PlacedField memory)))
  contents : fields.map (List.map (Except.map PlacedField.text)) = records.map visitedFields

/-- A memory in which the address of a string spells its bytes. -/
def selfAddressed : Memory := fun address length => Integers.leBytes length address

/-- A field in the self-addressed memory. -/
def placeField (field : Str × Str) : PlacedField selfAddressed where
  key := field.1
  value := field.2
  keyAddress := Integers.fromLeBytes (utf8 field.1)
  valueAddress := Integers.fromLeBytes (utf8 field.2)
  key_at := Integers.leBytes_fromLeBytes (utf8 field.1)
  value_at := Integers.leBytes_fromLeBytes (utf8 field.2)

/-- Records whose equal strings share their address. -/
def Placement.byContent {R : Type} [StructuralRecordView R] (records : List R) :
    Placement records where
  memory := selfAddressed
  fields := records.map fun record => (visitedFields record).map (Except.map placeField)
  contents := by
    rw [List.map_map]
    apply List.map_congr_left
    intro record _
    rw [Function.comp_apply, List.map_map]
    conv_rhs => rw [← List.map_id (visitedFields record)]
    apply List.map_congr_left
    intro field _
    cases field with
    | error e => rfl
    | ok pair => rfl

/-! ## Values of one key -/

/-- The values seen under one key, with their number of occurrences. -/
structure AttributeValueCounts where
  entries : List (Bytes × Nat) := []
  ids : Option (List (Bytes × Nat)) := none
  lastAddress : Nat := 0
  lastLength : Nat := 0
  lastEntryId : Nat := emptySlot
deriving Inhabited

/-- The values, in order of first appearance. -/
def AttributeValueCounts.values (counts : AttributeValueCounts) : List Bytes :=
  counts.entries.map Prod.fst

/-- Count one more occurrence of a known value. -/
def AttributeValueCounts.countAgain (counts : AttributeValueCounts) (entryId : Nat) :
    LogDbResult AttributeValueCounts := do
  let entry := counts.entries.getD entryId ([], 0)
  let count ← tryU64 (entry.2 + 1)
  .ok { counts with entries := counts.entries.set entryId (entry.1, count) }

/-- Remember where a value was found. -/
def AttributeValueCounts.remember (counts : AttributeValueCounts) (value : Bytes)
    (address entryId : Nat) : AttributeValueCounts :=
  { counts with lastAddress := address, lastLength := value.length, lastEntryId := entryId }

/-- The number of a value: by the map once there is one, by a scan before. -/
def AttributeValueCounts.findEntry (counts : AttributeValueCounts) (value : Bytes) : Option Nat :=
  match counts.ids with
  | some ids => get ids value
  | none => position counts.values value

/-- Append a new value.  The map is built when the scan limit is reached. -/
def AttributeValueCounts.addEntry (counts : AttributeValueCounts) (value : Bytes) :
    AttributeValueCounts :=
  let ids :=
    if counts.entries.length = linearAttributeDictionaryLimit then some counts.values.zipIdx
    else counts.ids
  { counts with
    entries := counts.entries ++ [(value, 1)]
    ids := ids.map fun ids => insert ids value counts.entries.length }

/-- Number a value that is not the one remembered. -/
def AttributeValueCounts.incrementSlow (counts : AttributeValueCounts) (value : Bytes)
    (address : Nat) : LogDbResult ((Nat × Bool) × AttributeValueCounts) :=
  match counts.findEntry value with
  | some found => do
      let again ← counts.countAgain found
      let entryId ← tryU32 found
      .ok ((entryId, false), again.remember value address entryId)
  | none => do
      let entryId ← tryU32 counts.entries.length
      .ok ((entryId, true), (counts.addEntry value).remember value address entryId)

/-- Number a value, and say whether it is new. -/
def AttributeValueCounts.increment (counts : AttributeValueCounts) (value : Bytes)
    (address : Nat) : LogDbResult ((Nat × Bool) × AttributeValueCounts) :=
  if counts.lastEntryId ≠ emptySlot ∧ counts.lastAddress = address ∧
      counts.lastLength = value.length then do
    let again ← counts.countAgain counts.lastEntryId
    .ok ((counts.lastEntryId, false), again)
  else counts.incrementSlow value address

/-- The values of one key: the dictionary, then the values stored directly. -/
structure AttributeValueTable where
  entries : List Bytes
  resolvedEntryIds : List Nat
  dictionaryLen : Nat
deriving DecidableEq, Repr

def AttributeValueTable.dictionary (table : AttributeValueTable) : List Bytes :=
  table.entries.take table.dictionaryLen

/-- Final number and bytes of a value, from the number it was first given. -/
def AttributeValueTable.resolve (table : AttributeValueTable) (unresolvedId : Nat) :
    LogDbResult (Nat × Bytes) :=
  match table.resolvedEntryIds[unresolvedId]? with
  | none => .error (invalid "attribute value ID is out of range")
  | some entryId =>
    match table.entries[entryId]? with
    | none => .error (invalid "resolved attribute value ID is out of range")
    | some value => .ok (entryId, value)

/-- Note the final number of every value, given in its final order. -/
def resolveEntries : List (Nat × Bytes) → Nat → List Nat → LogDbResult (List Nat)
  | [], _, resolved => .ok resolved
  | (unresolvedId, _) :: rest, entryId, resolved => do
      let id ← tryU32 entryId
      resolveEntries rest (entryId + 1) (resolved.set unresolvedId id)

/-- Sort the repeated values into a dictionary and renumber. -/
def AttributeValueCounts.intoTable (counts : AttributeValueCounts) :
    LogDbResult AttributeValueTable := do
  let numbered := counts.entries.zipIdx
  let repeated := (numbered.filter fun entry => decide (2 ≤ entry.1.2)).map fun entry =>
    (entry.2, entry.1.1)
  let direct := (numbered.filter fun entry => !decide (2 ≤ entry.1.2)).map fun entry =>
    (entry.2, entry.1.1)
  let dictionary := repeated.insertionSort fun left right => left.2 ≤ right.2
  let ordered := dictionary ++ direct
  let resolved ← resolveEntries ordered 0 (List.replicate counts.entries.length 0)
  .ok ⟨ordered.map Prod.snd, resolved, dictionary.length⟩

/-! ## The builder -/

/-- Numbers of the key and the value of one field occurrence. -/
structure ResolvedField where
  keyId : Nat
  valueId : Nat
deriving DecidableEq, Repr

/-- The field occurrences of all records, and where each record ends. -/
structure ResolvedFields where
  entries : List ResolvedField
  recordEnds : List Nat
deriving DecidableEq, Repr

structure AttributeTables where
  keys : List Bytes
  values : List AttributeValueTable
deriving DecidableEq, Repr

structure CachedAttributeKey where
  address : Nat
  length : Nat
  keyId : Nat
deriving DecidableEq, Repr

def emptyCachedAttributeKey : CachedAttributeKey := ⟨0, 0, emptySlot⟩

/-- The state of the pass over the fields of a batch. -/
structure AttributeBuilder where
  keys : List Bytes := []
  keyIds : List (Bytes × Nat) := []
  valueCounts : List AttributeValueCounts := []
  resolved : ResolvedFields := ⟨[], []⟩
  keyCache : Nat → CachedAttributeKey := fun _ => emptyCachedAttributeKey
  fieldMembership : MembershipFilter := .new

/-- The number of a key: by a scan up to the limit, by the map above it. -/
def AttributeBuilder.findKey (builder : AttributeBuilder) (key : Bytes) : Option Nat :=
  if builder.keys.length ≤ linearAttributeDictionaryLimit then position builder.keys key
  else get builder.keyIds key

/-- Number a key. -/
def AttributeBuilder.internKey (builder : AttributeBuilder) (key : Bytes) :
    Nat × AttributeBuilder :=
  match builder.findKey key with
  | some keyId => (keyId, builder)
  | none =>
    (builder.keys.length, { builder with
        keys := builder.keys ++ [key]
        keyIds := insert builder.keyIds key builder.keys.length
        valueCounts := builder.valueCounts ++ [{}] })

def attributeKeyCacheSlot (address length : Nat) : Nat :=
  (address >>> 4 ^^^ address ^^^ length) &&& (attributeKeyCacheEntries - 1)

/-- Number a key, through the cache of recently seen addresses. -/
def AttributeBuilder.lookupKey (builder : AttributeBuilder) (key : Bytes) (address : Nat) :
    LogDbResult (Nat × AttributeBuilder) :=
  let slot := attributeKeyCacheSlot address key.length
  let cached := builder.keyCache slot
  if cached.keyId ≠ emptySlot ∧ cached.address = address ∧ cached.length = key.length then
    .ok (cached.keyId, builder)
  else do
    let interned := builder.internKey key
    let keyId ← tryU32 interned.1
    .ok (interned.1, { interned.2 with
        keyCache := fun other =>
          if other = slot then ⟨address, key.length, keyId⟩ else interned.2.keyCache other })

/-- Number one field occurrence. -/
def AttributeBuilder.addField {memory : Memory} (builder : AttributeBuilder)
    (field : PlacedField memory) : LogDbResult AttributeBuilder := do
  let keyed ← builder.lookupKey (utf8 field.key) field.keyAddress
  let counted ← (keyed.2.valueCounts.getD keyed.1 {}).increment (utf8 field.value)
    field.valueAddress
  let keyId ← tryU32 keyed.1
  .ok { keyed.2 with
    valueCounts := keyed.2.valueCounts.set keyed.1 counted.2
    fieldMembership :=
      if counted.1.2 then keyed.2.fieldMembership.insertPair (utf8 field.key) (utf8 field.value)
      else keyed.2.fieldMembership
    resolved :=
      { keyed.2.resolved with
        entries := keyed.2.resolved.entries ++ [⟨keyId, counted.1.1⟩] } }

/-- The visitor over the fields of one record. -/
def AttributeBuilder.addFields {memory : Memory} :
    AttributeBuilder → List (LogDbResult (PlacedField memory)) → LogDbResult AttributeBuilder
  | builder, [] => .ok builder
  | builder, visited :: rest => do
      let field ← visited
      let builder ← builder.addField field
      builder.addFields rest

/-- Note where a record ends. -/
def AttributeBuilder.endRecord (builder : AttributeBuilder) (stop : Nat) : AttributeBuilder :=
  { builder with
    resolved := { builder.resolved with recordEnds := builder.resolved.recordEnds ++ [stop] } }

/-- Number the fields of one record and note where it ends. -/
def AttributeBuilder.addRecord {memory : Memory} (builder : AttributeBuilder)
    (fields : List (LogDbResult (PlacedField memory))) : LogDbResult AttributeBuilder := do
  let builder ← builder.addFields fields
  let stop ← tryU32 builder.resolved.entries.length
  .ok (builder.endRecord stop)

/-- Number the fields of the records of a batch. -/
def AttributeBuilder.addRecords {memory : Memory} :
    AttributeBuilder → List (List (LogDbResult (PlacedField memory))) → LogDbResult AttributeBuilder
  | builder, [] => .ok builder
  | builder, fields :: rest => do
      let builder ← builder.addRecord fields
      builder.addRecords rest

/-- Tables, resolved fields and membership filter of a batch. -/
def buildAttributeTables {R : Type} [StructuralRecordView R] {records : List R}
    (placement : Placement records) :
    LogDbResult (AttributeTables × ResolvedFields × MembershipFilter) := do
  let builder ← AttributeBuilder.addRecords {} placement.fields
  let values ← collect AttributeValueCounts.intoTable builder.valueCounts
  .ok (⟨builder.keys, values⟩, builder.resolved, builder.fieldMembership)

/-! ## Numbering the values of a key -/

/-- The values are distinct, the map agrees with the scan, and the remembered
address holds the remembered value. -/
structure AttributeValueCounts.Valid (memory : Memory) (counts : AttributeValueCounts) : Prop where
  nodup : counts.values.Nodup
  ids : ∀ ids, counts.ids = some ids → ids = counts.values.zipIdx
  last : counts.lastEntryId ≠ emptySlot →
    counts.values[counts.lastEntryId]? = some (memory counts.lastAddress counts.lastLength)

theorem valid_default (memory : Memory) : AttributeValueCounts.Valid memory {} where
  nodup := nodup_nil
  ids := by simp
  last := fun h => absurd rfl h

variable {memory : Memory} {counts : AttributeValueCounts} {entryId : Nat} {value : Bytes}
  {address : Nat} {builder : AttributeBuilder} {fields : List (Str × Str)} {key : Bytes}
  {next : AttributeBuilder} {keyId : Nat} {keys : List Bytes}
  {valueCounts : List AttributeValueCounts} {entry : ResolvedField} {field : Str × Str}

/-- Map, scan and remembered entry agree. -/
theorem findEntry_eq_position (h : counts.Valid memory) (value : Bytes) :
    counts.findEntry value = position counts.values value := by
  unfold AttributeValueCounts.findEntry
  cases hids : counts.ids with
  | none => rfl
  | some ids =>
    change get ids value = _
    rw [h.ids ids hids, get_zipIdx]

/-- Counting an occurrence changes neither the values nor what is remembered. -/
theorem countAgain_eq_ok {again : AttributeValueCounts} (h : counts.countAgain entryId = .ok again) :
    again.values = counts.values ∧ again.ids = counts.ids ∧
      again.lastAddress = counts.lastAddress ∧ again.lastLength = counts.lastLength ∧
      again.lastEntryId = counts.lastEntryId := by
  rcases bind_eq_ok_iff.mp h with ⟨count, _, h⟩
  cases h
  refine ⟨?_, rfl, rfl, rfl, rfl⟩
  unfold AttributeValueCounts.values
  apply ext_getElem?
  intro index
  rw [getElem?_map, getElem?_map, getElem?_set]
  by_cases hindex : entryId = index
  · grind
  · rw [if_neg hindex]

/-- A new value goes to the end. -/
theorem values_addEntry (counts : AttributeValueCounts) (value : Bytes) :
    (counts.addEntry value).values = counts.values ++ [value] := by
  simp [AttributeValueCounts.addEntry, AttributeValueCounts.values]

/-- The map that goes with a new value still agrees with the scan. -/
theorem ids_addEntry (hvalid : counts.Valid memory) (hnew : value ∉ counts.values) :
    ∀ ids, (counts.addEntry value).ids = some ids → ids = (counts.values ++ [value]).zipIdx := by
  intro ids hids
  have hlength : counts.entries.length = counts.values.length := by
    simp [AttributeValueCounts.values]
  simp only [AttributeValueCounts.addEntry, Option.map_eq_some_iff] at hids
  rcases hids with ⟨old, hold, rfl⟩
  have hzip : old = counts.values.zipIdx := by
    split at hold
    · cases hold
      rfl
    · exact hvalid.ids old hold
  rw [hzip, hlength, insert_zipIdx hnew]

/-- Remembering a value keeps the counts valid. -/
theorem valid_remember (hnodup : counts.values.Nodup)
    (hids : ∀ ids, counts.ids = some ids → ids = counts.values.zipIdx)
    (hentry : counts.values[entryId]? = some value) (hvalue : memory address value.length = value) :
    (counts.remember value address entryId).Valid memory where
  nodup := hnodup
  ids := hids
  last := by
    intro _
    change counts.values[entryId]? = some (memory address value.length)
    rw [hvalue, hentry]

/-- Numbering a value: the number names the value, and either nothing but the
count changed or the value is new. -/
theorem increment_spec {next : AttributeValueCounts} {inserted : Bool}
    (hvalid : counts.Valid memory) (hvalue : memory address value.length = value)
    (h : counts.increment value address = .ok ((entryId, inserted), next)) :
    next.Valid memory ∧ next.values[entryId]? = some value ∧
      (inserted = false ∧ next.values = counts.values ∨
        inserted = true ∧ next.values = counts.values ++ [value]) := by
  unfold AttributeValueCounts.increment at h
  split at h
  · rename_i hlast
    rcases hlast with ⟨hentry, rfl, hlength⟩
    rcases bind_eq_ok_iff.mp h with ⟨again, hagain, h⟩
    cases h
    rcases countAgain_eq_ok hagain with ⟨hvalues, hids, haddress, hlen, hid⟩
    have hnamed := hvalid.last hentry
    rw [hlength, hvalue] at hnamed
    refine ⟨⟨hvalues ▸ hvalid.nodup, ?_, ?_⟩, hvalues ▸ hnamed, .inl ⟨rfl, hvalues⟩⟩
    · rw [hids, hvalues]
      exact hvalid.ids
    · rw [hid, haddress, hlen, hvalues]
      exact hvalid.last
  · unfold AttributeValueCounts.incrementSlow at h
    rw [findEntry_eq_position hvalid] at h
    cases hposition : position counts.values value with
    | some found =>
      rw [hposition] at h
      rcases bind_eq_ok_iff.mp h with ⟨again, hagain, h⟩
      rcases bind_eq_ok_iff.mp h with ⟨id, hid, h⟩
      cases h
      rcases tryU32_eq_ok_iff.mp hid with ⟨rfl, _⟩
      rcases countAgain_eq_ok hagain with ⟨hvalues, hids, _⟩
      have hnamed : again.values[entryId]? = some value := hvalues ▸ getElem?_of_position hposition
      refine ⟨valid_remember (hvalues ▸ hvalid.nodup) ?_ hnamed hvalue, hnamed, .inl ⟨rfl, hvalues⟩⟩
      rw [hids, hvalues]
      exact hvalid.ids
    | none =>
      rw [hposition] at h
      rcases bind_eq_ok_iff.mp h with ⟨id, hid, h⟩
      cases h
      rcases tryU32_eq_ok_iff.mp hid with ⟨rfl, _⟩
      have hnew := position_eq_none_iff.mp hposition
      have hnamed : (counts.addEntry value).values[counts.entries.length]? = some value := by
        rw [values_addEntry, AttributeValueCounts.values, getElem?_append_right (by simp)]
        simp
      refine ⟨valid_remember ?_ ?_ hnamed hvalue, hnamed, .inr ⟨rfl, values_addEntry _ _⟩⟩
      · rw [values_addEntry, ← concat_eq_append]
        exact hvalid.nodup.concat hnew
      · rw [values_addEntry]
        exact ids_addEntry hvalid hnew

/-! ## Renumbering -/

/-- Each listed value receives the number of its place; the others keep theirs. -/
theorem resolveEntries_eq_ok {ordered : List (Nat × Bytes)} {start : Nat}
    {resolved result : List Nat} (hnodup : (ordered.map Prod.fst).Nodup)
    (h : resolveEntries ordered start resolved = .ok result) :
    (∀ id, id ∉ ordered.map Prod.fst → result[id]? = resolved[id]?) ∧
    ∀ index id value, ordered[index]? = some (id, value) → id < resolved.length →
      result[id]? = some (start + index) := by
  induction ordered generalizing start resolved with
  | nil =>
    cases h
    exact ⟨fun _ _ => rfl, by simp⟩
  | cons first rest ih =>
    rcases first with ⟨unresolvedId, bytes⟩
    rw [map_cons, nodup_cons] at hnodup
    rcases bind_eq_ok_iff.mp h with ⟨entryId, hentry, h⟩
    rcases tryU32_eq_ok_iff.mp hentry with ⟨rfl, _⟩
    rcases ih hnodup.2 h with ⟨hothers, hplaces⟩
    constructor
    · grind
    · intro index id value hindex hlength
      cases index with
      | zero => grind
      | succ index => grind

/-- The final table of a key holds the same values, and resolves every value
from the number it was first given. -/
theorem intoTable_spec {table : AttributeValueTable} (h : counts.intoTable = .ok table) :
    table.entries.Perm counts.values ∧ table.dictionaryLen ≤ table.entries.length ∧
      ∀ id value, counts.values[id]? = some value → ∃ entryId,
        table.resolve id = .ok (entryId, value) := by
  unfold AttributeValueCounts.intoTable at h
  rcases bind_eq_ok_iff.mp h with ⟨resolved, hresolved, h⟩
  cases h
  set swap : (Bytes × Nat) × Nat → Nat × Bytes := fun entry => (entry.2, entry.1.1) with hswap
  set dictionary := (List.map swap (List.filter (fun entry => decide (2 ≤ entry.1.2))
    counts.entries.zipIdx)).insertionSort fun left right => left.2 ≤ right.2 with hdictionary
  set direct := List.map swap (List.filter (fun entry => !decide (2 ≤ entry.1.2))
    counts.entries.zipIdx) with hdirect
  have hperm : (dictionary ++ direct).Perm (counts.entries.zipIdx.map swap) := by
    have hsorted := perm_insertionSort (fun left right : Nat × Bytes => left.2 ≤ right.2)
      (List.map swap (List.filter (fun entry => decide (2 ≤ entry.1.2)) counts.entries.zipIdx))
    refine (hsorted.append_right direct).trans ?_
    rw [hdirect, ← map_append]
    exact (filter_append_perm (fun entry : (Bytes × Nat) × Nat => decide (2 ≤ entry.1.2))
      counts.entries.zipIdx).map swap
  have hvalues : (counts.entries.zipIdx.map swap).map Prod.snd = counts.values := by
    rw [map_map, AttributeValueCounts.values]
    conv_rhs => rw [← zipIdx_map_fst 0 counts.entries, map_map]
    rfl
  have hids : (counts.entries.zipIdx.map swap).map Prod.fst = range' 0 counts.entries.length := by
    rw [map_map]
    exact zipIdx_map_snd 0 counts.entries
  have hnodup : ((dictionary ++ direct).map Prod.fst).Nodup := by
    rw [(hperm.map Prod.fst).nodup_iff, hids]
    exact nodup_range'
  refine ⟨hvalues ▸ hperm.map Prod.snd, by simp, fun id value hid => ?_⟩
  have hlength : id < counts.entries.length := by grind
  have hmem : (id, value) ∈ dictionary ++ direct := by grind
  rcases getElem?_of_mem hmem with ⟨index, hindex⟩
  have hresolve := (resolveEntries_eq_ok hnodup hresolved).2 index id value hindex
    (by simpa using hlength)
  refine ⟨index, ?_⟩
  unfold AttributeValueTable.resolve
  simp only [hresolve, Nat.zero_add, getElem?_map, hindex, Option.map_some]

/-! ## Numbering the fields of a batch -/

/-- The bytes of some text. -/
def IsText (bytes : Bytes) : Prop := ∃ text, bytes = utf8 text

/-- The numbers of a field occurrence name its key and its value. -/
structure Names (keys : List Bytes) (valueCounts : List AttributeValueCounts)
    (entry : ResolvedField) (field : Str × Str) : Prop where
  small : entry.keyId < 2 ^ 32
  key : keys[entry.keyId]? = some (utf8 field.1)
  value : ∃ counts, valueCounts[entry.keyId]? = some counts ∧
    counts.values[entry.valueId]? = some (utf8 field.2)

/-- What the pass has established about the fields it has visited. -/
structure AttributeBuilder.Tracks (memory : Memory) (builder : AttributeBuilder)
    (fields : List (Str × Str)) : Prop where
  keyIds : builder.keyIds = builder.keys.zipIdx
  nodup : builder.keys.Nodup
  length : builder.valueCounts.length = builder.keys.length
  valid : ∀ counts ∈ builder.valueCounts, counts.Valid memory
  cache : ∀ slot, (builder.keyCache slot).keyId ≠ emptySlot →
    builder.keys[(builder.keyCache slot).keyId]? =
      some (memory (builder.keyCache slot).address (builder.keyCache slot).length)
  keysText : ∀ key ∈ builder.keys, IsText key
  valuesText : ∀ counts ∈ builder.valueCounts, ∀ value ∈ counts.values, IsText value
  resolved : List.Forall₂ (Names builder.keys builder.valueCounts) builder.resolved.entries fields
  member : ∀ (k : Nat) (key : Bytes) (counts : AttributeValueCounts) (value : Bytes),
    builder.keys[k]? = some key → builder.valueCounts[k]? = some counts →
      value ∈ counts.values → builder.fieldMembership.mightContainPair key value = true

theorem tracks_default (memory : Memory) : AttributeBuilder.Tracks memory {} [] where
  keyIds := rfl
  nodup := nodup_nil
  length := rfl
  valid := by simp
  cache := fun _ h => absurd rfl h
  keysText := by simp
  valuesText := by simp
  resolved := .nil
  member := by simp

section

variable (h : builder.Tracks memory fields)

include h

/-- A key is found at its position. -/
theorem findKey_eq_position (key : Bytes) : builder.findKey key = position builder.keys key := by
  unfold AttributeBuilder.findKey
  split
  · rfl
  · rw [h.keyIds, get_zipIdx]

/-- A new key has no values yet; the old keys are where they were. -/
theorem internKey_spec (htext : IsText key) :
    (builder.internKey key).2.Tracks memory fields ∧
      (builder.internKey key).2.keys[(builder.internKey key).1]? = some key := by
  unfold AttributeBuilder.internKey
  rw [findKey_eq_position h]
  cases hposition : position builder.keys key with
  | some keyId => exact ⟨h, getElem?_of_position hposition⟩
  | none =>
    have hnew := position_eq_none_iff.mp hposition
    refine ⟨⟨?_, ?_, ?_, ?_, ?_, ?_, ?_, ?_, ?_⟩, by simp⟩
    · rw [h.keyIds, insert_zipIdx hnew]
    · rw [← concat_eq_append]
      exact h.nodup.concat hnew
    · simp [h.length]
    · exact forall_mem_append.mpr ⟨h.valid, forall_mem_singleton.mpr (valid_default memory)⟩
    · intro slot hslot
      exact getElem?_of_isPrefix (prefix_append _ _) (h.cache slot hslot)
    · exact forall_mem_append.mpr ⟨h.keysText, forall_mem_singleton.mpr htext⟩
    · exact forall_mem_append.mpr
        ⟨h.valuesText, forall_mem_singleton.mpr (by simp [AttributeValueCounts.values])⟩
    · refine h.resolved.imp fun entry field hnames =>
        ⟨hnames.small, getElem?_of_isPrefix (prefix_append _ _) hnames.key, ?_⟩
      rcases hnames.value with ⟨counts, hat, hvalue⟩
      exact ⟨counts, getElem?_of_isPrefix (prefix_append _ _) hat, hvalue⟩
    · intro k other counts value hk hat hvalue
      by_cases hlt : k < builder.keys.length
      · rw [getElem?_append_left hlt] at hk
        rw [getElem?_append_left (by rw [h.length]; exact hlt)] at hat
        exact h.member k other counts value hk hat hvalue
      · rw [getElem?_append_right (by rw [h.length]; omega)] at hat
        have hempty := mem_of_getElem? hat
        rw [mem_singleton.mp hempty] at hvalue
        simp [AttributeValueCounts.values] at hvalue

/-- A looked-up key has its number. -/
theorem lookupKey_spec (htext : IsText key) (hkey : memory address key.length = key)
    (hok : builder.lookupKey key address = .ok (keyId, next)) :
    next.Tracks memory fields ∧ next.keys[keyId]? = some key := by
  unfold AttributeBuilder.lookupKey at hok
  dsimp only at hok
  split at hok
  · rename_i hcached
    rcases hcached with ⟨hslot, haddress, hlength⟩
    cases hok
    have hnamed := h.cache _ hslot
    rw [haddress, hlength, hkey] at hnamed
    exact ⟨h, hnamed⟩
  · rcases bind_eq_ok_iff.mp hok with ⟨id, hid, hok⟩
    cases hok
    rcases tryU32_eq_ok_iff.mp hid with ⟨rfl, _⟩
    rcases internKey_spec h htext with ⟨htracks, hnamed⟩
    refine ⟨{ htracks with cache := ?_ }, hnamed⟩
    intro slot hslot
    dsimp only at hslot ⊢
    split at hslot
    · rename_i heq
      rw [if_pos heq, hkey]
      exact hnamed
    · rename_i hne
      rw [if_neg hne]
      exact htracks.cache slot hslot

end

/-- Replacing the values of one key by an extension of them keeps all names. -/
theorem Names.set {next : AttributeValueCounts} (hat : valueCounts[keyId]? = some counts)
    (hextends : counts.values <+: next.values) (h : Names keys valueCounts entry field) :
    Names keys (valueCounts.set keyId next) entry field := by
  refine ⟨h.small, h.key, ?_⟩
  rcases h.value with ⟨found, hfound, hvalue⟩
  by_cases hkey : keyId = entry.keyId
  · subst hkey
    rw [hat] at hfound
    cases hfound
    exact ⟨next, getElem?_set_self (List.getElem?_eq_some_iff.mp hat).1,
      getElem?_of_isPrefix hextends hvalue⟩
  · exact ⟨found, by rw [getElem?_set_ne hkey]; exact hfound, hvalue⟩

/-- Visiting one field adds it to what is tracked. -/
theorem addField_spec (h : builder.Tracks memory fields) {field : PlacedField memory}
    (hok : builder.addField field = .ok next) :
    next.Tracks memory (fields ++ [field.text]) := by
  unfold AttributeBuilder.addField at hok
  simp only [bind_eq_ok_iff] at hok
  obtain ⟨⟨key, keyed⟩, hkeyed, ⟨⟨valueId, inserted⟩, counted⟩, hcounted, keyId, hkeyId, hok⟩ := hok
  cases hok
  rcases tryU32_eq_ok_iff.mp hkeyId with ⟨rfl, hsmall⟩
  rcases lookupKey_spec h ⟨field.key, rfl⟩ field.key_at hkeyed with ⟨htracks, hkey⟩
  have hlt : keyId < keyed.valueCounts.length := by
    rw [htracks.length]
    exact (List.getElem?_eq_some_iff.mp hkey).1
  obtain ⟨counts, hcounts⟩ : ∃ counts, keyed.valueCounts[keyId]? = some counts :=
    ⟨_, getElem?_eq_getElem hlt⟩
  simp only [getD_eq_getElem?_getD, hcounts, Option.getD_some] at hcounted
  have hmem := mem_of_getElem? hcounts
  rcases increment_spec (htracks.valid counts hmem) field.value_at hcounted with
    ⟨hvalid, hvalue, hchange⟩
  have hextends : counts.values <+: counted.values := by grind
  have hvalues : ∀ value ∈ counted.values, value ∈ counts.values ∨ value = utf8 field.value := by
    grind
  refine ⟨htracks.keyIds, htracks.nodup, ?_, ?_, htracks.cache, htracks.keysText, ?_, ?_, ?_⟩
  · rw [length_set]
    exact htracks.length
  · intro other hother
    rcases mem_or_eq_of_mem_set hother with hold | rfl
    · exact htracks.valid other hold
    · exact hvalid
  · intro other hother value hin
    rcases mem_or_eq_of_mem_set hother with hold | rfl
    · exact htracks.valuesText other hold value hin
    · rcases hvalues value hin with hold | rfl
      · exact htracks.valuesText counts hmem value hold
      · exact ⟨field.value, rfl⟩
  · refine rel_append (htracks.resolved.imp fun _ _ hnames => hnames.set hcounts hextends)
      (.cons ⟨hsmall, hkey, counted, getElem?_set_self hlt, hvalue⟩ .nil)
  · intro k other found value hk hfound hin
    -- an old pair is still in the filter; a new one has just been inserted
    have hold : keyed.fieldMembership.mightContainPair other value = true → (if inserted = true then
          keyed.fieldMembership.insertPair (utf8 field.key) (utf8 field.value)
          else keyed.fieldMembership).mightContainPair other value = true := by
      intro hcontains
      split
      · exact mightContainHash_insertHash_of hcontains _
      · exact hcontains
    by_cases hk' : keyId = k
    · subst hk'
      rw [getElem?_set_self hlt] at hfound
      cases hfound
      rw [hkey] at hk
      cases hk
      rcases hchange with ⟨_, hsame⟩ | ⟨rfl, hnew⟩
      · exact hold (htracks.member keyId _ counts value hkey hcounts (hsame ▸ hin))
      · rw [hnew, mem_append, mem_singleton] at hin
        rcases hin with hin | rfl
        · exact hold (htracks.member keyId _ counts value hkey hcounts hin)
        · exact mightContainHash_insertHash_self _ _
    · rw [getElem?_set_ne hk'] at hfound
      exact hold (htracks.member k other found value hk hfound hin)

/-- Where each record ends in the flat list of its fields. -/
def endsFrom {α : Type} : Nat → List (List α) → List Nat
  | _, [] => []
  | start, group :: groups => (start + group.length) :: endsFrom (start + group.length) groups

theorem recordEnds_addField {field : PlacedField memory} (hok : builder.addField field = .ok next) :
    next.resolved.recordEnds = builder.resolved.recordEnds := by
  unfold AttributeBuilder.addField at hok
  simp only [bind_eq_ok_iff] at hok
  obtain ⟨⟨key, keyed⟩, hkeyed, counted, _, keyId, _, hok⟩ := hok
  cases hok
  unfold AttributeBuilder.lookupKey AttributeBuilder.internKey at hkeyed
  dsimp only at hkeyed
  split at hkeyed
  · cases hkeyed
    rfl
  · grind [bind_eq_ok_iff]

section

variable (h : builder.Tracks memory fields)

include h

/-- The visitor tracks the fields of a record, none of which failed. -/
theorem addFields_spec {visited : List (LogDbResult (PlacedField memory))}
    (hok : builder.addFields visited = .ok next) :
    ∃ own, visited.map (Except.map PlacedField.text) = own.map .ok ∧
      next.Tracks memory (fields ++ own) ∧
      next.resolved.recordEnds = builder.resolved.recordEnds := by
  induction visited generalizing builder next fields with
  | nil =>
    cases hok
    exact ⟨[], rfl, by rwa [append_nil], rfl⟩
  | cons visit visited ih =>
    rcases bind_eq_ok_iff.mp hok with ⟨field, hfield, hok⟩
    rcases bind_eq_ok_iff.mp hok with ⟨added, hadded, hok⟩
    rcases ih (addField_spec h hadded) hok with ⟨own, hown, htracks, hends⟩
    refine ⟨field.text :: own, ?_, ?_, hends.trans (recordEnds_addField hadded)⟩
    · rw [map_cons, map_cons, hown, hfield]
      rfl
    · rwa [append_assoc] at htracks

theorem AttributeBuilder.Tracks.endRecord (stop : Nat) :
    (builder.endRecord stop).Tracks memory fields :=
  ⟨h.keyIds, h.nodup, h.length, h.valid, h.cache, h.keysText, h.valuesText, h.resolved, h.member⟩

/-- The pass over a batch tracks the fields of all records, one after another. -/
theorem addRecords_spec {visited : List (List (LogDbResult (PlacedField memory)))}
    (hok : builder.addRecords visited = .ok next) :
    ∃ own : List (List (Str × Str)),
      visited.map (List.map (Except.map PlacedField.text)) = own.map (List.map .ok) ∧
      next.Tracks memory (fields ++ own.flatten) ∧
      next.resolved.recordEnds = builder.resolved.recordEnds ++ endsFrom fields.length own := by
  induction visited generalizing builder next fields with
  | nil =>
    cases hok
    exact ⟨[], rfl, by simpa using h, by simp [endsFrom]⟩
  | cons visit visited ih =>
    rcases bind_eq_ok_iff.mp hok with ⟨added, hadded, hok⟩
    rcases bind_eq_ok_iff.mp hadded with ⟨filled, hfilled, hadded⟩
    rcases bind_eq_ok_iff.mp hadded with ⟨stop, hstop, hadded⟩
    cases hadded
    rcases tryU32_eq_ok_iff.mp hstop with ⟨rfl, _⟩
    rcases addFields_spec h hfilled with ⟨own, hown, htracks, hends⟩
    have hlength : filled.resolved.entries.length = fields.length + own.length := by
      rw [htracks.resolved.length_eq, length_append]
    rcases ih (htracks.endRecord _) hok with ⟨rest, hrest, hfinal, hfinalEnds⟩
    refine ⟨own :: rest, ?_, ?_, ?_⟩
    · rw [map_cons, map_cons, hown, hrest]
    · rwa [append_assoc, ← flatten_cons] at hfinal
    · rw [hfinalEnds, endsFrom, length_append, ← hlength, ← hends]
      simp [AttributeBuilder.endRecord]

end

/-! ## The tables of a batch -/

/-- The numbers of a field occurrence resolve to its key and its value. -/
structure Resolves (tables : AttributeTables) (entry : ResolvedField) (field : Str × Str) :
    Prop where
  small : entry.keyId < 2 ^ 32
  key : tables.keys[entry.keyId]? = some (utf8 field.1)
  value : ∃ table entryId, tables.values[entry.keyId]? = some table ∧
    table.resolve entry.valueId = .ok (entryId, utf8 field.2)

/-- The tables, the resolved fields and the filter belong to records with these
fields. -/
structure AttributesOf (fields : List (List (Str × Str))) (tables : AttributeTables)
    (resolved : ResolvedFields) (filter : MembershipFilter) : Prop where
  keysNodup : tables.keys.Nodup
  length : tables.values.length = tables.keys.length
  valuesNodup : ∀ table ∈ tables.values, table.entries.Nodup
  dictionaryLe : ∀ table ∈ tables.values, table.dictionaryLen ≤ table.entries.length
  keysText : ∀ key ∈ tables.keys, IsText key
  valuesText : ∀ table ∈ tables.values, ∀ value ∈ table.entries, IsText value
  resolves : List.Forall₂ (Resolves tables) resolved.entries fields.flatten
  ends : resolved.recordEnds = endsFrom 0 fields
  member : ∀ field ∈ fields.flatten, filter.mightContainPair (utf8 field.1) (utf8 field.2) = true

/-- Named values are resolved by the final tables. -/
theorem resolves_of_names {values : List AttributeValueTable}
    (hvalues : Forall₂ (fun counts table => counts.intoTable = .ok table) valueCounts values)
    (h : Names keys valueCounts entry field) :
    Resolves ⟨keys, values⟩ entry field := by
  rcases h.value with ⟨counts, hcounts, hvalue⟩
  rcases forall₂_getElem? hvalues hcounts with ⟨table, hposition, htable⟩
  rcases (intoTable_spec htable).2.2 _ _ hvalue with ⟨entryId, hresolve⟩
  exact ⟨h.small, h.key, table, entryId, hposition, hresolve⟩

/-- What the attribute pass delivers for a batch it accepts. -/
theorem buildAttributeTables_spec {R : Type} [StructuralRecordView R] {records : List R}
    {placement : Placement records} {tables : AttributeTables} {resolved : ResolvedFields}
    {filter : MembershipFilter}
    (h : buildAttributeTables placement = .ok (tables, resolved, filter)) :
    ∃ fields : List (List (Str × Str)), records.map visitedFields = fields.map (List.map .ok) ∧
      AttributesOf fields tables resolved filter := by
  rcases bind_eq_ok_iff.mp h with ⟨builder, hbuilder, h⟩
  rcases bind_eq_ok_iff.mp h with ⟨values, hvalues, h⟩
  cases h
  rw [collect_eq_ok_iff] at hvalues
  rcases addRecords_spec (tracks_default placement.memory) hbuilder with
    ⟨fields, hfields, htracks, hends⟩
  have htable : ∀ table ∈ values, ∃ counts ∈ builder.valueCounts,
      table.entries.Perm counts.values ∧ table.dictionaryLen ≤ table.entries.length := by
    intro table hmem
    rcases forall₂_mem hvalues.flip hmem with ⟨counts, hcounts, hinto⟩
    exact ⟨counts, hcounts, (intoTable_spec hinto).1, (intoTable_spec hinto).2.1⟩
  refine ⟨fields, placement.contents ▸ hfields, htracks.nodup, ?_, ?_, ?_, htracks.keysText, ?_, ?_,
    by simpa using hends, ?_⟩
  · rw [← hvalues.length_eq]
    exact htracks.length
  · intro table hmem
    rcases htable table hmem with ⟨counts, hcounts, hperm, _⟩
    exact hperm.nodup_iff.mpr (htracks.valid counts hcounts).nodup
  · exact fun table hmem => (htable table hmem).choose_spec.2.2
  · intro table hmem value hvalue
    rcases htable table hmem with ⟨counts, hcounts, hperm, _⟩
    exact htracks.valuesText counts hcounts value (hperm.mem_iff.mp hvalue)
  · exact htracks.resolved.imp fun _ _ => resolves_of_names hvalues
  · intro field hfield
    rcases forall₂_mem htracks.resolved.flip hfield with ⟨_, _, hnames⟩
    rcases hnames.value with ⟨counts, hcounts, hvalue⟩
    exact htracks.member _ _ counts _ hnames.key hcounts (mem_of_getElem? hvalue)

end ShardLog.Structural
