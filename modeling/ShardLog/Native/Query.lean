import ShardLog.Native.Encode

/-!
# Native protocol - indexed queries

A query is written behind a fixed header.  An absent time bound is written as the
largest number, which is also a legal bound.

Main results:

- Theorem `decodeNativeQuery_encode_iff`: the queries that read back unchanged.
-/

namespace ShardLog.Native

open ByteReader Utf8 Runs Integers

/-! ## Queries -/

inductive NativeQueryDirection where
  | oldestFirst
  | newestFirst
deriving DecidableEq, Repr

/-- Bounded indexed query; the lower time bound is inclusive, the upper exclusive. -/
structure NativeQuery where
  tenant : Str
  labels : TextMap
  terms : List Str
  startTimestampUnixNanos : Option UInt64
  endTimestampUnixNanos : Option UInt64
  limit : UInt32
  direction : NativeQueryDirection
deriving DecidableEq

def queryMagic : Bytes := utf8 "SLQ1".toList

def queryHeaderBytes : Nat := 32

def maxQueryTerms : Nat := 256

def maxQueryLimit : Nat := 1000000

def validateString16 (value : Str) (field : String) : NativeResult Unit :=
  ensure ((utf8 value).length < 2 ^ 16) ⟨field ++ " exceeds u16"⟩

def validateQueryLabel (pair : Str × Str) : NativeResult Unit := do
  ensure (pair.1 ≠ []) ⟨"native query label keys must not be empty"⟩
  validateString16 pair.1 "query label key"
  validateString16 pair.2 "query label value"

def emptyQueryTerm : NativeProtocolError := ⟨"native query terms must not be empty"⟩

def validateQueryTerm (term : Str) : NativeResult Unit := do
  ensure (term ≠ []) emptyQueryTerm
  validateString16 term "query term"

/-- Two given bounds enclose some timestamp. -/
def NativeQuery.rangeNonempty (query : NativeQuery) : Bool :=
  match query.startTimestampUnixNanos, query.endTimestampUnixNanos with
  | some start, some stop => decide (start.toNat < stop.toNat)
  | _, _ => true

def validateQuery (query : NativeQuery) : NativeResult Unit := do
  validateTenant query.tenant
  ensure (query.labels.entries.length ≤ maxLabelsPerStream)
    ⟨"native query contains too many labels"⟩
  ensure (query.terms.length ≤ maxQueryTerms) ⟨"native query contains too many terms"⟩
  ensure (query.limit.toNat ≠ 0 ∧ query.limit.toNat ≤ maxQueryLimit)
    ⟨"native query limit must be in 1..=" ++ toString maxQueryLimit⟩
  ensure (query.rangeNonempty = true) ⟨"native query timestamp range must be nonempty"⟩
  let _ ← collect validateQueryLabel query.labels.entries
  let _ ← collect validateQueryTerm query.terms
  .ok ()

/-! ## Codec -/

def NativeQueryDirection.code : NativeQueryDirection → UInt8
  | .oldestFirst => 0
  | .newestFirst => 1

/-- The written form of a bound; an absent one is the largest number. -/
def boundCode (bound : Option UInt64) : Nat := (bound.getD 0xffffffffffffffff).toNat

def encodeNativeQuery (query : NativeQuery) : NativeResult Bytes := do
  validateQuery query
  let tenantLength ← putU16 (utf8 query.tenant).length "query tenant"
  let labelCount ← putU16 query.labels.entries.length "query label count"
  let termCount ← putU16 query.terms.length "query term count"
  let labels ← encodeAll (putPair "query label key" "query label value") query.labels.entries
  let terms ← encodeAll (fun term => putString16 term "query term") query.terms
  .ok (queryMagic ++ (tenantLength ++ (labelCount ++ (termCount ++ ([query.direction.code, 0] ++
    (leBytes 4 query.limit.toNat ++ (leBytes 8 (boundCode query.startTimestampUnixNanos) ++
        (leBytes 8 (boundCode query.endTimestampUnixNanos) ++
          (utf8 query.tenant ++ (labels ++ terms))))))))))

def directionOf (code : UInt8) : NativeResult NativeQueryDirection :=
  if code = 0 then .ok .oldestFirst
  else if code = 1 then .ok .newestFirst
  else .error ⟨"unsupported native query direction " ++ toString code⟩

/-- The bound of a written number. -/
def boundOf (code : Nat) : Option UInt64 :=
  if code ≠ 2 ^ 64 - 1 then some (UInt64.ofNat code) else none

def readQueryTerms : Nat → List Str → Cursor (List Str)
  | 0, terms => pure terms
  | count + 1, terms => do
      let term ← Cursor.string16 "query term"
      require (!term.isEmpty) emptyQueryTerm
      readQueryTerms count (terms ++ [term])

/-- What follows the header: tenant, labels and terms. -/
def readQueryBody (tenantLength labelCount termCount : Nat) :
    Cursor (Str × TextMap × List Str) := do
  let tenant ← Cursor.string tenantLength "query tenant"
  let labels ← readTextMap "query label key" "query label value"
    ⟨"native query contains an empty or duplicate label"⟩ labelCount OrderedMap.empty
  let terms ← readQueryTerms termCount []
  Cursor.finish
  pure (tenant, labels, terms)

def decodeNativeQuery (payload : Bytes) : NativeResult NativeQuery := do
  ensure (queryHeaderBytes ≤ payload.length ∧ payload.take 4 = queryMagic)
    ⟨"invalid native query header"⟩
  let direction ← directionOf (payload.getD 10 0)
  ensure (payload.getD 11 0 = 0) ⟨"native query reserved byte must be zero"⟩
  let field := fun start stop => fromLeBytes (slice payload ⟨start, stop⟩)
  let body ← ((readQueryBody (field 4 6) (field 6 8) (field 8 10)).run
    ⟨queryHeaderBytes, payload.drop queryHeaderBytes⟩).map Prod.fst
  let query : NativeQuery :=
    { tenant := body.1
      labels := body.2.1
      terms := body.2.2
      startTimestampUnixNanos := boundOf (field 16 24)
      endTimestampUnixNanos := boundOf (field 24 32)
      limit := UInt32.ofNat (field 12 16)
      direction := direction }
  validateQuery query
  .ok query

/-! ## Bounds -/

/-- A bound that is written like an absent one. -/
def sentinelBound : UInt64 := 0xffffffffffffffff

/-- What a bound reads back as. -/
def readBound (bound : Option UInt64) : Option UInt64 :=
  bound.filter fun bound => decide (bound ≠ sentinelBound)

/-- The sentinel is read as no bound. -/
theorem boundOf_boundCode (bound : Option UInt64) : boundOf (boundCode bound) = readBound bound := by
  cases bound with
  | none => rfl
  | some bound =>
    by_cases hmax : bound = sentinelBound
    · subst hmax
      rfl
    · have hcode : bound.toNat ≠ 2 ^ 64 - 1 := fun hcode => hmax (UInt64.toNat_inj.mp hcode)
      simp only [boundCode, Option.getD_some, boundOf, if_pos hcode, UInt64.ofNat_toNat,
        readBound, Option.filter_some, hmax, ne_eq, not_false_eq_true, decide_true, if_true]

variable {bound : Option UInt64} {query : NativeQuery}

/-- Only the sentinel is not read back. -/
theorem readBound_eq_iff : readBound bound = bound ↔ bound ≠ some sentinelBound := by
  cases bound with
  | none => simp [readBound]
  | some bound => simp [readBound, Option.filter_some]

/-- A query as it reads back. -/
def NativeQuery.readBack (query : NativeQuery) : NativeQuery :=
  { query with
    startTimestampUnixNanos := readBound query.startTimestampUnixNanos
    endTimestampUnixNanos := readBound query.endTimestampUnixNanos }

theorem readBound_eq_some {value : UInt64} (h : readBound bound = some value) :
    bound = some value := by
  exact (Option.filter_eq_some_iff.mp h).1

/-- Losing a bound does not empty the range. -/
theorem rangeNonempty_readBack (h : query.rangeNonempty = true) :
    query.readBack.rangeNonempty = true := by
  unfold NativeQuery.rangeNonempty
  split
  · rename_i start stop hstart hstop
    have hstart' := readBound_eq_some hstart
    have hstop' := readBound_eq_some hstop
    rw [NativeQuery.rangeNonempty, hstart', hstop'] at h
    exact h
  · rfl

/-- What is read back is valid as well. -/
theorem validateQuery_readBack (h : validateQuery query = .ok ()) :
    validateQuery query.readBack = .ok () := by
  obtain ⟨_, htenant, h⟩ := bind_eq_ok_iff.mp h
  obtain ⟨_, hlabels, h⟩ := bind_eq_ok_iff.mp h
  obtain ⟨_, hterms, h⟩ := bind_eq_ok_iff.mp h
  obtain ⟨_, hlimit, h⟩ := bind_eq_ok_iff.mp h
  obtain ⟨_, hrange, h⟩ := bind_eq_ok_iff.mp h
  have hback := rangeNonempty_readBack (ensure_eq_ok_iff.mp hrange)
  rw [validateQuery, ensure_of_true hback]
  exact bind_eq_ok_iff.mpr ⟨_, htenant, bind_eq_ok_iff.mpr ⟨_, hlabels, bind_eq_ok_iff.mpr
    ⟨_, hterms, bind_eq_ok_iff.mpr ⟨_, hlimit, h⟩⟩⟩⟩

/-! ## Reading back -/

/-- Written terms are read back. -/
theorem reads_readQueryTerms {terms read : List Str} {bytes : Bytes}
    (h : encodeAll (fun term => putString16 term "query term") terms = .ok bytes)
    (hterms : ∀ term ∈ terms, term ≠ []) :
    Reads (readQueryTerms terms.length read) bytes (read ++ terms) := by
  induction terms generalizing read bytes with
  | nil =>
    cases h
    rw [List.append_nil]
    exact reads_pure read
  | cons term rest ih =>
    obtain ⟨blobs, hblobs, rfl⟩ := encodeAll_eq_ok_iff.mp h
    obtain ⟨blob, others, hterm, hrest, rfl⟩ := List.forall₂_cons_left_iff.mp hblobs
    have hlater := @ih (read ++ [term]) _ (encodeAll_eq_ok_iff.mpr ⟨others, hrest, rfl⟩)
      fun other hother => hterms other (List.mem_cons_of_mem _ hother)
    rw [List.append_assoc] at hlater
    have hne := hterms term List.mem_cons_self
    exact (reads_string16 hterm).bind (Reads.require_bind (by simp [hne]) hlater)

/-- Every item of an accepted list is accepted. -/
theorem accepted_of_collect {α : Type} {check : α → NativeResult Unit} {items : List α}
    {results : List Unit} (h : collect check items = .ok results) :
    ∀ item ∈ items, check item = .ok () := by
  intro item hitem
  obtain ⟨_, _, hchecked⟩ := forall₂_mem (collect_eq_ok_iff.mp h) hitem
  exact hchecked

theorem queryMagic_eq : queryMagic = [83, 76, 81, 49] := by decide +kernel

/-- Codes name directions. -/
theorem directionOf_code (direction : NativeQueryDirection) :
    directionOf direction.code = .ok direction := by
  cases direction <;> rfl

theorem boundCode_lt (bound : Option UInt64) : boundCode bound < 256 ^ 8 := UInt64.toNat_lt _

section RoundTrip

variable {query : NativeQuery} {bytes labels terms : Bytes}

/-- Header and body of a written query. -/
def queryBytes (query : NativeQuery) (labels terms : Bytes) : Bytes :=
  queryMagic ++ (leBytes 2 (utf8 query.tenant).length ++
    (leBytes 2 query.labels.entries.length ++ (leBytes 2 query.terms.length ++
      ([query.direction.code, 0] ++ (leBytes 4 query.limit.toNat ++
        (leBytes 8 (boundCode query.startTimestampUnixNanos) ++
          (leBytes 8 (boundCode query.endTimestampUnixNanos) ++
            (utf8 query.tenant ++ (labels ++ terms)))))))))

/-- What an encoded query consists of. -/
structure EncodesQuery (query : NativeQuery) (labels terms bytes : Bytes) : Prop where
  valid : validateQuery query = .ok ()
  tenantLength : (utf8 query.tenant).length < 256 ^ 2
  labelCount : query.labels.entries.length < 256 ^ 2
  termCount : query.terms.length < 256 ^ 2
  writesLabels : encodeAll (putPair "query label key" "query label value")
    query.labels.entries = .ok labels
  writesTerms : encodeAll (fun term => putString16 term "query term") query.terms = .ok terms
  layout : bytes = queryBytes query labels terms

/-- What an encoded query consists of. -/
theorem exists_encodesQuery (h : encodeNativeQuery query = .ok bytes) :
    ∃ labels terms, EncodesQuery query labels terms bytes := by
  simp only [encodeNativeQuery, bind_eq_ok_iff] at h
  obtain ⟨_, hvalid, _, htenant, _, hlabelCount, _, htermCount, labels, hlabels, terms, hterms, h⟩
    := h
  cases h
  obtain ⟨htenantFits, rfl⟩ := putUnsigned_eq_ok_iff.mp htenant
  obtain ⟨hlabelsFit, rfl⟩ := putUnsigned_eq_ok_iff.mp hlabelCount
  obtain ⟨htermsFit, rfl⟩ := putUnsigned_eq_ok_iff.mp htermCount
  exact ⟨labels, terms, hvalid, htenantFits, hlabelsFit, htermsFit, hlabels, hterms, rfl⟩

/-- A valid query has labels and terms that are not empty. -/
theorem nonempty_of_validateQuery (h : validateQuery query = .ok ()) :
    (∀ key ∈ query.labels.keys, key ≠ []) ∧ ∀ term ∈ query.terms, term ≠ [] := by
  simp only [validateQuery, bind_eq_ok_iff] at h
  obtain ⟨_, _, _, _, _, _, _, _, _, _, _, hlabels, _, hterms, _⟩ := h
  constructor
  · intro key hkey
    obtain ⟨pair, hpair, rfl⟩ := List.mem_map.mp hkey
    obtain ⟨_, hne, _⟩ := bind_eq_ok_iff.mp (accepted_of_collect hlabels pair hpair)
    exact ensure_eq_ok_iff.mp hne
  · intro term hterm
    obtain ⟨_, hne, _⟩ := bind_eq_ok_iff.mp (accepted_of_collect hterms term hterm)
    exact ensure_eq_ok_iff.mp hne

/-- The body of an encoded query is read back. -/
theorem run_readQueryBody (h : EncodesQuery query labels terms bytes) (cursor : Nat) :
    ((readQueryBody (utf8 query.tenant).length query.labels.entries.length
      query.terms.length).run ⟨cursor, utf8 query.tenant ++ (labels ++ terms)⟩).map Prod.fst =
      .ok (query.tenant, query.labels, query.terms) := by
  obtain ⟨hkeys, hterms⟩ := nonempty_of_validateQuery h.valid
  have htenant := (reads_string query.tenant "query tenant") cursor (labels ++ terms)
  have hlabels := reads_textMap ⟨"native query contains an empty or duplicate label"⟩ h.writesLabels
    hkeys (cursor + (utf8 query.tenant).length) terms
  have hread := @reads_readQueryTerms query.terms [] terms h.writesTerms hterms
    (cursor + (utf8 query.tenant).length + labels.length) []
  rw [List.append_nil, List.nil_append] at hread
  rw [readQueryBody, run_bind_ok htenant, run_bind_ok hlabels, run_bind_ok hread]
  rfl

/-- The fields of the header. -/
structure HeaderFields (query : NativeQuery) (payload : Bytes) : Prop where
  length : queryHeaderBytes ≤ payload.length
  magic : payload.take 4 = queryMagic
  tenantLength : slice payload ⟨4, 6⟩ = leBytes 2 (utf8 query.tenant).length
  labelCount : slice payload ⟨6, 8⟩ = leBytes 2 query.labels.entries.length
  termCount : slice payload ⟨8, 10⟩ = leBytes 2 query.terms.length
  direction : payload.getD 10 0 = query.direction.code
  reserved : payload.getD 11 0 = 0
  limit : slice payload ⟨12, 16⟩ = leBytes 4 query.limit.toNat
  start : slice payload ⟨16, 24⟩ = leBytes 8 (boundCode query.startTimestampUnixNanos)
  stop : slice payload ⟨24, 32⟩ = leBytes 8 (boundCode query.endTimestampUnixNanos)

/-- The header fields are where the decoder looks. -/
theorem headerFields_queryBytes (query : NativeQuery) (labels terms : Bytes) :
    HeaderFields query (queryBytes query labels terms) ∧
      (queryBytes query labels terms).drop queryHeaderBytes =
        utf8 query.tenant ++ (labels ++ terms) := by
  rw [queryBytes, queryMagic_eq]
  refine ⟨⟨?_, queryMagic_eq.symm ▸ rfl, rfl, rfl, rfl, rfl, rfl, rfl, rfl, rfl⟩, rfl⟩
  simp [queryHeaderBytes]
  omega

/-- An encoded query reads back with its bounds, except those written like an absent
bound. -/
theorem decodeNativeQuery_encode (h : encodeNativeQuery query = .ok bytes) :
    decodeNativeQuery bytes = .ok query.readBack := by
  obtain ⟨labels, terms, hparts⟩ := exists_encodesQuery h
  obtain ⟨hfields, hdrop⟩ := headerFields_queryBytes query labels terms
  rw [← hparts.layout] at hfields hdrop
  have hlimit : query.limit.toNat < 256 ^ 4 := query.limit.toNat_lt
  rw [decodeNativeQuery, ensure_of_true ⟨hfields.length, hfields.magic⟩, ok_bind,
    hfields.direction, directionOf_code, ok_bind, ensure_of_true hfields.reserved, ok_bind]
  dsimp only
  rw [hfields.tenantLength, hfields.labelCount, hfields.termCount, hfields.limit, hfields.start,
    hfields.stop, hdrop, fromLeBytes_leBytes hparts.tenantLength,
    fromLeBytes_leBytes hparts.labelCount, fromLeBytes_leBytes hparts.termCount,
    fromLeBytes_leBytes hlimit, fromLeBytes_leBytes (boundCode_lt _),
    fromLeBytes_leBytes (boundCode_lt _), run_readQueryBody hparts, ok_bind,
    boundOf_boundCode, boundOf_boundCode, UInt32.ofNat_toNat]
  change (do validateQuery query.readBack; .ok query.readBack) = _
  rw [validateQuery_readBack hparts.valid, ok_bind]

/-- A query reads back unchanged exactly when neither bound is the largest number. -/
theorem decodeNativeQuery_encode_iff (h : encodeNativeQuery query = .ok bytes) :
    decodeNativeQuery bytes = .ok query ↔ query.startTimestampUnixNanos ≠ some sentinelBound ∧
        query.endTimestampUnixNanos ≠ some sentinelBound := by
  rw [decodeNativeQuery_encode h, Except.ok.injEq, ← readBound_eq_iff, ← readBound_eq_iff]
  constructor
  · intro hsame
    exact ⟨congrArg NativeQuery.startTimestampUnixNanos hsame,
      congrArg NativeQuery.endTimestampUnixNanos hsame⟩
  · rintro ⟨hstart, hend⟩
    rw [NativeQuery.readBack, hstart, hend]

end RoundTrip

/-- A query for one term in a range of time. -/
def sampleQuery (start stop : Option UInt64) : NativeQuery where
  tenant := "acme".toList
  labels := OrderedMap.empty.insert "app".toList "api".toList
  terms := ["error".toList]
  startTimestampUnixNanos := start
  endTimestampUnixNanos := stop
  limit := 10
  direction := .newestFirst

/-- An upper bound at the largest number is read back as no bound. -/
theorem largest_bound_lost : ∃ bytes,
    encodeNativeQuery (sampleQuery (some 7) (some 0xffffffffffffffff)) = .ok bytes ∧
      decodeNativeQuery bytes = .ok (sampleQuery (some 7) none) ∧
      decodeNativeQuery bytes ≠ .ok (sampleQuery (some 7) (some 0xffffffffffffffff)) := by
  obtain ⟨bytes, hbytes⟩ := exists_of_isOk (x := encodeNativeQuery
    (sampleQuery (some 7) (some 0xffffffffffffffff))) (by decide +kernel)
  have hdecoded : (encodeNativeQuery (sampleQuery (some 7) (some 0xffffffffffffffff)) >>=
      decodeNativeQuery) = .ok (sampleQuery (some 7) none) := by decide +kernel
  rw [hbytes, ok_bind] at hdecoded
  refine ⟨bytes, hbytes, hdecoded, ?_⟩
  rw [hdecoded]
  decide +kernel

theorem sampleQuery_read_back : ∃ bytes,
    encodeNativeQuery (sampleQuery (some 7) none) = .ok bytes ∧
      decodeNativeQuery bytes = .ok (sampleQuery (some 7) none) := by
  obtain ⟨bytes, hbytes⟩ := exists_of_isOk (x := encodeNativeQuery (sampleQuery (some 7) none))
    (by decide +kernel)
  exact ⟨bytes, hbytes, (decodeNativeQuery_encode_iff hbytes).mpr (by decide)⟩

end ShardLog.Native
