import ShardLog.Stripe.Apply

/-!
# Stripe - Query evaluation

Evaluation of a log query on one stripe.  The hot index is queried through its
posting lists; the indexed frames are pruned by their bounds, narrowed by the
candidates of their embedded indexes, decoded and filtered.
-/

namespace ShardLog.Stripe

open ByteReader Utf8 Ingest Structural Sorted

/-- How an evaluation ends without a result: with an error, or in a panic. -/
inductive QueryFailure where
  | failed (e : LogDbError)
  | panicked (message : String)
deriving DecidableEq, Repr

abbrev QueryResult := Except QueryFailure

/-- The `?` operator. -/
def orFail {α : Type} : LogDbResult α → QueryResult α
  | .ok value => .ok value
  | .error e => .error (.failed e)

/-- `Result::expect`. -/
def expectOk {α ε : Type} (message : String) : Except ε α → QueryResult α
  | .ok value => .ok value
  | .error _ => .error (.panicked message)

/-- A query result. -/
structure LogMatch where
  record : DurableLogRecord
deriving DecidableEq, Repr

variable {stage : BlockStage} (rules : TextRules) (query : LogQuery)

/-! ## Windows of record ordinals -/

/-- `slice::partition_point` for records ordered by offset. -/
def recordsBefore {Placement : Type} (records : List (IndexedRecord Placement))
    (bound : LogicalOffset) : Nat :=
  (records.takeWhile fun record => decide (record.offset < bound)).length

/-- The ordinals whose offsets lie in the range of a query. -/
def ordinalRecordWindow {Placement : Type} (records : List (IndexedRecord Placement))
    (start stop : Option LogicalOffset) : Nat × Nat :=
  let startIndex := (start.map (recordsBefore records)).getD 0
  let endIndex := (stop.map (recordsBefore records)).getD records.length
  (min startIndex endIndex, endIndex)

/-- All ordinals of a window in the order of the query, up to the limit. -/
def collectOrderedRange (start stop : Nat) (order : QueryOrder) (limit : Option Nat) : List Nat :=
  let ordinals := List.range' start (stop - start)
  let take := min (limit.getD ordinals.length) ordinals.length
  match order with
  | .oldestFirst => ordinals.take take
  | .newestFirst => ordinals.reverse.take take

/-- `u32::try_from(..).expect(..)`. -/
def expectU32 (message : String) (value : Nat) : QueryResult Nat := expectOk message (tryU32 value)

/-! ## The hot index -/

/-- The posting lists of keys; `none` when some key has no record in the window. -/
def postingListsIn {κ : Type} (lookup : κ → Option Nat) (postings : List HotPostingList)
    (start stop : Nat) : List κ → Option (List HotPostingList)
  | [] => some []
  | key :: rest =>
    match (lookup key).bind fun id => postings[id]? with
    | none => none
    | some list =>
      if list.isEmptyIn start stop then none
      else (postingListsIn lookup postings start stop rest).map (list :: ·)

/-- The posting lists of the terms and fields that a match must have. -/
def constraintPostings {Placement : Type} (index : PartitionIndex Placement)
    (constraints : RequiredIndexConstraints) (start stop : Nat) : Option (List HotPostingList) :=
  match postingListsIn (fun term => AssocMap.get index.termIds (normalizeTerm rules.tables term))
      index.termPostings start stop constraints.terms with
  | none => none
  | some termLists =>
    (postingListsIn (lookupField index.fieldIds) index.fieldPostings start stop
      constraints.fields).map (termLists ++ ·)

/-- Intersect candidates with further posting lists until none is left. -/
def intersectPostings (start stop : Nat) : List HotPostingList → List Nat → List Nat
  | [], ordinals => ordinals
  | list :: rest, ordinals =>
    let remaining := intersectOrdinalRuns ordinals list.runs start stop
    if remaining.isEmpty then remaining else intersectPostings start stop rest remaining

/-- Comparison of two ordinals by their records. -/
def compareOrdinals {Placement : Type} (index : PartitionIndex Placement) (left right : Nat) :
    Ordering :=
  match index.records[left]?, index.records[right]? with
  | some left, some right => query.compare left.record right.record
  | _, _ => .eq

/-- Residual filter, order and limit of candidate ordinals. -/
def finishOrdinals {Placement : Type} (index : PartitionIndex Placement) (ordinals : List Nat) :
    List Nat :=
  let filtered :=
    if query.needsRecordFilter then
      ordinals.filter fun ordinal =>
        match index.records[ordinal]? with
        | some record => query.matchesIndexCandidate rules record.record
        | none => false
    else ordinals
  let ordered :=
    if query.sort = .timestamp then sortUnstableBy (compareOrdinals query index) filtered
    else if query.order = .newestFirst then filtered.reverse
    else filtered
  truncateTo query.limit ordered

/-- The whole window, a single list, or the intersection of all lists, shortest first. -/
def planOrdinals {Placement : Type} (index : PartitionIndex Placement) (start stop : Nat)
    (lists : List HotPostingList) : List Nat :=
  match sortBy HotPostingList.cardinality lists with
  | [] =>
    if query.needsRecordFilter then
      finishOrdinals rules query index (List.range' start (stop - start))
    else collectOrderedRange start stop query.order query.limit
  | shortest :: others =>
    if others.isEmpty && !query.needsRecordFilter then
      shortest.collectIn start stop query.order query.limit
    else
      finishOrdinals rules query index
        (intersectPostings start stop others (shortest.collectIn start stop .oldestFirst none))

/-- The ordinals of the matching records of a partition, in result order. -/
def queryOrdinals {Placement : Type} (index : PartitionIndex Placement) : QueryResult (List Nat) :=
  if query.limit = some 0 ∨ query.hasInvalidRange = true then .ok []
  else
    let constraints := query.requiredIndexConstraints
    if constraints.impossible then .ok []
    else do
      let window := ordinalRecordWindow index.records query.startOffset query.endOffset
      let start ← expectU32 "record ordinal was bounded by ingest" window.1
      let stop ← expectU32 "record ordinal was bounded by ingest" window.2
      match constraintPostings rules index constraints start stop with
      | none => .ok []
      | some lists => .ok (planOrdinals rules query index start stop lists)

def LogStripe.queryHotMatches (stripe : LogStripe stage) : QueryResult (List LogMatch) :=
  match AssocMap.get stripe.partitions query.topicPartition with
  | none => .ok []
  | some index => do
      let ordinals ← queryOrdinals rules query index
      .ok (ordinals.filterMap fun ordinal => index.records[ordinal]?.map fun record =>
        ⟨record.record⟩)

/-! ## Indexed frames -/

/-- The offsets of an append meet the offset range of the query. -/
def appendMatchesQueryBounds (append : IndexedFrameAppend) : Bool :=
  isNoneOr query.endOffset (fun stop => decide (append.firstOffset < stop)) &&
    isNoneOr query.startOffset (fun start => decide (start ≤ append.lastOffset))

/-- The timestamps of a frame meet the timestamp range of the query. -/
def frameMatchesQueryBounds (frame : IndexedIngestFrame) : Bool :=
  isNoneOr query.endTimestampUnixNanos (fun stop => decide (frame.minTimestampUnixNanos < stop)) &&
    isNoneOr query.startTimestampUnixNanos
      (fun start => decide (start ≤ frame.maxTimestampUnixNanos))

/-- The common elements of two increasing lists, by a merge. -/
def mergeCommon : List Nat → List Nat → List Nat
  | [], _ => []
  | _ :: _, [] => []
  | left :: lefts, right :: rights =>
    if left < right then mergeCommon lefts (right :: rights)
    else if right < left then mergeCommon (left :: lefts) rights
    else left :: mergeCommon lefts rights
termination_by lefts rights => lefts.length + rights.length

/-- Narrow candidates by further ones; the first ones are taken as they are. -/
def intersectFrameCandidates (current : Option (List Nat)) (incoming : List Nat) : List Nat :=
  match current with
  | none => incoming
  | some existing =>
    if incoming.length < existing.length then mergeCommon incoming existing
    else mergeCommon existing incoming

/-- Narrow candidates key by key; the result is `none` when no candidate is left. -/
def narrowCandidates {κ : Type} (candidatesOf : κ → QueryResult (List Nat)) :
    List κ → Option (List Nat) → QueryResult (Option (Option (List Nat)))
  | [], current => .ok (some current)
  | key :: rest, current => do
      let incoming ← candidatesOf key
      let narrowed := intersectFrameCandidates current incoming
      if narrowed.isEmpty then .ok none else narrowCandidates candidatesOf rest (some narrowed)

/-- The record of a frame at its absolute offset. -/
def frameRecord (shard : ShardId) (partition : TopicPartition) (append : IndexedFrameAppend)
    (frame : IndexedIngestFrame) (decoded : DecodedStructuralRecord) :
    LogDbResult DurableLogRecord := do
  ensure (decoded.offset.toNat < append.recordCount)
    (.invalidBlockEncoding "compressed ingest record ordinal is out of range")
  let absoluteOffset ← batchOffset partition append.firstOffset decoded.offset.toNat
  .ok
    { streamShardId := shard
      recordRef := ⟨partition, absoluteOffset⟩
      timestampUnixNanos := decoded.timestampUnixNanos
      message := decoded.message
      fields := decoded.fields
      compressionCohort := frame.cohort }

/-- The candidates of a frame for the constraints of the query; `none` when no
record can match. -/
def frameCandidates (codecs : Codecs) (frame : IndexedIngestFrame) :
    QueryResult (Option (List Nat)) :=
  let constraints := query.requiredIndexConstraints
  if constraints.impossible then .ok none
  else do
    let byTerms ← narrowCandidates (fun term => expectOk "validated embedded layout column"
        (frame.index.termCandidateOrdinals codecs.tables term)) constraints.terms none
    match byTerms with
    | none => .ok none
    | some current => do
        let byFields ← narrowCandidates
          (fun field : Str × Str => expectOk "validated embedded field-set column"
            (frame.index.fieldCandidateOrdinals field.1 field.2)) constraints.fields current
        .ok (byFields.map fun current => current.getD (List.range frame.recordCount))

def LogStripe.queryIndexedFrame (codecs : Codecs) (stripe : LogStripe stage)
    (append : IndexedFrameAppend) (frame : IndexedIngestFrame) : QueryResult (List LogMatch) := do
  match ← frameCandidates query codecs frame with
  | none => .ok []
  | some candidates => do
      let decoded ← orFail (decodeIndexedIngestRecords codecs frame candidates)
      let records ← orFail (collect
        (frameRecord stripe.streamShardId query.topicPartition append frame) decoded)
      .ok ((records.filter (query.matches rules)).map LogMatch.mk)

def LogStripe.queryIndexedFrames (codecs : Codecs) (stripe : LogStripe stage)
    (frameIndex : IndexedFramePartition) : QueryResult (List LogMatch) :=
  if query.requiredIndexConstraints.impossible then .ok []
  else do
    let found ← collect
      (fun append => do
        let found ← collect (stripe.queryIndexedFrame rules query codecs append)
          (append.frames.filter (frameMatchesQueryBounds query))
        .ok found.flatten)
      (frameIndex.appends.filter (appendMatchesQueryBounds query))
    .ok found.flatten

def LogStripe.queryFrameMatches (codecs : Codecs) (stripe : LogStripe stage) :
    QueryResult (List LogMatch) :=
  match AssocMap.get stripe.indexedFramePartitions query.topicPartition with
  | none => .ok []
  | some frameIndex => stripe.queryIndexedFrames rules query codecs frameIndex

/-! ## One stripe -/

/-- All matches of a stripe, in result order and up to the limit. -/
def LogStripe.queryChecked (codecs : Codecs) (stripe : LogStripe stage) :
    QueryResult (List LogMatch) :=
  if query.limit = some 0 ∨ query.hasInvalidRange = true then .ok []
  else do
    let hot ← stripe.queryHotMatches rules query
    let framed ← stripe.queryFrameMatches rules query codecs
    .ok (truncateTo query.limit
      (sortUnstableBy (fun left right => query.compare left.record right.record) (hot ++ framed)))

/-- `query_checked` with errors read as an empty result. -/
def LogStripe.queryOrDefault (codecs : Codecs) (stripe : LogStripe stage) :
    QueryResult (List LogMatch) :=
  match stripe.queryChecked rules query codecs with
  | .error (.failed _) => .ok []
  | result => result

end ShardLog.Stripe
