import ShardLog.Foundation.Merge
import ShardLog.Ingest.NativePack
import ShardLog.Stripe.Query

/-!
# Stripe - Queries over indexed frames

The frames of an accepted ingest pack answer a query exactly: bounds and embedded
indexes only discard records that do not match.
-/

namespace ShardLog.Stripe

open ByteReader Utf8 Ingest Structural Sorted LogQuery LogMatch List

/-! ## Candidates -/

theorem mergeCommon_eq_mergeIntersect (left right : List Nat) :
    mergeCommon left right = Merge.mergeIntersect id left right := by
  fun_induction mergeCommon left right with
  | case1 => rw [Merge.mergeIntersect]
  | case2 => rw [Merge.mergeIntersect]
  | case3 first lefts second rights hlt ih => simp [Merge.mergeIntersect, hlt, ih]
  | case4 first lefts second rights hlt hgt ih => simp [Merge.mergeIntersect, hlt, hgt, ih]
  | case5 first lefts second rights hlt hgt ih => simp [Merge.mergeIntersect, hlt, hgt, ih]

variable {left right : List Nat} {count : Nat} {wanted : Nat → Prop}

/-- The merge of two increasing lists has their common elements. -/
theorem mergeCommon_eq (hleft : left.Pairwise (· < ·)) (hright : right.Pairwise (· < ·)) :
    mergeCommon left right = left.filter fun ordinal => decide (ordinal ∈ right) := by
  have hkeys : right.Pairwise fun left right => id left < id right := hright
  rw [mergeCommon_eq_mergeIntersect, Merge.mergeIntersect_eq hleft hkeys, map_id]

/-- Candidates below a count that miss none of the wanted ordinals. -/
def Covers (count : Nat) (wanted : Nat → Prop) (candidates : List Nat) : Prop :=
  OrdinalsBelow count candidates ∧ ∀ ordinal, wanted ordinal → ordinal ∈ candidates

/-- Merging keeps what both cover. -/
theorem covers_mergeCommon (hleft : Covers count wanted left) (hright : Covers count wanted right) :
    Covers count wanted (mergeCommon left right) := by
  rw [mergeCommon_eq hleft.1.1 hright.1.1]
  refine ⟨⟨hleft.1.1.filter _, fun ordinal hin => ?_⟩, fun ordinal hwanted => ?_⟩
  · exact hleft.1.2 ordinal (mem_of_mem_filter hin)
  · simpa using ⟨hleft.2 ordinal hwanted, hright.2 ordinal hwanted⟩

/-- Narrowing keeps the wanted ordinals; without candidates nothing was wanted. -/
theorem narrowCandidates_covers {κ : Type} {candidatesOf : κ → QueryResult (List Nat)}
    {keys : List κ} {current : Option (List Nat)}
    (hkeys : ∀ key ∈ keys, ∃ candidates, candidatesOf key = .ok candidates ∧
      Covers count wanted candidates)
    (hcurrent : ∀ candidates, current = some candidates → Covers count wanted candidates) :
    (narrowCandidates candidatesOf keys current = .ok none ∧ ∀ ordinal, ¬ wanted ordinal) ∨
      ∃ next, narrowCandidates candidatesOf keys current = .ok (some next) ∧
        ∀ candidates, next = some candidates → Covers count wanted candidates := by
  induction keys generalizing current with
  | nil => exact Or.inr ⟨current, rfl, hcurrent⟩
  | cons key rest ih =>
    obtain ⟨incoming, hincoming, hcovers⟩ := hkeys key mem_cons_self
    have hnarrowed : Covers count wanted (intersectFrameCandidates current incoming) := by
      unfold intersectFrameCandidates
      cases current with
      | none => exact hcovers
      | some existing => grind [covers_mergeCommon]
    rw [narrowCandidates, hincoming, ok_bind]
    by_cases hempty : (intersectFrameCandidates current incoming).isEmpty = true
    · rw [if_pos hempty]
      refine Or.inl ⟨rfl, fun ordinal hwanted => ?_⟩
      have hmem := hnarrowed.2 ordinal hwanted
      rw [isEmpty_iff.mp hempty] at hmem
      cases hmem
    · grind

/-! ## One frame -/

/-- The rules file every term of a message that they take for a requested one under
the key of that request. -/
def FiledUnderRequest (rules : TextRules) (tables : UnicodeTables) (query : LogQuery)
    (message : Str) : Prop :=
  rules.tables = tables ∧ ∀ term ∈ scanMessageTerms tables message,
    ∀ expected ∈ query.requiredIndexConstraints.terms, rules.termEqual term expected = true →
      normalizeTerm tables expected = normalizeTerm tables term

theorem filedUnderRequest_normalized (tables : UnicodeTables) (isMatch : LogRegex → Str → Bool)
    (query : LogQuery) (message : Str) :
    FiledUnderRequest (TextRules.normalized tables isMatch) tables query message := by
  refine ⟨rfl, fun term _ expected _ hequal => ?_⟩
  exact (beq_iff_eq.mp hequal).symm

/-- The record an event becomes at its place in an append. -/
def recordAt (shard : ShardId) (partition : TopicPartition) (firstOffset : LogicalOffset)
    (events : List OtlpLogEvent) (ordinal : Nat) : DurableLogRecord :=
  intoDurable (eventAt events ordinal) shard partition (UInt64.ofNat (firstOffset.toNat + ordinal))

section Frame

variable {codecs : Codecs} {placements : ∀ records : List NativeIngestRecordView, Placement records}
  {event : OtlpLogEvent} {append : IndexedFrameAppend} {rules : TextRules} {query : LogQuery}
  {shard : ShardId} {partition : TopicPartition} {firstOffset : LogicalOffset}
  {events : List OtlpLogEvent} {ordinal : Nat} {record : NativeIngestRecordView}
  {entry : PackedGroup codecs placements} {stage : BlockStage} {stripe : LogStripe stage}

/-- A decoded record of a frame becomes the record of its event. -/
theorem frameRecord_eq {record : CompressionCohortId × NativeIngestRecordView}
    (hview : ViewOf event record) {decoded : DecodedStructuralRecord}
    (hdecoded : Represents record.2 decoded) {shard : ShardId} {partition : TopicPartition}
    {frame : IndexedIngestFrame} (hcohort : frame.cohort = record.1)
    (hlt : record.2.ordinal < append.recordCount)
    (hoffsets : append.firstOffset.toNat + record.2.ordinal < 2 ^ 64) :
    frameRecord shard partition append frame decoded = .ok (intoDurable event shard partition
        (UInt64.ofNat (append.firstOffset.toNat + record.2.ordinal))) := by
  unfold frameRecord batchOffset
  rw [hview.decoded_offset hdecoded, ensure_of_true hlt, ok_bind, if_pos hoffsets, ok_bind,
    hdecoded.timestamp, hdecoded.message, hview.timestamp, hview.message,
    hview.decoded_fields hdecoded, hcohort, hview.cohort]
  rfl

/-- The event at an ordinal. -/
theorem eventAt_eq_of_getElem? (h : events[ordinal]? = some event) :
    eventAt events ordinal = event := by
  rw [eventAt, getD_eq_getElem?_getD, h, Option.getD_some]

/-- A matching record of a batch has the terms and fields that the indexes are
asked for. -/
theorem indexed_of_matches {cohort : CompressionCohortId}
    (hevent : events[record.ordinal]? = some event) (hview : ViewOf event (cohort, record))
    (hfiled : FiledUnderRequest rules codecs.tables query event.message)
    (h : query.matches rules (recordAt shard partition firstOffset events record.ordinal) = true) :
    (∀ expected ∈ query.requiredIndexConstraints.terms,
      ∃ term ∈ scanMessageTerms codecs.tables (structuralMessage record),
        normalizeTerm codecs.tables expected = normalizeTerm codecs.tables term) ∧
    ∀ field ∈ query.requiredIndexConstraints.fields, .ok field ∈ visitedFields record := by
  have hsatisfied := satisfiedBy_of_matches h
  rw [recordAt, eventAt_eq_of_getElem? hevent] at hsatisfied
  constructor
  · intro expected hexpected
    have hterm := hsatisfied.terms expected hexpected
    obtain ⟨term, hscanned, hequal⟩ := any_eq_true.mp hterm
    have hscanned' : term ∈ scanMessageTerms codecs.tables event.message := by
      rw [hfiled.1] at hscanned
      exact hscanned
    refine ⟨term, ?_, hfiled.2 term hscanned' expected hexpected hequal⟩
    have hmessage : structuralMessage record = event.message := hview.message
    rwa [hmessage]
  · intro field hfield
    have hmem := hsatisfied.fields field hfield
    rw [recordFields_durable] at hmem
    obtain ⟨own, hown, rfl⟩ := mem_map.mp hmem
    have hfields : visitedFields record = event.fields.map fun field =>
        .ok (field.key, field.value) := hview.fields
    rw [hfields]
    exact mem_map_of_mem hown

/-- The record ordinals of a group whose records match. -/
def Wanted (rules : TextRules) (query : LogQuery) (shard : ShardId) (partition : TopicPartition)
    (firstOffset : LogicalOffset) (events : List OtlpLogEvent)
    (records : List NativeIngestRecordView) (ordinal : Nat) : Prop :=
  ∃ record, records[ordinal]? = some record ∧
    query.matches rules (recordAt shard partition firstOffset events record.ordinal) = true

/-- Every record of a group is the view of an event whose message is filed as the
query asks. -/
def GroupViews (rules : TextRules) (tables : UnicodeTables) (query : LogQuery)
    (events : List OtlpLogEvent) (group : CompressionCohortId × List NativeIngestRecordView) :
    Prop :=
  ∀ record ∈ group.2, ∃ event, events[record.ordinal]? = some event ∧
    ViewOf event (group.1, record) ∧ FiledUnderRequest rules tables query event.message

/-- An ordinal of a group whose record has everything the indexes are asked for. -/
def Indexed (tables : UnicodeTables) (query : LogQuery) (records : List NativeIngestRecordView)
    (ordinal : Nat) : Prop :=
  query.requiredIndexConstraints.impossible = false ∧ ∃ record, records[ordinal]? = some record ∧
      (∀ expected ∈ query.requiredIndexConstraints.terms,
        ∃ term ∈ scanMessageTerms tables (structuralMessage record),
          normalizeTerm tables expected = normalizeTerm tables term) ∧
      ∀ field ∈ query.requiredIndexConstraints.fields, .ok field ∈ visitedFields record

/-- The embedded index of a group yields candidates that miss no record with the
terms and fields it is asked for. -/
theorem frameCandidates_covers {wanted : Nat → Prop}
    (hwanted : ∀ ordinal, wanted ordinal → Indexed codecs.tables query entry.group.2 ordinal) :
    (frameCandidates query codecs (entry.parts.frame entry.group) = .ok none ∧
        ∀ ordinal, ¬ wanted ordinal) ∨
      ∃ candidates, frameCandidates query codecs (entry.parts.frame entry.group) =
          .ok (some candidates) ∧
        Covers entry.group.2.length wanted candidates := by
  obtain ⟨pieces, hpieces⟩ := exists_piecesOf entry.partsOf.block
  -- the candidates of every constraint cover what is wanted
  have hterms : ∀ term ∈ query.requiredIndexConstraints.terms, ∃ candidates,
      expectOk "validated embedded layout column"
        ((entry.parts.frame entry.group).index.termCandidateOrdinals codecs.tables term) =
          .ok candidates ∧
      Covers entry.group.2.length wanted candidates := by
    intro expected hexpected
    obtain ⟨candidates, hcandidates, hbelow, hcomplete⟩ := hpieces.termCandidates expected
    refine ⟨candidates, congrArg (expectOk _) hcandidates, hbelow, fun ordinal hin => ?_⟩
    obtain ⟨_, record, hrecord, hown, _⟩ := hwanted ordinal hin
    obtain ⟨term, hterm, hsame⟩ := hown expected hexpected
    exact hcomplete ordinal record hrecord term hterm hsame
  have hfields : ∀ field ∈ query.requiredIndexConstraints.fields, ∃ candidates,
      expectOk "validated embedded field-set column"
        ((entry.parts.frame entry.group).index.fieldCandidateOrdinals field.1 field.2) =
          .ok candidates ∧
      Covers entry.group.2.length wanted candidates := by
    intro field hfield
    obtain ⟨candidates, hcandidates, hbelow, hcomplete⟩ := hpieces.fieldCandidates field.1 field.2
    refine ⟨candidates, congrArg (expectOk _) hcandidates, hbelow, fun ordinal hin => ?_⟩
    obtain ⟨_, record, hrecord, _, hown⟩ := hwanted ordinal hin
    exact hcomplete ordinal record hrecord (hown field hfield)
  unfold frameCandidates
  by_cases himpossible : query.requiredIndexConstraints.impossible = true
  · rw [if_pos himpossible]
    refine Or.inl ⟨rfl, fun ordinal hin => ?_⟩
    have hpossible := (hwanted ordinal hin).1
    rw [himpossible] at hpossible
    cases hpossible
  · rw [if_neg himpossible]
    have hstart : ∀ candidates, (none : Option (List Nat)) = some candidates →
        Covers entry.group.2.length wanted candidates := by
      intro candidates hnone
      cases hnone
    rcases narrowCandidates_covers hterms hstart with
      ⟨hnarrowed, hnone⟩ | ⟨current, hnarrowed, hcurrent⟩
    · rw [hnarrowed, ok_bind]
      exact Or.inl ⟨rfl, hnone⟩
    · rw [hnarrowed, ok_bind]
      dsimp only
      rcases narrowCandidates_covers hfields hcurrent with ⟨hlast, hnone⟩ | ⟨final, hlast, hfinal⟩
      · rw [hlast, ok_bind]
        exact Or.inl ⟨rfl, hnone⟩
      · rw [hlast, ok_bind]
        refine Or.inr ⟨_, rfl, ?_⟩
        cases final with
        | none =>
          refine ⟨ordinalsBelow_range _, fun ordinal hin => ?_⟩
          obtain ⟨_, record, hrecord, _⟩ := hwanted ordinal hin
          exact mem_range.mpr (List.getElem?_eq_some_iff.mp hrecord).1
        | some candidates => exact hfinal candidates rfl

/-- A matching record has everything the indexes are asked for. -/
theorem indexed_of_wanted {group : CompressionCohortId × List NativeIngestRecordView}
    (hviews : GroupViews rules codecs.tables query events group)
    (h : Wanted rules query shard partition firstOffset events group.2 ordinal) :
    Indexed codecs.tables query group.2 ordinal := by
  obtain ⟨record, hrecord, hmatch⟩ := h
  obtain ⟨event, hevent, hview, hfiled⟩ := hviews record (mem_of_getElem? hrecord)
  exact ⟨(satisfiedBy_of_matches hmatch).possible, record, hrecord,
    indexed_of_matches hevent hview hfiled hmatch⟩

/-- Every record of a group is the view of an event. -/
def GroupOf (events : List OtlpLogEvent)
    (group : CompressionCohortId × List NativeIngestRecordView) : Prop :=
  ∀ record ∈ group.2, ∃ event, events[record.ordinal]? = some event ∧ ViewOf event (group.1, record)

variable (hcodecs : codecs.Lawful) (hcount : append.recordCount = events.length)
  (hoffsets : append.firstOffset.toNat + (events.length - 1) < 2 ^ 64)

include hcodecs hcount hoffsets

/-- Whatever candidates a frame yields, the query keeps the matches among their
records. -/
theorem queryIndexedFrame_of_candidates (hviews : GroupOf events entry.group)
    {candidates : List Nat}
    (hcandidates : frameCandidates query codecs (entry.parts.frame entry.group) =
      .ok (some candidates)) (hbelow : OrdinalsBelow entry.group.2.length candidates) :
    stripe.queryIndexedFrame rules query codecs append (entry.parts.frame entry.group) =
      .ok (((candidates.filterMap ((entry.group.2.map fun record =>
        recordAt stripe.streamShardId query.topicPartition append.firstOffset events
          record.ordinal)[·]?)).filter (query.matches rules)).map mk) := by
  obtain ⟨pieces, hpieces⟩ := exists_piecesOf entry.partsOf.block
  obtain ⟨decoded, hblock, hrepresents⟩ := hpieces.exists_decoded hcodecs.pco
  -- decoded records become the records of their events
  have hrecords : Forall₂
      (fun decoded record => frameRecord stripe.streamShardId query.topicPartition append
        (entry.parts.frame entry.group) decoded = .ok record) decoded
      (entry.group.2.map fun record => recordAt stripe.streamShardId query.topicPartition
        append.firstOffset events record.ordinal) := by
    rw [forall₂_map_right_iff]
    have hboth := (forall₂_and_left _ _).mpr ⟨hviews, hrepresents⟩
    refine hboth.flip.imp fun decoded record hrecord => ?_
    obtain ⟨⟨event, hevent, hview⟩, hown⟩ := hrecord
    have hlt := (List.getElem?_eq_some_iff.mp hevent).1
    have hoffset : append.firstOffset.toNat + record.ordinal < 2 ^ 64 := by omega
    rw [recordAt, eventAt_eq_of_getElem? hevent]
    exact frameRecord_eq hview hown rfl (hcount ▸ hlt) hoffset
  unfold LogStripe.queryIndexedFrame
  rw [hcandidates, ok_bind]
  dsimp only
  obtain ⟨parts, hparts, hwhole⟩ := bind_eq_ok_iff.mp hblock
  cases hwhole
  have hselected := decodeStructuralRecords_of_parts hparts hbelow.1
    (hrepresents.length_eq ▸ hbelow.2)
  have hdecode : decodeIndexedIngestRecords codecs (entry.parts.frame entry.group) candidates =
      .ok (candidates.filterMap (parts.records[·]?)) := by
    apply bind_eq_ok_iff.mpr
    exact ⟨_, entry.partsOf.decompress_eq hcodecs, hselected⟩
  rw [hdecode, orFail, ok_bind,
    collect_eq_ok_iff.mpr (forall₂_filterMap_getElem? hrecords candidates), orFail, ok_bind]

/-- A query on the frame of a group finds the matches among its records. -/
theorem queryIndexedFrame_eq (hviews : GroupViews rules codecs.tables query events entry.group) :
    stripe.queryIndexedFrame rules query codecs append (entry.parts.frame entry.group) =
      .ok (((entry.group.2.map fun record => recordAt stripe.streamShardId query.topicPartition
        append.firstOffset events record.ordinal).filter (query.matches rules)).map mk) := by
  rcases @frameCandidates_covers codecs placements query entry
    (Wanted rules query stripe.streamShardId query.topicPartition append.firstOffset events
      entry.group.2) (fun _ => indexed_of_wanted hviews) with
    ⟨hcandidates, hnone⟩ | ⟨candidates, hcandidates, hbelow, hcovers⟩
  · unfold LogStripe.queryIndexedFrame
    rw [hcandidates, ok_bind, filter_map, filter_eq_nil_iff.mpr]
    · rfl
    · intro record hrecord hmatch
      obtain ⟨ordinal, hordinal⟩ := mem_iff_getElem?.mp hrecord
      exact hnone ordinal ⟨record, hordinal, hmatch⟩
  · have hof : GroupOf events entry.group := fun record hrecord =>
      (hviews record hrecord).imp fun _ hevent => ⟨hevent.1, hevent.2.1⟩
    rw [queryIndexedFrame_of_candidates hcodecs hcount hoffsets hof hcandidates hbelow,
      filter_filterMap_eq_filter hbelow.1]
    intro ordinal record hrecord hmatch
    rw [getElem?_map] at hrecord
    obtain ⟨view, hview, rfl⟩ := Option.map_eq_some_iff.mp hrecord
    exact hcovers ordinal ⟨view, hview, hmatch⟩

/-- Whatever the rules, a query on the frame of a group finds some of its records. -/
theorem queryIndexedFrame_sublist (hviews : GroupOf events entry.group) {found : List LogMatch}
    (hfound : stripe.queryIndexedFrame rules query codecs append (entry.parts.frame entry.group) =
      .ok found) :
    found.Sublist ((entry.group.2.map fun record => recordAt stripe.streamShardId
      query.topicPartition append.firstOffset events record.ordinal).map mk) := by
  rcases @frameCandidates_covers codecs placements query entry (fun _ => False)
    (fun _ h => h.elim) with ⟨hcandidates, _⟩ | ⟨candidates, hcandidates, hbelow, _⟩
  · unfold LogStripe.queryIndexedFrame at hfound
    rw [hcandidates, ok_bind] at hfound
    cases hfound
    exact nil_sublist _
  · rw [queryIndexedFrame_of_candidates hcodecs hcount hoffsets hviews hcandidates hbelow,
      Except.ok.injEq] at hfound
    rw [← hfound]
    exact ((filter_sublist).trans (sublist_filterMap_getElem? _ hbelow.1)).map _

omit hcodecs hcount hoffsets

/-! ## Pruning -/

/-- A frame whose timestamps miss the range of the query holds no match. -/
theorem matches_eq_false_of_frameBounds
    (hviews : GroupViews rules codecs.tables query events entry.group)
    (hpruned : frameMatchesQueryBounds query (entry.parts.frame entry.group) = false)
    (hrecord : record ∈ entry.group.2) :
    query.matches rules (recordAt shard partition firstOffset events record.ordinal) = false := by
  obtain ⟨event, hevent, hview, _⟩ := hviews record hrecord
  by_contra hmatch
  rw [Bool.not_eq_false] at hmatch
  rw [recordAt, eventAt_eq_of_getElem? hevent] at hmatch
  have htimestamp : structuralTimestampUnixNanos record = event.timestampUnixNanos :=
    hview.timestamp
  have hlow := minTimestamp_le hrecord
  have hhigh := le_maxTimestamp hrecord
  rw [htimestamp] at hlow hhigh
  simp only [LogQuery.matches, timestampMatches, Bool.and_eq_true] at hmatch
  have hmin : (UInt64.ofNat (minTimestamp entry.group.2)).toNat = minTimestamp entry.group.2 :=
    UInt64.toNat_ofNat_of_lt' (minTimestamp_lt _)
  have hmax : (UInt64.ofNat (maxTimestamp entry.group.2)).toNat = maxTimestamp entry.group.2 :=
    UInt64.toNat_ofNat_of_lt' (maxTimestamp_lt _)
  have hkept : frameMatchesQueryBounds query (entry.parts.frame entry.group) = true := by
    rw [frameMatchesQueryBounds, Bool.and_eq_true]
    exact ⟨isNoneOr_stop_mono (UInt64.le_iff_toNat_le.mpr (hmin.trans_le hlow)) hmatch.1.1.1.1.2.2,
      isNoneOr_start_mono (UInt64.le_iff_toNat_le.mpr (hhigh.trans_eq hmax.symm))
        hmatch.1.1.1.1.2.1⟩
  rw [hpruned] at hkept
  cases hkept

/-- An append whose offsets miss the range of the query holds no match. -/
theorem matches_eq_false_of_appendBounds
    (hlast : append.lastOffset.toNat = append.firstOffset.toNat + (events.length - 1))
    (hordinal : ordinal < events.length) (hpruned : appendMatchesQueryBounds query append = false) :
    query.matches rules (recordAt shard partition append.firstOffset events ordinal) = false := by
  have hbound := append.lastOffset.toNat_lt
  have hlt : append.firstOffset.toNat + ordinal < 2 ^ 64 := by omega
  have hoffset : (UInt64.ofNat (append.firstOffset.toNat + ordinal)).toNat =
      append.firstOffset.toNat + ordinal := UInt64.toNat_ofNat_of_lt' hlt
  by_contra hmatch
  rw [Bool.not_eq_false] at hmatch
  simp only [LogQuery.matches, offsetMatches, Bool.and_eq_true] at hmatch
  have hkept : appendMatchesQueryBounds query append = true := by
    rw [appendMatchesQueryBounds, Bool.and_eq_true]
    exact ⟨isNoneOr_stop_mono (UInt64.le_iff_toNat_le.mpr (hoffset ▸ Nat.le_add_right _ _))
      hmatch.1.1.1.1.1.2, isNoneOr_start_mono
        (UInt64.le_iff_toNat_le.mpr (hoffset.trans_le (by omega))) hmatch.1.1.1.1.1.1⟩
  rw [hpruned] at hkept
  cases hkept

end Frame

/-! ## All frames of a partition -/

/-- An append holds the frames of the pack of a batch. -/
structure HoldsBatch (codecs : Codecs) (append : IndexedFrameAppend) (events : List OtlpLogEvent) :
    Prop where
  frames : ∃ placements, ∃ packed : List (PackedGroup codecs placements),
    CarriesBatch events packed ∧ append.frames = framesOf packed
  recordCount : append.recordCount = events.length
  nonempty : events ≠ []
  lastOffset : append.lastOffset.toNat = append.firstOffset.toNat + (events.length - 1)

/-- The records of the events of an append. -/
def batchRecords (shard : ShardId) (partition : TopicPartition) (firstOffset : LogicalOffset)
    (events : List OtlpLogEvent) : List DurableLogRecord :=
  (List.range events.length).map (recordAt shard partition firstOffset events)

section Partition

variable {codecs : Codecs} {rules : TextRules} {query : LogQuery} {stage : BlockStage}
  {stripe : LogStripe stage} {events : List OtlpLogEvent}

/-- The messages of a batch are filed as the query asks. -/
def BatchFiled (rules : TextRules) (tables : UnicodeTables) (query : LogQuery)
    (events : List OtlpLogEvent) : Prop :=
  ∀ event ∈ events, FiledUnderRequest rules tables query event.message

section Carries

variable {placements : ∀ records : List NativeIngestRecordView, Placement records}
  {packed : List (PackedGroup codecs placements)} {entry : PackedGroup codecs placements}

section

variable (hcarries : CarriesBatch events packed)

include hcarries

/-- Groups have the events of the batch. -/
theorem groupOf_of_carriesBatch (hentry : entry ∈ packed) : GroupOf events entry.group := by
  intro record hrecord
  apply hcarries.views (entry.group.1, record)
  refine mem_flatMap.mpr ⟨entry.group, mem_map_of_mem hentry, ?_⟩
  exact mem_map_of_mem hrecord

theorem groupViews_of_carriesBatch (hfiled : BatchFiled rules codecs.tables query events)
    (hentry : entry ∈ packed) :
    GroupViews rules codecs.tables query events entry.group := by
  intro record hrecord
  obtain ⟨event, hevent, hview⟩ := groupOf_of_carriesBatch hcarries hentry record hrecord
  exact ⟨event, hevent, hview, hfiled event (mem_of_getElem? hevent)⟩

/-- The groups of a batch hold its records, each once. -/
theorem perm_flatMap_of_carriesBatch {α : Type} (record : Nat → α) :
    (packed.flatMap fun entry => entry.group.2.map fun view => record view.ordinal).Perm
      ((range events.length).map record) := by
  refine Perm.trans (.of_eq ?_) (hcarries.ordinals.map record)
  simp [packedRecords, AssocMap.ungroup, map_flatMap, flatMap_map, Function.comp_def]

end

end Carries

/-- The query of the frames of one append finds the matches among its records. -/
theorem queryAppend_perm (hcodecs : codecs.Lawful) {append : IndexedFrameAppend}
    (h : HoldsBatch codecs append events) (hfiled : BatchFiled rules codecs.tables query events) :
    ∃ found, collect (stripe.queryIndexedFrame rules query codecs append)
        (append.frames.filter (frameMatchesQueryBounds query)) = .ok found ∧
      found.flatten.Perm (((batchRecords stripe.streamShardId query.topicPartition
        append.firstOffset events).filter (query.matches rules)).map mk) := by
  obtain ⟨placements, packed, hcarries, hframes⟩ := h.frames
  have hbound := append.lastOffset.toNat_lt
  have hoffsets : append.firstOffset.toNat + (events.length - 1) < 2 ^ 64 := h.lastOffset ▸ hbound
  -- what each frame contributes
  let record := recordAt stripe.streamShardId query.topicPartition append.firstOffset events
  let contribution := fun entry : PackedGroup codecs placements =>
    ((entry.group.2.map fun view => record view.ordinal).filter (query.matches rules)).map
      LogMatch.mk
  have hframe : ∀ entry ∈ packed, ∃ results,
      stripe.queryIndexedFrame rules query codecs append (entry.parts.frame entry.group) =
        .ok results ∧ results.Perm (contribution entry) ∧
      (frameMatchesQueryBounds query (entry.parts.frame entry.group) = false →
        contribution entry = []) := by
    intro entry hentry
    have hviews := groupViews_of_carriesBatch hcarries hfiled hentry
    refine ⟨contribution entry, queryIndexedFrame_eq hcodecs h.recordCount hoffsets hviews,
      Perm.refl _, fun hbounds => ?_⟩
    simp only [contribution, map_eq_nil_iff, filter_eq_nil_iff, mem_map]
    rintro _ ⟨view, hview, rfl⟩
    simp [record, matches_eq_false_of_frameBounds hviews hbounds hview]
  have hperm := ((perm_flatMap_of_carriesBatch hcarries record).filter (query.matches rules)).map
    LogMatch.mk
  rw [filter_flatMap, map_flatMap] at hperm
  obtain ⟨found, hfound, hflatten⟩ := exists_collect_filter
    (forall₂_map_left_iff.mpr (forall₂_same.mpr hframe))
  exact ⟨found, hframes ▸ hfound, hflatten.trans hperm⟩

/-- An append with matches is not passed over. -/
theorem matches_batch_eq_nil {append : IndexedFrameAppend} (h : HoldsBatch codecs append events)
    (shard : ShardId) (partition : TopicPartition)
    (hpruned : appendMatchesQueryBounds query append = false) :
    (batchRecords shard partition append.firstOffset events).filter (query.matches rules) = [] := by
  rw [filter_eq_nil_iff]
  intro record hrecord
  obtain ⟨ordinal, hordinal, rfl⟩ := mem_map.mp hrecord
  simp [matches_eq_false_of_appendBounds h.lastOffset (mem_range.mp hordinal) hpruned]

/-- The query of all frames finds the matches among the records of all batches. -/
theorem queryIndexedFrames_perm (hcodecs : codecs.Lawful) {frameIndex : IndexedFramePartition}
    {batches : List (LogicalOffset × List OtlpLogEvent)}
    (hstored : Forall₂ (fun append batch => append.firstOffset = batch.1 ∧
      HoldsBatch codecs append batch.2) frameIndex.appends batches)
    (hfiled : ∀ batch ∈ batches, BatchFiled rules codecs.tables query batch.2) :
    ∃ found, stripe.queryIndexedFrames rules query codecs frameIndex = .ok found ∧
      found.Perm (((batches.flatMap fun batch => batchRecords stripe.streamShardId
        query.topicPartition batch.1 batch.2).filter (query.matches rules)).map mk) := by
  unfold LogStripe.queryIndexedFrames
  by_cases himpossible : query.requiredIndexConstraints.impossible = true
  · refine ⟨[], if_pos himpossible, ?_⟩
    rw [query.filter_matches_of_impossible himpossible]
    exact Perm.refl _
  · rw [if_neg himpossible]
    let contribution := fun batch : LogicalOffset × List OtlpLogEvent =>
      ((batchRecords stripe.streamShardId query.topicPartition batch.1 batch.2).filter
        (query.matches rules)).map LogMatch.mk
    have happend : ∀ append batch, batch ∈ batches →
        append.firstOffset = batch.1 ∧ HoldsBatch codecs append batch.2 →
        ∃ results, (do
            let found ← collect (stripe.queryIndexedFrame rules query codecs append)
              (append.frames.filter (frameMatchesQueryBounds query))
            .ok found.flatten : QueryResult (List LogMatch)) = .ok results ∧
          results.Perm (contribution batch) ∧
          (appendMatchesQueryBounds query append = false → contribution batch = []) := by
      rintro append batch hbatch ⟨hfirst, hholds⟩
      obtain ⟨found, hfound, hperm⟩ := @queryAppend_perm codecs rules query stage stripe batch.2
        hcodecs append hholds (hfiled batch hbatch)
      rw [hfirst] at hperm
      refine ⟨found.flatten, by rw [hfound, ok_bind], hperm, fun hpruned => ?_⟩
      have hnone := @matches_batch_eq_nil codecs rules query batch.2 append hholds
        stripe.streamShardId query.topicPartition hpruned
      rw [hfirst] at hnone
      simp only [contribution, hnone, map_nil]
    have hmember : Forall₂ (fun batch append => batch ∈ batches ∧
        append.firstOffset = batch.1 ∧ HoldsBatch codecs append batch.2) batches
        frameIndex.appends := (forall₂_and_left _ _).mpr ⟨fun _ h => h, hstored.flip⟩
    obtain ⟨found, hfound, hflatten⟩ := exists_collect_filter
      (hmember.flip.imp fun append batch hboth => happend append batch hboth.1 hboth.2)
    refine ⟨found.flatten, by rw [hfound, ok_bind], hflatten.trans (Perm.of_eq ?_)⟩
    simp only [contribution, map_flatMap, filter_flatMap]

end Partition

end ShardLog.Stripe
