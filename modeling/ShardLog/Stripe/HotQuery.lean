import ShardLog.Stripe.Admission
import ShardLog.Stripe.Query
import ShardLog.Ingest.NativePack

/-!
# Stripe - Queries over the hot index

An exact hot index answers a query exactly: the window of ordinals stands for the
offset range, the posting lists for the term and field constraints, and each of
the plans yields the ordinals of the matches in result order.

Main results:

- Theorem `query_hotReachable_iff`: a query of a hot stripe returns the selection
  unless the window ends at the last 32-bit ordinal.
- Theorem `query_full_partition_panics`: a partition can get that full.
-/

namespace ShardLog.Stripe

open List hiding getElem?_eq_some_iff

open ByteReader Utf8 Ingest Stateful Sorted LogQuery HotPostingList TextRules AssocMap LogStripe

/-! ## The window of a query -/

section Window

variable {Placement : Type} {records : List (IndexedRecord Placement)} {query : LogQuery}
  {ordinal : Nat} {record : IndexedRecord Placement}

section

variable (h : records.Pairwise fun earlier later => earlier.offset < later.offset)

include h

/-- With increasing offsets, the records before a bound are the ones below it. -/
theorem lt_recordsBefore_iff {bound : LogicalOffset} (hrecord : records[ordinal]? = some record) :
    ordinal < recordsBefore records bound ↔ record.offset < bound := by
  unfold recordsBefore
  induction records generalizing ordinal with
  | nil => cases hrecord
  | cons first rest ih =>
    obtain ⟨hfirst, hrest⟩ := pairwise_cons.mp h
    by_cases hlt : first.offset < bound
    · rw [takeWhile_cons_of_pos (by simpa using hlt), length_cons]
      cases ordinal with
      | zero =>
        cases hrecord
        simp [hlt]
      | succ ordinal => grind
    · rw [takeWhile_cons_of_neg (by simpa using hlt), length_nil]
      constructor
      · intro habsurd
        cases habsurd
      · grind

/-- The window of a query holds the ordinals whose offsets are in its range. -/
theorem inWindow_iff_offsetMatches (hrecord : records[ordinal]? = some record) :
    inWindow (ordinalRecordWindow records query.startOffset query.endOffset).1
        (ordinalRecordWindow records query.startOffset query.endOffset).2 ordinal = true ↔
      query.offsetMatches record.offset = true := by
  have hlength := (List.getElem?_eq_some_iff.mp hrecord).1
  have hbefore : ∀ bound, ordinal < recordsBefore records bound ↔ record.offset < bound :=
    fun bound => lt_recordsBefore_iff h hrecord
  have hnot : ∀ bound, recordsBefore records bound ≤ ordinal ↔ bound ≤ record.offset := by
    intro bound
    rw [← Nat.not_lt, hbefore, UInt64.not_lt]
  rw [inWindow_eq_true_iff, offsetMatches, Bool.and_eq_true]
  cases query.startOffset with
  | none =>
    cases query.endOffset with
    | none => simp [ordinalRecordWindow, isNoneOr, hlength]
    | some stop => simp [ordinalRecordWindow, isNoneOr, hbefore]
  | some start =>
    cases query.endOffset with
    | none =>
      simp only [ordinalRecordWindow, isNoneOr, Option.map_some, Option.map_none,
        Option.getD_some, Option.getD_none, decide_eq_true_eq, ← hnot, and_true]
      omega
    | some stop =>
      simp only [ordinalRecordWindow, isNoneOr, Option.map_some, Option.getD_some,
        decide_eq_true_eq, ← hnot, ← hbefore]
      omega

end

/-- The window ends with the records. -/
theorem window_stop_le (start stop : Option LogicalOffset) :
    (ordinalRecordWindow records start stop).2 ≤ records.length := by
  cases stop with
  | none => exact le_rfl
  | some bound => exact (List.takeWhile_prefix _).length_le

end Window

/-! ## Posting lists of a query -/

section PostingLists

variable {κ : Type} [DecidableEq κ] {lookup : κ → Option Nat} {postings : List HotPostingList}
  {documents : List (List κ)} {start stop : Nat} {keys : List κ} {lists : List HotPostingList}

/-- A posting list of a key: the ordinals of the documents with the key. -/
structure ListsKey (documents : List (List κ)) (key : κ) (list : HotPostingList) : Prop where
  wellFormed : list.WellFormed
  ordinals : list.ordinals = ordinalsWith documents key

/-- Found posting lists are those of their keys; a missing one has no document in the window. -/
theorem postingListsIn_spec (h : Inverts lookup postings documents) (keys : List κ) :
    match postingListsIn lookup postings start stop keys with
    | some lists => Forall₂ (ListsKey documents) keys lists
    | none => ∃ key ∈ keys, ∀ ordinal, inWindow start stop ordinal = true →
        ordinal ∉ ordinalsWith documents key := by
  induction keys with
  | nil => exact Forall₂.nil
  | cons key rest ih =>
    rw [postingListsIn]
    cases hid : lookup key with
    | none =>
      refine ⟨key, mem_cons_self, fun ordinal _ hmem => ?_⟩
      obtain ⟨hlt, hkey⟩ := mem_ordinalsWith.mp hmem
      exact h.not_mem_of_lookup_eq_none hid hlt hkey
    | some id =>
      obtain ⟨list, hlist, hwell, hordinals⟩ := h.holds hid
      rw [Option.bind_some, hlist]
      dsimp only
      by_cases hempty : list.isEmptyIn start stop = true
      · rw [if_pos hempty]
        refine ⟨key, mem_cons_self, fun ordinal hwindow => ?_⟩
        rw [← hordinals]
        exact not_mem_of_isEmptyIn hwell hempty hwindow
      · rw [if_neg hempty]
        cases hrest : postingListsIn lookup postings start stop rest with
        | none => grind
        | some lists =>
          rw [hrest] at ih
          exact Forall₂.cons ⟨hwell, hordinals⟩ ih

section

variable (h : List.Forall₂ (ListsKey documents) keys lists)

include h

/-- An ordinal is in the lists of keys when its document has the keys. -/
theorem mem_lists_iff (ordinal : Nat) :
    (∀ list ∈ lists, ordinal ∈ list.ordinals) ↔
      ∀ key ∈ keys, ordinal ∈ ordinalsWith documents key := by
  induction h with
  | nil => simp
  | cons hlist _ ih =>
    simp only [forall_mem_cons, ih]
    rw [hlist.ordinals]

theorem wellFormed_lists : ∀ list ∈ lists, list.WellFormed := by
  induction h with
  | nil => simp
  | cons hlist _ ih => exact forall_mem_cons.mpr ⟨hlist.wellFormed, ih⟩

end

end PostingLists

/-! ## Candidates of a plan -/

section Plans

variable {Placement : Type} {index : PartitionIndex Placement} {start stop : Nat}
  {lists : List HotPostingList} {rules : TextRules} {query : LogQuery}

/-- The ordinals of the window that are in every list. -/
def windowCandidates (lists : List HotPostingList) (start stop : Nat) : List Nat :=
  (List.range' start (stop - start)).filter fun ordinal =>
    lists.all fun list => containedIn list.runs ordinal

/-- Candidates are in order. -/
theorem pairwise_windowCandidates (lists : List HotPostingList) (start stop : Nat) :
    (windowCandidates lists start stop).Pairwise (· < ·) :=
  (pairwise_lt_range' 1).filter _

/-- Candidates are in every list. -/
theorem mem_windowCandidates {ordinal : Nat} :
    ordinal ∈ windowCandidates lists start stop ↔
      inWindow start stop ordinal = true ∧ ∀ list ∈ lists, ordinal ∈ list.ordinals := by
  rw [windowCandidates, mem_filter, mem_range'_1, all_eq_true, inWindow_eq_true_iff]
  simp only [containedIn_eq_true_iff]
  have hrange : start ≤ ordinal ∧ ordinal < start + (stop - start) ↔
      start ≤ ordinal ∧ ordinal < stop := by omega
  rw [hrange]

/-- The order of the lists does not matter. -/
theorem windowCandidates_perm {others : List HotPostingList} (h : lists.Perm others) :
    windowCandidates lists start stop = windowCandidates others start stop := by
  apply Pairwise.eq_of_mem_iff (pairwise_windowCandidates _ _ _) (pairwise_windowCandidates _ _ _)
  intro ordinal
  simp only [mem_windowCandidates, h.mem_iff]

/-- Intersecting with further lists keeps the candidates that are in all of them. -/
theorem intersectPostings_eq {ordinals : List Nat} (hlists : ∀ list ∈ lists, list.WellFormed)
    (hordinals : ordinals.Pairwise (· < ·))
    (hwindow : ∀ ordinal ∈ ordinals, start ≤ ordinal ∧ ordinal < stop) :
    intersectPostings start stop lists ordinals =
      ordinals.filter fun ordinal => lists.all fun list => containedIn list.runs ordinal := by
  induction lists generalizing ordinals with
  | nil => simp [intersectPostings]
  | cons list rest ih =>
    have hstep := intersectOrdinalRuns_eq (hlists list mem_cons_self) hordinals hwindow
    have hsplit : (ordinals.filter fun ordinal =>
        (list :: rest).all fun list => containedIn list.runs ordinal) =
        (ordinals.filter (containedIn list.runs)).filter fun ordinal =>
          rest.all fun list => containedIn list.runs ordinal := by
      rw [filter_filter]
      apply filter_congr
      intro ordinal _
      rw [all_cons, Bool.and_comm]
    rw [intersectPostings, hstep, hsplit]
    split
    · grind
    · exact ih (fun other hother => hlists other (mem_cons_of_mem _ hother))
        (hordinals.filter _) fun ordinal hordinal => hwindow ordinal (mem_of_mem_filter hordinal)

/-- The order of a query over ordinals that increase with the offsets. -/
def orderOrdinals (order : QueryOrder) (ordinals : List Nat) : List Nat :=
  match order with
  | .oldestFirst => ordinals
  | .newestFirst => ordinals.reverse

/-- The window from one end, cut at the limit. -/
theorem collectOrderedRange_eq (order : QueryOrder) (limit : Option Nat) :
    collectOrderedRange start stop order limit =
      truncateTo limit (orderOrdinals order (range' start (stop - start))) := by
  have htake : ∀ ordinals : List Nat, ∀ count,
      ordinals.take (min count ordinals.length) = ordinals.take count := by
    intro ordinals count
    rw [← take_take, take_length]
  cases order with
  | oldestFirst =>
    cases limit with
    | none => simp [collectOrderedRange, truncateTo, orderOrdinals]
    | some count => exact htake _ _
  | newestFirst =>
    have hlength : (range' start (stop - start)).reverse.length =
        (range' start (stop - start)).length := length_reverse
    cases limit with
    | none =>
      simp only [collectOrderedRange, truncateTo, orderOrdinals, Option.getD_none, min_self]
      rw [← hlength, take_length]
    | some count =>
      simp only [collectOrderedRange, truncateTo, orderOrdinals, Option.getD_some]
      rw [← hlength, htake]

/-- Without a record filter, finishing candidates only orders and truncates them. -/
theorem finishOrdinals_of_not_needsRecordFilter (h : query.needsRecordFilter = false)
    (ordinals : List Nat) :
    finishOrdinals rules query index ordinals =
      truncateTo query.limit (orderOrdinals query.order ordinals) := by
  have hsort : query.sort ≠ .timestamp := by
    intro hsort
    simp [needsRecordFilter, hsort] at h
  unfold finishOrdinals
  dsimp only
  rw [h, if_neg hsort]
  cases horder : query.order with
  | oldestFirst => rfl
  | newestFirst => rfl

/-- Every plan finishes the candidates of the window. -/
theorem planOrdinals_eq (hlists : ∀ list ∈ lists, list.WellFormed) (hstop : stop < 2 ^ 32) :
    planOrdinals rules query index start stop lists =
      finishOrdinals rules query index (windowCandidates lists start stop) := by
  have hperm := perm_sortBy cardinality lists
  rw [← windowCandidates_perm hperm]
  unfold planOrdinals
  cases hsorted : sortBy cardinality lists with
  | nil =>
    have hall : windowCandidates [] start stop = range' start (stop - start) := by
      simp [windowCandidates]
    rw [hall]
    dsimp only
    split
    · rfl
    · grind [finishOrdinals_of_not_needsRecordFilter, collectOrderedRange_eq]
  | cons shortest others =>
    have hwell : ∀ list ∈ shortest :: others, list.WellFormed := by grind
    have hshortest := hwell shortest mem_cons_self
    have hwindow : shortest.ordinals.filter (inWindow start stop) =
        windowCandidates [shortest] start stop := by
      apply Pairwise.eq_of_mem_iff ((pairwise_ordinals hshortest).filter _)
        (pairwise_windowCandidates _ _ _)
      intro ordinal
      rw [mem_filter, mem_windowCandidates]
      simp [and_comm]
    have hlength : (shortest.ordinals.filter (inWindow start stop)).length < 2 ^ 64 := by
      rw [hwindow]
      have hle := length_filter_le (fun ordinal =>
        [shortest].all fun list => containedIn list.runs ordinal)
        (range' start (stop - start))
      rw [length_range'] at hle
      unfold windowCandidates
      omega
    dsimp only
    split
    · rename_i hsingle
      simp only [Bool.and_eq_true, List.isEmpty_iff, Bool.not_eq_true'] at hsingle
      rw [collectIn_eq hshortest _ _ hlength, hsingle.1,
        finishOrdinals_of_not_needsRecordFilter hsingle.2, hwindow]
      rfl
    · rw [collectIn_eq hshortest _ _ hlength]
      dsimp only [truncateTo]
      rw [hwindow, intersectPostings_eq (fun list hlist => hwell list (mem_cons_of_mem _ hlist))
        (pairwise_windowCandidates _ _ _)
        (fun ordinal hordinal => inWindow_eq_true_iff.mp (mem_windowCandidates.mp hordinal).1)]
      congr 1
      unfold windowCandidates
      rw [filter_filter]
      apply filter_congr
      intro ordinal _
      simp [Bool.and_comm]

end Plans

/-! ## The constraints of a query -/

section Constraints

variable {tables : UnicodeTables} {isMatch : LogRegex → Str → Bool} {query : LogQuery}
  {record : DurableLogRecord} {Placement : Type} {partition : TopicPartition} {progress : Progress}
  {index : PartitionIndex Placement} {start stop : Nat}

/-- A message has a term exactly when it is filed under the key of the term. -/
theorem hasTerm_normalized_iff {message expected : Str} :
    hasTerm (normalized tables isMatch) message expected = true ↔
      normalizeTerm tables expected ∈ termKeys tables message := by
  simp only [hasTerm, normalized, analyzeMessageTerms, termKeys, any_eq_true, beq_iff_eq, mem_map]

/-- Constraints ask for keys. -/
theorem satisfiedBy_normalized_iff {constraints : RequiredIndexConstraints}
    (hpossible : constraints.impossible = false) :
    constraints.SatisfiedBy (normalized tables isMatch) record ↔
      (∀ term ∈ constraints.terms, normalizeTerm tables term ∈ termKeys tables record.message) ∧
        ∀ field ∈ constraints.fields, field ∈ fieldKeys record.fields := by
  constructor
  · intro h
    refine ⟨fun term hterm => hasTerm_normalized_iff.mp (h.terms term hterm), ?_⟩
    intro field hfield
    have hmem := h.fields field hfield
    rwa [recordFields_durable] at hmem
  · rintro ⟨hterms, hfields⟩
    refine ⟨hpossible, fun term hterm => hasTerm_normalized_iff.mpr (hterms term hterm), ?_⟩
    intro field hfield
    rw [recordFields_durable]
    exact hfields field hfield

theorem postingListsIn_map {κ ι : Type} (lookup : κ → Option Nat) (key : ι → κ)
    (postings : List HotPostingList) (start stop : Nat) (items : List ι) :
    postingListsIn (fun item => lookup (key item)) postings start stop items =
      postingListsIn lookup postings start stop (items.map key) := by
  induction items with
  | nil => rfl
  | cons item rest ih => simp only [postingListsIn, map_cons, ih]

theorem mem_ordinalsWith_map {κ : Type} [DecidableEq κ] {stored : List DurableLogRecord}
    {keys : DurableLogRecord → List κ} {key : κ} {ordinal : Nat}
    (hrecord : stored[ordinal]? = some record) :
    ordinal ∈ ordinalsWith (stored.map keys) key ↔ key ∈ keys record := by
  obtain ⟨hlt, rfl⟩ := List.getElem?_eq_some_iff.mp hrecord
  rw [mem_ordinalsWith]
  simp [hlt]

/-- The lists of the constraints select the records that satisfy them; if one is missing, none of
the window does. -/
theorem constraintPostings_spec (h : Indexes tables partition progress index)
    (hcomplete : progress.Complete) {constraints : RequiredIndexConstraints}
    (hpossible : constraints.impossible = false) :
    match constraintPostings (normalized tables isMatch) index constraints start stop with
    | some lists => (∀ list ∈ lists, list.WellFormed) ∧
        ∀ ordinal record, progress.stored[ordinal]? = some record →
          ((∀ list ∈ lists, ordinal ∈ list.ordinals) ↔
            constraints.SatisfiedBy (normalized tables isMatch) record)
    | none => ∀ ordinal record, progress.stored[ordinal]? = some record →
        inWindow start stop ordinal = true →
          ¬ constraints.SatisfiedBy (normalized tables isMatch) record := by
  have hterms := h.terms
  have hfields := h.fields
  rw [hcomplete.termed] at hterms
  rw [hcomplete.fielded] at hfields
  have htermLists := @postingListsIn_spec _ _ _ _ _ start stop hterms
    (constraints.terms.map (normalizeTerm tables))
  have hfieldLists := @postingListsIn_spec _ _ _ _ _ start stop hfields constraints.fields
  rw [← postingListsIn_map] at htermLists
  unfold constraintPostings
  rw [h.termIds, h.fieldIds]
  dsimp only [normalized] at *
  cases hfound : postingListsIn (fun term => get progress.termIds
      (normalizeTerm tables term)) index.termPostings start stop constraints.terms with
  | none =>
    rw [hfound] at htermLists
    obtain ⟨key, hkey, hnone⟩ := htermLists
    intro ordinal record hrecord hwindow hsatisfied
    obtain ⟨term, hterm, rfl⟩ := mem_map.mp hkey
    refine hnone ordinal hwindow ((mem_ordinalsWith_map hrecord).mpr ?_)
    exact ((satisfiedBy_normalized_iff hpossible).mp hsatisfied).1 term hterm
  | some termLists =>
    rw [hfound] at htermLists
    cases hfound' : postingListsIn (lookupField progress.fieldIds) index.fieldPostings start stop
        constraints.fields with
    | none =>
      rw [hfound'] at hfieldLists
      obtain ⟨field, hfield, hnone⟩ := hfieldLists
      intro ordinal record hrecord hwindow hsatisfied
      refine hnone ordinal hwindow ((mem_ordinalsWith_map hrecord).mpr ?_)
      exact ((satisfiedBy_normalized_iff hpossible).mp hsatisfied).2 field hfield
    | some fieldLists =>
      rw [hfound'] at hfieldLists
      refine ⟨?_, ?_⟩
      · grind [wellFormed_lists]
      · intro ordinal record hrecord
        refine Iff.trans ?_ (satisfiedBy_normalized_iff hpossible).symm
        rw [forall_mem_append, mem_lists_iff htermLists, mem_lists_iff hfieldLists]
        simp only [mem_ordinalsWith_map hrecord, forall_mem_map]

end Constraints

/-! ## Selection -/

section Selection

variable {tables : UnicodeTables} {isMatch : LogRegex → Str → Bool} {query : LogQuery}
  {Placement : Type} {partition : TopicPartition} {progress : Progress}
  {index : PartitionIndex Placement} {records : List DurableLogRecord} {ordinals : List Nat}
  {message : String} {value : Nat}

theorem OffsetsIncrease.nodup (h : OffsetsIncrease records) :
    (records.map structuralOffset).Nodup := by
  rw [Nodup, pairwise_map]
  apply h.imp
  intro left right hlt heq
  change left.recordRef.offset = right.recordRef.offset at heq
  rw [heq] at hlt
  exact UInt64.lt_irrefl _ hlt

/-- Records in offset order are in result order, or in the reverse of it. -/
theorem sortUnstableBy_compare_of_increasing (h : OffsetsIncrease records)
    (hsort : query.sort ≠ .timestamp) :
    sortUnstableBy query.compare records =
      if query.order = .newestFirst then records.reverse else records := by
  have hoffset : query.sort = .offset := by
    cases hkind : query.sort with
    | offset => rfl
    | timestamp => exact (hsort hkind).elim
  have hrank : ∀ left right : DurableLogRecord,
      left.recordRef.offset < right.recordRef.offset →
      query.sort.rank (cursorFor left) ≤ query.sort.rank (cursorFor right) := by
    intro left right hlt
    rw [hoffset]
    apply Prod.Lex.toLex_le_toLex.mpr
    exact Or.inr ⟨rfl, (UInt64.lt_iff_toNat_lt.mp hlt).le⟩
  have hseparates := query.separates_of_nodup h.nodup
  split
  · rename_i horder
    apply sortUnstableBy_eq_of_pairwise query.totalComparison (reverse_perm records).symm
    · intro first hfirst second hsecond
      exact hseparates first (mem_reverse.mp hfirst) second (mem_reverse.mp hsecond)
    · rw [pairwise_reverse]
      apply h.imp
      intro left right hlt
      rw [compare_ne_gt_iff, if_pos horder]
      exact hrank left right hlt
  · rename_i horder
    apply sortUnstableBy_eq_of_pairwise query.totalComparison (Perm.refl _) hseparates
    apply h.imp
    intro left right hlt
    rw [compare_ne_gt_iff, if_neg horder]
    exact hrank left right hlt

/-- Candidates that stand for the records in range that satisfy the constraints. -/
structure Candidates (tables : UnicodeTables) (isMatch : LogRegex → Str → Bool) (query : LogQuery)
    (stored : List DurableLogRecord) (ordinals : List Nat) : Prop where
  increasing : ordinals.Pairwise (· < ·)
  bounded : ∀ ordinal ∈ ordinals, ordinal < stored.length
  mem_iff : ∀ ordinal record, stored[ordinal]? = some record →
    (ordinal ∈ ordinals ↔ query.offsetMatches record.recordRef.offset = true ∧
      query.requiredIndexConstraints.SatisfiedBy (normalized tables isMatch) record)

/-- The residual filter of the source over candidate ordinals. -/
def residualFilter {Placement : Type} (rules : TextRules) (query : LogQuery)
    (index : PartitionIndex Placement) (ordinals : List Nat) : List Nat :=
  if query.needsRecordFilter then
    ordinals.filter fun ordinal =>
      match index.records[ordinal]? with
      | some record => query.matchesIndexCandidate rules record.record
      | none => false
  else ordinals

section

variable (h : Candidates tables isMatch query progress.stored ordinals)

include h

/-- Filtered candidates are the ordinals of the matches. -/
theorem Candidates.filterMap_residualFilter (hindexes : Indexes tables partition progress index) :
    (residualFilter (normalized tables isMatch) query index ordinals).filterMap
        (progress.stored[·]?) =
      progress.stored.filter (query.matches (normalized tables isMatch)) := by
  have hcovers : ∀ ordinal record, progress.stored[ordinal]? = some record →
      query.matches (normalized tables isMatch) record = true → ordinal ∈ ordinals := by
    intro ordinal record hrecord hmatch
    rw [h.mem_iff ordinal record hrecord]
    exact ⟨offsetMatches_of_matches hmatch, satisfiedBy_of_matches hmatch⟩
  rw [← filter_filterMap_eq_filter h.increasing hcovers, filter_filterMap_getElem?]
  congr 1
  unfold residualFilter
  split
  · apply filter_congr
    intro ordinal hordinal
    have hlt := h.bounded ordinal hordinal
    have hrecord := getElem?_eq_getElem hlt
    have hsatisfied := ((h.mem_iff ordinal _ hrecord).mp hordinal).2
    have hindexed : index.records[ordinal]?.map (·.record) = some progress.stored[ordinal] := by
      rw [← getElem?_map, hindexes.stored, hrecord]
    obtain ⟨indexed, hat, hsame⟩ := Option.map_eq_some_iff.mp hindexed
    rw [hat, hrecord]
    dsimp only [Option.any_some]
    rw [hsame, Bool.eq_iff_iff, matches_iff_satisfiedBy]
    exact (and_iff_right hsatisfied).symm
  · rename_i hfilter
    symm
    rw [filter_eq_self]
    intro ordinal hordinal
    have hlt := h.bounded ordinal hordinal
    have hrecord := getElem?_eq_getElem hlt
    obtain ⟨hoffset, hsatisfied⟩ := (h.mem_iff ordinal _ hrecord).mp hordinal
    rw [hrecord, Option.any_some, matches_iff_satisfiedBy]
    refine ⟨hsatisfied, ?_⟩
    rw [matchesIndexCandidate_of_satisfiedBy (by simpa using hfilter) hsatisfied]
    exact hoffset

/-- Finished candidates read as the selection. -/
theorem Candidates.filterMap_finishOrdinals (hindexes : Indexes tables partition progress index) :
    (finishOrdinals (normalized tables isMatch) query index ordinals).filterMap
        (progress.stored[·]?) =
      query.select (normalized tables isMatch) progress.stored := by
  have hmatches := h.filterMap_residualFilter hindexes
  have hbounded : ∀ ordinal ∈ residualFilter (normalized tables isMatch) query index
      ordinals, ordinal < progress.stored.length := by
    intro ordinal hordinal
    unfold residualFilter at hordinal
    split at hordinal
    · exact h.bounded ordinal (mem_of_mem_filter hordinal)
    · exact h.bounded ordinal hordinal
  have hincreasing : OffsetsIncrease (progress.stored.filter
      (query.matches (normalized tables isMatch))) := hindexes.increasing.filter _
  have hfinish : finishOrdinals (normalized tables isMatch) query index ordinals =
      truncateTo query.limit
        (if query.sort = .timestamp then sortUnstableBy (compareOrdinals query index)
            (residualFilter (normalized tables isMatch) query index ordinals)
          else if query.order = .newestFirst then
            (residualFilter (normalized tables isMatch) query index ordinals).reverse
          else residualFilter (normalized tables isMatch) query index ordinals) := rfl
  rw [hfinish, filterMap_truncateTo]
  · rw [select]
    congr 1
    split
    · rw [filterMap_sortUnstableBy hbounded, hmatches]
      intro left _ right _ first second hfirst hsecond
      rw [← hindexes.stored, getElem?_map] at hfirst hsecond
      obtain ⟨firstIndexed, hfirstAt, rfl⟩ := Option.map_eq_some_iff.mp hfirst
      obtain ⟨secondIndexed, hsecondAt, rfl⟩ := Option.map_eq_some_iff.mp hsecond
      simp only [compareOrdinals, hfirstAt, hsecondAt]
    · grind [sortUnstableBy_compare_of_increasing]
  · grind [perm_sortUnstableBy]

end

theorem expectU32_of_lt (h : value < 2 ^ 32) : expectU32 message value = .ok value := by
  rw [expectU32, tryU32, tryUnsigned_eq_ok_iff.mpr ⟨rfl, h⟩]
  rfl

theorem expectU32_of_ge (h : ¬ value < 2 ^ 32) :
    expectU32 message value = .error (.panicked message) := by
  rw [expectU32, tryU32, tryUnsigned, if_neg h]
  rfl

/-- The window of a query fits 32 bits. -/
def WindowFits {Placement : Type} (query : LogQuery) (records : List (IndexedRecord Placement)) :
    Prop :=
  (ordinalRecordWindow records query.startOffset query.endOffset).2 < 2 ^ 32

/-- The query is answered before the window is computed. -/
def AnsweredEarly (query : LogQuery) : Prop :=
  query.limit = some 0 ∨ query.hasInvalidRange = true ∨
    query.requiredIndexConstraints.impossible = true

/-- A query whose window fits 32 bits reads the selection of the stored records. -/
theorem queryOrdinals_eq (h : Indexes tables partition progress index)
    (hcomplete : progress.Complete) (hfits : WindowFits query index.records)
    (hlimit : ¬ (query.limit = some 0 ∨ query.hasInvalidRange = true))
    (hpossible : query.requiredIndexConstraints.impossible = false) :
    ∃ ordinals, queryOrdinals (normalized tables isMatch) query index = .ok ordinals ∧
      ordinals.filterMap (progress.stored[·]?) =
        query.select (normalized tables isMatch) progress.stored := by
  set window := ordinalRecordWindow index.records query.startOffset query.endOffset with hwindow
  have hstart : window.1 < 2 ^ 32 := lt_of_le_of_lt (min_le_right _ _) hfits
  have hoffsets : index.records.Pairwise fun earlier later => earlier.offset < later.offset := by
    have hincreasing := h.increasing
    rw [← h.stored, OffsetsIncrease, pairwise_map] at hincreasing
    exact hincreasing
  have hinside : ∀ ordinal record, progress.stored[ordinal]? = some record →
      (inWindow window.1 window.2 ordinal = true ↔
        query.offsetMatches record.recordRef.offset = true) := by
    intro ordinal record hrecord
    rw [← h.stored, getElem?_map] at hrecord
    obtain ⟨indexed, hat, rfl⟩ := Option.map_eq_some_iff.mp hrecord
    exact inWindow_iff_offsetMatches hoffsets hat
  have hspec := @constraintPostings_spec tables isMatch Placement partition progress index window.1
    window.2 h hcomplete query.requiredIndexConstraints hpossible
  unfold queryOrdinals
  rw [if_neg hlimit]
  dsimp only
  rw [if_neg (by simp [hpossible]), ← hwindow, expectU32_of_lt hstart, ok_bind,
    expectU32_of_lt hfits, ok_bind]
  cases hlists : constraintPostings (normalized tables isMatch) index
      query.requiredIndexConstraints window.1 window.2 with
  | none =>
    rw [hlists] at hspec
    refine ⟨[], rfl, ?_⟩
    -- no record of the window satisfies the constraints
    have hnone : progress.stored.filter (query.matches (normalized tables isMatch)) = [] := by
      rw [filter_eq_nil_iff]
      intro record hrecord hmatch
      obtain ⟨ordinal, hat⟩ := mem_iff_getElem?.mp hrecord
      exact hspec ordinal record hat
        ((hinside ordinal record hat).mpr (offsetMatches_of_matches hmatch))
        (satisfiedBy_of_matches hmatch)
    rw [select, hnone]
    exact (truncateTo_nil _).symm
  | some lists =>
    rw [hlists] at hspec
    obtain ⟨hwell, hmem⟩ := hspec
    refine ⟨_, rfl, ?_⟩
    rw [planOrdinals_eq hwell hfits]
    apply Candidates.filterMap_finishOrdinals _ h
    refine ⟨pairwise_windowCandidates _ _ _, ?_, ?_⟩
    · intro ordinal hordinal
      have hin : window.1 ≤ ordinal ∧ ordinal < window.2 :=
        inWindow_eq_true_iff.mp (mem_windowCandidates.mp hordinal).1
      have hstop : window.2 ≤ index.records.length := window_stop_le _ _
      rw [← h.stored, length_map]
      omega
    · grind [mem_windowCandidates]

/-- A query whose window does not fit 32 bits panics. -/
theorem queryOrdinals_panicked {rules : TextRules} (hfits : ¬ WindowFits query index.records)
    (hlimit : ¬ (query.limit = some 0 ∨ query.hasInvalidRange = true))
    (hpossible : query.requiredIndexConstraints.impossible = false) :
    queryOrdinals rules query index =
      .error (.panicked "record ordinal was bounded by ingest") := by
  unfold queryOrdinals
  rw [if_neg hlimit]
  dsimp only
  rw [if_neg (by simp [hpossible])]
  by_cases hstart : (ordinalRecordWindow index.records query.startOffset query.endOffset).1 < 2 ^ 32
  · rw [expectU32_of_lt hstart, ok_bind, expectU32_of_ge hfits]
    rfl
  · rw [expectU32_of_ge hstart]
    rfl

end Selection

/-! ## Hot stripes -/

section HotStripes

variable {stage : BlockStage} {tables : UnicodeTables} {isMatch : LogRegex → Str → Bool}
  {query : LogQuery} {view : View} {stripe : LogStripe stage}

/-- The hot matches are the selection over the hot records. -/
theorem queryHotMatches_of_fits (h : Holds tables view stripe) (hcomplete : view.Complete)
    (hfits : WindowFits query (stripe.partitionOf query.topicPartition).records)
    (hlimit : ¬ (query.limit = some 0 ∨ query.hasInvalidRange = true))
    (hpossible : query.requiredIndexConstraints.impossible = false) :
    stripe.queryHotMatches (normalized tables isMatch) query =
      .ok ((query.select (normalized tables isMatch)
        (stripe.hotRecords query.topicPartition)).map LogMatch.mk) := by
  rw [h.hotRecords_eq]
  have hindexes := h.indexes query.topicPartition
  unfold queryHotMatches
  unfold partitionOf at hfits hindexes
  cases hget : get stripe.partitions query.topicPartition with
  | none =>
    rw [hget] at hindexes
    have hempty : (view.progress query.topicPartition).stored = [] := hindexes.stored.symm
    rw [hempty]
    simp [select, sortUnstableBy]
  | some index =>
    rw [hget, Option.getD_some] at hindexes hfits
    obtain ⟨ordinals, hordinals, hselect⟩ := @queryOrdinals_eq tables isMatch query _ _ _ index
      hindexes (hcomplete _) hfits hlimit hpossible
    dsimp only
    rw [hordinals, ok_bind, ← hselect, map_filterMap]
    congr 1
    apply filterMap_congr
    intro ordinal _
    rw [← hindexes.stored, getElem?_map, Option.map_map]
    rfl

/-- Sorting and truncating a selection again changes nothing. -/
theorem truncate_sort_select {rules : TextRules} {records : List DurableLogRecord}
    (h : (records.map structuralOffset).Nodup) :
    truncateTo query.limit (sortUnstableBy (fun left right => query.compare left.record right.record)
      ((query.select rules records).map LogMatch.mk)) =
      (query.select rules records).map LogMatch.mk := by
  have hsorted := @map_sortUnstableBy _ query.compare _ LogMatch.mk
    (fun left right => query.compare left.record right.record) (query.select rules records)
    fun _ _ _ _ => rfl
  have hsublist : (query.select rules records).Sublist
      (sortUnstableBy query.compare (records.filter (query.matches rules))) :=
    truncateTo_sublist _ _
  have hmem : ∀ record ∈ query.select rules records, record ∈ records :=
    fun _ hrecord => (query.mem_of_mem_select hrecord).1
  have hsame : sortUnstableBy query.compare (query.select rules records) =
      query.select rules records := by
    apply sortUnstableBy_eq_of_pairwise query.totalComparison (Perm.refl _)
    · intro first hfirst second hsecond
      exact query.separates_of_nodup h first (hmem first hfirst) second (hmem second hsecond)
    · exact (pairwise_sortUnstableBy query.totalComparison _).sublist hsublist
  rw [← hsorted, hsame, truncateTo_map]
  congr 1
  unfold select truncateTo
  cases query.limit with
  | none => rfl
  | some count => simp [take_take]

/-- A stripe with hot records only answers with the selection over its partition, unless it reads
the window end of a full one. -/
theorem query_hotReachable_iff {codecs : Codecs} (h : HotReachable tables stripe) :
    stripe.queryOrDefault (normalized tables isMatch) query codecs =
        .ok ((query.select (normalized tables isMatch)
          (stripe.hotRecords query.topicPartition)).map LogMatch.mk) ↔
      AnsweredEarly query ∨ WindowFits query (stripe.partitionOf query.topicPartition).records := by
  obtain ⟨view, hcomplete, hframes, hholds⟩ := h.hotExact
  have hindexes := hholds.indexes query.topicPartition
  have hnodup : ((stripe.hotRecords query.topicPartition).map structuralOffset).Nodup := by
    rw [hholds.hotRecords_eq]
    exact hindexes.increasing.nodup
  have hnoFrames : stripe.queryFrameMatches (normalized tables isMatch) query codecs = .ok [] := by
    rw [queryFrameMatches, hholds.frames, hframes]
    rfl
  unfold queryOrDefault queryChecked
  by_cases hlimit : query.limit = some 0 ∨ query.hasInvalidRange = true
  · rw [if_pos hlimit, query.select_eq_nil hlimit]
    simp only [List.map_nil, true_iff]
    rcases hlimit with hzero | hinvalid
    · exact Or.inl (Or.inl hzero)
    · exact Or.inl (Or.inr (Or.inl hinvalid))
  rw [if_neg hlimit]
  cases hpossible : query.requiredIndexConstraints.impossible with
  | true =>
    have hhot : stripe.queryHotMatches (normalized tables isMatch) query = .ok [] := by
      unfold queryHotMatches
      cases get stripe.partitions query.topicPartition with
      | none => rfl
      | some index =>
        unfold queryOrdinals
        dsimp only
        rw [if_neg hlimit, if_pos hpossible]
        rfl
    rw [hhot, hnoFrames, select_eq_nil_of_impossible hpossible]
    simp only [ok_bind, List.append_nil, List.map_nil]
    constructor
    · intro _
      exact Or.inl (Or.inr (Or.inr hpossible))
    · intro _
      simp [sortUnstableBy]
  | false =>
    by_cases hfits : WindowFits query (stripe.partitionOf query.topicPartition).records
    · grind [queryHotMatches_of_fits, ok_bind, truncate_sort_select]
    · have hpanic : stripe.queryHotMatches (normalized tables isMatch) query =
          .error (.panicked "record ordinal was bounded by ingest") := by
        unfold queryHotMatches
        unfold partitionOf at hfits
        cases hget : get stripe.partitions query.topicPartition with
        | none =>
          rw [hget] at hfits
          exact (hfits (lt_of_le_of_lt (window_stop_le _ _) (Nat.two_pow_pos 32))).elim
        | some index => simp_all [queryOrdinals_panicked]
      rw [hpanic]
      constructor
      · intro habsurd
        cases habsurd
      · rintro (hearly | hin)
        · rcases hearly with hzero | hinvalid | himpossible
          · exact (hlimit (Or.inl hzero)).elim
          · exact (hlimit (Or.inr hinvalid)).elim
          · rw [hpossible] at himpossible
            cases himpossible
        · exact (hfits hin).elim

/-! ## A full partition -/

/-- A record without text, at an offset. -/
def plainRecord (offset : LogicalOffset) : DurableLogRecord :=
  ⟨0, ⟨samplePartition, offset⟩, 0, [], [], 0⟩

/-- A partition takes any number of records up to the number of 32-bit ordinals. -/
theorem exists_hotReachable_length {count : Nat} (hcount : count ≤ 2 ^ 32) :
    ∃ stripe : LogStripe idleStage, HotReachable tables stripe ∧ stripe.streamShardId = 0 ∧
      (stripe.partitionOf samplePartition).records.length = count ∧
      ∀ record ∈ stripe.hotRecords samplePartition, record.recordRef.offset.toNat < count := by
  induction count with
  | zero => exact ⟨_, .fresh 0 (), rfl, rfl, by simp [hotRecords, partitionOf]⟩
  | succ count ih =>
    obtain ⟨stripe, hreachable, hshard, hlength, hoffsets⟩ := ih (by omega)
    obtain ⟨view, hcomplete, _, hholds⟩ := hreachable.hotExact
    have hbound : count < 2 ^ 64 := by omega
    have hoffset : (UInt64.ofNat count).toNat = count := UInt64.toNat_ofNat_of_lt' hbound
    have hbeyond : ∀ record ∈ stripe.hotRecords samplePartition,
        record.recordRef.offset < (plainRecord (UInt64.ofNat count)).recordRef.offset := by
      intro record hrecord
      rw [UInt64.lt_iff_toNat_lt]
      exact lt_of_lt_of_eq (hoffsets record hrecord) hoffset.symm
    have hroom : (view.progress samplePartition).stored.length < 2 ^ 32 := by
      rw [← hholds.length_records, hlength]
      exact hcount
    have hnew := hbeyond
    rw [hholds.hotRecords_eq] at hnew
    obtain ⟨receipt, final, hrun⟩ := (@leads_applyDurable idleStage tables view stripe
      (plainRecord (UInt64.ofNat count)) 0 hholds hshard.symm hnew hroom).exists_ok_iff.mpr rfl
    have hstep : ((HotOperation.applyDurable 0 (plainRecord (UInt64.ofNat count))).program
        tables).run stripe = .ok () final :=
      succeeds_bind_iff.mpr ⟨receipt, final, hrun, rfl⟩
    obtain ⟨progress, htook, hfinal⟩ := (triple_applyDurable 0 _ (hcomplete _)).of_ok hholds hrun
    have hrecords : final.hotRecords samplePartition =
        stripe.hotRecords samplePartition ++ [plainRecord (UInt64.ofNat count)] := by
      rw [hfinal.hotRecords_eq, hholds.hotRecords_eq]
      exact (congrArg Progress.stored (View.progress_set_self view samplePartition progress)).trans
        htook.stored
    refine ⟨final, hreachable.step _ hstep, ?_, ?_, ?_⟩
    · rw [hfinal.shard]
      exact hholds.shard.symm.trans hshard
    · have hlengths := congrArg List.length hrecords
      simp only [hotRecords, length_map, length_append, length_singleton] at hlengths
      rw [hlengths, hlength]
    · rw [hrecords]
      exact forall_mem_append.mpr ⟨fun record hold => Nat.lt_succ_of_lt (hoffsets record hold),
          forall_mem_singleton.mpr (lt_of_eq_of_lt hoffset (Nat.lt_succ_self count))⟩

theorem query_plainRecords : ∃ stripe : LogStripe idleStage, HotReachable latinTables stripe ∧
    (stripe.partitionOf samplePartition).records.length = 3 ∧
    stripe.queryOrDefault (normalized latinTables fun _ _ => false)
      { topicPartition := samplePartition, limit := some 2, order := .newestFirst } sampleCodecs =
      .ok ((select { topicPartition := samplePartition, limit := some 2, order := .newestFirst }
        (normalized latinTables fun _ _ => false)
        (stripe.hotRecords samplePartition)).map LogMatch.mk) := by
  obtain ⟨stripe, hreachable, _, hlength, _⟩ :=
    @exists_hotReachable_length latinTables 3 (by decide)
  refine ⟨stripe, hreachable, hlength, (query_hotReachable_iff hreachable).mpr (Or.inr ?_)⟩
  have hstop := @window_stop_le _ (stripe.partitionOf samplePartition).records none none
  rw [hlength] at hstop
  exact lt_of_le_of_lt hstop (by decide)

/-- A query over a partition with all 32-bit ordinals in use panics. -/
theorem query_full_partition_panics : ∃ stripe : LogStripe idleStage,
    HotReachable latinTables stripe ∧
    (stripe.partitionOf samplePartition).records.length = 2 ^ 32 ∧
    stripe.queryOrDefault (normalized latinTables fun _ _ => false)
      { topicPartition := samplePartition } sampleCodecs =
        .error (.panicked "record ordinal was bounded by ingest") := by
  obtain ⟨stripe, hreachable, _, hlength, _⟩ := @exists_hotReachable_length latinTables _ le_rfl
  refine ⟨stripe, hreachable, hlength, ?_⟩
  have hfits : ¬ WindowFits ({ topicPartition := samplePartition } : LogQuery)
      (stripe.partitionOf samplePartition).records := by
    change ¬ (stripe.partitionOf samplePartition).records.length < 2 ^ 32
    rw [hlength]
    exact Nat.lt_irrefl _
  have hindex : ∃ index, get stripe.partitions samplePartition = some index := by
    cases hget : get stripe.partitions samplePartition with
    | none =>
      rw [partitionOf, hget] at hlength
      cases hlength
    | some index => exact ⟨index, rfl⟩
  obtain ⟨index, hget⟩ := hindex
  rw [partitionOf, hget, Option.getD_some] at hfits
  have hhot : stripe.queryHotMatches (normalized latinTables fun _ _ => false)
      { topicPartition := samplePartition } =
        .error (.panicked "record ordinal was bounded by ingest") := by
    unfold queryHotMatches
    rw [hget]
    dsimp only
    rw [queryOrdinals_panicked hfits (by decide) rfl]
    rfl
  unfold queryOrDefault queryChecked
  rw [if_neg (by decide), hhot]
  rfl

end HotStripes

end ShardLog.Stripe
