import ShardLog.Query.Select

/-!
# Query - Reading a selection page by page

A page continues after the cursor of the last record of the page before it.  The
cursor test, the result order and its direction are written separately; a page starts
where the one before it ended because they describe one order.

Main results:

- Theorem `select_after`: the selection after the cursor of a record is what follows
  the record.
- Theorem `flatten_selectPages`: the pages together are the whole selection.
-/

namespace ShardLog.LogQuery

open Sorted

variable (rules : TextRules) {R : Type} [StructuralRecordView R]

/-- Read pages of a size until one is short; none if the fuel runs out. -/
def selectPages (size : Nat) (records : List R) : Nat → LogQuery → Option (List (List R))
  | 0, _ => none
  | fuel + 1, query =>
    let page := select { query with limit := some size } rules records
    if page.length < size then some [page]
    else
      match page.getLast? with
      | none => some [page]
      | some last =>
        (selectPages size records fuel { query with after := some (cursorFor last) }).map
          (page :: ·)

variable (query : LogQuery) {rules} {records : List R} {last : R}

/-- A record lies beyond the cursor of another one when it comes later in the result
order. -/
theorem cursorMatches_after (record : R) :
    cursorMatches { query with after := some (cursorFor last) } record =
      decide (query.compare record last = .gt) := by
  simp only [cursorMatches, compare]
  by_cases horder : query.order = .newestFirst
  · simp [horder]
  · simp [horder]

/-- What lies beyond a match lies beyond the cursor of the match. -/
theorem cursorMatches_of_gt (hlast : query.cursorMatches last = true) {record : R}
    (hgt : query.compare record last = .gt) : query.cursorMatches record = true := by
  cases hafter : query.after with
  | none => simp [cursorMatches, hafter]
  | some cursor =>
    simp only [cursorMatches, compare, hafter, QuerySort.comparePositions_eq] at hlast hgt ⊢
    by_cases horder : query.order = .newestFirst
    · simp only [horder, if_true, decide_eq_true_eq, Ordering.swap_eq_gt,
        orderingOf_lt_iff] at hlast hgt ⊢
      exact hgt.trans hlast
    · simp only [horder, if_false, decide_eq_true_eq, orderingOf_gt_iff] at hlast hgt ⊢
      exact hlast.trans hgt

/-- Moving the cursor to a match drops what does not follow it. -/
theorem matches_after (hlast : query.matches rules last = true) (record : R) :
    LogQuery.matches { query with after := some (cursorFor last) } rules record =
      (query.matches rules record && decide (query.compare record last = .gt)) := by
  have hcursor : query.cursorMatches last = true := by
    simp only [LogQuery.matches, Bool.and_eq_true] at hlast
    exact hlast.1.1.1.2
  have hbeyond := @LogQuery.cursorMatches_of_gt _ _ query _ hcursor record
  simp only [LogQuery.matches, cursorMatches_after]
  by_cases hgt : query.compare record last = .gt
  · simp only [hgt, decide_true, hbeyond hgt, Bool.and_true]
    rfl
  · simp [hgt]

/-- The whole selection after a record of a front part that ends with it. -/
theorem select_after (hoffsets : (records.map structuralOffset).Nodup) {count : Nat}
    (hlast : ((select { query with limit := none } rules records).take count).getLast? =
      some last) :
    select { query with
        limit := none
        after := some (cursorFor last) } rules records =
      (select { query with limit := none } rules records).drop count := by
  have hmatching : ((records.filter (query.matches rules)).map structuralOffset).Nodup :=
    hoffsets.sublist (List.filter_sublist.map _)
  have hseparates := query.separates_of_nodup hmatching
  have hperm := perm_sortUnstableBy query.compare (records.filter (query.matches rules))
  have hmem := hperm.mem_iff.mp (List.mem_of_mem_take (List.mem_of_getLast? hlast))
  have hfilter : records.filter (LogQuery.matches { query with
      limit := none
      after := some (cursorFor last) } rules) =
      (records.filter (query.matches rules)).filter fun record =>
        decide (query.compare record last = .gt) := by
    rw [List.filter_filter]
    refine List.filter_congr fun record _ => ?_
    rw [Bool.and_comm]
    exact query.matches_after (List.mem_filter.mp hmem).2 record
  change sortUnstableBy query.compare (records.filter _) = (sortUnstableBy query.compare _).drop _
  rw [hfilter, sortUnstableBy_filter query.totalComparison hseparates]
  refine filter_gt_eq_drop query.totalComparison ?_ (hperm.nodup_iff.mpr hmatching.of_map)
    (pairwise_sortUnstableBy query.totalComparison _) hlast
  exact fun left hleft right hright => hseparates left (hperm.mem_iff.mp hleft) right
    (hperm.mem_iff.mp hright)

/-- The pages of a query end, and together they are its selection without a limit. -/
theorem flatten_selectPages (hoffsets : (records.map structuralOffset).Nodup) {size fuel : Nat}
    (hsize : 1 ≤ size) (hfuel : records.length < fuel) :
    (selectPages rules size records fuel query).map List.flatten =
      some (select { query with limit := none } rules records) := by
  have hlength : (select { query with limit := none } rules records).length < fuel :=
    lt_of_le_of_lt (((perm_sortUnstableBy _ _).length_eq.trans_le (List.length_filter_le _ _))) hfuel
  clear hfuel
  induction fuel generalizing query with
  | zero => cases hlength
  | succ fuel ih =>
    have hpage : select { query with limit := some size } rules records =
        (select { query with limit := none } rules records).take size := rfl
    rw [selectPages, hpage, List.length_take]
    split
    · rename_i hshort
      simp only [Option.map_some, List.flatten_cons, List.flatten_nil, List.append_nil]
      rw [List.take_of_length_le (by omega)]
    · rename_i hfull
      obtain ⟨last, hlast⟩ : ∃ last,
          ((select { query with limit := none } rules records).take size).getLast? = some last := by
        rw [← Option.isSome_iff_exists, List.getLast?_isSome, ← List.length_pos_iff,
          List.length_take]
        omega
      have hrest := query.select_after hoffsets hlast
      obtain ⟨pages, hpages, hflatten⟩ := Option.map_eq_some_iff.mp
        (ih { query with after := some (cursorFor last) } (by
          rw [hrest, List.length_drop]
          omega))
      rw [hlast]
      dsimp only
      rw [hpages, Option.map_some, Option.map_some, List.flatten_cons, hflatten, hrest,
        List.take_append_drop]

/-- Three records with one timestamp, newest first, in pages of two. -/
theorem flatten_selectPages_same_timestamp :
    let records : List DecodedStructuralRecord :=
      [⟨1, 7, ['a'], []⟩, ⟨2, 7, ['b'], []⟩, ⟨3, 7, [], []⟩]
    let query : LogQuery := { topicPartition := ⟨0, 0⟩, order := .newestFirst, sort := .timestamp }
    ∀ rules, (selectPages rules 2 records 4 query).map List.flatten =
      some (select { query with limit := none } rules records) :=
  fun _ => flatten_selectPages _ (by decide) (by decide) (by decide)

end ShardLog.LogQuery
