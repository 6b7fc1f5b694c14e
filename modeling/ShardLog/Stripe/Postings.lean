import ShardLog.Query.Select
import Mathlib.Data.List.TakeWhile

/-!
# Stripe - Hot posting lists

The posting lists of the hot index: record ordinals in increasing order, kept as
runs of consecutive ordinals.
-/

namespace ShardLog.Stripe

open Sorted List

/-! ## Runs -/

/-- Consecutive record ordinals, both ends included. -/
structure OrdinalRun where
  first : Nat
  last : Nat
deriving DecidableEq, Repr

/-- The ordinals of a run. -/
def OrdinalRun.ordinals (run : OrdinalRun) : List Nat :=
  List.range' run.first (run.last + 1 - run.first)

/-- Record ordinals of one term or field. -/
structure HotPostingList where
  runs : List OrdinalRun := []
  cardinality : Nat := 0
deriving DecidableEq, Repr

namespace HotPostingList

/-- Append a range of ordinals; a range that continues the last run extends it. -/
def pushRange (postings : HotPostingList) (first finalOrdinal : Nat) : HotPostingList :=
  let added := finalOrdinal - first + 1
  match postings.runs.getLast? with
  | some lastRun =>
    if lastRun.last + 1 = first then
      { runs := postings.runs.dropLast ++ [{ lastRun with last := finalOrdinal }]
        cardinality := postings.cardinality + added }
    else
      { runs := postings.runs ++ [⟨first, finalOrdinal⟩]
        cardinality := postings.cardinality + added }
  | none =>
    { runs := [⟨first, finalOrdinal⟩]
      cardinality := postings.cardinality + added }

def push (postings : HotPostingList) (ordinal : Nat) : HotPostingList :=
  postings.pushRange ordinal ordinal

/-- No run meets the window, by a bisecting search over the runs. -/
def isEmptyIn (postings : HotPostingList) (start stop : Nat) : Bool :=
  (binarySearchBy postings.runs fun run =>
    if run.last < start then .lt else if stop ≤ run.first then .gt else .eq).isNone

/-- The part of a run that lies inside a window that it meets. -/
def clip (start stop : Nat) (run : OrdinalRun) : List Nat :=
  OrdinalRun.ordinals ⟨max run.first start, min run.last (stop - 1)⟩

/-- Walk over runs: skip the runs before the window, stop behind it or when
enough ordinals were taken. -/
def collectRuns (skip done : OrdinalRun → Bool) (piece : OrdinalRun → List Nat) (take : Nat) :
    List OrdinalRun → List Nat → List Nat
  | [], ordinals => ordinals
  | run :: rest, ordinals =>
    if skip run then collectRuns skip done piece take rest ordinals
    else if done run || decide (ordinals.length = take) then ordinals
    else
      collectRuns skip done piece take rest (ordinals ++ (piece run).take (take - ordinals.length))

/-- The ordinals inside a window, in the order of the query, up to a limit. -/
def collectIn (postings : HotPostingList) (start stop : Nat) (order : QueryOrder)
    (limit : Option Nat) : List Nat :=
  let take := limit.getD (2 ^ 64 - 1)
  match order with
  | .oldestFirst =>
    collectRuns (fun run => decide (run.last < start)) (fun run => decide (stop ≤ run.first))
      (clip start stop) take postings.runs []
  | .newestFirst =>
    collectRuns (fun run => decide (stop ≤ run.first)) (fun run => decide (run.last < start))
      (fun run => (clip start stop run).reverse) take postings.runs.reverse []

/-- All ordinals of a posting list. -/
def ordinals (postings : HotPostingList) : List Nat := postings.runs.flatMap OrdinalRun.ordinals

/-- Runs are nonempty and follow each other, and their ordinals were counted. -/
structure WellFormed (postings : HotPostingList) : Prop where
  nonempty : ∀ run ∈ postings.runs, run.first ≤ run.last
  ordered : postings.runs.Pairwise fun left right => left.last < right.first
  counted : postings.cardinality = postings.ordinals.length

end HotPostingList

/-- Keep the candidates that some run contains: a merge of two ordered lists that
ends at the end of the window. -/
def intersectRunsFrom (stop : Nat) : List Nat → List OrdinalRun → List Nat
  | [], _ => []
  | _ :: _, [] => []
  | candidate :: candidates, run :: runs =>
    if stop ≤ candidate ∨ stop ≤ run.first then []
    else if candidate < run.first then intersectRunsFrom stop candidates (run :: runs)
    else if run.last < candidate then intersectRunsFrom stop (candidate :: candidates) runs
    else candidate :: intersectRunsFrom stop candidates (run :: runs)
termination_by candidates runs => candidates.length + runs.length

def intersectOrdinalRuns (candidates : List Nat) (runs : List OrdinalRun) (start stop : Nat) :
    List Nat :=
  intersectRunsFrom stop candidates (runs.dropWhile fun run => decide (run.last < start))

/-! ## Membership -/

variable {ordinal : Nat} {run : OrdinalRun} {postings : HotPostingList} {runs : List OrdinalRun}
  {stop : Nat} {candidates : List Nat}

/-- The ordinals of a run. -/
theorem OrdinalRun.mem_ordinals :
    ordinal ∈ run.ordinals ↔ run.first ≤ ordinal ∧ ordinal ≤ run.last := by
  rw [OrdinalRun.ordinals, mem_range'_1]
  omega

namespace HotPostingList

variable {postings : HotPostingList} {ordinal : Nat} {finalOrdinal : Nat} {run : OrdinalRun}
  {first : Nat} {start stop : Nat}

/-- The ordinals of some run. -/
theorem mem_ordinals :
    ordinal ∈ postings.ordinals ↔
      ∃ run ∈ postings.runs, run.first ≤ ordinal ∧ ordinal ≤ run.last := by
  simp only [ordinals, mem_flatMap, OrdinalRun.mem_ordinals]

theorem wellFormed_empty : WellFormed {} where
  nonempty := by simp
  ordered := Pairwise.nil
  counted := rfl

/-! ## Appending -/

/-- A range adds its length. -/
theorem cardinality_pushRange (postings : HotPostingList) (first finalOrdinal : Nat) :
    (postings.pushRange first finalOrdinal).cardinality =
      postings.cardinality + (finalOrdinal - first + 1) := by
  unfold pushRange
  split
  · split <;> rfl
  · rfl

/-- A range that continues a run extends it by its ordinals. -/
theorem ordinals_extend (hrun : run.first ≤ run.last) (hrange : run.last + 1 ≤ finalOrdinal) :
    OrdinalRun.ordinals ⟨run.first, finalOrdinal⟩ =
      run.ordinals ++ range' (run.last + 1) (finalOrdinal - run.last) := by
  have hlength : finalOrdinal + 1 - run.first =
      (run.last + 1 - run.first) + (finalOrdinal - run.last) := by omega
  have hstart : run.last + 1 = run.first + (run.last + 1 - run.first) := by omega
  simp only [OrdinalRun.ordinals, hlength]
  rw [← range'_append_1, ← hstart]

/-- The runs after appending a range beyond the last ordinal. -/
theorem runs_pushRange (h : postings.WellFormed) (hrange : first ≤ finalOrdinal)
    (hbeyond : ∀ ordinal ∈ postings.ordinals, ordinal < first) :
    (∀ run ∈ (postings.pushRange first finalOrdinal).runs, run.first ≤ run.last) ∧
      ((postings.pushRange first finalOrdinal).runs.Pairwise
        fun left right => left.last < right.first) ∧
      (postings.pushRange first finalOrdinal).ordinals =
        postings.ordinals ++ range' first (finalOrdinal + 1 - first) := by
  have hlast : ∀ run ∈ postings.runs, run.last < first := fun run hrun =>
    hbeyond run.last (mem_ordinals.mpr ⟨run, hrun, h.nonempty run hrun, le_rfl⟩)
  have hnonempty := h.nonempty
  have hordered := h.ordered
  unfold pushRange
  cases hruns : postings.runs.getLast? with
  | none =>
    rw [getLast?_eq_none_iff] at hruns
    simp [ordinals, hruns, OrdinalRun.ordinals, hrange]
  | some lastRun =>
    obtain ⟨before, hbefore⟩ := getLast?_eq_some_iff.mp hruns
    simp only [hbefore, mem_append, mem_singleton, pairwise_append, or_imp,
      forall_and, forall_eq] at hnonempty hordered hlast
    dsimp only
    by_cases hadjacent : lastRun.last + 1 = first
    · subst hadjacent
      rw [if_pos rfl, hbefore, dropLast_concat]
      refine ⟨?_, ?_, ?_⟩
      · grind
      · grind
      · simp [ordinals, hbefore, ordinals_extend hnonempty.2 hrange]
    · rw [if_neg hadjacent, hbefore]
      refine ⟨?_, ?_, ?_⟩
      · grind
      · grind
      · simp [ordinals, hbefore, OrdinalRun.ordinals]

/-- Appending a range beyond the last ordinal appends its ordinals. -/
theorem ordinals_pushRange (h : postings.WellFormed) (hrange : first ≤ finalOrdinal)
    (hbeyond : ∀ ordinal ∈ postings.ordinals, ordinal < first) :
    (postings.pushRange first finalOrdinal).WellFormed ∧
      (postings.pushRange first finalOrdinal).ordinals =
        postings.ordinals ++ range' first (finalOrdinal + 1 - first) := by
  obtain ⟨hnonempty, hordered, hordinals⟩ := runs_pushRange h hrange hbeyond
  refine ⟨⟨hnonempty, hordered, ?_⟩, hordinals⟩
  rw [hordinals, cardinality_pushRange, length_append, length_range', h.counted]
  omega

/-! ## Windows -/

/-- The ordinals of a window. -/
def inWindow (start stop ordinal : Nat) : Bool := decide (start ≤ ordinal) && decide (ordinal < stop)

theorem inWindow_eq_true_iff :
    inWindow start stop ordinal = true ↔ start ≤ ordinal ∧ ordinal < stop := by
  simp [inWindow]

/-- A list is reported empty inside a window if no run meets both of its ends. -/
theorem isEmptyIn_iff (h : postings.WellFormed) : postings.isEmptyIn start stop = true ↔
    ∀ run ∈ postings.runs, ¬(start ≤ run.last ∧ run.first < stop) := by
  rw [isEmptyIn, Option.isNone_iff_eq_none]
  constructor
  · rintro hnone run hrun ⟨hlast, hfirst⟩
    have hordered : OrderedAround (fun run : OrdinalRun =>
        if run.last < start then .lt else if stop ≤ run.first then .gt else .eq) postings.runs := by
      refine (Pairwise.and_mem.mp h.ordered).imp ?_
      rintro left right ⟨hleft, hright, hlt⟩
      have hfirst := h.nonempty left hleft
      have hsecond := h.nonempty right hright
      refine ⟨fun hgt => ?_, fun hless => ?_⟩
      · grind
      · grind
    obtain ⟨position, hfound⟩ := binarySearchBy_complete hordered hrun (by
      rw [if_neg (by omega), if_neg (by omega)])
    rw [hfound] at hnone
    cases hnone
  · intro hnone
    by_contra hsome
    obtain ⟨position, hposition⟩ := Option.ne_none_iff_exists'.mp hsome
    obtain ⟨run, hrun, hequal⟩ := Option.map_eq_some_iff.mp (binarySearchBy_sound hposition)
    have hout := hnone run (mem_of_getElem? hrun)
    grind

/-- A list reported empty inside a window has no ordinal there. -/
theorem not_mem_of_isEmptyIn (h : postings.WellFormed)
    (hempty : postings.isEmptyIn start stop = true) (hwindow : inWindow start stop ordinal = true) :
    ordinal ∉ postings.ordinals := by
  rw [inWindow_eq_true_iff] at hwindow
  intro hmem
  obtain ⟨run, hrun, hlow, hhigh⟩ := mem_ordinals.mp hmem
  exact (isEmptyIn_iff h).mp hempty run hrun (by omega)

/-- The part of a run inside a window that it meets. -/
theorem clip_eq_filter (hstop : run.first < stop) :
    clip start stop run = run.ordinals.filter (inWindow start stop) := by
  have hsorted : ∀ run : OrdinalRun, run.ordinals.Pairwise (· < ·) := fun _ => pairwise_lt_range' 1
  apply Pairwise.eq_of_mem_iff (hsorted _) ((hsorted run).filter _)
  intro ordinal
  rw [mem_filter, OrdinalRun.mem_ordinals, OrdinalRun.mem_ordinals, inWindow_eq_true_iff]
  dsimp only
  omega

/-- The ordinals of a posting list increase. -/
theorem pairwise_ordinals (h : postings.WellFormed) : postings.ordinals.Pairwise (· < ·) := by
  rw [ordinals, pairwise_flatMap]
  refine ⟨fun run _ => pairwise_lt_range' 1, h.ordered.imp ?_⟩
  intro left right hlt first hfirst second hsecond
  rw [OrdinalRun.mem_ordinals] at hfirst hsecond
  omega

/-! ## Collecting -/

theorem take_take_append (left right : List Nat) (count : Nat) :
    (left.take count ++ right).take count = (left ++ right).take count := by
  rw [take_append, take_append, take_take, min_self, length_take]
  congr 2
  omega

/-- The walk over runs collects what the runs hold of the window, up to the
limit. -/
theorem collectRuns_eq {skip done : OrdinalRun → Bool} {piece window : OrdinalRun → List Nat}
    {take : Nat} {runs : List OrdinalRun} (hskip : ∀ run ∈ runs, skip run = true → window run = [])
    (hdone : ∀ run ∈ runs, done run = true → window run = [])
    (hpiece : ∀ run ∈ runs, skip run = false → done run = false → piece run = window run)
    (hstays : runs.Pairwise fun run later => done run = true → done later = true)
    {ordinals : List Nat} (hlength : ordinals.length ≤ take) :
    collectRuns skip done piece take runs ordinals =
      (ordinals ++ runs.flatMap window).take take := by
  induction runs generalizing ordinals with
  | nil => simp [collectRuns, take_of_length_le hlength]
  | cons run rest ih =>
    obtain ⟨hlater, hrest⟩ := pairwise_cons.mp hstays
    have hnext := @ih (fun other hother => hskip other (mem_cons_of_mem _ hother))
      (fun other hother => hdone other (mem_cons_of_mem _ hother))
      (fun other hother => hpiece other (mem_cons_of_mem _ hother)) hrest
    rw [collectRuns, flatMap_cons]
    by_cases hskipped : skip run = true
    · grind
    · rw [if_neg hskipped]
      by_cases hfull : ordinals.length = take
      · grind
      · by_cases hstop : done run = true
        · -- every later run is behind the window as well
          have hnone : ∀ other ∈ rest, window other = [] := fun other hother =>
            hdone other (mem_cons_of_mem _ hother) (hlater other hother hstop)
          rw [if_pos (by simp [hstop]), hdone run mem_cons_self hstop, flatMap_eq_nil_iff.mpr hnone]
          simp [take_of_length_le hlength]
        · rw [if_neg (by simp [hstop, hfull]), hpiece run mem_cons_self
            (by simpa using hskipped) (by simpa using hstop), hnext (by simp; omega)]
          have htaken : ordinals ++ (window run).take (take - ordinals.length) =
              (ordinals ++ window run).take take := by
            rw [take_append, take_of_length_le hlength]
          rw [htaken, ← append_assoc]
          exact take_take_append _ _ _

theorem flatMap_reverse_filter (runs : List OrdinalRun) (accept : Nat → Bool) :
    runs.reverse.flatMap (fun run => (run.ordinals.filter accept).reverse) =
      ((runs.flatMap OrdinalRun.ordinals).filter accept).reverse := by
  rw [filter_flatMap, reverse_flatMap]
  rfl

/-- Collecting inside a window gives its ordinals in the order of the query, up to
the limit. -/
theorem collectIn_eq (h : postings.WellFormed) (order : QueryOrder) (limit : Option Nat)
    (hlength : (postings.ordinals.filter (inWindow start stop)).length < 2 ^ 64) :
    postings.collectIn start stop order limit = truncateTo limit
        (match order with
          | .oldestFirst => postings.ordinals.filter (inWindow start stop)
          | .newestFirst => (postings.ordinals.filter (inWindow start stop)).reverse) := by
  have hnone : ∀ run : OrdinalRun, run.last < start ∨ stop ≤ run.first →
      run.ordinals.filter (inWindow start stop) = [] := by
    intro run hout
    rw [filter_eq_nil_iff]
    intro ordinal hordinal
    rw [OrdinalRun.mem_ordinals] at hordinal
    rw [inWindow_eq_true_iff]
    omega
  have htake : ∀ items : List Nat, items.length < 2 ^ 64 →
      items.take (limit.getD (2 ^ 64 - 1)) = truncateTo limit items := by
    intro items hitems
    cases limit with
    | none => exact take_of_length_le (by simp only [Option.getD_none]; omega)
    | some count => rfl
  cases order with
  | oldestFirst =>
    rw [← htake _ hlength, ordinals, filter_flatMap]
    refine collectRuns_eq ?_ ?_ ?_ ?_ (Nat.zero_le _)
    · grind
    · grind
    · grind [clip_eq_filter]
    · refine (Pairwise.and_mem.mp h.ordered).imp ?_
      rintro left right ⟨hleft, _, hlt⟩ hdone
      have hfirst := h.nonempty left hleft
      exact decide_eq_true (by have := of_decide_eq_true hdone; omega)
  | newestFirst =>
    rw [← htake _ (by rwa [length_reverse]), ordinals, ← flatMap_reverse_filter]
    refine collectRuns_eq ?_ ?_ ?_ ?_ (Nat.zero_le _)
    · grind
    · grind
    · grind [clip_eq_filter]
    · refine pairwise_reverse.mpr ((Pairwise.and_mem.mp h.ordered).imp ?_)
      rintro left right ⟨hleft, hright, hlt⟩ hdone
      have hsecond := h.nonempty right hright
      exact decide_eq_true (by have := of_decide_eq_true hdone; omega)

end HotPostingList

/-! ## Intersection -/

/-- Some run contains the ordinal. -/
def containedIn (runs : List OrdinalRun) (ordinal : Nat) : Bool :=
  runs.any fun run => decide (run.first ≤ ordinal ∧ ordinal ≤ run.last)

/-- Some run contains the ordinal. -/
theorem containedIn_eq_true_iff :
    containedIn postings.runs ordinal = true ↔ ordinal ∈ postings.ordinals := by
  simp [containedIn, HotPostingList.mem_ordinals]

/-- Ordinals before the first of ordered runs are in none of them. -/
theorem not_containedIn_of_lt
    (hruns : (run :: runs).Pairwise fun left right => left.last < right.first)
    (hnonempty : run.first ≤ run.last) (hlt : ordinal < run.first) :
    containedIn (run :: runs) ordinal = false := by
  simp only [containedIn, any_eq_false, decide_eq_true_eq]
  intro other hother
  rcases mem_cons.mp hother with rfl | hlater
  · omega
  · have hafter := (pairwise_cons.mp hruns).1 other hlater
    omega

/-- The merge keeps the candidates that some run contains. -/
theorem intersectRunsFrom_eq (hcandidates : candidates.Pairwise (· < ·))
    (hstop : ∀ candidate ∈ candidates, candidate < stop)
    (hruns : runs.Pairwise fun left right => left.last < right.first)
    (hnonempty : ∀ run ∈ runs, run.first ≤ run.last) :
    intersectRunsFrom stop candidates runs = candidates.filter (containedIn runs) := by
  fun_induction intersectRunsFrom stop candidates runs with
  | case1 => simp
  | case2 candidate candidates => simp [containedIn]
  | case3 candidate candidates run runs hend =>
    -- the remaining runs start behind the window
    have hrun : stop ≤ run.first := hend.resolve_left (not_le.mpr (hstop candidate mem_cons_self))
    symm
    rw [filter_eq_nil_iff]
    intro other hother
    have hbefore : other < run.first := (hstop other hother).trans_le hrun
    simp [not_containedIn_of_lt hruns (hnonempty run mem_cons_self) hbefore]
  | case4 candidate candidates run runs hinside hbefore ih => grind [not_containedIn_of_lt]
  | case5 candidate candidates run runs hinside hbefore hafter ih =>
    rw [ih hcandidates hstop (pairwise_cons.mp hruns).2
      (fun other hother => hnonempty other (mem_cons_of_mem _ hother))]
    apply filter_congr
    intro other hother
    -- no remaining candidate lies in the run that is left behind
    have hlater := rel_of_pairwise_cons (hcandidates.cons_cons_of_trans hafter) hother
    simp [containedIn, hlater]
  | case6 candidate candidates run runs hinside hbefore hafter ih =>
    rw [ih (pairwise_cons.mp hcandidates).2
      (fun other hother => hstop other (mem_cons_of_mem _ hother)) hruns hnonempty]
    have hin : containedIn (run :: runs) candidate = true := by
      simp [containedIn, not_lt.mp hbefore, not_lt.mp hafter]
    rw [filter_cons_of_pos hin]

/-- Intersecting ordered candidates of a window with a posting list keeps the
candidates that the list holds. -/
theorem intersectOrdinalRuns_eq (h : postings.WellFormed) {start : Nat}
    (hcandidates : candidates.Pairwise (· < ·))
    (hwindow : ∀ candidate ∈ candidates, start ≤ candidate ∧ candidate < stop) :
    intersectOrdinalRuns candidates postings.runs start stop =
      candidates.filter (containedIn postings.runs) := by
  have hsuffix := dropWhile_suffix (l := postings.runs) fun run => decide (run.last < start)
  rw [intersectOrdinalRuns, intersectRunsFrom_eq hcandidates
    (fun candidate hcandidate => (hwindow candidate hcandidate).2)
    (h.ordered.sublist hsuffix.sublist)
    (fun run hrun => h.nonempty run (hsuffix.subset hrun))]
  apply filter_congr
  intro candidate hcandidate
  have hstart := (hwindow candidate hcandidate).1
  -- the runs that were dropped end before the window
  conv_rhs => rw [← takeWhile_append_dropWhile (p := fun run : OrdinalRun =>
    decide (run.last < start)) (l := postings.runs)]
  simp only [containedIn, any_append]
  have hdropped : (postings.runs.takeWhile fun run => decide (run.last < start)).any
      (fun run => decide (run.first ≤ candidate ∧ candidate ≤ run.last)) = false := by
    rw [any_eq_false]
    intro run hrun
    have hlast := mem_takeWhile_imp hrun
    rw [decide_eq_true_eq] at hlast
    simp only [decide_eq_true_eq]
    omega
  rw [hdropped, Bool.false_or]

/-! ## Windows of built lists -/

namespace HotPostingList

/-- Lists that appending in ordinal order leads to; `push` appends a range of one. -/
inductive Built : HotPostingList → Prop
  | new : Built {}
  | pushed {postings : HotPostingList} {first finalOrdinal : Nat} (h : Built postings)
      (hrange : first ≤ finalOrdinal) (hbound : finalOrdinal < 2 ^ 32)
      (hbeyond : ∀ ordinal ∈ postings.ordinals, ordinal < first) :
      Built (postings.pushRange first finalOrdinal)

/-- Built lists are well formed. -/
theorem Built.spec (h : postings.Built) :
    postings.WellFormed ∧ ∀ ordinal ∈ postings.ordinals, ordinal < 2 ^ 32 := by
  induction h with
  | new => exact ⟨wellFormed_empty, by simp [ordinals]⟩
  | pushed _ hrange hbound hbeyond ih =>
    obtain ⟨hwell, hordinals⟩ := ordinals_pushRange ih.1 hrange hbeyond
    refine ⟨hwell, fun ordinal hordinal => ?_⟩
    rw [hordinals] at hordinal
    rcases mem_append.mp hordinal with hold | hnew
    · exact ih.2 ordinal hold
    · rw [mem_range'_1] at hnew
      omega

/-- The three window operations treat the list as the set of its ordinals. -/
structure ExactIn (postings : HotPostingList) (start stop : Nat) : Prop where
  empty : postings.isEmptyIn start stop = true ↔
    ∀ ordinal ∈ postings.ordinals, ¬(start ≤ ordinal ∧ ordinal < stop)
  collected : ∀ order limit, postings.collectIn start stop order limit =
    truncateTo limit (match order with
      | .oldestFirst => postings.ordinals.filter (inWindow start stop)
      | .newestFirst => (postings.ordinals.filter (inWindow start stop)).reverse)
  kept : ∀ candidates : List Nat, candidates.Pairwise (· < ·) →
    (∀ candidate ∈ candidates, start ≤ candidate ∧ candidate < stop) →
    intersectOrdinalRuns candidates postings.runs start stop =
      candidates.filter fun candidate => decide (candidate ∈ postings.ordinals)

/-- Only an empty window inside a run is not reported as empty. -/
theorem exactIn_iff (h : postings.Built) (start stop : Nat) : postings.ExactIn start stop ↔
    start < stop ∨ ∀ run ∈ postings.runs, ¬(start ≤ run.last ∧ run.first < stop) := by
  obtain ⟨hwell, hbound⟩ := h.spec
  have hlength : (postings.ordinals.filter (inWindow start stop)).length < 2 ^ 64 := by
    have hsubset : postings.ordinals ⊆ List.range (2 ^ 32) := fun ordinal hordinal =>
      List.mem_range.mpr (hbound ordinal hordinal)
    have hnodup : postings.ordinals.Nodup := (pairwise_ordinals hwell).imp Nat.ne_of_lt
    have hle := (List.subperm_of_subset hnodup hsubset).length_le
    have hfilter := List.length_filter_le (inWindow start stop) postings.ordinals
    rw [List.length_range] at hle
    omega
  constructor
  · intro hexact
    by_cases hwindow : start < stop
    · exact .inl hwindow
    · exact .inr ((isEmptyIn_iff hwell).mp (hexact.empty.mpr fun ordinal _ => by omega))
  · intro hwindow
    refine ⟨?_, fun order limit => collectIn_eq hwell order limit hlength, ?_⟩
    · rw [isEmptyIn_iff hwell]
      constructor
      · intro hnone ordinal hordinal hin
        obtain ⟨run, hrun, hlow, hhigh⟩ := mem_ordinals.mp hordinal
        exact hnone run hrun (by omega)
      · rintro hnone run hrun hmeets
        have hfirst := hwell.nonempty run hrun
        rcases hwindow with hlt | hout
        · exact hnone (max start run.first) (mem_ordinals.mpr ⟨run, hrun, by omega⟩) (by omega)
        · exact hout run hrun hmeets
    · intro candidates hcandidates hin
      rw [intersectOrdinalRuns_eq hwell hcandidates hin]
      apply List.filter_congr
      intro candidate _
      rw [Bool.eq_iff_iff, containedIn_eq_true_iff, decide_eq_true_eq]

/-- A window that begins inside a run. -/
theorem short_exactIn : (pushRange {} 3 7).ExactIn 5 9 := by
  have hbuilt : (pushRange {} 3 7).Built := .pushed .new (by decide) (by decide) (by decide)
  exact (exactIn_iff hbuilt 5 9).mpr (.inl (by decide))

/-- The empty window at 5 lies inside the run from 3 to 7. -/
theorem empty_window_inside_run :
    (pushRange {} 3 7).isEmptyIn 5 5 = false ∧
      ∀ ordinal ∈ (pushRange {} 3 7).ordinals, ¬(5 ≤ ordinal ∧ ordinal < 5) := by
  decide

end HotPostingList

end ShardLog.Stripe
