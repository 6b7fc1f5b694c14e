import Mathlib.Algebra.GroupWithZero.Nat
import Mathlib.Data.List.Basic

/-!
# Foundation - Maximal runs

Scanners that walk a text once and report the index ranges of its maximal runs
of accepted symbols.  A symbol may be encoded by several units, so an index
counts units and the reported ranges slice the encoded text.
-/

namespace Runs

open List

variable {α β γ : Type} {start stop : Nat} {accepts : α → Bool} {index : Nat}

/-! ## Slices -/

/-- A half-open index range. -/
structure IndexRange where
  start : Nat
  stop : Nat
deriving DecidableEq, Repr

/-- The units of a text inside a range. -/
def slice (units : List β) (range : IndexRange) : List β :=
  (units.drop range.start).take (range.stop - range.start)

/-- A slice at a known split of the text. -/
theorem slice_append (before inside after : List β) :
    slice (before ++ inside ++ after) ⟨before.length, before.length + inside.length⟩ = inside := by
  simp [slice]

/-- A slice continues what stands before it. -/
theorem take_append_slice (units : List β) (h : start ≤ stop) :
    units.take start ++ slice units ⟨start, stop⟩ = units.take stop := by
  have hstop : stop = start + (stop - start) := by omega
  rw [slice]
  conv_rhs => rw [hstop, take_add]

/-- A run of whole blobs, sliced from the concatenation at the blobs' positions. -/
theorem slice_flatten (blobs : List (List β)) (h : start ≤ stop) :
    slice blobs.flatten ⟨(blobs.take start).flatten.length, (blobs.take stop).flatten.length⟩ =
      (slice blobs ⟨start, stop⟩).flatten := by
  have hsplit : blobs.flatten = (blobs.take start).flatten ++ (slice blobs ⟨start, stop⟩).flatten ++
      (blobs.drop stop).flatten := by
    rw [← flatten_append, take_append_slice blobs h, ← flatten_append, take_append_drop]
  have hstop : (blobs.take stop).flatten.length =
      (blobs.take start).flatten.length + (slice blobs ⟨start, stop⟩).flatten.length := by
    rw [← length_append, ← flatten_append, take_append_slice blobs h]
  rw [hstop, hsplit]
  exact slice_append _ _ _

/-! ## The abstract runs -/

/-- Maximal runs of accepted symbols, `current` being the run in progress. -/
def runsFrom (accepts : α → Bool) : List α → List α → List (List α)
  | current, [] => if current.isEmpty then [] else [current]
  | current, symbol :: rest =>
    if accepts symbol then runsFrom accepts (current ++ [symbol]) rest
    else (if current.isEmpty then [] else [current]) ++ runsFrom accepts [] rest

/-- The maximal nonempty runs of accepted symbols, in order. -/
def runs (accepts : α → Bool) (symbols : List α) : List (List α) := runsFrom accepts [] symbols

/-- Runs of mapped symbols. -/
theorem runsFrom_map (f : α → γ) (accepts : γ → Bool) :
    ∀ current symbols, runsFrom accepts (current.map f) (symbols.map f) =
      (runsFrom (accepts ∘ f) current symbols).map (List.map f)
  | current, [] => by
      by_cases hcurrent : current = [] <;> simp [runsFrom, hcurrent]
  | current, symbol :: rest => by
      have hextend := runsFrom_map f accepts (current ++ [symbol]) rest
      have hrestart := runsFrom_map f accepts [] rest
      simp only [map_append, map_cons, map_nil] at hextend hrestart
      simp only [map_cons, runsFrom, Function.comp_apply]
      split
      · exact hextend
      · rw [hrestart, map_append]
        by_cases hcurrent : current = [] <;> simp [hcurrent]

/-- Runs commute with a re-labelling of the symbols. -/
theorem runs_map (f : α → γ) (accepts : γ → Bool) (symbols : List α) :
    runs accepts (symbols.map f) = (runs (accepts ∘ f) symbols).map (List.map f) :=
  runsFrom_map f accepts [] symbols

theorem runsFrom_congr {other : α → Bool} {symbols : List α}
    (h : ∀ symbol ∈ symbols, accepts symbol = other symbol) (current : List α) :
    runsFrom accepts current symbols = runsFrom other current symbols := by
  induction symbols generalizing current with
  | nil => rfl
  | cons symbol rest ih =>
    rw [forall_mem_cons] at h
    simp only [runsFrom, h.1, ih h.2]

/-- A run is nonempty and consists of symbols of the text. -/
theorem mem_runsFrom :
    ∀ {current symbols run : List α}, run ∈ runsFrom accepts current symbols →
      run ≠ [] ∧ ∀ symbol ∈ run, symbol ∈ current ∨ symbol ∈ symbols
  | current, [], run, h => by
      cases current with
      | nil => simp [runsFrom] at h
      | cons first more =>
        obtain rfl : run = first :: more := by simpa [runsFrom] using h
        exact ⟨by simp, fun symbol hsymbol => .inl hsymbol⟩
  | current, next :: rest, run, h => by
      simp only [runsFrom] at h
      split at h
      · rcases mem_runsFrom h with ⟨hne, hmem⟩
        refine ⟨hne, fun symbol hsymbol => ?_⟩
        have hcase := hmem symbol hsymbol
        simp only [mem_append, mem_cons, not_mem_nil, or_false] at hcase ⊢
        tauto
      · rcases mem_append.mp h with hclosed | hlater
        · grind
        · rcases mem_runsFrom hlater with ⟨hne, hmem⟩
          refine ⟨hne, fun symbol hsymbol => ?_⟩
          have hcase := hmem symbol hsymbol
          simp only [not_mem_nil, false_or] at hcase
          exact .inr (mem_cons_of_mem _ hcase)

/-! ## The scanner -/

/-- State of a scan: where the run in progress started, and the ranges already
reported. -/
structure RunScan where
  start : Option Nat
  ranges : List IndexRange
deriving DecidableEq, Repr

/-- The state before the first symbol. -/
def RunScan.empty : RunScan := ⟨none, []⟩

/-- Observe one symbol at a unit index. -/
def RunScan.step (scan : RunScan) (index : Nat) (inside : Bool) : RunScan :=
  match scan.start, inside with
  | none, true => { scan with start := some index }
  | some start, false => { start := none, ranges := scan.ranges ++ [⟨start, index⟩] }
  | _, _ => scan

/-- Report the run in progress at the end of the text. -/
def RunScan.finish (scan : RunScan) (length : Nat) : List IndexRange :=
  match scan.start with
  | some start => scan.ranges ++ [⟨start, length⟩]
  | none => scan.ranges

/-- Observe a sequence of symbols, starting at a unit index. -/
def scanFrom (accepts : α → Bool) (width : α → Nat) : Nat → RunScan → List α → RunScan
  | _, scan, [] => scan
  | index, scan, symbol :: rest =>
    scanFrom accepts width (index + width symbol) (scan.step index (accepts symbol)) rest

/-- A scan goes on where it stopped. -/
theorem scanFrom_append (accepts : α → Bool) (width : α → Nat) (first second : List α)
    (index : Nat) (scan : RunScan) :
    scanFrom accepts width index scan (first ++ second) =
      scanFrom accepts width (index + (first.map width).sum)
        (scanFrom accepts width index scan first) second := by
  induction first generalizing index scan with
  | nil => simp [scanFrom]
  | cons symbol rest ih => simp only [cons_append, scanFrom, ih, map_cons, sum_cons, Nat.add_assoc]

/-- Ranges of the maximal runs of a text of encoded length `length`. -/
def scanRuns (accepts : α → Bool) (width : α → Nat) (length : Nat) (symbols : List α) :
    List IndexRange :=
  (scanFrom accepts width 0 RunScan.empty symbols).finish length

/-- The scan has seen `before ++ current`, reported `finished`, and holds
`current` as the run in progress. -/
structure Tracks (encode : α → List β) (whole : List β) (before current : List α)
    (finished : List (List α)) (scan : RunScan) : Prop where
  start : scan.start = if current.isEmpty then none else some (before.flatMap encode).length
  ranges : scan.ranges.map (slice whole) = finished.map (·.flatMap encode)

/-- The range from the start of the run in progress slices that run. -/
theorem slice_current (encode : α → List β) (before current rest : List α)
    (hindex : index = ((before ++ current).flatMap encode).length) :
    slice ((before ++ current ++ rest).flatMap encode)
      ⟨(before.flatMap encode).length, index⟩ = current.flatMap encode := by
  subst hindex
  simp only [flatMap_append, length_append]
  exact slice_append _ _ _

/-- One observed symbol extends the run in progress or closes it. -/
theorem Tracks.step {encode : α → List β} (accepts : α → Bool) {before current : List α}
    {symbol : α} {rest : List α} {finished : List (List α)} {scan : RunScan}
    (h : Tracks encode ((before ++ current ++ symbol :: rest).flatMap encode) before current
      finished scan) (hindex : index = ((before ++ current).flatMap encode).length) :
    (accepts symbol = true →
      Tracks encode ((before ++ current ++ symbol :: rest).flatMap encode) before
        (current ++ [symbol]) finished (scan.step index (accepts symbol))) ∧
    (accepts symbol = false → Tracks encode ((before ++ current ++ symbol :: rest).flatMap encode)
        (before ++ current ++ [symbol]) []
        (finished ++ if current.isEmpty then [] else [current])
        (scan.step index (accepts symbol))) := by
  rcases h with ⟨hstart, hranges⟩
  constructor
  · intro haccept
    rw [haccept]
    cases current with
    | nil =>
      refine ⟨?_, ?_⟩
      · simp [RunScan.step, hstart, hindex]
      · simpa [RunScan.step, hstart] using hranges
    | cons first more =>
      refine ⟨?_, ?_⟩
      · simp [RunScan.step, hstart]
      · simpa [RunScan.step, hstart] using hranges
  · intro hreject
    rw [hreject]
    cases current with
    | nil =>
      refine ⟨?_, ?_⟩
      · simp [RunScan.step, hstart]
      · simpa [RunScan.step, hstart] using hranges
    | cons first more =>
      have hslice := slice_current encode before (first :: more) (symbol :: rest) hindex
      simp only [isEmpty_cons, Bool.false_eq_true, if_false] at hstart ⊢
      refine ⟨?_, ?_⟩
      · simp [RunScan.step, hstart]
      · simp only [RunScan.step, hstart, map_append, hranges, map_cons, map_nil, hslice]

/-- The whole scan, by induction on the symbols still to be observed. -/
theorem slices_scanFrom (encode : α → List β) (accepts : α → Bool) :
    ∀ (rest before current : List α) (finished : List (List α)) (scan : RunScan) (index : Nat),
      Tracks encode ((before ++ current ++ rest).flatMap encode) before current finished scan →
      index = ((before ++ current).flatMap encode).length →
      ((scanFrom accepts (fun symbol => (encode symbol).length) index scan rest).finish
          ((before ++ current ++ rest).flatMap encode).length).map
          (slice ((before ++ current ++ rest).flatMap encode)) =
        (finished ++ runsFrom accepts current rest).map (·.flatMap encode)
  | [], before, current, finished, scan, index, htracks, hindex => by
      rcases htracks with ⟨hstart, hranges⟩
      simp only [scanFrom, runsFrom]
      cases current with
      | nil => simpa [RunScan.finish, hstart] using hranges
      | cons first more =>
        have hslice := slice_current encode before (first :: more) [] rfl
        simp only [isEmpty_cons, Bool.false_eq_true, if_false, append_nil] at hstart ⊢
        simp only [append_nil] at hslice hranges
        simp only [RunScan.finish, hstart, map_append, hranges, map_cons, map_nil, hslice]
  | symbol :: rest, before, current, finished, scan, index, htracks, hindex => by
      rcases htracks.step accepts hindex with ⟨hextend, hclose⟩
      simp only [scanFrom, runsFrom]
      have hnext : index + (encode symbol).length =
          ((before ++ (current ++ [symbol])).flatMap encode).length := by
        rw [hindex]
        simp [Nat.add_assoc]
      cases haccept : accepts symbol with
      | true =>
        have hrest := slices_scanFrom encode accepts rest before (current ++ [symbol]) finished
          (scan.step index true) _ (by simpa [haccept] using hextend haccept) hnext
        simpa using hrest
      | false =>
        have hrest := slices_scanFrom encode accepts rest (before ++ current ++ [symbol]) []
          _ (scan.step index false) _ (by simpa [haccept] using hclose haccept)
          (by simpa using hnext)
        simpa using hrest

/-- The reported ranges slice exactly the maximal runs, in order. -/
theorem slices_scanRuns (encode : α → List β) (accepts : α → Bool) (symbols : List α) :
    (scanRuns accepts (fun symbol => (encode symbol).length)
        (symbols.flatMap encode).length symbols).map (slice (symbols.flatMap encode)) =
      (runs accepts symbols).map (·.flatMap encode) := by
  have hinit : Tracks encode (([] ++ [] ++ symbols).flatMap encode) ([] : List α) [] []
      RunScan.empty := ⟨rfl, rfl⟩
  simpa [scanRuns, runs] using
    slices_scanFrom encode accepts symbols [] [] [] RunScan.empty 0 hinit rfl

end Runs
