import Mathlib.Data.List.TakeWhile
import Mathlib.Data.List.Flatten
import ShardLog.Foundation.Merge
import ShardLog.Foundation.Sorted
import ShardLog.Types

/-!
# Persistent index - Posting lists

The record ordinals under one key of one block, kept as a plain list or as runs
of consecutive ordinals, and the intersections a query takes of them.
-/

namespace ShardLog.Persistent

open Sorted Merge List

/-! ## Representation -/

/-- Consecutive record ordinals. -/
structure OrdinalRun where
  start : Nat
  length : Nat
deriving DecidableEq, Repr

/-- The range `start..start + length`. -/
def OrdinalRun.ordinals (run : OrdinalRun) : List Nat := List.range' run.start run.length

/-- Record ordinals under one key of a block. -/
inductive PostingList where
  | ordinals (ordinals : List Nat)
  | runs (runs : List OrdinalRun) (cardinality : Nat)
deriving DecidableEq, Repr

/-- `u32::saturating_add`. -/
def saturatingAddU32 (left right : Nat) : Nat := min (left + right) (2 ^ 32 - 1)

/-- Extend the last run by an ordinal, or start a new one. -/
def pushRun (runs : List OrdinalRun) (ordinal : Nat) : List OrdinalRun :=
  match runs.getLast? with
  | some run =>
    if saturatingAddU32 run.start run.length = ordinal then
      runs.dropLast ++ [{ run with length := saturatingAddU32 run.length 1 }]
    else runs ++ [⟨ordinal, 1⟩]
  | none => runs ++ [⟨ordinal, 1⟩]

def postingRuns (posting : List Nat) : List OrdinalRun := posting.foldl pushRun []

/-- `windows(2).any(|pair| pair[0] >= pair[1])`, negated. -/
def isOrdered : List Nat → Bool
  | first :: second :: rest => decide (first < second) && isOrdered (second :: rest)
  | _ => true

namespace PostingList

def fromOrdinals (ordinals : List Nat) : LogDbResult PostingList := do
  ensure (ordinals ≠ []) (.invalidBlockEncoding "empty query posting")
  ensure (isOrdered ordinals = true) (.invalidBlockEncoding "query posting is not ordered")
  let runs := postingRuns ordinals
  if 2 * runs.length < ordinals.length then .ok (.runs runs ordinals.length)
  else .ok (.ordinals ordinals)

/-- The stored number of ordinals. -/
def cardinality : PostingList → Nat
  | .ordinals listed => listed.length
  | .runs _ cardinality => cardinality

def toVec : PostingList → List Nat
  | .ordinals listed => listed
  | .runs table _ => table.flatMap OrdinalRun.ordinals

end PostingList

/-- The end at which a reader starts. -/
def orient {α : Type} (newestFirst : Bool) (items : List α) : List α :=
  if newestFirst then items.reverse else items

namespace PostingList

/-- The ordinals in reading order; a run is read from the same end as the list. -/
def visited (newestFirst : Bool) : PostingList → List Nat
  | .ordinals listed => orient newestFirst listed
  | .runs table _ => (orient newestFirst table).flatMap fun run => orient newestFirst run.ordinals

def takeOrdered (posting : PostingList) (newestFirst : Bool) (limit : Nat) : List Nat :=
  match posting with
  | .ordinals listed =>
    let take := min limit listed.length
    if newestFirst then (listed.drop (listed.length - take)).reverse else listed.take take
  | .runs _ _ => collectLimited (fun _ => true) limit (posting.visited newestFirst) []

/-- Membership by search: the last run that starts at or before the ordinal. -/
def contains (posting : PostingList) (ordinal : Nat) : Bool :=
  match posting with
  | .ordinals listed => (findBy id listed ordinal).isSome
  | .runs table _ =>
    match (table.takeWhile fun run => decide (run.start ≤ ordinal)).getLast? with
    | some run => decide (ordinal < saturatingAddU32 run.start run.length)
    | none => false

end PostingList

/-! ## Intersections -/

/-- Search forward when the other list is much longer, merge otherwise. -/
def intersectU32 (candidates postings : List Nat) : List Nat :=
  if 8 * candidates.length < postings.length then gallopIntersect id candidates postings
  else mergeIntersect id candidates postings

def intersectRuns : List Nat → List OrdinalRun → List Nat
  | [], _ => []
  | _ :: _, [] => []
  | candidate :: candidates, run :: runs =>
    if candidate < run.start then intersectRuns candidates (run :: runs)
    else if run.start + run.length ≤ candidate then intersectRuns (candidate :: candidates) runs
    else candidate :: intersectRuns candidates (run :: runs)
termination_by candidates runs => candidates.length + runs.length

def intersectPosting (candidates : List Nat) : PostingList → List Nat
  | .ordinals listed => intersectU32 candidates listed
  | .runs table _ => intersectRuns candidates table

/-- Walk the first list and keep what all others contain, up to a limit. -/
def intersectPostingsLimited (first : PostingList) (others : List PostingList)
    (newestFirst : Bool) (limit : Nat) : List Nat :=
  collectLimited (fun ordinal => others.all fun posting => posting.contains ordinal) limit
    (first.visited newestFirst) []

/-! ## Well-formed lists -/

/-- Nonempty runs in order that end below the largest ordinal type value. -/
structure SeparateRuns (runs : List OrdinalRun) : Prop where
  positive : ∀ run ∈ runs, 0 < run.length
  ordered : runs.Pairwise fun left right => left.start + left.length ≤ right.start
  bounded : ∀ run ∈ runs, run.start + run.length < 2 ^ 32

variable {run : OrdinalRun} {ordinal : Nat} {runs : List OrdinalRun} {ordinals : List Nat}
  {α : Type} {β : Type} {candidates : List Nat} {posting : PostingList}

/-- The ordinals of a run. -/
theorem OrdinalRun.mem_ordinals :
    ordinal ∈ run.ordinals ↔ run.start ≤ ordinal ∧ ordinal < run.start + run.length :=
  mem_range'_1

/-- Separate runs list increasing ordinals. -/
theorem SeparateRuns.pairwise (h : SeparateRuns runs) :
    (runs.flatMap OrdinalRun.ordinals).Pairwise (· < ·) := by
  rw [pairwise_flatMap]
  refine ⟨fun run _ => pairwise_lt_range', h.ordered.imp ?_⟩
  intro left right hle first hfirst second hsecond
  rw [OrdinalRun.mem_ordinals] at hfirst hsecond
  omega

theorem SeparateRuns.sublist {kept : List OrdinalRun} (h : SeparateRuns runs)
    (hsub : kept.Sublist runs) : SeparateRuns kept :=
  ⟨fun run hrun => h.positive run (hsub.subset hrun), h.ordered.sublist hsub,
    fun run hrun => h.bounded run (hsub.subset hrun)⟩

/-- One more run, after all others. -/
theorem SeparateRuns.concat (h : SeparateRuns runs)
    (hends : ∀ other ∈ runs, other.start + other.length ≤ run.start) (hpositive : 0 < run.length)
    (hbound : run.start + run.length < 2 ^ 32) : SeparateRuns (runs ++ [run]) := by
  refine ⟨?_, ?_, ?_⟩
  · exact forall_mem_append.mpr ⟨h.positive, by simpa using hpositive⟩
  · exact pairwise_append.mpr ⟨h.ordered, pairwise_singleton _ _, by simpa using hends⟩
  · exact forall_mem_append.mpr ⟨h.bounded, by simpa using hbound⟩

/-- An ordinal before the first run lies in no run. -/
theorem SeparateRuns.not_mem_of_lt (h : SeparateRuns (run :: runs)) (hlt : ordinal < run.start) :
    ordinal ∉ (run :: runs).flatMap OrdinalRun.ordinals := by
  rw [mem_flatMap]
  rintro ⟨other, hother, hin⟩
  rw [OrdinalRun.mem_ordinals] at hin
  rcases mem_cons.mp hother with rfl | hlater
  · omega
  · have hle := (pairwise_cons.mp h.ordered).1 other hlater
    omega

/-- What the builder of a posting list establishes. -/
inductive PostingList.WellFormed : PostingList → Prop where
  | ordinals {ordinals : List Nat} (sorted : ordinals.Pairwise (· < ·)) :
      WellFormed (.ordinals ordinals)
  | runs {runs : List OrdinalRun} (separate : SeparateRuns runs) :
      WellFormed (.runs runs (runs.flatMap OrdinalRun.ordinals).length)

namespace PostingList

/-- Ordinals increase. -/
theorem WellFormed.pairwise {posting : PostingList} (h : posting.WellFormed) :
    posting.toVec.Pairwise (· < ·) := by
  cases h with
  | ordinals sorted => exact sorted
  | runs separate => exact separate.pairwise

end PostingList

/-! ## Building runs -/

/-- Adding a larger ordinal adds it at the end. -/
theorem pushRun_spec (h : SeparateRuns runs)
    (hlarger : ∀ other ∈ runs.flatMap OrdinalRun.ordinals, other < ordinal)
    (hbound : ordinal < 2 ^ 32 - 1) :
    SeparateRuns (pushRun runs ordinal) ∧ (pushRun runs ordinal).flatMap OrdinalRun.ordinals =
        runs.flatMap OrdinalRun.ordinals ++ [ordinal] := by
  -- a run ends at or before the new ordinal
  have hends : ∀ run ∈ runs, run.start + run.length ≤ ordinal := by
    intro run hrun
    have hpositive := h.positive run hrun
    have hlast := hlarger (run.start + run.length - 1)
      (mem_flatMap.mpr ⟨run, hrun, OrdinalRun.mem_ordinals.mpr (by omega)⟩)
    omega
  have hfresh : SeparateRuns (runs ++ [(⟨ordinal, 1⟩ : OrdinalRun)]) ∧
      (runs ++ [(⟨ordinal, 1⟩ : OrdinalRun)]).flatMap OrdinalRun.ordinals =
        runs.flatMap OrdinalRun.ordinals ++ [ordinal] :=
    ⟨h.concat hends Nat.one_pos (by dsimp only; omega), by simp [OrdinalRun.ordinals]⟩
  unfold pushRun
  cases hlast : runs.getLast? with
  | none => exact hfresh
  | some run =>
    dsimp only
    by_cases hnext : saturatingAddU32 run.start run.length = ordinal
    · obtain ⟨before, rfl⟩ := getLast?_eq_some_iff.mp hlast
      -- no sum saturates below the largest ordinal
      have hstart : run.start + run.length = ordinal := by
        unfold saturatingAddU32 at hnext
        omega
      have hlength : saturatingAddU32 run.length 1 = run.length + 1 := by
        unfold saturatingAddU32
        omega
      rw [if_pos hnext, hlength, dropLast_concat]
      refine ⟨(h.sublist (sublist_append_left _ _)).concat (fun other hother => ?_)
        (Nat.succ_pos _) (by dsimp only; omega), ?_⟩
      · exact (pairwise_append.mp h.ordered).2.2 other hother run mem_cons_self
      · simp [OrdinalRun.ordinals, range'_1_concat, hstart]
    · rw [if_neg hnext]
      exact hfresh

/-- The runs of an ordered list hold its ordinals. -/
theorem postingRuns_spec {posting : List Nat} (hsorted : posting.Pairwise (· < ·))
    (hbound : ∀ ordinal ∈ posting, ordinal < 2 ^ 32 - 1) :
    SeparateRuns (postingRuns posting) ∧
      (postingRuns posting).flatMap OrdinalRun.ordinals = posting := by
  induction posting using reverseRecOn with
  | nil => exact ⟨⟨by simp [postingRuns], by simp [postingRuns], by simp [postingRuns]⟩, rfl⟩
  | append_singleton posting ordinal ih =>
    obtain ⟨hbefore, _, hlast⟩ := pairwise_append.mp hsorted
    obtain ⟨hseparate, hflat⟩ := ih hbefore fun other hother =>
      hbound other (mem_append_left _ hother)
    have hpush : postingRuns (posting ++ [ordinal]) = pushRun (postingRuns posting) ordinal := by
      rw [postingRuns, foldl_append]
      rfl
    have hspec := pushRun_spec hseparate
      (fun other hother => hlast other (hflat ▸ hother) ordinal mem_cons_self)
      (hbound ordinal (mem_append_right _ mem_cons_self))
    rw [hpush]
    exact ⟨hspec.1, by rw [hspec.2, hflat]⟩

theorem isOrdered_of_pairwise (h : ordinals.Pairwise (· < ·)) : isOrdered ordinals = true := by
  induction ordinals using isOrdered.induct with
  | case1 first second rest ih =>
    obtain ⟨hfirst, hrest⟩ := pairwise_cons.mp h
    rw [isOrdered, ih hrest, Bool.and_true, decide_eq_true_eq]
    exact hfirst second mem_cons_self
  | case2 ordinals hshort => rw [isOrdered.eq_def]; split <;> simp_all

/-- An ordered list of ordinals is stored without loss. -/
theorem PostingList.fromOrdinals_spec (hne : ordinals ≠ []) (hsorted : ordinals.Pairwise (· < ·))
    (hbound : ∀ ordinal ∈ ordinals, ordinal < 2 ^ 32 - 1) :
    ∃ posting, PostingList.fromOrdinals ordinals = .ok posting ∧ posting.WellFormed ∧
      posting.toVec = ordinals := by
  obtain ⟨hseparate, hflat⟩ := postingRuns_spec hsorted hbound
  unfold PostingList.fromOrdinals
  rw [ensure_of_true hne, ensure_of_true (isOrdered_of_pairwise hsorted)]
  by_cases hshort : 2 * (postingRuns ordinals).length < ordinals.length
  · have hwell := PostingList.WellFormed.runs hseparate
    rw [hflat] at hwell
    exact ⟨_, if_pos hshort, hwell, hflat⟩
  · exact ⟨_, if_neg hshort, .ordinals hsorted, rfl⟩

/-! ## Reading -/

@[simp] theorem orient_nil {α : Type} (newestFirst : Bool) :
    orient newestFirst ([] : List α) = [] := by
  cases newestFirst with
  | false => rfl
  | true => rfl

theorem length_orient (newestFirst : Bool) (items : List α) :
    (orient newestFirst items).length = items.length := by
  cases newestFirst with
  | false => rfl
  | true => exact length_reverse

/-- The direction keeps the items. -/
theorem mem_orient {newestFirst : Bool} {items : List α} {item : α} :
    item ∈ orient newestFirst items ↔ item ∈ items := by
  cases newestFirst with
  | false => rfl
  | true => exact mem_reverse

theorem map_orient (f : α → β) (newestFirst : Bool) (items : List α) :
    (orient newestFirst items).map f = orient newestFirst (items.map f) := by
  cases newestFirst with
  | false => rfl
  | true => exact map_reverse

theorem filter_orient (accept : α → Bool) (newestFirst : Bool) (items : List α) :
    (orient newestFirst items).filter accept = orient newestFirst (items.filter accept) := by
  cases newestFirst with
  | false => rfl
  | true => exact filter_reverse

/-- Pieces and their items, both from the end. -/
theorem flatMap_orient (f : α → List β) (newestFirst : Bool) (items : List α) :
    (orient newestFirst items).flatMap (fun item => orient newestFirst (f item)) =
      orient newestFirst (items.flatMap f) := by
  cases newestFirst with
  | false => rfl
  | true => exact reverse_flatMap.symm

theorem perm_orient (newestFirst : Bool) (items : List α) :
    (orient newestFirst items).Perm items := by
  cases newestFirst with
  | false => exact Perm.refl _
  | true => exact reverse_perm _

namespace PostingList

/-- Runs read from one end give the ordinals read from that end. -/
theorem visited_eq (posting : PostingList) (newestFirst : Bool) :
    posting.visited newestFirst = orient newestFirst posting.toVec := by
  cases posting with
  | ordinals => rfl
  | runs runs => exact flatMap_orient OrdinalRun.ordinals newestFirst runs

/-- The first ordinals from one end. -/
theorem takeOrdered_eq (posting : PostingList) (newestFirst : Bool) {limit : Nat}
    (hlimit : 0 < limit) :
    posting.takeOrdered newestFirst limit = (orient newestFirst posting.toVec).take limit := by
  cases posting with
  | ordinals ordinals =>
    cases newestFirst with
    | false => simp [takeOrdered, orient, toVec, take_eq_take_min]
    | true =>
      simp only [takeOrdered, orient, toVec, if_true, take_reverse]
      congr 2
      omega
  | runs runs cardinality =>
    rw [takeOrdered, collectLimited_eq _ (by simpa using hlimit), visited_eq]
    simp

/-- The search finds the ordinals. -/
theorem contains_eq {posting : PostingList} (h : posting.WellFormed) (ordinal : Nat) :
    posting.contains ordinal = decide (ordinal ∈ posting.toVec) := by
  cases h with
  | @ordinals ordinals sorted =>
    rw [contains, toVec, Bool.eq_iff_iff, Option.isSome_iff_exists, decide_eq_true_eq]
    constructor
    · rintro ⟨position, hposition⟩
      obtain ⟨item, hitem, rfl⟩ := findBy_eq_some hposition
      exact mem_of_getElem? hitem
    · intro hmem
      obtain ⟨position, hposition, _⟩ := @findBy_of_mem _ _ _ id _ _ sorted hmem
      exact ⟨position, hposition⟩
  | @runs runs separate =>
    rw [contains, toVec]
    induction runs with
    | nil => rfl
    | cons run rest ih =>
      have hrest := ih (separate.sublist (sublist_cons_self _ _))
      by_cases hstart : run.start ≤ ordinal
      · rw [takeWhile_cons_of_pos (by simpa using hstart), getLast?_cons]
        cases hlast : (rest.takeWhile fun run => decide (run.start ≤ ordinal)).getLast? with
        | none =>
          have hend := separate.bounded run mem_cons_self
          have hsum : saturatingAddU32 run.start run.length = run.start + run.length := by
            unfold saturatingAddU32
            omega
          rw [hlast] at hrest
          simp_all [OrdinalRun.mem_ordinals]
        | some last =>
          -- a later run starts at or before the ordinal, so this one has ended
          have hmem := mem_of_getLast? hlast
          have htaken := mem_takeWhile_imp hmem
          have hended := (pairwise_cons.mp separate.ordered).1 last
            ((takeWhile_sublist _).subset hmem)
          have hnot : ordinal ∉ run.ordinals := by
            rw [OrdinalRun.mem_ordinals]
            grind
          rw [hlast] at hrest
          simpa [hnot] using hrest
      · rw [takeWhile_cons_of_neg (by simpa using hstart)]
        exact (decide_eq_false (separate.not_mem_of_lt (Nat.lt_of_not_le hstart))).symm

end PostingList

/-! ## Intersections are filters -/

section

variable (hcandidates : candidates.Pairwise (· < ·))

include hcandidates

/-- Intersection with runs. -/
theorem intersectRuns_eq (hruns : SeparateRuns runs) :
    intersectRuns candidates runs = candidates.filter fun candidate =>
      decide (candidate ∈ runs.flatMap OrdinalRun.ordinals) := by
  fun_induction intersectRuns candidates runs with
  | case1 => rfl
  | case2 candidate candidates => simp
  | case3 candidate candidates run runs hlt ih =>
    rw [ih (pairwise_cons.mp hcandidates).2 hruns,
      filter_cons_of_neg (by simpa using hruns.not_mem_of_lt hlt)]
  | case4 candidate candidates run runs _ hpast ih =>
    -- the run lies before every candidate
    rw [ih hcandidates (hruns.sublist (sublist_cons_self _ _))]
    apply filter_congr
    intro other hother
    have hle : candidate ≤ other := by
      rcases mem_cons.mp hother with rfl | hlater
      · exact Nat.le_refl _
      · exact ((pairwise_cons.mp hcandidates).1 other hlater).le
    have hnot : other ∉ run.ordinals := by
      rw [OrdinalRun.mem_ordinals]
      omega
    simp [flatMap_cons, hnot]
  | case5 candidate candidates run runs hlt hpast ih => grind [OrdinalRun.mem_ordinals]

/-- Intersection with a list. -/
theorem intersectU32_eq {postings : List Nat} (hpostings : postings.Pairwise (· < ·)) :
    intersectU32 candidates postings =
      candidates.filter fun candidate => decide (candidate ∈ postings) := by
  unfold intersectU32
  split
  · grind [gallopIntersect_eq]
  · grind [mergeIntersect_eq]

/-- Every intersection keeps the candidates that the posting list holds. -/
theorem intersectPosting_eq (h : posting.WellFormed) :
    intersectPosting candidates posting =
      candidates.filter fun candidate => decide (candidate ∈ posting.toVec) := by
  cases h with
  | ordinals sorted => exact intersectU32_eq hcandidates sorted
  | runs separate => exact intersectRuns_eq hcandidates separate

end

/-- The loop with a limit finds the first ordinals that all lists hold. -/
theorem intersectPostingsLimited_eq {first : PostingList} {others : List PostingList}
    (hothers : ∀ posting ∈ others, posting.WellFormed) (newestFirst : Bool) {limit : Nat}
    (hlimit : 0 < limit) :
    intersectPostingsLimited first others newestFirst limit =
      (orient newestFirst (first.toVec.filter fun ordinal =>
        others.all fun posting => decide (ordinal ∈ posting.toVec))).take limit := by
  have hall : ∀ ordinal, (others.all fun posting => posting.contains ordinal) =
      others.all fun posting => decide (ordinal ∈ posting.toVec) := by
    intro ordinal
    rw [Bool.eq_iff_iff, all_eq_true, all_eq_true]
    refine forall₂_congr fun posting hposting => ?_
    rw [PostingList.contains_eq (hothers posting hposting)]
  rw [intersectPostingsLimited, collectLimited_eq _ (by simpa using hlimit),
    PostingList.visited_eq, filter_orient]
  simp only [hall, nil_append, length_nil, Nat.sub_zero]

/-! ## Posting lists as sets -/

/-- An increasing list of ordinals, or runs that hold them. Runs may touch, as decoded ones do, and
end within 32 bits. -/
inductive PostingList.Encodes : PostingList → List Nat → Prop where
  | ordinals {ordinals : List Nat} (sorted : ordinals.Pairwise (· < ·)) :
      Encodes (.ordinals ordinals) ordinals
  | runs {runs : List OrdinalRun} {ordinals : List Nat} (sorted : ordinals.Pairwise (· < ·))
      (separate : SeparateRuns runs)
      (holds : ∀ ordinal, ordinal ∈ ordinals ↔
        ∃ run ∈ runs, run.start ≤ ordinal ∧ ordinal < run.start + run.length) :
      Encodes (.runs runs ordinals.length) ordinals

/-- The runs that the builder makes of a list are one of its forms. -/
theorem PostingList.encodes_postingRuns (hsorted : ordinals.Pairwise (· < ·))
    (hbound : ∀ ordinal ∈ ordinals, ordinal < 2 ^ 32 - 1) :
    Encodes (.runs (postingRuns ordinals) ordinals.length) ordinals := by
  obtain ⟨hseparate, hflat⟩ := postingRuns_spec hsorted hbound
  refine .runs hsorted hseparate fun ordinal => ?_
  simp only [← OrdinalRun.mem_ordinals, ← mem_flatMap, hflat]

section Encodes

variable (h : posting.Encodes ordinals)

include h

theorem PostingList.Encodes.sorted : ordinals.Pairwise (· < ·) := by
  cases h with
  | ordinals sorted => exact sorted
  | runs sorted => exact sorted

/-- Ordered lists with the same ordinals are the same. -/
theorem PostingList.Encodes.spec : posting.WellFormed ∧ posting.toVec = ordinals := by
  cases h with
  | ordinals sorted => exact ⟨.ordinals sorted, rfl⟩
  | @runs runs ordinals sorted separate holds =>
    have hflat : runs.flatMap OrdinalRun.ordinals = ordinals := by
      refine Perm.eq_of_pairwise (fun _ _ _ _ hlt hgt => absurd hlt hgt.asymm) separate.pairwise
        sorted ((perm_ext_iff_of_nodup separate.pairwise.nodup sorted.nodup).mpr fun ordinal => ?_)
      simp only [mem_flatMap, OrdinalRun.mem_ordinals, holds]
    have hwell := WellFormed.runs separate
    rw [hflat] at hwell
    exact ⟨hwell, hflat⟩

end Encodes

end ShardLog.Persistent
