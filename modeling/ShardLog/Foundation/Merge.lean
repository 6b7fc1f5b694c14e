import Mathlib.Data.List.Pairwise
import Mathlib.Data.List.Sort

/-!
# Foundation - Merging ordered lists and stopping at a limit

Intersection of two ordered lists by a merge or by galloping search, and loops
that stop as soon as they have collected enough.
-/

namespace Merge

open List

variable {α β κ : Type} [LinearOrder κ] {key : β → κ} {items : List β} {item : β}
  {candidates : List κ} {limit : Nat} {γ : Type}

/-! ## Intersection -/

/-- Keep the candidates that occur as a key, advancing on both sides. -/
def mergeIntersect (key : β → κ) : List κ → List β → List κ
  | [], _ => []
  | _ :: _, [] => []
  | candidate :: candidates, item :: items =>
    if candidate < key item then mergeIntersect key candidates (item :: items)
    else if key item < candidate then mergeIntersect key (candidate :: candidates) items
    else candidate :: mergeIntersect key candidates items
termination_by candidates items => candidates.length + items.length

/-- Keep the candidates that occur as a key, searching forward for each of them. -/
def gallopIntersect (key : β → κ) : List κ → List β → List κ
  | [], _ => []
  | candidate :: candidates, items =>
    match items.dropWhile fun item => decide (key item < candidate) with
    | [] => []
    | item :: rest =>
      if key item = candidate then candidate :: gallopIntersect key candidates rest
      else gallopIntersect key candidates (item :: rest)

/-- A candidate before all keys is none of them. -/
theorem not_mem_keys_of_lt {candidate : κ}
    (hitems : (item :: items).Pairwise fun left right => key left < key right)
    (hlt : candidate < key item) : candidate ∉ (item :: items).map key := by
  have hkeys : (key item :: items.map key).Pairwise (· < ·) := by
    rwa [← map_cons, pairwise_map]
  exact fun hmem => lt_irrefl _ (rel_of_pairwise_cons (hkeys.cons_cons_of_trans hlt) hmem)

/-- Leaving a key behind that is below all candidates changes nothing. -/
theorem filter_mem_cons (hbelow : ∀ candidate ∈ candidates, key item < candidate) :
    candidates.filter (fun candidate => decide (candidate ∈ (item :: items).map key)) =
      candidates.filter fun candidate => decide (candidate ∈ items.map key) := by
  apply filter_congr
  intro candidate hcandidate
  have hne := (hbelow candidate hcandidate).ne'
  simp [hne]

/-- Merging two sorted lists finds the common keys. -/
theorem mergeIntersect_eq (hcandidates : candidates.Pairwise (· < ·))
    (hitems : items.Pairwise fun left right => key left < key right) :
    mergeIntersect key candidates items =
      candidates.filter fun candidate => decide (candidate ∈ items.map key) := by
  fun_induction mergeIntersect key candidates items with
  | case1 => rfl
  | case2 candidate candidates => simp
  | case3 candidate candidates item items hlt ih => grind [not_mem_keys_of_lt]
  | case4 candidate candidates item items _ hgt ih =>
    rw [ih hcandidates (pairwise_cons.mp hitems).2]
    exact (filter_mem_cons (pairwise_cons.mp (hcandidates.cons_cons_of_trans hgt)).1).symm
  | case5 candidate candidates item items hlt hgt ih =>
    obtain ⟨hfirst, hrest⟩ := pairwise_cons.mp hcandidates
    have hequal : key item = candidate := le_antisymm (not_lt.mp hlt) (not_lt.mp hgt)
    rw [ih hrest (pairwise_cons.mp hitems).2, filter_cons_of_pos (by simp [hequal]),
      filter_mem_cons fun other hother => hequal ▸ hfirst other hother]

/-- The search passes over the keys that a merge leaves behind. -/
theorem gallopIntersect_eq_mergeIntersect (key : β → κ) (candidates : List κ) (items : List β) :
    gallopIntersect key candidates items = mergeIntersect key candidates items := by
  fun_induction mergeIntersect key candidates items with
  | case1 => rfl
  | case2 candidate candidates => rfl
  | case3 candidate candidates item items hlt ih =>
    rw [gallopIntersect, dropWhile_cons_of_neg (by simpa using hlt.le)]
    exact (if_neg hlt.ne').trans ih
  | case4 candidate candidates item items _ hgt ih =>
    rw [← ih, gallopIntersect, dropWhile_cons_of_pos (by simpa using hgt), gallopIntersect]
  | case5 candidate candidates item items hlt hgt ih =>
    have hequal : key item = candidate := le_antisymm (not_lt.mp hlt) (not_lt.mp hgt)
    rw [gallopIntersect, dropWhile_cons_of_neg (by simp [hequal]), ← ih]
    exact if_pos hequal

/-- So does galloping. -/
theorem gallopIntersect_eq (hcandidates : candidates.Pairwise (· < ·))
    (hitems : items.Pairwise fun left right => key left < key right) :
    gallopIntersect key candidates items =
      candidates.filter fun candidate => decide (candidate ∈ items.map key) := by
  rw [gallopIntersect_eq_mergeIntersect, mergeIntersect_eq hcandidates hitems]

/-- Intersecting with one list after the other keeps what all of them hold. -/
theorem foldl_eq_filter_all {step : List κ → β → List κ} {member : β → κ → Bool}
    (hstep : ∀ candidates : List κ, candidates.Pairwise (· < ·) → ∀ item ∈ items,
      step candidates item = candidates.filter (member item)) {candidates : List κ}
    (hcandidates : candidates.Pairwise (· < ·)) :
    items.foldl step candidates = candidates.filter fun candidate =>
      items.all fun item => member item candidate := by
  induction items generalizing candidates with
  | nil => simp
  | cons item items ih =>
    rw [foldl_cons, hstep candidates hcandidates item mem_cons_self,
      ih (fun others hothers other hother =>
        hstep others hothers other (mem_cons_of_mem _ hother))
        (hcandidates.filter _), filter_filter]
    apply filter_congr
    intro candidate _
    rw [all_cons, Bool.and_comm]

/-! ## Loops that stop at a limit -/

/-- Collect accepted items and stop once the limit is reached. -/
def collectLimited (accept : α → Bool) (limit : Nat) : List α → List α → List α
  | [], collected => collected
  | item :: items, collected =>
    let collected := if accept item then collected ++ [item] else collected
    if collected.length = limit then collected else collectLimited accept limit items collected

/-- The first accepted items fill the room that is left. -/
theorem collectLimited_eq (accept : α → Bool) {items : List α} :
    ∀ {collected : List α}, collected.length < limit → collectLimited accept limit items collected =
        collected ++ (items.filter accept).take (limit - collected.length) := by
  induction items with
  | nil => simp [collectLimited]
  | cons item items ih =>
    intro collected hroom
    rw [collectLimited]
    by_cases haccept : accept item = true
    · have hleft : limit - collected.length = limit - (collected.length + 1) + 1 := by omega
      simp only [haccept, if_true, length_append, length_singleton, filter_cons_of_pos]
      rw [hleft, take_succ_cons]
      by_cases hfull : collected.length + 1 = limit
      · grind
      · grind
    · grind

/-- Go through pieces, each cut at what is left of the limit. -/
def gatherLimited (piece : β → Nat → List α) (limit : Nat) : List β → List α → List α
  | [], gathered => gathered
  | item :: items, gathered =>
    let remaining := limit - gathered.length
    let gathered := gathered ++ (piece item remaining).take remaining
    if limit ≤ gathered.length then gathered else gatherLimited piece limit items gathered

/-- The first items of all pieces fill the room that is left. -/
theorem gatherLimited_eq {piece : β → Nat → List α} {whole : β → List α}
    (hpiece : ∀ item ∈ items, ∀ remaining, 0 < remaining →
      (piece item remaining).take remaining = (whole item).take remaining) :
    ∀ {gathered : List α}, gathered.length < limit → gatherLimited piece limit items gathered =
        gathered ++ (items.flatMap whole).take (limit - gathered.length) := by
  induction items with
  | nil => simp [gatherLimited]
  | cons item items ih =>
    intro gathered hroom
    have hcut := hpiece item mem_cons_self (limit - gathered.length) (by omega)
    rw [gatherLimited, hcut, flatMap_cons, take_append]
    by_cases hfull : limit - gathered.length ≤ (whole item).length
    · have hnone : limit - gathered.length - (whole item).length = 0 := by omega
      rw [if_pos (by simp; omega), hnone, take_zero, append_nil]
    · grind

theorem gatherLimited_map (f : γ → β) (piece : β → Nat → List α) (limit : Nat) (items : List γ) :
    ∀ gathered, gatherLimited piece limit (items.map f) gathered =
      gatherLimited (fun item => piece (f item)) limit items gathered := by
  induction items with
  | nil => exact fun _ => rfl
  | cons item items ih =>
    intro gathered
    rw [map_cons, gatherLimited, gatherLimited]
    simp only [ih]

/-- Items that contribute nothing may be passed over. -/
theorem flatMap_filter_of_nil {keep : β → Bool} {f : β → List α}
    (h : ∀ item ∈ items, keep item = false → f item = []) :
    (items.filter keep).flatMap f = items.flatMap f := by
  induction items with
  | nil => rfl
  | cons item items ih => grind

end Merge
