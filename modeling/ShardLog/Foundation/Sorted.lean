import Mathlib.Data.List.Sort
import Mathlib.Data.List.Chain
import Mathlib.Data.Prod.Lex

/-!
# Foundation - Sorted lists

Sorting with removal of equal neighbours, the bisecting search of a sorted list,
and lists sorted by a key.
-/

namespace Sorted

open List

/-! ## Sorting and removing duplicates -/

section SortDedup

variable {α : Type} [LinearOrder α] {items : List α} {item : α}

/-- Remove items equal to the item before them. -/
def dedupAdjacent : List α → List α
  | [] => []
  | [item] => [item]
  | first :: second :: rest =>
    if first = second then dedupAdjacent (second :: rest)
    else first :: dedupAdjacent (second :: rest)

/-- Sort, then remove equal neighbours. -/
def sortDedup (items : List α) : List α := dedupAdjacent (items.insertionSort (· ≤ ·))

theorem mem_dedupAdjacent : item ∈ dedupAdjacent items ↔ item ∈ items := by
  induction items using dedupAdjacent.induct with
  | case1 => rfl
  | case2 other => rfl
  | case3 second rest ih =>
    rw [dedupAdjacent, if_pos rfl, ih]
    simp
  | case4 first second rest hne ih =>
    rw [dedupAdjacent, if_neg hne, mem_cons, ih, mem_cons (a := item) (b := first)]

theorem mem_sortDedup : item ∈ sortDedup items ↔ item ∈ items := by
  rw [sortDedup, mem_dedupAdjacent]
  exact (perm_insertionSort (· ≤ ·) items).mem_iff

end SortDedup

/-! ## Bisection -/

section Search

variable {α : Type} {items : List α} {compare : α → Ordering}

/-- Halve the range `base .. base + size` until one item is left. -/
def bisect (items : List α) (compare : α → Ordering) : Nat → Nat → Nat → Nat
  | 0, _, base => base
  | fuel + 1, size, base =>
    if size ≤ 1 then base
    else
      let half := size / 2
      let middle := base + half
      if items[middle]?.map compare = some .gt then bisect items compare fuel (size - half) base
      else bisect items compare fuel (size - half) middle

/-- The position of an item that compares equal to the target. -/
def binarySearchBy (items : List α) (compare : α → Ordering) : Option Nat :=
  let position := bisect items compare items.length items.length 0
  if items[position]?.map compare = some .eq then some position else none

/-- Items before the target compare less, items after it greater. -/
def OrderedAround (compare : α → Ordering) (items : List α) : Prop :=
  items.Pairwise fun first second =>
    (compare first = .gt → compare second = .gt) ∧ (compare second = .lt → compare first = .lt)

/-- A found position compares as equal. -/
theorem binarySearchBy_sound {position : Nat} (h : binarySearchBy items compare = some position) :
    items[position]?.map compare = some .eq := by
  unfold binarySearchBy at h
  dsimp only at h
  split at h
  · rename_i hfound
    cases h
    exact hfound
  · cases h

/-- Bisection keeps an equal item inside its range. -/
theorem bisect_finds (hordered : OrderedAround compare items) :
    ∀ {fuel size base : Nat}, size ≤ fuel → base + size ≤ items.length →
      (∃ index, base ≤ index ∧ index < base + size ∧ items[index]?.map compare = some .eq) →
      items[bisect items compare fuel size base]?.map compare = some .eq := by
  intro fuel
  induction fuel with
  | zero =>
    rintro size base hfuel _ ⟨index, hlow, hhigh, _⟩
    omega
  | succ fuel ih =>
    rintro size base hfuel hrange ⟨index, hlow, hhigh, heq⟩
    rw [bisect]
    by_cases hsmall : size ≤ 1
    · grind
    · rw [if_neg hsmall]
      have hmiddle : base + size / 2 < items.length := by omega
      have hindex : index < items.length := by omega
      rw [getElem?_eq_getElem hindex, Option.map_some, Option.some.injEq] at heq
      have hpairs := pairwise_iff_getElem.mp hordered
      simp only [getElem?_eq_getElem hmiddle, Option.map_some, Option.some.injEq]
      by_cases hgreater : compare items[base + size / 2] = .gt
      · rw [if_pos hgreater]
        have hbefore : index < base + size / 2 := by grind
        apply ih (by omega) (by omega)
        exact ⟨index, hlow, by omega, by
          rw [getElem?_eq_getElem hindex, Option.map_some, heq]⟩
      · rw [if_neg hgreater]
        apply ih (by omega) (by omega)
        cases hcompare : compare items[base + size / 2] with
        | lt => grind
        | eq => exact ⟨base + size / 2, le_rfl, by omega, by
            rw [getElem?_eq_getElem hmiddle, Option.map_some, hcompare]⟩
        | gt => exact absurd hcompare hgreater

/-- On a list ordered around the target, an equal item is found. -/
theorem binarySearchBy_complete (hordered : OrderedAround compare items) {item : α}
    (hitem : item ∈ items) (hequal : compare item = .eq) :
    ∃ position, binarySearchBy items compare = some position := by
  rcases mem_iff_getElem?.mp hitem with ⟨index, hindex⟩
  have hlt := (List.getElem?_eq_some_iff.mp hindex).1
  have hfound := @bisect_finds α items compare hordered items.length items.length 0 le_rfl
    (by omega) ⟨index, Nat.zero_le _, by omega, by rw [hindex, Option.map_some, hequal]⟩
  exact ⟨_, if_pos hfound⟩

end Search

/-! ## Lists sorted by a key -/

section Keyed

variable {α κ : Type} [LinearOrder κ] {left right : κ} {key : α → κ} {items : List α} {item : α}
  {target : κ}

/-- Three-way comparison. -/
def orderingOf (left right : κ) : Ordering :=
  if left < right then .lt else if left = right then .eq else .gt

theorem orderingOf_eq_iff : orderingOf left right = .eq ↔ left = right :=
  compareOfLessAndEq_eq_eq (fun _ => le_rfl) not_le

theorem orderingOf_lt_iff : orderingOf left right = .lt ↔ left < right := compareOfLessAndEq_eq_lt

theorem orderingOf_gt_iff : orderingOf left right = .gt ↔ right < left :=
  compareOfLessAndEq_eq_gt le_antisymm le_total not_le left right

theorem orderingOf_ne_gt_iff : orderingOf left right ≠ .gt ↔ left ≤ right := by
  rw [Ne, orderingOf_gt_iff, not_lt]

/-- Sort by key. -/
def sortBy (key : α → κ) (items : List α) : List α :=
  items.insertionSort fun left right => key left ≤ key right

/-- Search a list sorted by key. -/
def findBy (key : α → κ) (items : List α) (target : κ) : Option Nat :=
  binarySearchBy items fun item => orderingOf (key item) target

/-- The keys strictly increase. -/
def StrictlySorted (key : α → κ) (items : List α) : Prop :=
  items.Pairwise fun left right => key left < key right

/-- The sorted keys ascend. -/
theorem pairwise_sortBy (key : α → κ) (items : List α) :
    (sortBy key items).Pairwise fun left right => key left ≤ key right := by
  have htotal : Std.Total fun left right : α => key left ≤ key right :=
    ⟨fun left right => le_total (key left) (key right)⟩
  have htrans : IsTrans α fun left right => key left ≤ key right :=
    ⟨fun first second third => le_trans⟩
  exact pairwise_insertionSort _ items

/-- Sorting images sorts the items by the keys of their images. -/
theorem map_sortBy {β : Type} (f : α → β) (key : β → κ) (items : List α) :
    (sortBy (fun item => key (f item)) items).map f = sortBy key (items.map f) := by
  apply map_insertionSort
  exact fun _ _ _ _ => Iff.rfl

theorem mem_sortBy : item ∈ sortBy key items ↔ item ∈ items := (perm_insertionSort _ items).mem_iff

/-- Sorting items with distinct keys makes the keys strictly increase. -/
theorem strictlySorted_sortBy (h : (items.map key).Nodup) :
    StrictlySorted key (sortBy key items) := by
  have hperm := perm_insertionSort (fun left right => key left ≤ key right) items
  have hsorted := pairwise_sortBy key items
  have hdistinct : ((items.insertionSort fun left right => key left ≤ key right).map key).Nodup :=
    (hperm.map key).nodup_iff.mpr h
  rw [Nodup, pairwise_map] at hdistinct
  exact Pairwise.imp (fun h => lt_of_le_of_ne h.1 h.2) (hsorted.and hdistinct)

/-- Sorting keeps the items. -/
theorem perm_sortBy (key : α → κ) (items : List α) : (sortBy key items).Perm items :=
  perm_insertionSort _ items

/-- Sorting any arrangement of strictly sorted items restores them. -/
theorem sortBy_eq_of_perm {sorted : List α} (hperm : items.Perm sorted)
    (hsorted : StrictlySorted key sorted) : sortBy key items = sorted := by
  have hnodup : (sorted.map key).Nodup := by
    rw [Nodup, pairwise_map]
    exact hsorted.imp fun hlt => hlt.ne
  have hstrict := strictlySorted_sortBy ((hperm.map key).nodup_iff.mpr hnodup)
  apply Perm.eq_of_pairwise _ hstrict hsorted ((perm_sortBy key items).trans hperm)
  intro left right _ _ hlt hgt
  exact absurd hgt hlt.not_gt

/-- In a list strictly sorted by key, a key names one item. -/
theorem StrictlySorted.eq_of_key_eq (h : StrictlySorted key items) {left right : α}
    (hleft : left ∈ items) (hright : right ∈ items) (hkey : key left = key right) :
    left = right := by
  have hnodup : (items.map key).Nodup := by
    rw [Nodup, pairwise_map]
    exact h.imp fun hlt => hlt.ne
  exact inj_on_of_nodup_map hnodup hleft hright hkey

/-- A sorted list can be searched for any key. -/
theorem orderedAround_of_strictlySorted (h : StrictlySorted key items) (target : κ) :
    OrderedAround (fun item => orderingOf (key item) target) items := by
  refine h.imp fun hlt => ?_
  simp only [orderingOf_gt_iff, orderingOf_lt_iff]
  exact ⟨fun hgt => hgt.trans hlt, fun hless => hlt.trans hless⟩

/-- What the search finds has the key. -/
theorem findBy_eq_some {position : Nat} (h : findBy key items target = some position) :
    ∃ item, items[position]? = some item ∧ key item = target := by
  have hfound := binarySearchBy_sound h
  rcases Option.map_eq_some_iff.mp hfound with ⟨item, hitem, hequal⟩
  exact ⟨item, hitem, orderingOf_eq_iff.mp hequal⟩

/-- In a list strictly sorted by key, the item of a key is found. -/
theorem findBy_of_mem (hsorted : StrictlySorted key items) (hitem : item ∈ items) :
    ∃ position, findBy key items (key item) = some position ∧ items[position]? = some item := by
  rcases binarySearchBy_complete (orderedAround_of_strictlySorted hsorted (key item)) hitem
    (orderingOf_eq_iff.mpr rfl) with ⟨position, hposition⟩
  rcases findBy_eq_some hposition with ⟨other, hother, hkey⟩
  obtain rfl := hsorted.eq_of_key_eq (mem_of_getElem? hother) hitem hkey
  exact ⟨position, hposition, hother⟩

/-- The item that the search finds is the one with the key. -/
theorem findBy_bind_getElem?_iff (hsorted : StrictlySorted key items) :
    ((findBy key items target).bind fun position => items[position]?) = some item ↔
      item ∈ items ∧ key item = target := by
  constructor
  · intro h
    rcases Option.bind_eq_some_iff.mp h with ⟨position, hposition, hitem⟩
    rcases findBy_eq_some hposition with ⟨found, hfound, hkey⟩
    rw [hitem, Option.some.injEq] at hfound
    exact ⟨mem_of_getElem? hitem, hfound ▸ hkey⟩
  · rintro ⟨hmem, rfl⟩
    rcases findBy_of_mem hsorted hmem with ⟨position, hposition, hitem⟩
    rw [hposition, Option.bind_some, hitem]

end Keyed

/-! ## Sorting by a comparison -/

section Compared

variable {α : Type} {compare : α → α → Ordering} {items : List α} {count : Nat}

/-- Sort by a three-way comparison. -/
def sortUnstableBy (compare : α → α → Ordering) (items : List α) : List α :=
  items.insertionSort fun left right => compare left right ≠ .gt

/-- Sorting images sorts the items by the comparison of their images. -/
theorem map_sortUnstableBy {β : Type} (f : α → β) (compareImages : β → β → Ordering)
    (items : List α) (h : ∀ left ∈ items, ∀ right ∈ items,
      compare left right = compareImages (f left) (f right)) :
    (sortUnstableBy compare items).map f = sortUnstableBy compareImages (items.map f) := by
  apply map_insertionSort
  intro left hleft right hright
  rw [h left hleft right hright]

/-- A comparison that ranks any two items and is transitive. -/
structure TotalComparison (compare : α → α → Ordering) : Prop where
  total : ∀ left right, compare left right ≠ .gt ∨ compare right left ≠ .gt
  trans : ∀ first second third, compare first second ≠ .gt → compare second third ≠ .gt →
    compare first third ≠ .gt

/-- The comparison ranks equal no two different items of the list. -/
def Separates (compare : α → α → Ordering) (items : List α) : Prop :=
  ∀ left ∈ items, ∀ right ∈ items, compare left right ≠ .gt → compare right left ≠ .gt →
    left = right

theorem perm_sortUnstableBy (compare : α → α → Ordering) (items : List α) :
    (sortUnstableBy compare items).Perm items :=
  perm_insertionSort _ items

section

variable (h : TotalComparison compare)

include h

/-- The sorted items are in order. -/
theorem pairwise_sortUnstableBy (items : List α) :
    (sortUnstableBy compare items).Pairwise fun left right => compare left right ≠ .gt := by
  have htotal : Std.Total fun left right : α => compare left right ≠ .gt := ⟨h.total⟩
  have htrans : IsTrans α fun left right => compare left right ≠ .gt := ⟨h.trans⟩
  exact pairwise_insertionSort _ items

/-- A sorted list is the sorted form of each of its arrangements. -/
theorem sortUnstableBy_eq_of_pairwise {sorted : List α} (hperm : items.Perm sorted)
    (hseparates : Separates compare sorted)
    (hsorted : sorted.Pairwise fun left right => compare left right ≠ .gt) :
    sortUnstableBy compare items = sorted := by
  apply Perm.eq_of_pairwise _ (pairwise_sortUnstableBy h items) hsorted
    ((perm_sortUnstableBy compare items).trans hperm)
  intro left right hleft hright
  exact hseparates left (hperm.mem_iff.mp ((perm_sortUnstableBy compare items).mem_iff.mp hleft))
    right hright

/-- Sorting by a comparison that separates the items depends only on which items
there are. -/
theorem sortUnstableBy_eq_of_perm {left right : List α} (hperm : left.Perm right)
    (hseparates : Separates compare right) :
    sortUnstableBy compare left = sortUnstableBy compare right := by
  have hright := perm_sortUnstableBy compare right
  apply sortUnstableBy_eq_of_pairwise h (hperm.trans hright.symm) _
    (pairwise_sortUnstableBy h right)
  intro first hfirst second hsecond
  exact hseparates first (hright.mem_iff.mp hfirst) second (hright.mem_iff.mp hsecond)

/-- Sorting what is left of a list leaves the same of the sorted list. -/
theorem sortUnstableBy_filter (hseparates : Separates compare items) (accept : α → Bool) :
    sortUnstableBy compare (items.filter accept) =
      (sortUnstableBy compare items).filter accept := by
  have hperm := perm_sortUnstableBy compare items
  apply sortUnstableBy_eq_of_pairwise h (hperm.filter accept).symm
  · intro left hleft right hright
    exact hseparates left (hperm.mem_iff.mp (mem_of_mem_filter hleft)) right
      (hperm.mem_iff.mp (mem_of_mem_filter hright))
  · exact (pairwise_sortUnstableBy h items).filter accept

/-- What a sorted list holds beyond an item is what follows the item. -/
theorem filter_gt_eq_drop (hseparates : Separates compare items) (hnodup : items.Nodup)
    (hsorted : items.Pairwise fun left right => compare left right ≠ .gt) {last : α}
    (hlast : (items.take count).getLast? = some last) :
    (items.filter fun item => decide (compare item last = .gt)) = items.drop count := by
  obtain ⟨front, hfront⟩ := getLast?_eq_some_iff.mp hlast
  rw [← take_append_drop count items, hfront] at hsorted hnodup hseparates
  obtain ⟨hbefore, _, hafter⟩ := pairwise_append.mp hsorted
  have hmem : last ∈ front ++ [last] := mem_append_right _ mem_cons_self
  conv_lhs => rw [← take_append_drop count items, hfront, filter_append]
  have hnone : (front ++ [last]).filter (fun item => decide (compare item last = .gt)) = [] := by
    rw [filter_eq_nil_iff]
    intro item hitem hgt
    rcases mem_append.mp hitem with hitem | hitem
    · exact (pairwise_append.mp hbefore).2.2 item hitem last mem_cons_self (of_decide_eq_true hgt)
    · rw [mem_singleton.mp hitem] at hgt
      exact (h.total last last).elim (· (of_decide_eq_true hgt)) (· (of_decide_eq_true hgt))
  rw [hnone, nil_append, filter_eq_self]
  intro item hitem
  by_contra hle
  have heq := hseparates last (mem_append_left _ hmem) item (mem_append_right _ hitem)
    (hafter last hmem item hitem) (by simpa using hle)
  exact (disjoint_of_nodup_append hnodup) hmem (heq ▸ hitem)

end

end Compared

/-! ## Cuts -/

section Cuts

variable {α : Type} {sorted walk : List α} {before : α → α → Prop}

end Cuts

/-! ## Increasing positions of a list -/

section Positions

variable {α : Type} {β : Type} {items : List α} {positions : List Nat}

/-- Reading a list at all its positions gives the list. -/
theorem filterMap_range_getElem? (items : List α) :
    (range items.length).filterMap (items[·]?) = items := by
  induction items with
  | nil => rfl
  | cons item rest ih =>
    have hfirst : (item :: rest)[0]? = some item := rfl
    rw [length_cons, range_succ_eq_map, filterMap_cons_some hfirst, filterMap_map]
    exact congrArg (cons item) ih

/-- Lists related place by place are related at the same positions. -/
theorem forall₂_filterMap_getElem? {related : α → β → Prop} {left : List α} {right : List β}
    (h : Forall₂ related left right) (positions : List Nat) :
    Forall₂ related (positions.filterMap (left[·]?)) (positions.filterMap (right[·]?)) := by
  induction positions with
  | nil => exact Forall₂.nil
  | cons position rest ih =>
    by_cases hlt : position < left.length
    · have hlt' : position < right.length := h.length_eq ▸ hlt
      rw [filterMap_cons_some (getElem?_eq_getElem hlt),
        filterMap_cons_some (getElem?_eq_getElem hlt')]
      exact Forall₂.cons (h.get hlt hlt') ih
    · have hge : ¬ position < right.length := h.length_eq ▸ hlt
      rwa [filterMap_cons_none (getElem?_eq_none (not_lt.mp hlt)),
        filterMap_cons_none (getElem?_eq_none (not_lt.mp hge))]

/-- Filtering what is read at positions filters the positions. -/
theorem filter_filterMap_getElem? (items : List α) (accept : α → Bool) (positions : List Nat) :
    (positions.filterMap (items[·]?)).filter accept =
      (positions.filter fun position => items[position]?.any accept).filterMap (items[·]?) := by
  induction positions with
  | nil => rfl
  | cons position rest ih => grind

/-- Increasing positions that include every accepted one select as all positions
do. -/
theorem filter_filterMap_eq_filter {accept : α → Bool} (hsorted : positions.Pairwise (· < ·))
    (hcovers : ∀ position item, items[position]? = some item → accept item = true →
      position ∈ positions) :
    (positions.filterMap (items[·]?)).filter accept = items.filter accept := by
  have hsame : (positions.filter fun position => items[position]?.any accept) =
      (range items.length).filter fun position => items[position]?.any accept := by
    apply Pairwise.eq_of_mem_iff (hsorted.filter _) (pairwise_lt_range.filter _)
    intro position
    rw [mem_filter, mem_filter, mem_range]
    constructor
    · grind
    · grind
  rw [filter_filterMap_getElem?, hsame, ← filter_filterMap_getElem?, filterMap_range_getElem?]

/-- Reading commutes with a cut, if each element can be read. -/
theorem filterMap_take {read : α → Option β}
    (hread : ∀ element ∈ items, (read element).isSome = true) (count : Nat) :
    (items.take count).filterMap read = (items.filterMap read).take count := by
  induction items generalizing count with
  | nil => simp
  | cons item items ih =>
    obtain ⟨value, hvalue⟩ := Option.isSome_iff_exists.mp (hread item mem_cons_self)
    cases count with
    | zero => rfl
    | succ count => grind

/-- Reading at positions that exist is a map. -/
theorem filterMap_getElem?_eq_map (default : α)
    (hin : ∀ position ∈ positions, position < items.length) :
    positions.filterMap (items[·]?) = positions.map fun position => items.getD position default := by
  rw [← filterMap_eq_map]
  apply filterMap_congr
  intro position hposition
  simp [getD_eq_getElem?_getD, getElem?_eq_getElem (hin position hposition)]

/-- Sorting positions by their items and reading them sorts what is read. -/
theorem filterMap_sortUnstableBy {comparePositions : Nat → Nat → Ordering}
    {compare : α → α → Ordering} (hin : ∀ position ∈ positions, position < items.length)
    (h : ∀ left ∈ positions, ∀ right ∈ positions, ∀ first second,
      items[left]? = some first → items[right]? = some second →
        comparePositions left right = compare first second) :
    (sortUnstableBy comparePositions positions).filterMap (items[·]?) =
      sortUnstableBy compare (positions.filterMap (items[·]?)) := by
  cases items with
  | nil =>
    obtain rfl : positions = [] := eq_nil_iff_forall_not_mem.mpr fun position hposition =>
      absurd (hin position hposition) (Nat.not_lt_zero _)
    rfl
  | cons first rest =>
    have hsorted : ∀ position ∈ sortUnstableBy comparePositions positions,
        position < (first :: rest).length := by grind [perm_sortUnstableBy]
    have hread : ∀ position ∈ positions, (first :: rest)[position]? =
        some ((first :: rest).getD position first) := by grind
    rw [filterMap_getElem?_eq_map first hsorted, filterMap_getElem?_eq_map first hin]
    apply map_sortUnstableBy
    intro left hleft right hright
    exact h left hleft right hright _ _ (hread left hleft) (hread right hright)

/-- Distinct positions of a list are some of all its positions. -/
theorem subperm_range (items : List α) (h : positions.Nodup) :
    (positions.filter fun position => decide (position < items.length)).Subperm
      (range items.length) := by
  apply subperm_of_subset (h.filter _)
  intro position hposition
  rw [mem_filter, decide_eq_true_eq] at hposition
  exact mem_range.mpr hposition.2

theorem filterMap_filter_lt (items : List α) (positions : List Nat) :
    (positions.filter fun position => decide (position < items.length)).filterMap (items[·]?) =
      positions.filterMap (items[·]?) := by
  rw [filterMap_filter]
  apply filterMap_congr
  intro position _
  by_cases hlt : position < items.length
  · simp [hlt]
  · simp [hlt]

/-- Reading at increasing positions reads a sublist. -/
theorem sublist_filterMap_getElem? (items : List α) (h : positions.Pairwise (· < ·)) :
    (positions.filterMap (items[·]?)).Sublist items := by
  have hsublist := sublist_of_subperm_of_pairwise (r := (· < ·)) (subperm_range items h.nodup)
    (h.filter _) pairwise_lt_range
  have hread := hsublist.filterMap (items[·]?)
  rwa [filterMap_range_getElem?, filterMap_filter_lt] at hread

/-- Reading at distinct positions reads a part of the list, in some order. -/
theorem subperm_filterMap_getElem? (items : List α) (h : positions.Nodup) :
    (positions.filterMap (items[·]?)).Subperm items := by
  obtain ⟨arranged, hperm, hsublist⟩ := subperm_range items h
  have hread := hsublist.filterMap (items[·]?)
  rw [filterMap_range_getElem?] at hread
  rw [← filterMap_filter_lt]
  exact ⟨_, hperm.filterMap _, hread⟩

end Positions

/-! ## Documents with a key -/

section Documents

variable {κ : Type} [DecidableEq κ] {documents : List (List κ)} {key : κ} {ordinal : Nat}

/-- The ordinals of the documents that contain a key. -/
def ordinalsWith (documents : List (List κ)) (key : κ) : List Nat :=
  (range documents.length).filter fun ordinal => decide (key ∈ documents.getD ordinal [])

/-- The documents with a key. -/
theorem mem_ordinalsWith : ordinal ∈ ordinalsWith documents key ↔
      ∃ hlt : ordinal < documents.length, key ∈ documents[ordinal] := by
  simp only [ordinalsWith, mem_filter, mem_range, decide_eq_true_eq]
  constructor
  · grind
  · grind

/-- Copies of one more document add their ordinals to the lists of its keys. -/
theorem ordinalsWith_append_replicate (documents : List (List κ)) (document : List κ)
    (count : Nat) (key : κ) :
    ordinalsWith (documents ++ replicate count document) key = ordinalsWith documents key ++
        if key ∈ document then range' documents.length count else [] := by
  unfold ordinalsWith
  rw [length_append, length_replicate, range_add, filter_append]
  congr 1
  · apply filter_congr
    intro ordinal hordinal
    rw [getD_eq_getElem?_getD, getD_eq_getElem?_getD, getElem?_append_left (mem_range.mp hordinal)]
  · rw [filter_map]
    have hall : ∀ index ∈ range count,
        ((fun ordinal => decide (key ∈ (documents ++ replicate count document).getD ordinal []))
          ∘ fun index => documents.length + index) index = decide (key ∈ document) := by grind
    rw [filter_congr hall]
    by_cases hkey : key ∈ document
    · simp [hkey, range'_eq_map_range]
    · simp [hkey]

theorem ordinalsWith_eq_nil (h : ∀ document ∈ documents, key ∉ document) : ordinalsWith documents key = [] := by
  rw [eq_nil_iff_forall_not_mem]
  intro ordinal hordinal
  obtain ⟨hlt, hmem⟩ := mem_ordinalsWith.mp hordinal
  exact h _ (getElem_mem hlt) hmem

/-- Ordinals ascend. -/
theorem pairwise_ordinalsWith (documents : List (List κ)) (key : κ) :
    (ordinalsWith documents key).Pairwise (· < ·) :=
  pairwise_lt_range.filter _

end Documents

end Sorted
