import Mathlib.Data.Prod.Lex
import Mathlib.Order.Lex
import Mathlib.Data.List.Lex
import ShardLog.Foundation.Sorted

/-!
# Foundation - Ordered maps

Finite maps that keep their entries in the order of their keys.  The order is part
of the type, so two maps with the same entries are equal and a traversal has one
outcome.
-/

/-- A map whose entries stand in the order of their keys. -/
structure OrderedMap (κ ν : Type) [LinearOrder κ] where
  entries : List (κ × ν)
  sorted : (entries.map Prod.fst).Pairwise (· < ·)
deriving DecidableEq

namespace OrderedMap

open List

variable {κ ν : Type} [LinearOrder κ] {left right : OrderedMap κ ν} {key : κ} {value : ν}
  {entries : List (κ × ν)} {map : OrderedMap κ ν}

@[ext]
theorem ext_entries (h : left.entries = right.entries) :
    left = right := by
  cases left
  cases right
  cases h
  rfl

def keys (map : OrderedMap κ ν) : List κ := map.entries.map Prod.fst

/-- Keys are distinct. -/
theorem nodup_keys (map : OrderedMap κ ν) : map.keys.Nodup := map.sorted.imp ne_of_lt

/-- The same entries in any arrangement are the same map. -/
theorem eq_of_perm (h : left.entries.Perm right.entries) :
    left = right := by
  apply ext_entries
  have hleft := pairwise_map.mp left.sorted
  have hright := pairwise_map.mp right.sorted
  apply Perm.eq_of_pairwise _ hleft hright h
  intro first second _ _ hlt hgt
  exact absurd hgt hlt.not_gt

/-! ## Building a map -/

def empty : OrderedMap κ ν := ⟨[], List.Pairwise.nil⟩

/-- Put an entry at the place of its key. -/
def insertEntry (key : κ) (value : ν) : List (κ × ν) → List (κ × ν)
  | [] => [(key, value)]
  | (other, old) :: rest =>
    if key < other then (key, value) :: (other, old) :: rest
    else if key = other then (key, value) :: rest
    else (other, old) :: insertEntry key value rest

/-- An insertion adds its key. -/
theorem mem_keys_insertEntry {other : κ} : other ∈ (insertEntry key value entries).map Prod.fst ↔
      other = key ∨ other ∈ entries.map Prod.fst := by
  induction entries with
  | nil => simp [insertEntry]
  | cons entry rest ih =>
    obtain ⟨first, old⟩ := entry
    unfold insertEntry
    split
    · simp
    · grind

/-- Insertions keep the keys sorted. -/
theorem pairwise_insertEntry (h : (entries.map Prod.fst).Pairwise (· < ·)) :
    ((insertEntry key value entries).map Prod.fst).Pairwise (· < ·) := by
  induction entries with
  | nil => exact pairwise_singleton _ _
  | cons entry rest ih =>
    obtain ⟨first, old⟩ := entry
    obtain ⟨hfirst, hrest⟩ := pairwise_cons.mp h
    unfold insertEntry
    split
    · grind
    · rename_i hge
      split
      · rename_i heq
        subst heq
        exact h
      · rename_i hne
        refine pairwise_cons.mpr ⟨?_, ih hrest⟩
        intro other hother
        rcases mem_keys_insertEntry.mp hother with rfl | hin
        · exact lt_of_le_of_ne (not_lt.mp hge) (Ne.symm hne)
        · exact hfirst other hin

/-- Write the value of a key. -/
def insert (map : OrderedMap κ ν) (key : κ) (value : ν) : OrderedMap κ ν :=
  ⟨insertEntry key value map.entries, pairwise_insertEntry map.sorted⟩

/-- Whether a key has a value. -/
def contains (map : OrderedMap κ ν) (key : κ) : Bool := map.keys.contains key

theorem contains_iff : map.contains key = true ↔ key ∈ map.keys := by
  rw [contains, contains_iff_mem]

/-- A new entry joins the others. -/
theorem perm_insertEntry (h : key ∉ entries.map Prod.fst) :
    (insertEntry key value entries).Perm ((key, value) :: entries) := by
  induction entries with
  | nil => exact Perm.refl _
  | cons entry rest ih =>
    obtain ⟨first, old⟩ := entry
    simp only [map_cons, mem_cons, not_or] at h
    unfold insertEntry
    split
    · exact Perm.refl _
    · rw [if_neg h.1]
      exact ((ih h.2).cons _).trans (Perm.swap _ _ _)

/-- A new key adds its entry to the others. -/
theorem perm_insert (value : ν) (h : map.contains key = false) :
    (map.insert key value).entries.Perm ((key, value) :: map.entries) := by
  apply perm_insertEntry
  intro hin
  rw [contains_iff.mpr hin] at h
  cases h

/-! ## Order of maps -/

/-- Maps are compared entry by entry. -/
def rank (map : OrderedMap κ ν) : List (κ ×ₗ ν) := map.entries.map toLex

/-- Ranks tell maps apart. -/
theorem rank_injective : Function.Injective (rank : OrderedMap κ ν → List (κ ×ₗ ν)) := by
  intro left right h
  exact ext_entries (map_injective_iff.mpr toLex.injective h)

end OrderedMap
