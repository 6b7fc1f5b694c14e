import Mathlib.Data.List.Induction
import Mathlib.Data.List.Nodup

/-!
# Foundation - Association maps

Finite maps as lists of entries in insertion order.  A write replaces the entry
of its key in place or appends a new one, so the keys stay distinct.
-/

namespace AssocMap

open List

variable {κ ν : Type} [DecidableEq κ] {key : κ} {map : List (κ × ν)} {value : ν} {items : List κ}
  {item : κ}

/-- The value of a key. -/
def get : List (κ × ν) → κ → Option ν
  | [], _ => none
  | (other, value) :: rest, key => if other = key then some value else get rest key

/-- Replace the value of a key, or append a new entry. -/
def insert : List (κ × ν) → κ → ν → List (κ × ν)
  | [], key, value => [(key, value)]
  | (other, old) :: rest, key, value =>
    if other = key then (key, value) :: rest else (other, old) :: insert rest key value

/-- Update the value of a key, starting from a default. -/
def update (map : List (κ × ν)) (key : κ) (default : ν) (f : ν → ν) : List (κ × ν) :=
  insert map key (f ((get map key).getD default))

@[simp] theorem get_nil (key : κ) : get ([] : List (κ × ν)) key = none := rfl

@[simp] theorem get_insert_self (map : List (κ × ν)) (key : κ) (value : ν) :
    get (insert map key value) key = some value := by
  induction map with
  | nil => simp [insert, get]
  | cons entry rest ih =>
    rcases entry with ⟨other, old⟩
    unfold insert
    split
    · simp [get]
    · rename_i hne
      simp [get, hne, ih]

theorem get_insert_of_ne (map : List (κ × ν)) {other : κ} (value : ν) (hne : other ≠ key) :
    get (insert map key value) other = get map other := by
  induction map with
  | nil => simp [insert, get, Ne.symm hne]
  | cons entry rest ih =>
    rcases entry with ⟨first, old⟩
    unfold insert
    split
    · rename_i heq
      subst heq
      simp [get, Ne.symm hne]
    · by_cases hfirst : first = other
      · simp [get, hfirst]
      · simp [get, hfirst, ih]

/-- An insertion changes one key. -/
theorem get_insert (map : List (κ × ν)) (key other : κ) (value : ν) :
    get (insert map key value) other = if other = key then some value else get map other := by
  split
  · rename_i heq
    rw [heq, get_insert_self]
  · rename_i hne
    exact get_insert_of_ne map value hne

/-- An update changes one key. -/
theorem get_update (map : List (κ × ν)) (key other : κ) (default : ν) (f : ν → ν) :
    get (update map key default f) other =
      if other = key then some (f ((get map key).getD default)) else get map other :=
  get_insert map key other _

/-! ## Distinct keys -/

/-- A found value is an entry. -/
theorem mem_of_get (h : get map key = some value) : (key, value) ∈ map := by
  induction map with
  | nil => simp at h
  | cons entry rest ih =>
    rcases entry with ⟨other, old⟩
    unfold get at h
    split at h
    · rename_i heq
      cases h
      simp [heq]
    · exact mem_cons_of_mem _ (ih h)

section

variable (hnodup : (map.map Prod.fst).Nodup)

include hnodup

/-- With distinct keys every entry is found. -/
theorem get_of_mem (h : (key, value) ∈ map) : get map key = some value := by
  induction map with
  | nil => simp at h
  | cons entry rest ih =>
    rcases entry with ⟨other, old⟩
    simp only [map_cons, nodup_cons] at hnodup
    rcases mem_cons.mp h with heq | hrest
    · cases heq
      simp [get]
    · have hne : other ≠ key := by
        rintro rfl
        exact hnodup.1 (mem_map_of_mem (f := Prod.fst) hrest)
      rw [get, if_neg hne]
      exact ih hnodup.2 hrest

/-- With distinct keys, the entries are exactly the reads. -/
theorem mem_iff_get :
    (key, value) ∈ map ↔ get map key = some value :=
  ⟨get_of_mem hnodup, mem_of_get⟩

/-- The order of the entries does not matter. -/
theorem get_of_perm {other : List (κ × ν)} (hperm : map.Perm other) (key : κ) :
    get map key = get other key := by
  have hother : (other.map Prod.fst).Nodup := (hperm.map Prod.fst).nodup_iff.mp hnodup
  ext value
  rw [← mem_iff_get hnodup, ← mem_iff_get hother, hperm.mem_iff]

end

/-- An insertion adds its key. -/
theorem mem_keys_insert {other : κ} :
    other ∈ (insert map key value).map Prod.fst ↔ other = key ∨ other ∈ map.map Prod.fst := by
  induction map with
  | nil => simp [insert]
  | cons entry rest ih =>
    rcases entry with ⟨first, old⟩
    unfold insert
    split
    · rename_i heq
      subst heq
      simp
    · simp only [map_cons, mem_cons, ih]
      tauto

/-- Insertions keep the keys distinct. -/
theorem nodup_keys_insert (hnodup : (map.map Prod.fst).Nodup) (key : κ) (value : ν) :
    ((insert map key value).map Prod.fst).Nodup := by
  induction map with
  | nil => simp [insert]
  | cons entry rest ih =>
    rcases entry with ⟨first, old⟩
    unfold insert
    split
    · rename_i heq
      subst heq
      simpa using hnodup
    · grind [mem_keys_insert]

/-- Updates keep the keys distinct. -/
theorem nodup_keys_update (hnodup : (map.map Prod.fst).Nodup) (key : κ) (default : ν) (f : ν → ν) :
    ((update map key default f).map Prod.fst).Nodup :=
  nodup_keys_insert hnodup key _

/-! ## Positions in a list -/

/-- The first position of an item. -/
def position (items : List κ) (item : κ) : Option Nat := items.findIdx? fun other => other == item

/-- An item stands at its position. -/
theorem getElem?_of_position {index : Nat} (h : position items item = some index) :
    items[index]? = some item := by
  rcases findIdx?_eq_some_iff_getElem.mp h with ⟨hindex, hitem, _⟩
  rw [getElem?_eq_getElem hindex, eq_of_beq hitem]

/-- Only an absent item has no position. -/
theorem position_eq_none_iff : position items item = none ↔ item ∉ items := by
  unfold position
  rw [findIdx?_eq_none_iff]
  constructor
  · intro h hmem
    simpa using h item hmem
  · grind

/-- Looking an item up in the map of positions scans for it. -/
theorem get_zipIdx_from (items : List κ) (item : κ) :
    ∀ start, get (items.zipIdx start) item = (position items item).map (· + start) := by
  induction items with
  | nil => exact fun _ => rfl
  | cons first rest ih =>
    intro start
    rw [zipIdx_cons, get, position, findIdx?_cons]
    by_cases hfirst : first = item
    · simp [hfirst]
    · simp only [hfirst, if_false, beq_iff_eq, ih, position, Option.map_map]
      congr 1
      funext index
      simp only [Function.comp_apply]
      omega

/-- Items with their indices map to their first positions. -/
theorem get_zipIdx (items : List κ) (item : κ) : get items.zipIdx item = position items item := by
  rw [get_zipIdx_from]
  simp

/-- A new key goes to the end. -/
theorem insert_of_get_eq_none (value : ν) (h : get map key = none) :
    insert map key value = map ++ [(key, value)] := by
  induction map with
  | nil => rfl
  | cons entry rest ih =>
    rcases entry with ⟨other, old⟩
    unfold get at h
    split at h
    · cases h
    · rename_i hne
      rw [insert, if_neg hne, ih h, cons_append]

/-- A new item takes the next position. -/
theorem insert_zipIdx (h : item ∉ items) :
    insert items.zipIdx item items.length = (items ++ [item]).zipIdx := by
  have hnone : get items.zipIdx item = none := by
    rw [get_zipIdx, position_eq_none_iff]
    exact h
  rw [insert_of_get_eq_none _ hnone, zipIdx_append]
  simp

omit [DecidableEq κ] in
/-- A position of a table stays valid when the table grows. -/
theorem getElem?_of_isPrefix {more : List κ} (h : items <+: more) {index : Nat}
    (hitem : items[index]? = some item) : more[index]? = some item := by
  obtain ⟨rest, rfl⟩ := h
  have hindex := (List.getElem?_eq_some_iff.mp hitem).1
  rw [getElem?_append_left hindex, hitem]

/-! ## Removing a key -/

/-- Remove the entry of a key. -/
def erase (map : List (κ × ν)) (key : κ) : List (κ × ν) :=
  map.filter fun entry => decide (entry.1 ≠ key)

/-- An erased key is not found. -/
theorem get_erase (map : List (κ × ν)) (key other : κ) :
    get (erase map key) other = if other = key then none else get map other := by
  induction map with
  | nil => simp [erase]
  | cons entry rest ih =>
    unfold erase at ih ⊢
    by_cases hentry : entry.1 = key
    · rw [filter_cons_of_neg (by simpa using hentry), ih, get, hentry]
      by_cases hother : other = key
      · simp [hother]
      · simp [hother, Ne.symm hother]
    · rw [filter_cons_of_pos (by simpa using hentry), get, ih, get]
      by_cases hother : other = key
      · simp [hother, hentry]
      · simp [hother]

/-! ## Grouping by key -/

/-- Collect the values of each key in order. -/
def groupBy (pairs : List (κ × ν)) : List (κ × List ν) :=
  pairs.foldl (fun groups pair => update groups pair.1 [] (· ++ [pair.2])) []

/-- The values of one key, in order. -/
def valuesOf (pairs : List (κ × ν)) (key : κ) : List ν :=
  (pairs.filter fun pair => decide (pair.1 = key)).map Prod.snd

theorem groupBy_append_singleton (pairs : List (κ × ν)) (pair : κ × ν) :
    groupBy (pairs ++ [pair]) = update (groupBy pairs) pair.1 [] (· ++ [pair.2]) := by
  rw [groupBy, foldl_append]
  rfl

/-- Groups have distinct keys. -/
theorem nodup_keys_groupBy (pairs : List (κ × ν)) : ((groupBy pairs).map Prod.fst).Nodup := by
  induction pairs using reverseRecOn with
  | nil => exact nodup_nil
  | append_singleton pairs pair ih =>
    rw [groupBy_append_singleton]
    exact nodup_keys_update ih _ _ _

/-- The group of a key has its values in order. -/
theorem get_groupBy (pairs : List (κ × ν)) (key : κ) : get (groupBy pairs) key =
      if valuesOf pairs key = [] then none else some (valuesOf pairs key) := by
  induction pairs using reverseRecOn with
  | nil => rfl
  | append_singleton pairs pair ih =>
    rw [groupBy_append_singleton, get_update]
    by_cases hkey : key = pair.1
    · subst hkey
      have hgrown : valuesOf (pairs ++ [pair]) pair.1 = valuesOf pairs pair.1 ++ [pair.2] := by
        simp [valuesOf]
      have hne : valuesOf pairs pair.1 ++ [pair.2] ≠ [] := by simp
      rw [if_pos rfl, ih, hgrown, if_neg hne]
      by_cases hempty : valuesOf pairs pair.1 = []
      · rw [if_pos hempty, hempty]
        rfl
      · rw [if_neg hempty]
        rfl
    · have hsame : valuesOf (pairs ++ [pair]) key = valuesOf pairs key := by
        simp [valuesOf, Ne.symm hkey]
      rw [if_neg hkey, ih, hsame]

/-- A group is nonempty and holds the values of its key in order. -/
theorem mem_groupBy {pairs : List (κ × ν)} {values : List ν} (h : (key, values) ∈ groupBy pairs) :
    values = valuesOf pairs key ∧ values ≠ [] := by
  have hget := get_of_mem (nodup_keys_groupBy pairs) h
  rw [get_groupBy] at hget
  split at hget
  · cases hget
  · rename_i hne
    cases hget
    exact ⟨rfl, hne⟩

section Image

variable {μ : Type} (f : ν → μ)

/-- Values may be mapped before or after the lookup. -/
theorem get_map (map : List (κ × ν)) (key : κ) :
    get (map.map (Prod.map id f)) key = (get map key).map f := by
  induction map with
  | nil => rfl
  | cons entry rest ih =>
    rw [map_cons, Prod.map, get, get, ih]
    by_cases hentry : entry.1 = key <;> simp [hentry]

theorem insert_map (map : List (κ × ν)) (key : κ) (value : ν) :
    insert (map.map (Prod.map id f)) key (f value) =
      (insert map key value).map (Prod.map id f) := by
  induction map with
  | nil => rfl
  | cons entry rest ih =>
    rw [map_cons, Prod.map, insert, insert, ih]
    by_cases hentry : entry.1 = key <;> simp [hentry, Prod.map]

/-- Grouping images gives the images of the groups. -/
theorem groupBy_map (pairs : List (κ × ν)) :
    groupBy (pairs.map (Prod.map id f)) = (groupBy pairs).map (Prod.map id (List.map f)) := by
  induction pairs using reverseRecOn with
  | nil => rfl
  | append_singleton pairs pair ih =>
    rw [map_append, map_singleton, groupBy_append_singleton,
      groupBy_append_singleton, ih, update, update, ← insert_map, get_map]
    simp only [Prod.map, id_eq]
    cases get (groupBy pairs) pair.1 <;> simp

end Image

/-- The pairs of a list of groups. -/
def ungroup (groups : List (κ × List ν)) : List (κ × ν) :=
  groups.flatMap fun group => group.2.map fun value => (group.1, value)

/-- Grouping one more value keeps the others. -/
theorem perm_ungroup_update (groups : List (κ × List ν)) (key : κ) (value : ν) :
    (ungroup (update groups key [] (· ++ [value]))).Perm (ungroup groups ++ [(key, value)]) := by
  unfold update
  induction groups with
  | nil => simp [ungroup, insert]
  | cons group rest ih =>
    obtain ⟨other, values⟩ := group
    by_cases hother : other = key
    · subst hother
      simp only [get, insert, if_true, ungroup, flatMap_cons, Option.getD_some,
        map_append, map_cons, map_nil, append_assoc]
      exact (perm_append_comm).append_left _
    · simp only [get, insert, if_neg hother]
      rw [ungroup, flatMap_cons, ungroup, flatMap_cons, append_assoc]
      exact ih.append_left _

/-- Grouping rearranges the pairs. -/
theorem perm_groupBy (pairs : List (κ × ν)) : (ungroup (groupBy pairs)).Perm pairs := by
  induction pairs using reverseRecOn with
  | nil => exact Perm.refl _
  | append_singleton pairs pair ih =>
    rw [groupBy_append_singleton]
    exact (perm_ungroup_update _ _ _).trans (ih.append_right _)

end AssocMap
