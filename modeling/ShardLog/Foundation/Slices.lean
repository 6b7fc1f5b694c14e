import Mathlib.Algebra.Order.Group.Nat
import Mathlib.Data.List.Basic

/-!
# Foundation - Slices of lists

Half-open ranges of a list, and how they are put together from ranges of the pieces
of a fixed width.
-/

namespace Slices

open List

variable {α : Type} {start stop : Nat} {width : Nat} {items : List α}

/-- The items from `start` up to `stop`. -/
def slice (items : List α) (start stop : Nat) : List α := (items.drop start).take (stop - start)

theorem slice_eq_nil (items : List α) (h : stop ≤ start) : slice items start stop = [] := by
  rw [slice, Nat.sub_eq_zero_of_le h, take_zero]

/-- A range of a range. -/
theorem slice_slice (items : List α) (start stop first last : Nat) :
    slice (slice items start stop) first last =
      slice items (start + first) (min (start + last) stop) := by
  rw [slice, slice, slice, drop_take, take_take, drop_drop]
  congr 1
  omega

/-- Adjacent ranges. -/
theorem slice_append_slice (items : List α) {middle : Nat} (hstart : start ≤ middle)
    (hstop : middle ≤ stop) :
    slice items start middle ++ slice items middle stop = slice items start stop := by
  have hmiddle : items.drop middle = (items.drop start).drop (middle - start) := by
    rw [drop_drop, Nat.add_sub_of_le hstart]
  have hlength : stop - start = (middle - start) + (stop - middle) := by omega
  rw [slice, slice, slice, hmiddle, hlength, take_add]

/-- The piece of a fixed width with a number; the last piece may be shorter. -/
def piece (width : Nat) (items : List α) (index : Nat) : List α :=
  slice items (index * width) (min ((index + 1) * width) items.length)

/-- The part of a piece inside a range. -/
def common (width : Nat) (items : List α) (start stop index : Nat) : List α :=
  slice (piece width items index) (max start (index * width) - index * width)
    (min stop (min ((index + 1) * width) items.length) - index * width)

/-- The part of a range in one piece. -/
theorem common_eq {index : Nat} (hstop : stop ≤ items.length) :
    common width items start stop index =
      slice items (max start (index * width)) (min stop ((index + 1) * width)) := by
  rw [common, piece, slice_slice]
  by_cases hbefore : min stop ((index + 1) * width) ≤ max start (index * width)
  · rw [slice_eq_nil _ hbefore, slice_eq_nil]
    omega
  · congr 1 <;> omega

/-- The parts of consecutive pieces make up the range they span. -/
theorem flatten_common (hstop : stop ≤ items.length) (count : Nat) {index : Nat}
    (hstart : start < (index + 1) * width) :
    ((range' index count).map (common width items start stop)).flatten =
      slice items (max start (index * width)) (min stop ((index + count) * width)) := by
  induction count generalizing index with
  | zero => simp [slice_eq_nil]
  | succ count ih =>
    have hgrows : (index + 1) * width ≤ (index + 1 + 1) * width :=
      Nat.mul_le_mul_right _ (Nat.le_succ _)
    have hwithin : index * width ≤ (index + 1) * width := Nat.mul_le_mul_right _ (Nat.le_succ _)
    have hspan : (index + 1) * width ≤ (index + 1 + count) * width :=
      Nat.mul_le_mul_right _ (Nat.le_add_right _ _)
    have hsame : index + (count + 1) = index + 1 + count := by omega
    rw [range'_succ, map_cons, flatten_cons, ih (hstart.trans_le hgrows),
      common_eq hstop, hsame, max_eq_right hstart.le]
    by_cases hinside : stop ≤ (index + 1) * width
    · grind [slice_eq_nil]
    · grind [slice_append_slice]

/-- A nonempty range is made up from the pieces between its first and its last item. -/
theorem flatten_pieces (hwidth : 0 < width) (hrange : start < stop) (hstop : stop ≤ items.length) :
    ((range' (start / width) ((stop - 1) / width - start / width + 1)).map
      (common width items start stop)).flatten = slice items start stop := by
  have hfirst : start / width ≤ (stop - 1) / width := Nat.div_le_div_right (by omega)
  have hlast : start / width + ((stop - 1) / width - start / width + 1) =
      (stop - 1) / width + 1 := by omega
  have hbelow : start < (start / width + 1) * width := by
    rw [Nat.mul_comm]
    exact Nat.lt_mul_div_succ start hwidth
  have habove : stop - 1 < ((stop - 1) / width + 1) * width := by
    rw [Nat.mul_comm]
    exact Nat.lt_mul_div_succ (stop - 1) hwidth
  rw [flatten_common hstop _ hbelow, hlast, max_eq_left (Nat.div_mul_le_self _ _),
    min_eq_left (by omega)]

end Slices
