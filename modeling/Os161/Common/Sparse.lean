import Mathlib.Data.List.GetD
import Mathlib.Data.Int.Notation
/-!
# Sparse arrays

A store of values at all positions, of which a size says how many count.
Nothing is ever out of range: a read stops at the size, and a write may begin
past it, and then the size jumps.

`slice` and `patch` are the two operations on the values alone. What the users
of an array need is how they compose: a read or a write of one range is the
reads or writes of the ranges it is cut into.
-/

namespace Os161

open List

/-- The `n` values from position `o` on. -/
def slice {α : Type} (f : ℕ → α) (o n : ℕ) : List α := (range n).map fun i => f (o + i)

/-- The values `l` from position `o` on, and the others as they are. -/
def patch {α : Type} (f : ℕ → α) (o : ℕ) (l : List α) : ℕ → α := fun p =>
  if o ≤ p then l.getD (p - o) (f p) else f p

/-- **A sparse array.** The size may be negative, as one that is kept in a
signed word may. -/
structure Sparse (α : Type) where
  size : ℤ
  data : ℕ → α

namespace Sparse

variable {α : Type}

/-- How many of the `n` values from `o` on there are. -/
def avail (a : Sparse α) (o n : ℕ) : ℕ := (min (n : ℤ) (a.size - o)).toNat

def read (a : Sparse α) (o n : ℕ) : List α := slice a.data o (a.avail o n)

def write (a : Sparse α) (o : ℕ) (l : List α) : Sparse α where
  size := max a.size (o + l.length)
  data := patch a.data o l

end Sparse

variable {α : Type} {f g : ℕ → α} {o n m p : ℕ} {l l' : List α}

/-! ## Slices -/

@[simp] theorem length_slice : (slice f o n).length = n := by
  simp [slice]

theorem getD_slice (h : p < n) (d : α) : (slice f o n).getD p d = f (o + p) := by
  rw [getD_eq_getElem _ _ (by simpa using h)]
  simp [slice]

/-- **A slice is cut in two.** -/
theorem slice_add : slice f o (n + m) = slice f o n ++ slice f (o + n) m := by
  unfold slice
  rw [range_add, map_append, map_map]
  simp [Function.comp_def, Nat.add_assoc]

theorem slice_congr (h : ∀ p, o ≤ p → p < o + n → f p = g p) : slice f o n = slice g o n := by
  refine map_congr_left fun i hi => h (o + i) (by omega) ?_
  have := mem_range.1 hi
  omega

/-! ## Patches -/

@[simp] theorem patch_nil : patch f o [] = f := by
  funext p
  simp [patch]

theorem patch_of_lt (h : p < o) : patch f o l p = f p := if_neg (by omega)

theorem patch_of_ge (h : o + l.length ≤ p) : patch f o l p = f p := by
  unfold patch
  rw [getD_eq_default _ _ (by omega), ite_self]

theorem patch_of_mem (h : o ≤ p) (h' : p < o + l.length) (d : α) :
    patch f o l p = l.getD (p - o) d := by
  unfold patch
  rw [if_pos h, getD_eq_getElem _ _ (by omega), getD_eq_getElem _ _ (by omega)]

/-- **Two patches in a row are one.** -/
theorem patch_append : patch f o (l ++ l') = patch (patch f o l) (o + l.length) l' := by
  funext p
  by_cases hlt : p < o
  · rw [patch_of_lt hlt, patch_of_lt (by omega), patch_of_lt hlt]
  by_cases hmid : p < o + l.length
  · rw [patch_of_lt hmid, patch_of_mem (by omega) (by rw [length_append]; omega) (f p),
      patch_of_mem (by omega) hmid (f p), getD_append _ _ _ _ (by omega)]
  by_cases hend : p < o + (l ++ l').length
  · have hend' : p < o + l.length + l'.length := by
      rw [length_append] at hend
      omega
    rw [patch_of_mem (by omega) hend (f p), patch_of_mem (by omega) hend' (f p),
      getD_append_right _ _ _ _ (by omega), show p - o - l.length = p - (o + l.length) by omega]
  · have hend' : o + l.length + l'.length ≤ p := by
      rw [length_append] at hend
      omega
    rw [patch_of_ge (by omega), patch_of_ge hend', patch_of_ge (by omega)]

/-- **What is written is read back.** -/
theorem slice_patch : slice (patch f o l) o l.length = l := by
  refine ext_getElem (by simp) fun i hi hi' => ?_
  rw [← getD_eq_getElem _ (f o) hi, ← getD_eq_getElem _ (f o) hi',
    getD_slice (by simpa using hi), patch_of_mem (by omega) (by omega) (f o),
    Nat.add_sub_cancel_left]

/-- A read elsewhere does not see a write. -/
theorem slice_patch_of_disjoint (h : o + l.length ≤ p ∨ p + n ≤ o) :
    slice (patch f o l) p n = slice f p n := by
  refine slice_congr fun q hq hq' => ?_
  rcases h with h | h
  · exact patch_of_ge (by omega)
  · exact patch_of_lt (by omega)

end Os161
