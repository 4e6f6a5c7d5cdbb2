import Mathlib.Algebra.BigOperators.Group.Finset.Piecewise
import Mathlib.Algebra.Order.BigOperators.Group.Finset
/-!
# Units that workers hold

Workers stand at places, and at a place a worker holds some units of each of a
number of kinds: the semaphores it has taken and not given back, a lock, a turn.
`held` adds them up. A step moves one worker, and the sum changes by what that
worker holds more or less (`held_update`); so a count that changes by as much
the other way keeps its sum with them.

Nothing here is about any one program: the workers, the places and what is held
at them are the user's.
-/

namespace Os161

namespace Units

variable {W P : Type*} [Fintype W] {units : P → ℕ} {pc : W → P} {w w' : W}

/-- **The units with the workers**, at the places where they stand. -/
def held (units : P → ℕ) (pc : W → P) : ℕ := ∑ w, units (pc w)

theorem units_le_held (units : P → ℕ) (pc : W → P) (w : W) : units (pc w) ≤ held units pc :=
  Finset.single_le_sum (f := fun w => units (pc w)) (fun _ _ => Nat.zero_le _) (Finset.mem_univ w)

/-- Units that are held are with somebody. -/
theorem exists_of_held_pos (h : 0 < held units pc) : ∃ w, 0 < units (pc w) := by
  obtain ⟨w, -, hw⟩ := Finset.exists_ne_zero_of_sum_ne_zero (s := Finset.univ)
    (f := fun w => units (pc w)) h.ne'
  exact ⟨w, Nat.pos_of_ne_zero hw⟩

theorem held_eq_zero : held units pc = 0 ↔ ∀ w, units (pc w) = 0 := by
  unfold held
  simp

/-- The workers of a set that each hold a unit are no more than the units. -/
theorem card_le_held (units : P → ℕ) (pc : W → P) {S : Finset W}
    (hS : ∀ w ∈ S, 0 < units (pc w)) : S.card ≤ held units pc := by
  calc S.card = ∑ _w ∈ S, 1 := Finset.card_eq_sum_ones S
    _ ≤ ∑ w ∈ S, units (pc w) := Finset.sum_le_sum hS
    _ ≤ held units pc :=
      Finset.sum_le_sum_of_subset_of_nonneg (Finset.subset_univ S) fun _ _ _ => Nat.zero_le _

variable [DecidableEq W]

/-- **One worker moves**, and the sum changes by what it holds. -/
theorem held_update (units : P → ℕ) (pc : W → P) (w : W) (p : P) :
    held units (Function.update pc w p) + units (pc w) = held units pc + units p := by
  have hmem := Finset.mem_univ w
  have hrest : ∑ u ∈ Finset.univ.erase w, units (Function.update pc w p u) =
      ∑ u ∈ Finset.univ.erase w, units (pc u) := by
    refine Finset.sum_congr rfl fun u hu => ?_
    rw [Function.update_of_ne (Finset.ne_of_mem_erase hu)]
  unfold held
  rw [← Finset.add_sum_erase _ _ hmem, ← Finset.add_sum_erase _ _ hmem, hrest,
    Function.update_self]
  omega

/-- One unit has one holder. -/
theorem eq_of_held_le_one (units : P → ℕ) (pc : W → P) (h : held units pc ≤ 1)
    (hw : 0 < units (pc w)) (hw' : 0 < units (pc w')) : w = w' := by
  by_contra hne
  have hcard := card_le_held units pc (S := {w, w'}) (by simp [hw, hw'])
  rw [Finset.card_pair hne] at hcard
  omega

end Units

end Os161
