import Os161.Common.Wp
import Os161.Lib.Model.Kheap
/-!
# The pagerefs in use

`pagerefs_inuse` is a set of indices. `allocpageref` adds one that was not in it,
or finds none, and `freepageref` takes one out.
-/

namespace Os161

namespace Kheap

open Prog Function Heap

variable {h : Heap} {w : BitVec 32} {i j p q : ℕ} {E : Stop Empty → Heap → Prop}

/-- The bit of a pageref. -/
def Heap.bit (h : Heap) (q : ℕ) : Bool := (h.inuse (q / 32)).getLsbD (q % 32)

/-- A word with one bit. -/
def bitOf (j : ℕ) : BitVec 32 := 1 <<< j

/-- A pageref is marked. -/
def Heap.mark (h : Heap) (q : ℕ) : Heap :=
  { h with inuse := update h.inuse (q / 32) (h.inuse (q / 32) ||| bitOf (q % 32)) }

/-- A pageref is not marked any more. -/
def Heap.unmark (h : Heap) (q : ℕ) : Heap :=
  { h with inuse := update h.inuse (q / 32) (h.inuse (q / 32) &&& ~~~ bitOf (q % 32)) }

/-! ## One word -/

theorem bitOf_eq_twoPow : bitOf j = BitVec.twoPow 32 j := (BitVec.twoPow_eq 32 j).symm

theorem bitOf_succ : bitOf j <<< 1 = bitOf (j + 1) := (BitVec.shiftLeft_add 1 j 1).symm

theorem getLsbD_bitOf (hj : j < 32) (i : ℕ) : (bitOf j).getLsbD i = decide (i = j) := by
  rw [bitOf_eq_twoPow, BitVec.getLsbD_twoPow, decide_eq_true hj, Bool.true_and]
  exact decide_eq_decide.2 eq_comm

theorem bitOf_ne_zero (hj : j < 32) : bitOf j ≠ 0 := by
  intro hzero
  have hbit := getLsbD_bitOf hj j
  rw [hzero, decide_eq_true rfl] at hbit
  exact Bool.false_ne_true (BitVec.getLsbD_zero.symm.trans hbit)

theorem and_bitOf (hj : j < 32) : w &&& bitOf j = 0 ↔ w.getLsbD j = false := by
  rw [bitOf_eq_twoPow, BitVec.and_twoPow, ← bitOf_eq_twoPow]
  cases w.getLsbD j with
  | false => simp
  | true => simpa using bitOf_ne_zero hj

/-- A word that is not full has a clear bit. -/
theorem exists_clear (hw : w ≠ BitVec.allOnes 32) : ∃ j < 32, w.getLsbD j = false := by
  by_contra hall
  push Not at hall
  refine hw (BitVec.eq_of_getLsbD_eq fun j hj => ?_)
  rw [BitVec.getLsbD_allOnes, decide_eq_true hj]
  exact Bool.not_eq_false _ ▸ hall j hj

/-! ## The set -/

theorem Heap.bit_mark : (h.mark q).bit p = (h.bit p || decide (p = q)) := by
  unfold bit mark
  by_cases hword : p / 32 = q / 32
  · simp only
    rw [hword, update_self, BitVec.getLsbD_or,
      getLsbD_bitOf (Nat.mod_lt _ (by omega))]
    congr 1
    exact decide_eq_decide.2 ⟨fun h => by omega, fun h => by omega⟩
  · simp only
    rw [update_of_ne hword, decide_eq_false (fun h => hword (by rw [h])), Bool.or_false]

theorem Heap.bit_unmark : (h.unmark q).bit p = (h.bit p && decide (p ≠ q)) := by
  unfold bit unmark
  by_cases hword : p / 32 = q / 32
  · simp only
    rw [hword, update_self, BitVec.getLsbD_and, BitVec.getLsbD_not,
      getLsbD_bitOf (Nat.mod_lt _ (by omega)), decide_eq_true (Nat.mod_lt p (by omega)),
      Bool.true_and, ← decide_not]
    congr 1
    exact decide_eq_decide.2 ⟨fun h => by omega, fun h => by omega⟩
  · simp only
    have hne : p ≠ q := fun h => hword (by rw [h])
    rw [update_of_ne hword, decide_eq_true hne, Bool.and_true]

/-- The search in one word finds a clear bit. -/
theorem wp_allocBit {fuel : ℕ} (hclear : ∃ j', j ≤ j' ∧ j' < 32 ∧ (h.inuse i).getLsbD j' = false)
    (hfuel : 32 < fuel + j) :
    wp (allocBit i fuel (bitOf j) j)
      (fun r h' => ∃ j' < 32, (h.inuse i).getLsbD j' = false ∧ r = some (i * 32 + j') ∧
        h' = h.mark (i * 32 + j')) E h := by
  induction fuel generalizing j with
  | zero =>
    omega
  | succ fuel ih =>
    obtain ⟨j', h1, h2, h3⟩ := hclear
    unfold allocBit
    rw [if_pos (bitOf_ne_zero (by omega)), wp_get_bind, wp_ite]
    split
    · rename_i hbit
      rw [wp_bind, wp_set, wp_pure]
      refine ⟨j, by omega, (and_bitOf (by omega)).1 hbit, rfl, ?_⟩
      have hdiv : (i * 32 + j) / 32 = i := by omega
      have hmod : (i * 32 + j) % 32 = j := by omega
      rw [mark, hdiv, hmod]
    · rename_i hbit
      have hset : (h.inuse i).getLsbD j ≠ false := fun hj =>
        hbit ((and_bitOf (by omega)).2 hj)
      have hne : j ≠ j' := fun hj => hset (hj ▸ h3)
      rw [bitOf_succ]
      exact ih ⟨j', by omega, h2, h3⟩ (by omega)

theorem wp_allocpagerefFrom (n i : ℕ) (hi : i + n = inuseWords) :
    wp (allocpagerefFrom n i)
      (fun r h' => (r = none ∧ h' = h) ∨
        ∃ q < npagerefs, r = some q ∧ h.bit q = false ∧ h' = h.mark q) E h := by
  induction n generalizing i with
  | zero => exact wp_pure.2 (.inl ⟨rfl, rfl⟩)
  | succ n ih =>
    unfold allocpagerefFrom
    rw [wp_get_bind, wp_ite]
    split
    · exact ih (i + 1) (by omega)
    · rename_i hfull
      obtain ⟨j, hj, hclear⟩ := exists_clear hfull
      have hone : (1 : BitVec 32) = bitOf 0 := rfl
      refine wp_imp (wp_allocBit ⟨j, Nat.zero_le j, hj, hclear⟩ (by omega)) fun r h' hr => ?_
      obtain ⟨j', hj', hbit, hr, hh'⟩ := hr
      rw [inuseWords] at hi
      refine .inr ⟨i * 32 + j', by rw [npagerefs]; omega, hr, ?_, hh'⟩
      have hdiv : (i * 32 + j') / 32 = i := by omega
      have hmod : (i * 32 + j') % 32 = j' := by omega
      rw [bit, hdiv, hmod]
      exact hbit

/-- **`allocpageref` marks a pageref that was not in use, or finds none.** -/
theorem wp_allocpageref :
    wp allocpageref
      (fun r h' => (r = none ∧ h' = h) ∨
        ∃ q < npagerefs, r = some q ∧ h.bit q = false ∧ h' = h.mark q) E h :=
  wp_allocpagerefFrom inuseWords 0 (Nat.zero_add _)

/-- **`freepageref` takes a pageref out that was in use.** -/
theorem wp_freepageref {Q : Unit → Heap → Prop} (hq : q < npagerefs) (hbit : h.bit q = true) :
    wp (freepageref q) Q E h ↔ Q () (h.unmark q) := by
  have hset : h.inuse (q / 32) &&& (1 : BitVec 32) <<< (q % 32) ≠ 0 := by
    show h.inuse (q / 32) &&& bitOf (q % 32) ≠ 0
    rw [Ne, and_bitOf (Nat.mod_lt _ (by omega))]
    exact ne_of_eq_of_ne hbit (by decide)
  unfold freepageref
  rw [wp_assert_bind hq, wp_get_bind, wp_assert_bind hset, wp_set]
  rfl

end Kheap

end Os161
