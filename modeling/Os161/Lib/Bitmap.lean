import Os161.Lib.Model.Bitmap
import Os161.Common.Client
import Mathlib.Data.Finset.Basic
import Mathlib.Tactic.IntervalCases
/-!
# A bitmap is a set of indices

`bitmap_alloc` takes the least index that is not set (`wp_bitmapAlloc`), and
`bitmap_mark` and `bitmap_unmark` add and remove one index. A new bitmap has
none below its end and all of those behind it, so that over any sequence of
calls it agrees with the set that the calls define (`bitmap_is_set`).
-/

namespace Os161

namespace Lib

namespace Bitmap

open Prog

variable {b : Bitmap} {w : UInt8} {i j k : ℕ}

/-! ## One word -/

theorem getLsbD_mask (hk : k < 8) (j : ℕ) : (mask k).toBitVec.getLsbD j = decide (j = k) := by
  have hmask : (mask k).toBitVec = BitVec.twoPow 8 k := by interval_cases k <;> rfl
  rw [hmask, BitVec.getLsbD_twoPow, decide_eq_true hk, Bool.true_and]
  exact decide_eq_decide.2 eq_comm

/-- A word has the bit of a mask. -/
theorem and_mask_ne_zero_iff (hk : k < 8) : w &&& mask k ≠ 0 ↔ w.toBitVec.getLsbD k = true := by
  have hbits : ∀ j, (w &&& mask k).toBitVec.getLsbD j = (w.toBitVec.getLsbD j && decide (j = k)) :=
    fun j => by rw [UInt8.toBitVec_and, BitVec.getLsbD_and, getLsbD_mask hk]
  constructor
  · intro h
    by_contra hbit
    refine h (UInt8.toBitVec_inj.1 (BitVec.eq_of_getLsbD_eq fun j hj => ?_))
    rw [hbits]
    by_cases hjk : j = k
    · rw [hjk, Bool.eq_false_iff.2 hbit]
      exact (BitVec.getLsbD_zero).symm
    · rw [decide_eq_false hjk, Bool.and_false]
      exact (BitVec.getLsbD_zero).symm
  · intro hbit h
    have hzero := hbits k
    rw [hbit, h, decide_eq_true rfl] at hzero
    exact absurd ((BitVec.getLsbD_zero).symm.trans hzero) (by decide)

theorem or_mask_and (hj : j < 8) (hk : k < 8) :
    (w ||| mask k) &&& mask j ≠ 0 ↔ w &&& mask j ≠ 0 ∨ j = k := by
  rw [and_mask_ne_zero_iff hj, and_mask_ne_zero_iff hj, UInt8.toBitVec_or, BitVec.getLsbD_or,
    getLsbD_mask hk, Bool.or_eq_true, decide_eq_true_iff]

theorem and_not_mask_and (hj : j < 8) (hk : k < 8) :
    (w &&& ~~~ mask k) &&& mask j ≠ 0 ↔ w &&& mask j ≠ 0 ∧ j ≠ k := by
  rw [and_mask_ne_zero_iff hj, and_mask_ne_zero_iff hj, UInt8.toBitVec_and, UInt8.toBitVec_not,
    BitVec.getLsbD_and, BitVec.getLsbD_not, getLsbD_mask hk, decide_eq_true hj]
  simp

/-- A word that is not all bits has one that is clear. -/
theorem exists_clear_of_ne (h : w ≠ 0xff) : ∃ k < 8, w &&& mask k = 0 := by
  by_contra hall
  push Not at hall
  refine h (UInt8.toBitVec_inj.1 (BitVec.eq_of_getLsbD_eq fun j hj => ?_))
  rw [(and_mask_ne_zero_iff hj).1 (hall j hj)]
  interval_cases j <;> rfl

theorem and_mask_of_all (hk : k < 8) : (0xff : UInt8) &&& mask k ≠ 0 := by
  interval_cases k <;> decide

/-! ## The set -/

/-- The bitmap with one more index. -/
def mark (b : Bitmap) (i : ℕ) : Bitmap :=
  b.setWord (i / 8) (b.v (i / 8) ||| mask (i % 8))

/-- The bitmap without one index. -/
def unmark (b : Bitmap) (i : ℕ) : Bitmap :=
  b.setWord (i / 8) (b.v (i / 8) &&& ~~~ mask (i % 8))

theorem setWord_v (b : Bitmap) (ix : ℕ) (w : UInt8) (j : ℕ) :
    (b.setWord ix w).v j = if j = ix then w else b.v j :=
  Function.update_apply ..

theorem isSet_mark : (b.mark i).IsSet j ↔ b.IsSet j ∨ j = i := by
  unfold IsSet mark
  rw [setWord_v]
  by_cases hword : j / 8 = i / 8
  · rw [if_pos hword, hword, or_mask_and (by omega) (by omega)]
    have : j % 8 = i % 8 ↔ j = i := by omega
    rw [this]
  · rw [if_neg hword]
    have : j ≠ i := fun h => hword (by rw [h])
    simp [this]

theorem isSet_unmark : (b.unmark i).IsSet j ↔ b.IsSet j ∧ j ≠ i := by
  unfold IsSet unmark
  rw [setWord_v]
  by_cases hword : j / 8 = i / 8
  · rw [if_pos hword, hword, and_not_mask_and (by omega) (by omega)]
    have : j % 8 ≠ i % 8 ↔ j ≠ i := by omega
    rw [this]
  · rw [if_neg hword]
    have : j ≠ i := fun h => hword (by rw [h])
    simp [this]

/-- **The bits past the end are in use**, so that no search comes to them. -/
def Padded (b : Bitmap) : Prop := ∀ i, b.nbits ≤ i → i < words b.nbits * 8 → b.IsSet i

/-- The words before `ix` are full, and the search goes on from there. -/
theorem wp_bitmapAllocFrom (hpad : b.Padded) {n ix : ℕ} (hn : ix + n = words b.nbits)
    (hfull : ∀ i < ix * 8, b.IsSet i) :
    wp (bitmapAllocFrom n ix)
      (fun i b' => i < b.nbits ∧ ¬ b.IsSet i ∧ (∀ j < i, b.IsSet j) ∧ b' = b.mark i)
      (fun e b' => e = .error .ENOSPC ∧ b' = b ∧ ∀ i < words b.nbits * 8, b.IsSet i) b := by
  induction n generalizing ix with
  | zero =>
    rw [bitmapAllocFrom, wp_fail]
    exact ⟨rfl, rfl, fun i hi => hfull i (by omega)⟩
  | succ n ih =>
    rw [bitmapAllocFrom, wp_get_bind, wp_ite]
    split <;> rename_i hword
    · -- the first clear bit of the word, below which all are set
      obtain ⟨k, hk, hclear⟩ := exists_clear_of_ne hword
      cases hfind : (List.range 8).find? fun offset => b.v ix &&& mask offset == 0 with
      | none =>
        rw [List.find?_eq_none] at hfind
        exact absurd (beq_iff_eq.2 hclear) (hfind k (List.mem_range.2 hk))
      | some offset =>
        have hoff : offset < 8 := List.mem_range.1 (List.mem_of_find?_eq_some hfind)
        have hzero : b.v ix &&& mask offset = 0 := by simpa using List.find?_some hfind
        have hdiv : (ix * 8 + offset) / 8 = ix := by omega
        have hmod : (ix * 8 + offset) % 8 = offset := by omega
        have hunset : ¬ b.IsSet (ix * 8 + offset) := by
          unfold IsSet
          rw [hdiv, hmod]
          simpa using hzero
        have hlt : ix * 8 + offset < b.nbits := by
          by_contra hge
          exact hunset (hpad _ (by omega) (by omega))
        rw [wp_bind, wp_set, wp_assert_bind hlt, wp_pure]
        refine ⟨hlt, hunset, fun j hj => ?_, ?_⟩
        · by_cases hjw : j < ix * 8
          · exact hfull j hjw
          · have hjdiv : j / 8 = ix := by omega
            have hbefore := (List.find?_range_eq_some.1 hfind).2.2 (j % 8) (by omega)
            unfold IsSet
            rw [hjdiv]
            simpa using hbefore
        · unfold mark
          rw [hdiv, hmod]
    · have hword : b.v ix = 0xff := by simpa using hword
      refine ih (by omega) fun i hi => ?_
      by_cases hjw : i < ix * 8
      · exact hfull i hjw
      · unfold IsSet
        rw [show i / 8 = ix by omega, hword]
        exact and_mask_of_all (by omega)

/-- **`bitmap_alloc` takes the least index that is not set.** -/
theorem wp_bitmapAlloc (hpad : b.Padded) :
    wp bitmapAlloc
      (fun i b' => i < b.nbits ∧ ¬ b.IsSet i ∧ (∀ j < i, b.IsSet j) ∧ b' = b.mark i)
      (fun e b' => e = .error .ENOSPC ∧ b' = b ∧ ∀ i < words b.nbits * 8, b.IsSet i) b := by
  unfold bitmapAlloc
  rw [wp_get_bind]
  exact wp_bitmapAllocFrom hpad (Nat.zero_add _) fun i hi => by omega

theorem run_bitmapMark (hlt : i < b.nbits) (hclear : ¬ b.IsSet i) :
    bitmapMark i b = .ok () (b.mark i) := by
  unfold bitmapMark
  rw [get_bind_apply, bind_of_ok (assert_of hlt), bind_of_ok (assert_of hclear)]
  rfl

theorem run_bitmapUnmark (hlt : i < b.nbits) (hset : b.IsSet i) :
    bitmapUnmark i b = .ok () (b.unmark i) := by
  unfold bitmapUnmark
  rw [get_bind_apply, bind_of_ok (assert_of hlt), bind_of_ok (assert_of hset)]
  rfl

/-! ## Whole runs -/

/-- The calls that change a bitmap. -/
inductive Call where
  | alloc
  | mark (index : ℕ)
  | unmark (index : ℕ)

/-- The calls of a bitmap that stands for a set. Only clear bits are marked, and only set
bits are unmarked. -/
def calls (nbits : ℕ) : Client Bitmap (Finset ℕ) Call Errno ℕ where
  call
    | .alloc => bitmapAlloc
    | .mark i => do bitmapMark i; pure i
    | .unmark i => do bitmapUnmark i; pure i
  legal ids
    | .alloc => True
    | .mark i => i < nbits ∧ i ∉ ids
    | .unmark i => i < nbits ∧ i ∈ ids
  follow ids
    | .unmark i, .ok _, _ => ids.erase i
    | _, .ok i, _ => insert i ids
    | _, .error _, _ => ids

/-- **The bitmap is the set**, and its bits past the end are in use. -/
structure Agrees (nbits : ℕ) (b : Bitmap) (ids : Finset ℕ) : Prop where
  bits : b.nbits = nbits
  padded : b.Padded
  isSet : ∀ i < nbits, b.IsSet i ↔ i ∈ ids

/-- The answer to a call: `bitmap_alloc` takes the least index that is not in the set, or
the set has all of them and nothing changes. -/
def Answers (nbits : ℕ) (b : Bitmap) (ids : Finset ℕ) : Call → Except Errno ℕ → Bitmap → Prop
  | .alloc, .ok i, _ => i < nbits ∧ i ∉ ids ∧ ∀ j < i, j ∈ ids
  | .alloc, .error e, b' => e = .ENOSPC ∧ b' = b ∧ ∀ i < nbits, i ∈ ids
  | _, .ok _, _ => True
  | _, .error _, _ => False

variable {nbits : ℕ} {ids : Finset ℕ}

theorem Agrees.mark (h : Agrees nbits b ids) (i : ℕ) :
    Agrees nbits (b.mark i) (insert i ids) where
  bits := h.bits
  padded j hj hlt := isSet_mark.2 (.inl (h.padded j hj hlt))
  isSet j hj := by
    rw [isSet_mark, h.isSet j hj, Finset.mem_insert, or_comm]

theorem Agrees.unmark (h : Agrees nbits b ids) (hi : i < nbits) :
    Agrees nbits (b.unmark i) (ids.erase i) where
  bits := h.bits
  padded j hj hlt := by
    have hge : nbits ≤ j := h.bits ▸ hj
    exact isSet_unmark.2 ⟨h.padded j hj hlt, by omega⟩
  isSet j hj := by
    rw [isSet_unmark, h.isSet j hj, Finset.mem_erase, and_comm]

/-- **A legal call** does to the bitmap what it does to the set. -/
theorem Agrees.call (hn : nbits ≤ 2 ^ 32 - 8) (h : Agrees nbits b ids) {c : Call}
    (hc : (calls nbits).legal ids c) :
    Back ((calls nbits).call c) (fun r b' => Answers nbits b ids c r b' ∧
      Agrees nbits b' ((calls nbits).follow ids c r b')) b := by
  cases c with
  | alloc =>
    refine wp_mono (wp_bitmapAlloc h.padded) ?_ ?_
    · rintro i _ ⟨hlt, hclear, hbelow, rfl⟩
      rw [h.bits] at hlt
      exact ⟨⟨hlt, mt (h.isSet i hlt).2 hclear,
        fun j hj => (h.isSet j (by omega)).1 (hbelow j hj)⟩, h.mark i⟩
    · rintro e _ ⟨rfl, rfl, hall⟩
      refine ⟨_, rfl, ⟨rfl, rfl, fun i hi => (h.isSet i hi).1 (hall i ?_)⟩, h⟩
      rw [h.bits]
      unfold words
      omega
  | mark i =>
    have hclear : ¬ b.IsSet i := mt (h.isSet i hc.1).1 hc.2
    refine wp_bind.2 ((wp_of_ok (run_bitmapMark (h.bits ▸ hc.1) hclear)).2 ?_)
    exact wp_pure.2 ⟨trivial, h.mark i⟩
  | unmark i =>
    have hset : b.IsSet i := (h.isSet i hc.1).2 hc.2
    refine wp_bind.2 ((wp_of_ok (run_bitmapUnmark (h.bits ▸ hc.1) hset)).2 ?_)
    exact wp_pure.2 ⟨trivial, h.unmark hc.1⟩

theorem and_mask_leftover : ∀ overbits k : Fin 8,
    leftover overbits &&& mask k ≠ 0 ↔ overbits ≤ k := by
  decide +kernel

/-- **A new bitmap is the empty set**, and its assertions hold. -/
theorem run_bitmapCreate {σ : Type} (hn : nbits ≤ 2 ^ 32 - 8) (t : σ) :
    ∃ b, bitmapCreate nbits t = .ok b t ∧ Agrees nbits b ∅ := by
  have hwords : words nbits = (nbits + 7) / 8 := by
    unfold words
    omega
  have hzero : ∀ k, ¬ (0 : UInt8) &&& mask k ≠ 0 := fun k => by simp
  unfold bitmapCreate
  split
  · set ix := words nbits - 1 with hix
    obtain ⟨extra, hextra⟩ : ∃ extra : Fin 8, nbits - ix * 8 = extra :=
      ⟨⟨nbits - ix * 8, by omega⟩, rfl⟩
    have hset : ∀ i, Bitmap.IsSet ⟨nbits, Function.update (fun _ => 0) ix (leftover extra)⟩ i ↔
        i / 8 = ix ∧ extra ≤ i % 8 := by
      intro i
      show (Function.update (fun _ => 0) ix (leftover extra) : ℕ → UInt8) (i / 8) &&& mask (i % 8)
        ≠ 0 ↔ _
      by_cases hi : i / 8 = ix
      · have hlast := and_mask_leftover extra ⟨i % 8, by omega⟩
        rw [hi, Function.update_self, hlast, Fin.le_def]
        simp
      · rw [Function.update_of_ne hi]
        exact iff_of_false (hzero _) fun h => hi h.1
    rw [bind_of_ok (assert_of (by omega)), bind_of_ok (assert_of (by omega)), hextra]
    refine ⟨_, rfl, rfl, fun i hi hend => ?_, fun i hi => ?_⟩
    · rw [hset]
      dsimp only at hi hend
      omega
    · rw [hset]
      simp only [Finset.notMem_empty, iff_false]
      omega
  · refine ⟨_, rfl, rfl, fun i hi hend => ?_, fun i _ =>
      iff_of_false (hzero _) (Finset.notMem_empty i)⟩
    dsimp only at hi hend
    omega

/-- **A bitmap is a set of indices**, whatever calls have been made, and the next call
answers for the set. -/
theorem bitmap_is_set (hn : nbits ≤ 2 ^ 32 - 8) :
    ∃ b, bitmapCreate nbits () = .ok b () ∧ ∀ s, (calls nbits).Reached b ∅ s →
      Agrees nbits s.1 s.2 ∧ ∀ c, (calls nbits).legal s.2 c →
        Back ((calls nbits).call c) (Answers nbits s.1 s.2 c) s.1 := by
  obtain ⟨b, hb, hnew⟩ := run_bitmapCreate hn ()
  exact ⟨b, hb, fun s hs => Client.refines hs hnew fun _ _ _ h => h.call hn⟩

/-- A new bitmap of eleven bits. -/
def elevenBits : Bitmap := ⟨11, Function.update (fun _ => 0) 1 (leftover 3)⟩

theorem bitmap_is_set_eleven :
    ∃ s, Runs.exec (calls 11).step (elevenBits, ∅) [.alloc, .mark 9, .unmark 0, .alloc] = some s ∧
      s.2 = {0, 9} ∧ Agrees 11 s.1 s.2 := by
  obtain ⟨b, hb, h⟩ := bitmap_is_set (show 11 ≤ 2 ^ 32 - 8 by decide)
  obtain rfl : b = elevenBits := by
    cases hb
    rfl
  let _ (s : Bitmap × Finset ℕ) : DecidablePred ((calls 11).legal s.2)
    | .alloc => inferInstanceAs (Decidable True)
    | .mark i => inferInstanceAs (Decidable (i < 11 ∧ i ∉ s.2))
    | .unmark i => inferInstanceAs (Decidable (i < 11 ∧ i ∈ s.2))
  obtain ⟨s, hexec, hids⟩ := Runs.exists_of_exec
    (Runs.guarded (calls 11).step fun s => (calls 11).legal s.2) (elevenBits, ∅)
    [.alloc, .mark 9, .unmark 0, .alloc] (fun s => s.2 = {0, 9}) (by decide +kernel)
  obtain ⟨hreach, hrun⟩ := Runs.reachable_of_exec_guarded hexec
  exact ⟨s, hrun, by simpa using hids, (h s hreach).1⟩

end Bitmap

end Lib

end Os161
