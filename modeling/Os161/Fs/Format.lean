import Os161.Fs.Model.Format
import Os161.Fs.Disk
import Mathlib.Tactic.IntervalCases
/-!
# What is written is what is read

The round trips of the structures on the disk: words, blocks of words, inodes
and directory entries.
-/

namespace Os161

namespace Fs

open Sector

open Userprog (wordBytes)

/-! ## Words -/

theorem word_of_bytes (w : UInt32) :
    (w >>> 24).toUInt8.toUInt32 <<< 24 ||| (w >>> 16).toUInt8.toUInt32 <<< 16 |||
      (w >>> 8).toUInt8.toUInt32 <<< 8 ||| w.toUInt8.toUInt32 = w := by
  rw [← UInt32.toBitVec_inj]
  simp only [UInt32.toBitVec_or, UInt32.toBitVec_shiftLeft, UInt32.toBitVec_shiftRight,
    UInt8.toBitVec_toUInt32, UInt32.toBitVec_toUInt8]
  refine BitVec.eq_of_getLsbD_eq fun k hk => ?_
  interval_cases k <;> simp

/-- Four bytes of a word make the word. -/
theorem wordFrom_eq {f : ℕ → UInt8} {i : ℕ} {w : UInt32}
    (h : ∀ j < 4, f (i + j) = (wordBytes w).getD j 0) : wordFrom f i = w := by
  have h0 := h 0 (by omega)
  rw [Nat.add_zero] at h0
  unfold wordFrom
  rw [h0, h 1 (by omega), h 2 (by omega), h 3 (by omega)]
  exact word_of_bytes w

theorem wordFrom_congr {f g : ℕ → UInt8} {i j : ℕ} (h : ∀ k < 4, f (i + k) = g (j + k)) :
    wordFrom f i = wordFrom g j := by
  have h0 := h 0 (by omega)
  rw [Nat.add_zero, Nat.add_zero] at h0
  unfold wordFrom
  rw [h0, h 1 (by omega), h 2 (by omega), h 3 (by omega)]

/-- The two halves of a word, as `sfi_type` and `sfi_linkcount` are. -/
theorem halves_of_word (a b : UInt16) :
    ((a.toUInt32 <<< 16 ||| b.toUInt32) >>> 16).toUInt16 = a ∧
      (a.toUInt32 <<< 16 ||| b.toUInt32).toUInt16 = b := by
  constructor
  · rw [← UInt16.toBitVec_inj]
    simp only [UInt32.toBitVec_or, UInt32.toBitVec_shiftLeft, UInt32.toBitVec_shiftRight,
      UInt16.toBitVec_toUInt32, UInt32.toBitVec_toUInt16]
    refine BitVec.eq_of_getLsbD_eq fun k hk => ?_
    interval_cases k <;> simp
  · rw [← UInt16.toBitVec_inj]
    simp only [UInt32.toBitVec_or, UInt32.toBitVec_shiftLeft, UInt16.toBitVec_toUInt32,
      UInt32.toBitVec_toUInt16]
    refine BitVec.eq_of_getLsbD_eq fun k hk => ?_
    interval_cases k <;> simp

theorem wordBytes_getD (w : UInt32) {l : List UInt8} {j : ℕ} (hj : j < 4) :
    (wordBytes w ++ l).getD j 0 = (wordBytes w).getD j 0 := by
  interval_cases j <;> rfl

/-! ## Blocks -/

namespace Sector

@[simp] theorem byte_zero (i : ℕ) : zero.byte i = 0 := by
  unfold byte
  split <;> rfl

theorem byte_ofList {l : List UInt8} {i : ℕ} (hi : i < 512) : (ofList l).byte i = l.getD i 0 :=
  dif_pos hi

theorem getD_toList (b : Sector) (i : ℕ) : b.toList.getD i 0 = b.byte i := by
  by_cases hi : i < 512
  · rw [List.getD_eq_getElem _ _ (by rw [length_toList]; exact hi)]
    unfold toList byte
    rw [List.getElem_ofFn, dif_pos hi]
  · rw [List.getD_eq_default _ _ (by rw [length_toList]; omega)]
    unfold byte
    rw [dif_neg hi]

theorem byte_splice (b : Sector) (bytes : List UInt8) {skip i : ℕ} (hi : i < 512) :
    (b.splice skip bytes).byte i =
      if skip ≤ i ∧ i < skip + bytes.length then bytes.getD (i - skip) 0 else b.byte i := by
  unfold byte splice
  rw [dif_pos hi, dif_pos hi]

theorem word_zero (k : ℕ) : zero.word k = 0 := by
  unfold word wordFrom
  simp

/-- **A block of words.** -/
theorem word_ofWords (w : ℕ → UInt32) {k : ℕ} (hk : k < 128) : (ofWords w).word k = w k := by
  refine wordFrom_eq fun j hj => ?_
  unfold byte ofWords
  rw [dif_pos (by omega)]
  simp only [show (4 * k + j) / 4 = k by omega, show (4 * k + j) % 4 = j by omega]

end Sector

/-- **An inode.** -/
theorem SfsInode.ofSector_toSector (n : SfsInode) : SfsInode.ofSector n.toSector = n := by
  have hword : ∀ k < 128, n.toSector.word k = n.toWords k := fun k hk =>
    word_ofWords n.toWords hk
  obtain ⟨htype, hlink⟩ := halves_of_word n.type n.linkcount
  unfold ofSector
  rw [hword 0 (by omega), hword 1 (by omega), hword 17 (by omega)]
  have hdirect : (fun k : Fin 15 => n.toSector.word (k + 2)) = n.direct := by
    funext k
    rw [hword _ (by omega)]
    unfold toWords
    rw [if_neg (by omega), if_neg (by omega), dif_pos (by omega)]
    congr 1
  rw [hdirect]
  unfold toWords
  simp only [if_pos, if_neg (show ¬ (1 : ℕ) = 0 by omega), if_neg (show ¬ (17 : ℕ) = 0 by omega),
    if_neg (show ¬ (17 : ℕ) = 1 by omega), dif_neg (show ¬ (17 : ℕ) - 2 < 15 by omega), htype,
      hlink]

/-- A cleared block is an inode without blocks. -/
theorem SfsInode.ofSector_zero :
    SfsInode.ofSector zero = ⟨0, typeInval, 0, fun _ => 0, 0⟩ := by
  unfold ofSector
  simp only [word_zero]
  rfl

/-- **The superblock.** -/
theorem SfsSuper.ofSector_toSector_magic (sp : SfsSuper) :
    (SfsSuper.ofSector sp.toSector).magic = sp.magic := by
  refine wordFrom_eq fun j hj => ?_
  show (ofList _).byte _ = _
  rw [byte_ofList (by omega), List.append_assoc, Nat.mul_zero, Nat.zero_add,
    wordBytes_getD sp.magic hj]

theorem SfsSuper.ofSector_toSector_nblocks (sp : SfsSuper) :
    (SfsSuper.ofSector sp.toSector).nblocks = sp.nblocks := by
  refine wordFrom_eq fun j hj => ?_
  show (ofList _).byte _ = _
  have hlen : (wordBytes sp.magic).length = 4 := rfl
  rw [byte_ofList (by omega), List.append_assoc,
    List.getD_append_right _ _ _ _ (by omega), hlen, Nat.mul_one, Nat.add_sub_cancel_left,
    wordBytes_getD sp.nblocks hj]

/-- **The inode number of a directory entry.** -/
theorem SfsDir.ofBytes_toBytes_ino (sd : SfsDir) : (SfsDir.ofBytes sd.toBytes).ino = sd.ino := by
  show wordFrom (fun i => (wordBytes sd.ino ++ sd.name).getD i 0) 0 = sd.ino
  refine wordFrom_eq fun j hj => ?_
  rw [Nat.zero_add, wordBytes_getD sd.ino hj]

theorem SfsDir.ofBytes_toBytes (sd : SfsDir) : SfsDir.ofBytes sd.toBytes = sd := by
  have hname : (SfsDir.ofBytes sd.toBytes).name = sd.name := rfl
  have hino := SfsDir.ofBytes_toBytes_ino sd
  cases sd
  rw [SfsDir.mk.injEq]
  exact ⟨hino, hname⟩

end Fs

end Os161
