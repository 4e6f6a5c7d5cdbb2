import Os161.Fs.Truncate
/-!
# Which blocks `sfs_truncate` discards

What a call that returns has cut off (`Cutoff`) differs from what a truncation
should cut off in two places, since neither of the two comparisons for the
indirect block is the one for the direct blocks: block number `blocklen` stays
if it is in the indirect block, and an indirect block without entries stays if
the file may keep all of them (`discards_iff`).
-/

namespace Os161

namespace Fs

open Prog Function Sfs Sector List

variable {s s' : Sfs} {x : UInt32} {v : SfsVnode} {blocklen : ℕ}

/-- The number of blocks of `len` bytes. -/
def fileBlocks (len : ℤ) : ℕ := (len.toNat + 511) / 512

/-- **The blocks past the new end are discarded, and no others**: a block is
mapped if it was before and is not past the end, each block that is not mapped
any more has its bit cleared once, the indirect block is kept if and only if it
has an entry, and the size is the new length. -/
structure Discards (s s' : Sfs) (x : UInt32) (len : ℤ) : Prop where
  mapped : ∀ fb, s'.ptr x fb = if fb < fileBlocks len then s.ptr x fb else 0
  clears : Clears s s' (lostBlocks s s' x)
  indirect : (s'.inode x).indirect ≠ 0 ↔ HasEntry s' x
  size : ((s'.inode x).size.toNat : ℤ) = len

/-- Block number `n` is not mapped if it is in the indirect block, and an
indirect block of which nothing need go has an entry. -/
def Severable (s : Sfs) (x : UInt32) (n : ℕ) : Prop :=
  (15 ≤ n → s.ptr x n = 0) ∧ (142 ≤ n → (s.inode x).indirect ≠ 0 → HasEntry s x)

/-- Where `DIVROUNDUP` overflows, the file may keep all its blocks. -/
theorem blocklenOf_cases {len : ℤ} (h0 : 0 ≤ len) (h1 : len < 2 ^ 31) :
    blocklenOf len = fileBlocks len ∨ (143 ≤ blocklenOf len ∧ 143 ≤ fileBlocks len) := by
  unfold blocklenOf fileBlocks
  by_cases hsmall : len + 511 < 2 ^ 31
  · rw [off32_eq (by omega) hsmall, Int.tdiv_eq_ediv_of_nonneg (by omega)]
    unfold word32
    omega
  · have hoff : off32 (len + 511) = len + 511 - 2 ^ 32 := by
      unfold off32
      omega
    obtain ⟨m, hm⟩ : ∃ m : ℕ, off32 (len + 511) = -(m : ℤ) := ⟨(2 ^ 32 - 511 - len).toNat, by omega⟩
    rw [hm, Int.neg_tdiv, Int.tdiv_eq_ediv_of_nonneg (by omega)]
    unfold word32
    omega

namespace Cutoff

variable {n : ℕ}

/-- Only the part of the limit within the file counts. -/
theorem congr (h : Cutoff s s' x blocklen) (hn : blocklen = n ∨ (143 ≤ blocklen ∧ 143 ≤ n)) :
    Cutoff s s' x n := by
  rcases hn with rfl | hn
  · exact h
  refine ⟨fun fb => ?_, h.same, ?_, h.clears⟩
  · rw [h.ptr]
    by_cases hlt : fb < 143
    · refine if_congr ?_ rfl rfl
      unfold keepsBlock
      split <;> omega
    · rw [ptr_of_ge (by omega), ite_self, ite_self]
  · rw [h.gone]
    exact or_congr_right (and_congr_left' (by omega))

/-- Block number `n` is the one that makes the difference. -/
theorem mapped_iff (h : Cutoff s s' x n) :
    (∀ fb, s'.ptr x fb = if fb < n then s.ptr x fb else 0) ↔ (15 ≤ n → s.ptr x n = 0) := by
  constructor
  · intro hmapped hge
    have hkept := h.ptr n
    rw [hmapped, if_neg (lt_irrefl n), if_pos ((keepsBlock_of_ge hge).2 le_rfl)] at hkept
    exact hkept.symm
  · intro hn fb
    rw [h.ptr]
    by_cases hfb : fb = n ∧ 15 ≤ n
    · rw [hfb.1, hn hfb.2, ite_self, ite_self]
    · refine if_congr ?_ rfl rfl
      unfold keepsBlock
      split <;> omega

theorem hasEntry (h : Cutoff s s' x n) (hentry : HasEntry s' x) : HasEntry s x := by
  obtain ⟨fb, hge, h0⟩ := hentry
  refine ⟨fb, hge, fun hzero => h0 ?_⟩
  rw [h.ptr, hzero, ite_self]

/-- A file that may keep all its blocks keeps them. -/
theorem hasEntry_iff (h : Cutoff s s' x n) (hn : 142 ≤ n) : HasEntry s' x ↔ HasEntry s x := by
  refine exists_congr fun fb => and_congr_right fun hge => ?_
  by_cases hlt : fb < 143
  · rw [h.ptr, if_pos ((keepsBlock_of_ge hge).2 (by omega))]
  · rw [ptr_of_ge (by omega), ptr_of_ge (by omega)]

end Cutoff

/-- What has an entry has an indirect block. -/
theorem HasEntry.indirect_ne (h : HasEntry s x) : (s.inode x).indirect ≠ 0 := by
  obtain ⟨fb, hge, h0⟩ := h
  intro hzero
  by_cases hlt : fb < 143
  · refine h0 ?_
    rw [ptr_of_entry (by omega) hlt]
    unfold entry
    rw [if_pos hzero]
  · exact h0 (ptr_of_ge (by omega))

theorem Cutoff.indirect_iff {n : ℕ} (h : Cutoff s s' x n) :
    ((s'.inode x).indirect ≠ 0 ↔ HasEntry s' x) ↔
      (142 ≤ n → (s.inode x).indirect ≠ 0 → HasEntry s x) := by
  constructor
  · intro hkept hn hind
    rw [← h.hasEntry_iff hn]
    refine hkept.1 fun hzero => ?_
    rcases h.gone.1 hzero with h0 | hlow
    · exact hind h0
    · omega
  · intro hn
    refine ⟨fun hne => ?_, fun hentry hzero => ?_⟩
    · by_contra hno
      by_cases hlow : n < 142
      · exact hne (h.gone.2 (.inr ⟨hlow, hno⟩))
      · refine hno ((h.hasEntry_iff (by omega)).2 (hn (by omega) fun h0 => ?_))
        exact hne (h.gone.2 (.inl h0))
    · rcases h.gone.1 hzero with h0 | hno
      · exact (h.hasEntry hentry).indirect_ne h0
      · exact hno.2 hentry

/-- **When a truncation discards exactly the blocks past the end.** -/
theorem discards_iff {len : ℤ} (hclean : s.device.Clean) (hv : s.vnode? x = some v)
    (hi : v.i.indirect.toNat < 2 ^ 22) (h0 : 0 ≤ len) (h1 : len < 2 ^ 31)
    (hrun : sfsTruncate x len s = .ok () s') :
    Discards s s' x len ↔ Severable s x (fileBlocks len) := by
  obtain ⟨-, hany, hsize⟩ := (wp_of_ok hrun).1 (wp_sfsTruncate_any hclean hv hi len)
  have hcut : Cutoff s s' x (fileBlocks len) := hany.congr (blocklenOf_cases h0 h1)
  have hlen : ((s'.inode x).size.toNat : ℤ) = len := by
    rw [hsize, UInt32.toNat_ofNat']
    unfold word32
    omega
  constructor
  · intro h
    exact ⟨hcut.mapped_iff.1 h.mapped, hcut.indirect_iff.1 h.indirect⟩
  · intro h
    exact ⟨hcut.mapped_iff.2 h.1, hcut.clears, hcut.indirect_iff.2 h.2, hlen⟩

/-- A file system of 8 blocks in which file 3 is loaded. Block 4 is an indirect
block with one entry, the last, which is block 5. -/
def smallVolume (i : SfsInode) : Sfs where
  super := ⟨sfsMagic, 8, []⟩
  superdirty := false
  device := ⟨8, fun b => if b = 4 then ofWords fun j => if j = 127 then 5 else 0
    else zero, fun _ => .ok⟩
  vnodes := [⟨3, i, false, .file, 1⟩]
  freemap := ⟨4096, fun _ => 0xff⟩
  freemapdirty := false
  mem := fun _ => true

/-- A file of one block. -/
def oneBlock : SfsInode := ⟨512, typeFile, 1, fun k => if k = 0 then 6 else 0, 0⟩

/-- A file of the largest size, with its last block only. -/
def lastBlock : SfsInode := ⟨73216, typeFile, 1, fun _ => 0, 4⟩

theorem discards_iff_oneBlock :
    ∃ s', sfsTruncate 3 0 (smallVolume oneBlock) = .ok () s' ∧
      Discards (smallVolume oneBlock) s' 3 0 := by
  obtain ⟨_, s', hrun, -⟩ := Prog.exists_ok_of (sfsTruncate 3 0) (smallVolume oneBlock)
    (fun _ _ => True) (by decide +kernel)
  refine ⟨s', hrun, (discards_iff (s := smallVolume oneBlock) rfl rfl (by decide) (by decide)
    (by decide) hrun).2 ?_⟩
  exact ⟨fun h => absurd h (by decide), fun h => absurd h (by decide)⟩

/-- **A truncation by one block leaves the last block**, number 142. -/
theorem truncate_leaves_block :
    ∃ s', sfsTruncate 3 72704 (smallVolume lastBlock) = .ok () s' ∧ s'.ptr 3 142 = 5 ∧
      ¬ Discards (smallVolume lastBlock) s' 3 72704 := by
  obtain ⟨_, s', hrun, hptr⟩ := Prog.exists_ok_of (sfsTruncate 3 72704) (smallVolume lastBlock)
    (fun _ s' => s'.ptr 3 142 = 5) (by decide +kernel)
  refine ⟨s', hrun, hptr, fun h => ?_⟩
  have hmapped := h.mapped 142
  rw [hptr, if_neg (by decide)] at hmapped
  cases hmapped

end Fs

end Os161
