import Os161.Fs.Bmap
import Os161.Fs.Model.Mount
/-!
# Making and mounting a file system

`mksfs` and the kernel compute the free block bitmap on their own: `mksfs` sets
the bits of a buffer and writes its blocks, the kernel reads the blocks into a
bitmap and allocates from it. What `mksfs` leaves on the disk (`Image`) is what
a mount finds there (`Mounted`), and the blocks that `sfs_balloc` then hands out
are those that are neither metadata nor past the end, in order
(`mksfs_balloc`).
-/

namespace Os161

namespace Fs

open Prog UInt32
open Userprog (UioRw)

variable {m m' : Mksfs} {s s' : Sfs}

/-! ## `mksfs` -/

/-- The buffer `bitbuf`, as a bitmap. -/
def Mksfs.bits (m : Mksfs) : Lib.Bitmap := ⟨0, m.bitbuf⟩

variable {E : Stop Errno → Mksfs → Prop} {Q : Unit → Mksfs → Prop} {i : ℕ}

theorem wp_doallocbit
    (h : ¬ m.bits.IsSet i) :
    wp (doallocbit i) Q E m ↔ Q () { m with bitbuf := (m.bits.mark i).v } := by
  have hclear : m.bitbuf (i / 8) &&& Lib.Bitmap.mask (i % 8) = 0 := not_not.1 h
  unfold doallocbit
  rw [wp_get_bind, wp_assert_bind hclear]
  exact wp_set

/-- **A run of bits** that were clear. -/
theorem wp_doallocbits {n : ℕ} (h : ∀ j, i ≤ j → j < i + n → ¬ m.bits.IsSet j) :
    wp (doallocbits n i)
      (fun _ m' => m'.sectors = m.sectors ∧
        ∀ j, m'.bits.IsSet j ↔ m.bits.IsSet j ∨ (i ≤ j ∧ j < i + n))
      (fun _ _ => False) m := by
  induction n generalizing m i with
  | zero =>
    rw [doallocbits, wp_pure]
    exact ⟨rfl, fun j => ⟨.inl, fun hj => hj.resolve_right (by omega)⟩⟩
  | succ n ih =>
    have hmark : ∀ j, Lib.Bitmap.IsSet (m.bits.mark i) j ↔ m.bits.IsSet j ∨ j = i :=
      fun j => Lib.Bitmap.isSet_mark
    rw [doallocbits, wp_bind, wp_doallocbit (h i (le_refl i) (by omega))]
    refine wp_imp (ih fun j hge hlt => ?_) ?_
    · refine fun hset => ?_
      rcases (hmark j).1 hset with hj | rfl
      · exact h j (by omega) (by omega) hj
      · omega
    · rintro _ m' ⟨hsectors, hbits⟩
      refine ⟨hsectors, fun j => ?_⟩
      rw [hbits]
      refine (or_congr_left (hmark j)).trans ?_
      rw [or_assoc]
      exact or_congr_right (by omega)

/-- The blocks of the buffer go to the disk. -/
theorem wp_writebits (n i : ℕ) :
    wp (writebits n i)
      (fun _ m' => m'.bitbuf = m.bitbuf ∧ ∀ b, m'.sectors b =
        if 2 + i ≤ b ∧ b < 2 + i + n then mapBlock m.bitbuf (b - 2) else m.sectors b)
      (fun _ _ => False) m := by
  induction n generalizing m i with
  | zero =>
    rw [writebits, wp_pure]
    exact ⟨rfl, fun b => by rw [if_neg (by omega)]⟩
  | succ n ih =>
    rw [writebits, wp_get_bind, wp_bind]
    unfold diskwrite
    rw [wp_modify]
    refine wp_imp (ih (i + 1)) ?_
    rintro _ m' ⟨hbuf, hsectors⟩
    refine ⟨hbuf, fun b => ?_⟩
    rw [hsectors]
    show (if _ then mapBlock m.bitbuf (b - 2) else Function.update m.sectors (2 + i) _ b) = _
    by_cases hb : b = 2 + i
    · rw [if_neg (by omega), if_pos (by omega), hb, Function.update_self, Nat.add_sub_cancel_left]
    · rw [Function.update_of_ne hb]
      by_cases hr : 2 + (i + 1) ≤ b ∧ b < 2 + (i + 1) + n
      · rw [if_pos hr, if_pos (by omega)]
      · rw [if_neg hr, if_neg (by omega)]

/-- The sizes of the file systems that are made. -/
structure Fits (n : UInt32) : Prop where
  three : 3 ≤ n.toNat
  small : n.toNat ≤ 32 * 4096

variable {n : UInt32}

theorem Fits.room (h : Fits n) :
    bitBlocks n ≤ 32 ∧ 2 + bitBlocks n ≤ n.toNat ∧ n.toNat ≤ bitmapSize n := by
  have := h.three
  have := h.small
  unfold bitmapSize bitBlocks
  omega

/-- The sizes that `mksfs` takes: the bitmap is not too large, and none of its bits
is set twice. -/
structure Takes (n : UInt32) : Prop where
  blocks : bitBlocks n ≤ 32
  room : 2 + bitBlocks n ≤ n.toNat ∨ bitmapSize n ≤ n.toNat

theorem Fits.takes (h : Fits n) : Takes n := ⟨h.room.1, .inl h.room.2.1⟩

/-- Sizes so close to 2^32 that the number of bitmap blocks wraps around to 0 are
taken as well. -/
theorem Takes.cases (h : Takes n) : Fits n ∨ bitBlocks n = 0 := by
  have hlt := n.toNat_lt
  have hblocks := h.blocks
  have hroom := h.room
  by_cases h0 : bitBlocks n = 0
  · exact .inr h0
  · unfold bitmapSize at hroom
    unfold bitBlocks at h0 hblocks hroom
    exact .inl ⟨by omega, by omega⟩

/-- The bits that `mksfs` sets. -/
def Reserved (n : UInt32) (i : ℕ) : Prop :=
  i < 2 + bitBlocks n ∨ (n.toNat ≤ i ∧ i < bitmapSize n)

theorem Mksfs.not_isSet (hzero : m.bitbuf = fun _ => 0) (j : ℕ) : ¬ m.bits.IsSet j := by
  unfold Lib.Bitmap.IsSet Mksfs.bits
  rw [hzero]
  simp

/-- The bits of the metadata are set first. -/
theorem wp_allocMeta {p : Prog Mksfs Errno Unit}
    {k : ℕ} (hzero : m.bitbuf = fun _ => 0)
    (hp : ∀ m', m'.sectors = m.sectors → (∀ j, m'.bits.IsSet j ↔ j < 2 + k) → wp p Q E m') :
    wp (do
        doallocbit 0
        doallocbit 1
        doallocbits k 2
        p) Q E m := by
  have hclear := Mksfs.not_isSet hzero
  rw [wp_bind, wp_doallocbit (hclear 0), wp_bind]
  let m₁ : Mksfs := { m with bitbuf := (m.bits.mark 0).v }
  have hm₁ : ∀ j, m₁.bits.IsSet j ↔ j = 0 := fun j =>
    Lib.Bitmap.isSet_mark.trans ⟨fun hj => hj.resolve_left (hclear j), .inr⟩
  rw [wp_doallocbit (m := m₁) (by rw [hm₁]; omega), wp_bind]
  let m₂ : Mksfs := { m₁ with bitbuf := (m₁.bits.mark 1).v }
  have hm₂ : ∀ j, m₂.bits.IsSet j ↔ j = 0 ∨ j = 1 := fun j =>
    Lib.Bitmap.isSet_mark.trans (or_congr_left (hm₁ j))
  refine wp_returns (wp_doallocbits (m := m₂) fun j hge _ => ?_) ?_
  · rw [hm₂]
    omega
  rintro _ m₃ ⟨hs₃, hm₃⟩
  refine hp m₃ hs₃ fun j => ?_
  rw [hm₃, hm₂]
  omega

/-- **`writebitmap`** sets no bit twice. -/
theorem wp_writebitmap (h : Takes n) (hzero : m.bitbuf = fun _ => 0) :
    wp (writebitmap n)
      (fun _ m' => (∀ j, m'.bits.IsSet j ↔ Reserved n j) ∧ ∀ b, m'.sectors b =
        if 2 ≤ b ∧ b < 2 + bitBlocks n then mapBlock m'.bitbuf (b - 2) else m.sectors b)
      (fun _ _ => False) m := by
  have hroom := h.room
  unfold writebitmap
  rw [wp_assert_bind h.blocks]
  refine wp_allocMeta hzero fun m₃ hs₃ hm₃ => ?_
  refine wp_then (wp_doallocbits fun j hge _ => ?_) ?_
  · rw [hm₃]
    omega
  rintro _ m₄ ⟨hs₄, hm₄⟩
  refine wp_imp (wp_writebits _ _) ?_
  rintro _ m₅ ⟨hbuf, hs₅⟩
  have hsame : m₅.bits = m₄.bits := congrArg (Lib.Bitmap.mk 0) hbuf
  refine ⟨fun j => ?_, fun b => ?_⟩
  · rw [hsame, hm₄, hm₃]
    unfold Reserved
    omega
  · rw [hs₅, hbuf, hs₄, hs₃, Nat.add_zero]

/-- **What `mksfs` leaves on a disk of `n` blocks.** -/
structure Image (n : UInt32) (sectors : ℕ → Sector) : Prop where
  magic : (SfsSuper.ofSector (sectors 0)).magic = sfsMagic
  nblocks : (SfsSuper.ofSector (sectors 0)).nblocks = n
  root : SfsInode.ofSector (sectors 1) = ⟨0, typeDir, 1, fun _ => 0, 0⟩
  map : ∃ v : ℕ → UInt8, (∀ b, 2 ≤ b → b < 2 + bitBlocks n → sectors b = mapBlock v (b - 2)) ∧
    ∀ j, Lib.Bitmap.IsSet ⟨0, v⟩ j ↔ Reserved n j

/-- **`mksfs`.** -/
theorem wp_mksfs (h : Takes n) (volname : CString) (hvol : volname.bytes.length < 32)
    (hzero : m.bitbuf = fun _ => 0) :
    wp (mksfs volname n) (fun _ m' => Image n m'.sectors) (fun _ _ => False) m := by
  unfold mksfs writesuper writerootdir diskwrite
  rw [wp_bind, wp_assert_bind hvol, wp_modify, wp_bind, wp_modify]
  refine wp_imp (wp_writebitmap h hzero) ?_
  rintro _ m' ⟨hbits, hsectors⟩
  have hsuper : m'.sectors 0 = SfsSuper.toSector ⟨sfsMagic, n, volname.bytes⟩ := by
    rw [hsectors, if_neg (by omega)]
    rfl
  have hroot : m'.sectors 1 = SfsInode.toSector ⟨0, typeDir, 1, fun _ => 0, 0⟩ := by
    rw [hsectors, if_neg (by omega)]
    rfl
  refine ⟨?_, ?_, ?_, m'.bitbuf, fun b hge hlt => ?_, hbits⟩
  · rw [hsuper, SfsSuper.ofSector_toSector_magic]
  · rw [hsuper, SfsSuper.ofSector_toSector_nblocks]
  · rw [hroot, SfsInode.ofSector_toSector]
  · rw [hsectors, if_pos ⟨hge, hlt⟩]

theorem wp_doallocbit_set
    (h : m.bits.IsSet i) : wp (doallocbit i) Q E m ↔ E .halt m := by
  have hset : ¬ m.bitbuf (i / 8) &&& Lib.Bitmap.mask (i % 8) = 0 := h
  unfold doallocbit
  rw [wp_get_bind, wp_bind, wp_assert, if_neg hset]

/-- **No other size is taken.** -/
theorem takes_of_writebitmap (hzero : m.bitbuf = fun _ => 0)
    (h : writebitmap n m = .ok () m') : Takes n := by
  by_contra hnot
  suffices hstop : wp (writebitmap n) (fun _ _ => False) (fun _ _ => True) m by
    exact (wp_of_ok h).1 hstop
  unfold writebitmap
  rw [wp_bind, wp_assert]
  split
  swap
  · trivial
  rename_i hblocks
  have hroom : n.toNat < 2 + bitBlocks n ∧ n.toNat < bitmapSize n := by
    by_contra hc
    exact hnot ⟨hblocks, by omega⟩
  refine wp_allocMeta hzero fun m₃ _ hm₃ => ?_
  -- the first bit past the end is one of those before
  obtain ⟨k, hk⟩ : ∃ k, bitmapSize n - n.toNat = k + 1 := ⟨bitmapSize n - n.toNat - 1, by omega⟩
  rw [hk, doallocbits, wp_bind, wp_bind, wp_doallocbit_set]
  · trivial
  · rw [hm₃]
    exact hroom.1

theorem takes_of_mksfs {volname : CString} (hzero : m.bitbuf = fun _ => 0)
    (h : mksfs volname n m = .ok () m') : Takes n ∧ volname.bytes.length < 32 := by
  obtain ⟨_, m₁, h₁, h⟩ := bind_eq_ok.1 h
  obtain ⟨_, m₂, h₂, h₃⟩ := bind_eq_ok.1 h
  have hsuper : wp (writesuper volname n)
      (fun _ m₁ => m₁.bitbuf = m.bitbuf ∧ volname.bytes.length < 32) (fun _ _ => True) m := by
    unfold writesuper diskwrite
    rw [wp_bind, wp_assert]
    split
    · rename_i hvol
      exact wp_modify.2 ⟨rfl, hvol⟩
    · trivial
  obtain ⟨hbuf, hvol⟩ := (wp_of_ok h₁).1 hsuper
  have hroot : wp writerootdir (fun _ m₂ => m₂.bitbuf = m₁.bitbuf) (fun _ _ => True) m₁ := by
    exact wp_modify.2 rfl
  have hbuf₂ := (wp_of_ok h₂).1 hroot
  exact ⟨takes_of_writebitmap (hbuf₂.trans (hbuf.trans hzero)) h₃, hvol⟩

/-! ## Mount -/

theorem wp_kmalloc {Q : Unit → Sfs → Prop} {E : Stop Errno → Sfs → Prop}
    (h : s.mem = fun _ => true) : wp kmalloc Q E s ↔ Q () s := by
  have hmem : (fun i => s.mem (i + 1)) = s.mem := by rw [h]
  unfold kmalloc
  rw [wp_get_bind, wp_bind, wp_set, wp_failIf, hmem, h, if_neg (by decide), ← h]

/-- `UInt32.ofNat` of a block of the freemap. -/
theorem toNat_mapBlock {j : ℕ} (h : j < 2 ^ 21) : (ofNat (2 + j)).toNat = 2 + j :=
  toNat_ofNat_of_lt' (show 2 + j < 2 ^ 32 by omega)

/-- **The blocks of the freemap are read.** -/
theorem wp_sfsMapioFrom_read {n j : ℕ} (hclean : s.device.Clean) (hlt : j + n < 2 ^ 21)
    (hsect : 2 + j + n ≤ s.device.nsect.toNat) :
    wp (sfsMapioFrom .read n j)
      (fun _ s' => ∃ v, s' = { s with freemap := { s.freemap with v := v } } ∧
        ∀ ix, v ix = if j * 512 ≤ ix ∧ ix < (j + n) * 512 then
          (s.device.sectors (2 + ix / 512)).byte (ix % 512) else s.freemap.v ix)
      (fun _ _ => False) s := by
  induction n generalizing s j with
  | zero =>
    rw [sfsMapioFrom, wp_pure]
    exact ⟨_, rfl, fun ix => by rw [if_neg (by omega)]⟩
  | succ n ih =>
    have hj : (ofNat (2 + j)).toNat = 2 + j := toNat_mapBlock (by omega)
    rw [sfsMapioFrom]
    rw [wp_bind, wp_of_ok (run_rblock_of_clean hclean (by omega) (by omega)), wp_bind, wp_modify]
    refine wp_imp (ih (j := j + 1) hclean (by omega) ?_) ?_
    · show 2 + (j + 1) + n ≤ s.device.nsect.toNat
      omega
    rintro _ s' ⟨v, rfl, hv⟩
    refine ⟨v, rfl, fun ix => ?_⟩
    rw [hv]
    show (if _ then (s.device.sectors _).byte _ else
      if j * 512 ≤ ix ∧ ix < (j + 1) * 512 then (s.sector _).byte (ix - j * 512)
      else s.freemap.v ix) = _
    have hsplit : (j * 512 ≤ ix ∧ ix < (j + (n + 1)) * 512) ↔
        ((j + 1) * 512 ≤ ix ∧ ix < (j + 1 + n) * 512) ∨ (j * 512 ≤ ix ∧ ix < (j + 1) * 512) := by
      omega
    simp only [hsplit]
    by_cases h₁ : (j + 1) * 512 ≤ ix ∧ ix < (j + 1 + n) * 512
    · rw [if_pos h₁, if_pos (.inl h₁)]
    rw [if_neg h₁]
    by_cases h₂ : j * 512 ≤ ix ∧ ix < (j + 1) * 512
    · have hdiv : ix / 512 = j := by omega
      have hmod : ix % 512 = ix - j * 512 := by omega
      rw [if_pos h₂, if_pos (.inr h₂), hdiv, hmod]
      unfold Sfs.sector
      rw [hj]
    · rw [if_neg h₂, if_neg fun hc => hc.elim h₁ h₂]

/-- **What a mount makes of a disk.** -/
structure Mounted (d : Lhd) (s : Sfs) : Prop where
  device : s.device = d
  magic : s.super.magic = (SfsSuper.ofSector (d.sectors 0)).magic
  nblocks : s.super.nblocks = (SfsSuper.ofSector (d.sectors 0)).nblocks
  volname : s.super.volname = (SfsSuper.ofSector (d.sectors 0)).volname.take 31 ++ [0]
  superdirty : s.superdirty = false
  vnodes : s.vnodes = []
  nbits : s.freemap.nbits = bitmapSize s.super.nblocks
  map : ∀ ix < bitBlocks s.super.nblocks * 512,
    s.freemap.v ix = (d.sectors (2 + ix / 512)).byte (ix % 512)
  rest : ∀ ix, bitBlocks s.super.nblocks * 512 ≤ ix → s.freemap.v ix = 0
  freemapdirty : s.freemapdirty = false
  mem : s.mem = fun _ => true

/-- **`sfs_domount`.** -/
theorem wp_sfsDomount {d : Lhd} (hclean : d.Clean)
    (hmagic : (SfsSuper.ofSector (d.sectors 0)).magic = sfsMagic)
    (hnblocks : (SfsSuper.ofSector (d.sectors 0)).nblocks = n) (hblocks : bitBlocks n ≤ 32)
    (hsect : 2 + bitBlocks n ≤ d.nsect.toNat) :
    wp sfsDomount (fun _ s => Mounted d s) (fun _ _ => False) (newSfs d fun _ => true) := by
  have hzero : (0 : UInt32).toNat = 0 := rfl
  have hread : rblock 0 (newSfs d fun _ => true) =
      .ok (d.sectors 0) (newSfs d fun _ => true) :=
    run_rblock_of_clean (s := newSfs d fun _ => true) hclean (by omega)
      (show 0 < d.nsect.toNat by omega)
  unfold sfsDomount
  rw [wp_bind, wp_kmalloc rfl, wp_bind, wp_kmalloc rfl, wp_bind, wp_of_ok hread]
  rw [wp_bind, wp_failIf, if_neg (not_not.2 hmagic), wp_bind, wp_modify, wp_bind, wp_kmalloc rfl,
    wp_bind, wp_kmalloc rfl, wp_bind]
  have hwords : ¬ bitmapSize n / 8 < Lib.Bitmap.words (bitmapSize n) := by
    unfold Lib.Bitmap.words bitmapSize bitBlocks
    omega
  unfold Lib.Bitmap.bitmapCreate
  rw [hnblocks, if_neg hwords, wp_pure, wp_bind, wp_modify]
  unfold sfsMapio
  rw [wp_bind, wp_get_bind]
  refine wp_imp (wp_sfsMapioFrom_read (j := 0) ?_ ?_ ?_) ?_
  · exact hclean
  · show 0 + bitBlocks n < 2 ^ 21
    omega
  · show 2 + 0 + bitBlocks n ≤ d.nsect.toNat
    omega
  rintro _ s' ⟨v, rfl, hv⟩
  rw [wp_modify]
  refine ⟨rfl, rfl, hnblocks.symm, rfl, rfl, rfl, rfl, fun ix hix => ?_, fun ix hix => ?_, rfl, rfl⟩
  · have hix' : 0 * 512 ≤ ix ∧ ix < (0 + bitBlocks n) * 512 := by
      rw [Nat.zero_add, Nat.zero_mul]
      exact ⟨Nat.zero_le _, hix⟩
    show v ix = _
    rw [hv, if_pos hix']
    rfl
  · have hix' : ¬ (0 * 512 ≤ ix ∧ ix < (0 + bitBlocks n) * 512) := by
      rw [Nat.zero_add, Nat.zero_mul]
      exact fun hc => absurd hc.2 (not_lt.2 hix)
    show v ix = 0
    rw [hv, if_neg hix']

/-- A mounted file system is in working order. -/
theorem Mounted.ready {d : Lhd} (h : Mounted d s) (hclean : d.Clean)
    (hnblocks : (SfsSuper.ofSector (d.sectors 0)).nblocks = n) (hfits : Fits n)
    (hsect : n.toNat ≤ d.nsect.toNat) : s.Ready := by
  have hn : s.super.nblocks = n := h.nblocks.trans hnblocks
  refine ⟨?_, h.mem, ?_, ?_, ?_, h.nbits⟩
  · rw [h.device]
    exact hclean
  · rw [hn, h.device]
    exact hsect
  · rw [hn]
    exact hfits.small
  · rw [hn]
    exact hfits.room.2.1

theorem mapBlock_byte (v : ℕ → UInt8) (ix : ℕ) :
    (mapBlock v (ix / 512)).byte (ix % 512) = v ix := by
  unfold mapBlock Sector.byte
  rw [dif_pos (Nat.mod_lt _ (by omega))]
  show v (ix / 512 * 512 + ix % 512) = v ix
  rw [show ix / 512 * 512 + ix % 512 = ix by omega]

/-- **The kernel reads the bits that `mksfs` has written.** -/
theorem Mounted.isSet_iff {d : Lhd} (h : Mounted d s) (himage : Image n d.sectors)
    (hi : i < bitmapSize n) : s.freemap.IsSet i ↔ Reserved n i := by
  obtain ⟨v, hv, hbits⟩ := himage.map
  have hn : s.super.nblocks = n := h.nblocks.trans himage.nblocks
  have hmap := h.map (i / 8)
  rw [hn] at hmap
  unfold bitmapSize at hi
  have hbyte : s.freemap.v (i / 8) = v (i / 8) := by
    rw [hmap (by omega), hv _ (by omega) (by omega), Nat.add_sub_cancel_left, mapBlock_byte]
  rw [← hbits i]
  unfold Lib.Bitmap.IsSet
  rw [hbyte]

/-! ## The blocks that are handed out -/

/-- `sfs_balloc`, `k` times. -/
def ballocs : ℕ → Prog Sfs Errno (List UInt32)
  | 0 => pure []
  | k + 1 => do
    let b ← sfsBalloc
    let bs ← ballocs k
    pure (b :: bs)

/-- The blocks from `i` to the end are free, and no others. -/
def FreeFrom (s : Sfs) (i : ℕ) : Prop :=
  ∀ j < s.freemap.nbits, s.freemap.IsSet j ↔ j < i ∨ s.super.nblocks.toNat ≤ j

/-- One block. -/
theorem FreeFrom.wp_sfsBalloc (h : FreeFrom s i) (hready : s.Ready)
    (hi : i < s.super.nblocks.toNat) :
    wp sfsBalloc (fun b s' => b = ofNat i ∧ s'.Ready ∧ s'.super = s.super ∧ FreeFrom s' (i + 1))
      (fun _ _ => False) s := by
  have hle := hready.nblocks_le
  refine wp_mono (wp_sfsBalloc_first hready fun j hge hlt => (h j hlt).2 (.inr hge)) ?_ ?_
  · rintro b s' ⟨hlt, hunset, hfirst, rfl⟩
    have hbi : b.toNat = i := by
      have hge : ¬ (b.toNat < i ∨ _) := fun hc => hunset ((h b.toNat (by omega)).2 hc)
      rcases Nat.lt_trichotomy b.toNat i with hb | hb | hb
      · exact absurd (.inl hb) hge
      · exact hb
      · have hset := (h i (by omega)).1 (hfirst i hb)
        omega
    refine ⟨?_, hready.alloc b, rfl, fun j hj => ?_⟩
    · rw [← hbi, UInt32.ofNat_toNat]
    · show (s.freemap.mark b.toNat).IsSet j ↔ _
      rw [Lib.Bitmap.isSet_mark, h j hj, hbi]
      show _ ↔ j < i + 1 ∨ s.super.nblocks.toNat ≤ j
      omega
  · rintro e s' ⟨-, -, hall⟩
    have hset := (h i (by omega)).1 (hall i (by omega))
    omega

/-- **All of them**, and then there is no space. -/
theorem FreeFrom.wp_ballocs {k : ℕ} (h : FreeFrom s i) (hready : s.Ready)
    (hk : i + k = s.super.nblocks.toNat) :
    wp (ballocs k)
      (fun bs s' => bs = (List.range' i k).map ofNat ∧
        sfsBalloc s' = .error (.error .ENOSPC) s')
      (fun _ _ => False) s := by
  induction k generalizing s i with
  | zero =>
    rw [ballocs, wp_pure]
    refine ⟨rfl, ?_⟩
    have hle := hready.nblocks_le
    rcases cases_of_wp (wp_sfsBalloc_first hready fun j hge hlt => (h j hlt).2 (.inr hge)) with
      ⟨b, s', -, hlt, hunset, -⟩ | ⟨e, s', hr, rfl, rfl, -⟩
    · exact absurd ((h b.toNat (by omega)).2 (by omega)) hunset
    · exact hr
  | succ k ih =>
    rw [ballocs]
    refine wp_then (h.wp_sfsBalloc hready (by omega)) ?_
    rintro b s₁ ⟨rfl, hready₁, hsuper, hfree⟩
    refine wp_then (ih hfree hready₁ (by rw [hsuper]; omega)) ?_
    rintro bs s₂ ⟨rfl, hfull⟩
    rw [wp_pure]
    exact ⟨by rw [List.range'_succ, List.map_cons], hfull⟩

/-- **`mksfs` and the kernel agree on the freemap.** On a disk of any size that
`mksfs` takes, `writebitmap` comes to its end, `mksfs` makes a file system, and
once it is mounted `sfs_balloc` hands out the blocks behind the freemap, one
after the other up to the end of the disk, and then there is no space. -/
theorem mksfs_balloc (n : UInt32) (h3 : 3 ≤ n.toNat) (hmax : n.toNat ≤ 32 * 4096)
    (sectors : ℕ → Sector) :
    (∃ m, writebitmap n ⟨sectors, fun _ => 0⟩ = .ok () m) ∧
    ∀ volname : CString, volname.bytes.length < 32 →
      ∃ m, mksfs volname n ⟨sectors, fun _ => 0⟩ = .ok () m ∧
      ∃ s, sfsDomount (newSfs ⟨n, m.sectors, fun _ => .ok⟩ fun _ => true) = .ok () s ∧
      ∃ s', ballocs (n.toNat - (2 + bitBlocks n)) s =
          .ok ((List.range' (2 + bitBlocks n) (n.toNat - (2 + bitBlocks n))).map UInt32.ofNat) s' ∧
        sfsBalloc s' = .error (.error .ENOSPC) s' := by
  have hfits : Fits n := ⟨h3, hmax⟩
  obtain ⟨hblocks, hroom, hbits⟩ := hfits.room
  refine ⟨?_, fun volname hvol => ?_⟩
  · obtain ⟨_, m, hm, -⟩ :=
      exists_ok_of_wp (wp_writebitmap (m := ⟨sectors, fun _ => 0⟩) hfits.takes rfl)
    exact ⟨m, hm⟩
  obtain ⟨_, m, hm, himage⟩ :=
    exists_ok_of_wp (wp_mksfs (m := ⟨sectors, fun _ => 0⟩) hfits.takes _ hvol rfl)
  have hclean : Lhd.Clean ⟨n, m.sectors, fun _ => .ok⟩ := rfl
  obtain ⟨_, s, hs, hmounted⟩ :=
    exists_ok_of_wp (wp_sfsDomount hclean himage.magic himage.nblocks hblocks hroom)
  have hready : s.Ready := hmounted.ready hclean himage.nblocks hfits (le_refl _)
  have hn : s.super.nblocks = n := hmounted.nblocks.trans himage.nblocks
  have hfree : FreeFrom s (2 + bitBlocks n) := by
    intro j hj
    rw [hmounted.nbits, hn] at hj
    rw [hmounted.isSet_iff himage hj, hn]
    unfold Reserved
    omega
  obtain ⟨bs, s', hrun, rfl, hfull⟩ :=
    exists_ok_of_wp (hfree.wp_ballocs hready (k := n.toNat - (2 + bitBlocks n)) (by rw [hn]; omega))
  exact ⟨m, hm, s, hs, s', hrun, hfull⟩

theorem mksfs_balloc_five :
    ∃ m, mksfs ⟨[100], by decide⟩ 5 ⟨fun _ => Sector.zero, fun _ => 0⟩ = .ok () m ∧
    ∃ s, sfsDomount (newSfs ⟨5, m.sectors, fun _ => .ok⟩ fun _ => true) = .ok () s ∧
    ∃ s', ballocs 2 s = .ok [3, 4] s' ∧ sfsBalloc s' = .error (.error .ENOSPC) s' :=
  (mksfs_balloc 5 (by decide) (by decide) fun _ => Sector.zero).2 ⟨[100], by decide⟩ (by decide)

end Fs

end Os161
