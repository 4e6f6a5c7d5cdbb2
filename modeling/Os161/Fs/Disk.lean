import Os161.Fs.Model.Disk
import Mathlib.Data.List.GetD
/-!
# Blocks on the disk

`lhd_io` takes the bytes of a write out of the `uio` before the drive has
answered, and `sfs_rwblock` gives the same `uio` to it again after an error. So
the retry of a failed write asks for no sector at all, and succeeds: that a
block write which is reported as successful is on the disk depends on the
first answer of the drive (`wblock_contract_iff`).
-/

namespace Os161

namespace Fs

open Sector

open Userprog (UioRw)
open Prog

namespace Sector

theorem length_toList (b : Sector) : b.toList.length = 512 := by
  unfold toList
  exact List.length_ofFn

theorem ofList_toList (b : Sector) : ofList b.toList = b := by
  funext i
  unfold ofList toList
  rw [List.getD_eq_getElem _ _ (by rw [List.length_ofFn]; exact i.2), List.getElem_ofFn]

end Sector

/-! ## One `uiomove` -/

section Uiomove

variable {σ : Type} {r : Io σ} {Q : List UInt8 → Io σ → Prop} {E : Stop Errno → Io σ → Prop}

theorem uiomoveLoop_zero (fuel : ℕ) (ptr : List UInt8) (r : Io σ) :
    uiomoveLoop fuel ptr 0 r = .ok [] r := by
  cases fuel <;> rfl

/-- The bytes that a `uiomove` of `n` bytes moves. -/
def Uio.taken (u : Uio) (ptr : List UInt8) (n : ℕ) : List UInt8 :=
  match u.rw with
  | .read => ptr.take n
  | .write => u.base.take n

/-- **A `uiomove` within the buffer** is one round. -/
theorem wp_uiomove {ptr : List UInt8} {n : ℕ} (hn : 0 < n) (hres : 0 < r.uio.resid)
    (hlen : n ≤ r.uio.base.length) :
    wp (uiomove ptr n) Q E r ↔
      if r.uio.Faults n then E (.error .EFAULT) r
      else Q (r.uio.taken ptr n) { r with uio := r.uio.advance (r.uio.taken ptr n) } := by
  obtain ⟨k, rfl⟩ : ∃ k, n = k + 1 := ⟨n - 1, by omega⟩
  unfold uiomove
  rw [uiomoveLoop, wp_get_bind, if_pos ⟨hn, hres⟩]
  rw [wp_bind, wp_assert, wp_bind, wp_failIf]
  simp only [Nat.min_eq_right hlen, Nat.sub_self]
  rw [if_pos (Nat.succ_ne_zero k)]
  split
  · rfl
  · rw [wp_bind, wp_set, wp_bind, wp_of_ok (uiomoveLoop_zero _ _ _), wp_pure, List.append_nil]
    rfl

end Uiomove

/-! ## One `lhd_io` -/

section LhdIo

variable {r : Io Lhd} {Q : Unit → Io Lhd → Prop} {E : Stop Errno → Io Lhd → Prop}

/-- **A request for one sector.** -/
theorem wp_lhdIo_one (ho : r.uio.offset.tmod 512 = 0) (hres : r.uio.resid = 512) :
    wp lhdIo Q E r ↔
      if r.fs.nsect.toNat < word32 (sectorAt r.uio.offset + 1 : ℕ) then E (.error .EINVAL) r
      else wp (lhdIoLoop 1 (sectorAt r.uio.offset)) Q E r := by
  unfold lhdIo
  rw [wp_get_bind, wp_bind, wp_failIf, ho, hres, if_neg (by decide), wp_bind, wp_failIf]
  rfl

/-- A request for no sector reaches the drive with none. -/
theorem wp_lhdIo_none (ho : r.uio.offset.tmod 512 = 0) (hres : r.uio.resid = 0) :
    wp lhdIo Q E r ↔
      if r.fs.nsect.toNat < sectorAt r.uio.offset then E (.error .EINVAL) r else Q () r := by
  have hsector : word32 (sectorAt r.uio.offset + (0 : ℕ)) = sectorAt r.uio.offset := by
    unfold sectorAt word32
    omega
  unfold lhdIo
  rw [wp_get_bind, wp_bind, wp_failIf, ho, hres, if_neg (by decide), wp_bind, wp_failIf]
  rw [hsector, Nat.zero_div, lhdIoLoop, wp_pure]

/-- One operation of the drive. -/
theorem wp_operate {sector : ℕ} {rw' : UioRw} {buf : Sector} {d : Lhd} {Q : Sector → Lhd → Prop}
    {E : Stop Errno → Lhd → Prop} :
    wp (Lhd.operate sector rw' buf) Q E d ↔
      if d.nsect.toNat ≤ sector then E (.error .EINVAL) d
      else match d.pattern 0, rw' with
        | .ok, .read => Q (d.sectors sector) d.tick
        | .ok, .write => Q buf (d.tick.put sector buf)
        | .media _, .read => E (.error Errno.EIO) d.tick
        | .media left, .write => E (.error Errno.EIO) (d.tick.put sector left) := by
  unfold Lhd.operate
  rw [wp_get_bind, wp_ite]
  split
  · rw [wp_fail]
  · cases d.pattern 0 <;> cases rw' <;> simp only [wp_bind, wp_set, wp_pure, wp_fail]

/-- **A write of one sector.** The bytes have left the `uio` when the drive
answers. -/
theorem wp_lhdIoLoop_write {t : ℕ} (hrw : r.uio.rw = .write) (hres : 0 < r.uio.resid)
    (hlen : 512 ≤ r.uio.base.length) :
    wp (lhdIoLoop 1 t) Q E r ↔
      if r.uio.Faults 512 then E (.error .EFAULT) r
      else if r.fs.nsect.toNat ≤ t then
        E (.error .EINVAL) { r with uio := r.uio.advance (r.uio.base.take 512) }
      else match r.fs.pattern 0 with
        | .ok => Q () ⟨r.fs.tick.put t (.ofList (r.uio.base.take 512)),
            r.uio.advance (r.uio.base.take 512)⟩
        | .media left => E (.error Errno.EIO) ⟨r.fs.tick.put t left,
            r.uio.advance (r.uio.base.take 512)⟩ := by
  rw [lhdIoLoop, wp_get_bind]
  simp only [hrw]
  rw [wp_bind, wp_uiomove (by omega) hres hlen]
  have htaken : r.uio.taken [] 512 = r.uio.base.take 512 := by
    unfold Uio.taken
    rw [hrw]
  rw [htaken]
  split
  · rfl
  · rw [wp_bind, wp_zoom, wp_operate]
    show (if r.fs.nsect.toNat ≤ t then _ else _) ↔ _
    split
    · rfl
    · show (match r.fs.pattern 0, UioRw.write with
        | .ok, .read => _ | .ok, .write => _ | .media _, .read => _ | .media _, .write => _) ↔ _
      cases r.fs.pattern 0 with
      | media left => rfl
      | ok =>
        show wp (lhdIoLoop 0 _) _ _ _ ↔ _
        rw [lhdIoLoop, wp_pure]
        rfl

/-- **A read of one sector.** -/
theorem wp_lhdIoLoop_read {t : ℕ} (hrw : r.uio.rw = .read) (hres : 0 < r.uio.resid)
    (hlen : 512 ≤ r.uio.base.length) :
    wp (lhdIoLoop 1 t) Q E r ↔
      if r.fs.nsect.toNat ≤ t then E (.error .EINVAL) r
      else match r.fs.pattern 0 with
        | .ok => if r.uio.Faults 512 then E (.error .EFAULT) { r with fs := r.fs.tick }
            else Q () ⟨r.fs.tick, r.uio.advance (r.fs.sectors t).toList⟩
        | .media _ => E (.error Errno.EIO) { r with fs := r.fs.tick } := by
  rw [lhdIoLoop, wp_get_bind]
  simp only [hrw]
  rw [wp_bind, wp_zoom, wp_operate]
  show (if r.fs.nsect.toNat ≤ t then _ else _) ↔ _
  split
  · rfl
  · show (match r.fs.pattern 0, UioRw.read with
      | .ok, .read => _ | .ok, .write => _ | .media _, .read => _ | .media _, .write => _) ↔ _
    cases r.fs.pattern 0 with
    | media left => rfl
    | ok =>
      show wp (uiomove (r.fs.sectors t).toList 512 >>= _) _ _ ⟨r.fs.tick, r.uio⟩ ↔ _
      rw [wp_bind, wp_uiomove (r := ⟨r.fs.tick, r.uio⟩) (by omega) hres hlen]
      have htaken : r.uio.taken (r.fs.sectors t).toList 512 = (r.fs.sectors t).toList := by
        unfold Uio.taken
        rw [hrw]
        exact List.take_of_length_le (length_toList _).le
      split
      · rfl
      · rw [htaken, lhdIoLoop, wp_pure]

end LhdIo

/-! ## A block write -/

theorem wp_sfsRwblockTry {onEio : Prog (Io Lhd) Errno Unit} {r : Io Lhd} {Q : Unit → Io Lhd → Prop}
    {E : Stop Errno → Io Lhd → Prop} :
    wp (sfsRwblockTry onEio) Q E r ↔ wp lhdIo Q
      (fun e r' => match e with
        | .error .EINVAL => E .halt r'
        | .error Errno.EIO => wp onEio Q E r'
        | e => E e r') r := by
  unfold sfsRwblockTry
  rw [wp_bind, wp_result]
  unfold wp
  rcases lhdIo r with ⟨a, r'⟩ | ⟨e | _ | _, r'⟩
  · rfl
  · cases e <;> rfl
  · rfl
  · rfl

theorem dvd_blockOffset (block : UInt32) : ∃ k, blockOffset block = 512 * k :=
  ⟨blockOffset block / 512, by unfold blockOffset off32; omega⟩

/-- The sector to which a write of the block goes. -/
def target (block : UInt32) : ℕ := sectorAt (blockOffset block)

/-- The sector after it, as `lhd_io` computes it from the `uio` of a write that
has failed. -/
def targetNext (block : UInt32) : ℕ := sectorAt (off32 (blockOffset block + 512))

/-- **A block write.** What becomes of it is settled by the first answer of the
drive. -/
theorem wp_sfsWblock {data : Sector} {block : UInt32} {d : Lhd} {Q : Unit → Lhd → Prop}
    {E : Stop Errno → Lhd → Prop} :
    wp (sfsWblock data block) Q E d ↔
      if d.nsect.toNat ≤ target block then E .halt d
      else match d.pattern 0 with
        | .ok => Q () (d.tick.put (target block) data)
        | .media left =>
          if d.nsect.toNat < targetNext block then E .halt (d.tick.put (target block) left)
          else Q () (d.tick.put (target block) left) := by
  obtain ⟨k, hk⟩ := dvd_blockOffset block
  have hlen := length_toList data
  -- the `uio` before and after the bytes have gone to the card
  let u := mkKuio data.toList (blockOffset block) .write
  let u' : Uio :=
    { moved := data.toList, base := [], user := none, offset := off32 (blockOffset block + 512),
      resid := 0, rw := .write }
  have htmod : u.offset.tmod 512 = 0 := by
    show (blockOffset block).tmod 512 = 0
    rw [hk, Int.mul_tmod_right]
  have htmod' : u'.offset.tmod 512 = 0 := by
    have hdvd : u'.offset = 512 * (u'.offset / 512) := by
      show off32 (blockOffset block + 512) = 512 * (off32 (blockOffset block + 512) / 512)
      unfold off32
      omega
    rw [hdvd, Int.mul_tmod_right]
  have hresid : 0 < u.resid := by
    show 0 < data.toList.length
    omega
  have hfaults : ¬ u.Faults 512 := by
    rintro ⟨n, hn, -⟩
    cases hn
  have htake : u.base.take 512 = data.toList := List.take_of_length_le hlen.le
  have hmoved : u.advance data.toList = u' := by
    simp [u, u', Uio.advance, mkKuio, hlen, word32]
  have hwrap : word32 (target block + 1 : ℕ) ≤ target block + 1 := by
    unfold word32
    omega
  unfold sfsWblock sfsRwblock
  rw [wp_bind, wp_withUio, sfsRwblockFrom, wp_sfsRwblockTry,
    wp_lhdIo_one (r := ⟨d, u⟩) htmod hlen,
    wp_lhdIoLoop_write (r := ⟨d, u⟩) rfl hresid hlen.ge, if_neg hfaults, htake, hmoved]
  show (if d.nsect.toNat < word32 (target block + 1 : ℕ) then E .halt d
    else if d.nsect.toNat ≤ target block then E .halt d
    else _) ↔ _
  by_cases hin : d.nsect.toNat ≤ target block
  · simp only [if_pos hin, ite_self]
  rw [if_neg (by omega), if_neg hin, if_neg hin]
  show (match d.pattern 0 with | .ok => _ | .media left => _) ↔ _
  cases d.pattern 0 with
  | ok =>
    show wp (pure ()) Q E (d.tick.put (target block) (.ofList data.toList)) ↔ _
    rw [wp_pure, ofList_toList]
  | media left =>
    -- the retry asks for no sector
    show wp (sfsRwblockFrom 9) _ _ ⟨d.tick.put (target block) left, u'⟩ ↔ _
    rw [sfsRwblockFrom, wp_sfsRwblockTry,
      wp_lhdIo_none (r := ⟨d.tick.put (target block) left, u'⟩) htmod' rfl]
    show (if d.nsect.toNat < targetNext block then _ else wp (pure ()) Q E _) ↔ _
    rw [wp_pure]

/-! ## What a successful block write says -/

/-- The drive fails the first operation and the ten retries. -/
def Lhd.KeepsFailing (d : Lhd) : Prop := ∀ i ≤ 10, ∃ left, d.pattern i = .media left

/-- **The contract of `sfs_wblock`.** If it returns 0 the sector holds the data,
and if the drive keeps failing it returns `EIO`. -/
def WriteContract (d : Lhd) (data : Sector) (block : UInt32) : Prop :=
  (∀ d', sfsWblock data block d = .ok () d' → d'.sectors block.toNat = data) ∧
    (d.KeepsFailing → ∃ d', sfsWblock data block d = .error (.error Errno.EIO) d')

/-- The writes that keep it. The first answer of the drive is no media error
and the byte offset of the block has not wrapped to another sector; otherwise
what is left in the sector has to be the data by chance, or the kernel has to
panic, and the drive must not keep failing. -/
def Lands (d : Lhd) (data : Sector) (block : UInt32) : Prop :=
  if d.nsect.toNat ≤ target block then ¬ d.KeepsFailing
  else match d.pattern 0 with
    | .ok => target block = block.toNat ∨ d.sectors block.toNat = data
    | .media left => ¬ d.KeepsFailing ∧ (d.nsect.toNat < targetNext block ∨
        (if target block = block.toNat then left else d.sectors block.toNat) = data)

/-- Below 2 GB no offset wraps. -/
theorem target_eq {block : UInt32} (hlt : block.toNat + 1 < 2 ^ 22) :
    target block = block.toNat ∧ targetNext block = block.toNat + 1 := by
  have hoffset : blockOffset block = 512 * block.toNat := by
    unfold blockOffset off32
    omega
  unfold target targetNext sectorAt
  constructor
  · rw [hoffset, Int.mul_tdiv_cancel_left _ (by decide)]
    exact word32_eq (by omega)
  · rw [hoffset, off32_eq (by omega) (by omega),
      show (512 * block.toNat + 512 : ℤ) = 512 * (block.toNat + 1 : ℕ) by omega,
      Int.mul_tdiv_cancel_left _ (by decide)]
    exact word32_eq (by omega)

theorem put_sectors (d : Lhd) (t b : ℕ) (data : Sector) :
    (d.tick.put t data).sectors b = if t = b then data else d.sectors b := by
  show Function.update d.sectors t data b = _
  rw [Function.update_apply]
  simp only [eq_comm]

/-- **When a successful block write is on the disk.** -/
theorem wblock_contract_iff (d : Lhd) (data : Sector) (block : UInt32) :
    WriteContract d data block ↔ Lands d data block := by
  unfold WriteContract Lands
  have hreturn : wp (sfsWblock data block) (fun _ d' => d'.sectors block.toNat = data)
      (fun _ _ => True) d ↔
      ∀ d', sfsWblock data block d = .ok () d' → d'.sectors block.toNat = data :=
    wp_true_iff.trans ⟨fun h d' => h () d', fun h _ d' => h d'⟩
  have hstop := wp_stop_iff (x := sfsWblock data block) (s := d) (e := .error Errno.EIO)
  rw [← hreturn, ← hstop, wp_sfsWblock, wp_sfsWblock]
  split
  · simp
  · cases hp : d.pattern 0 with
    | ok =>
      have hok : ¬ d.KeepsFailing := fun h => by
        obtain ⟨left, hleft⟩ := h 0 (by omega)
        rw [hp] at hleft
        cases hleft
      simp only [put_sectors, hok, false_imp_iff, and_true]
      by_cases ht : target block = block.toNat <;> simp [ht]
    | media left =>
      simp only [put_sectors]
      split <;> rename_i hnext
      · simp [hnext]
      · simp only [imp_false, hnext, false_or, and_comm]

/-- A drive of eight sectors that fails the first operation and no other. -/
def flakyDrive : Lhd where
  nsect := 8
  sectors := fun _ => zero
  pattern := fun i => if i = 0 then .media zero else .ok

/-- The first attempt to write block 5 meets a media error. The retry succeeds
without a write, and the sector is as it was. -/
theorem wblock_lost :
    ∃ d', sfsWblock (fun _ => 1) 5 flakyDrive = .ok () d' ∧ d'.sectors 5 ≠ fun _ => 1 := by
  obtain ⟨a, d', h, hd⟩ := Prog.exists_ok_of (sfsWblock (fun _ => 1) 5) flakyDrive
    (fun _ d' => d'.sectors 5 0 = 0) (by decide +kernel)
  refine ⟨d', h, fun heq => ?_⟩
  rw [heq] at hd
  cases hd

/-! ## A drive without errors -/

section Clean

/-- The drive will report no media error. -/
def Lhd.Clean (d : Lhd) : Prop := d.pattern = fun _ => .ok

theorem Lhd.Clean.tick_eq {d : Lhd} (h : d.Clean) : d.tick = d := by
  show { d with pattern := fun i => d.pattern (i + 1) } = d
  rw [show d.pattern = fun _ => .ok from h]
  cases d
  cases h
  rfl

theorem Lhd.Clean.put {d : Lhd} (h : d.Clean) (t : ℕ) (data : Sector) : (d.put t data).Clean := h

/-- The request after one sector has been read or written. -/
def afterSector (r : Io Lhd) (t : ℕ) : Io Lhd :=
  match r.uio.rw with
  | .write => ⟨r.fs.put t (.ofList (r.uio.base.take 512)), r.uio.advance (r.uio.base.take 512)⟩
  | .read => ⟨r.fs, r.uio.advance (r.fs.sectors t).toList⟩

/-- **A request for sector `t`, below 2 GB.** -/
theorem wp_sfsRwblock {r : Io Lhd} {t : ℕ} {Q : Unit → Io Lhd → Prop}
    {E : Stop Errno → Io Lhd → Prop} (hclean : r.fs.Clean) (hoffset : r.uio.offset = 512 * t)
    (hlt : t < 2 ^ 22) (hsect : t < r.fs.nsect.toNat) (hres : r.uio.resid = 512)
    (hlen : 512 ≤ r.uio.base.length) :
    wp sfsRwblock Q E r ↔
      if r.uio.Faults 512 then E (.error .EFAULT) r else Q () (afterSector r t) := by
  have htmod : r.uio.offset.tmod 512 = 0 := by rw [hoffset, Int.mul_tmod_right]
  have hsector : sectorAt r.uio.offset = t := by
    unfold sectorAt
    rw [hoffset, Int.mul_tdiv_cancel_left _ (by decide)]
    exact word32_eq (by omega)
  have hwrap : word32 (t + 1 : ℕ) = t + 1 := word32_eq (by omega)
  have hok : r.fs.pattern 0 = .ok := by rw [show r.fs.pattern = _ from hclean]
  have hpos : 0 < r.uio.resid := by omega
  unfold sfsRwblock
  rw [sfsRwblockFrom, wp_sfsRwblockTry, wp_lhdIo_one htmod hres, hsector, hwrap,
    if_neg (by omega)]
  cases hrw : r.uio.rw with
  | write =>
    rw [wp_lhdIoLoop_write hrw hpos hlen, if_neg (show ¬ r.fs.nsect.toNat ≤ t by omega), hok,
      hclean.tick_eq]
    unfold afterSector
    rw [hrw]
  | read =>
    rw [wp_lhdIoLoop_read hrw hpos hlen, if_neg (show ¬ r.fs.nsect.toNat ≤ t by omega), hok,
      hclean.tick_eq]
    unfold afterSector
    rw [hrw]

variable {d : Lhd} {block : UInt32}

theorem blockOffset_eq (hlt : block.toNat < 2 ^ 22) : blockOffset block = 512 * block.toNat := by
  unfold blockOffset off32
  omega

/-- **A block is read.** -/
theorem run_sfsRblock (hclean : d.Clean) (hlt : block.toNat < 2 ^ 22)
    (hsect : block.toNat < d.nsect.toNat) :
    sfsRblock block d = .ok (d.sectors block.toNat) d := by
  refine run_of_wp ?_
  have hlen := length_toList zero
  let u := mkKuio zero.toList (blockOffset block) .read
  unfold sfsRblock
  rw [wp_bind, wp_withUio, wp_sfsRwblock (r := ⟨d, u⟩) (t := block.toNat) hclean
    (blockOffset_eq hlt) hlt hsect hlen hlen.ge, if_neg (by rintro ⟨n, hn, -⟩; cases hn), wp_pure]
  exact ⟨ofList_toList _, rfl⟩

/-- **A block is written.** -/
theorem run_sfsWblock (hclean : d.Clean) (hlt : block.toNat < 2 ^ 22)
    (hsect : block.toNat < d.nsect.toNat) (data : Sector) :
    sfsWblock data block d = .ok () (d.put block.toNat data) := by
  refine run_of_wp ?_
  have hlen := length_toList data
  let u := mkKuio data.toList (blockOffset block) .write
  unfold sfsWblock
  rw [wp_bind, wp_withUio, wp_sfsRwblock (r := ⟨d, u⟩) (t := block.toNat) hclean
    (blockOffset_eq hlt) hlt hsect hlen hlen.ge, if_neg (by rintro ⟨n, hn, -⟩; cases hn), wp_pure]
  refine ⟨rfl, ?_⟩
  show d.put block.toNat (.ofList (data.toList.take 512)) = _
  rw [List.take_of_length_le hlen.le, ofList_toList]

end Clean

end Fs

end Os161
