import Os161.Fs.Eof
import Os161.Fs.Quiet
/-!
# The size of a file after a write

A write of `sfs_io` moves `k` bytes and then, whether it has failed or not,
moves the end of the file up to the offset that is in the `uio`. That is right
for any `k` but 0: the offset is then the one that the caller asked for, and a
write that does nothing past the end of the file makes the file longer
(`write_law_iff`). Nothing is assumed here about the drive: its errors are among
those with which the write may fail.
-/

namespace Os161

namespace Fs

open Prog Sfs
open Userprog (UioRw)

variable {s s' : Sfs} {x b : UInt32} {v : SfsVnode} {r r' r'' : Io Sfs} {k m n : ℕ}

/-! ## What the allocation of blocks leaves alone -/

/-- `sfi_size` of a vnode that is loaded. -/
def Sfs.sizeWord (s : Sfs) (x : UInt32) : Option UInt32 := (s.vnode? x).map fun v => v.i.size

/-- The size of file `x` is still `c`. -/
def SizeIs (x : UInt32) (c : Option UInt32) (s : Sfs) : Prop := s.sizeWord x = c

variable {c : Option UInt32}

/-- A vnode gets other pointers. -/
theorem returns_modifyVnode_size {f : SfsVnode → SfsVnode} (hino : ∀ v, (f v).ino = v.ino)
    (hsize : ∀ v, (f v).i.size = v.i.size) (y : UInt32) :
    Returns (SizeIs x c) (modifyVnode y f) := by
  refine .modify fun s hs => Eq.trans ?_ hs
  unfold sizeWord
  rw [vnode?_modifyVnode hino]
  split
  · rename_i hy
    rw [hy]
    cases s.vnode? y with
    | none => rfl
    | some v => exact congrArg some (hsize v)
  · rfl

theorem returns_rblock_size (b : UInt32) : Returns (SizeIs x c) (rblock b) :=
  .zoom_of fun _ _ hs => hs

theorem returns_wblock_size (d : Sector) (b : UInt32) : Returns (SizeIs x c) (wblock d b) :=
  .zoom_of fun _ _ hs => hs

theorem returns_sfsBalloc_size : Returns (SizeIs x c) sfsBalloc := by
  refine .bind (.zoom_of fun _ _ hs => hs) fun _ => .bind (.modify fun _ hs => hs) fun _ => ?_
  exact .get_bind fun _ _ => .bind (.assert _) fun _ => .bind (returns_wblock_size _ _) fun _ =>
    .pure

theorem returns_sfsBmapDirect_size (y : UInt32) (i : Fin 15) (doalloc : Bool) :
    Returns (SizeIs x c) (sfsBmapDirect y i doalloc) := by
  refine .bind (returns_getVnode y) fun _ => .ite (.bind returns_sfsBalloc_size fun _ => ?_)
    (returns_handBack _)
  refine .bind (returns_modifyVnode_size ?_ ?_ y) fun _ => returns_handBack _
  · exact fun _ => rfl
  · exact fun _ => rfl

theorem returns_indirectBlock_size (y idblock : UInt32) :
    Returns (SizeIs x c) (indirectBlock y idblock) := by
  refine .ite (.bind returns_sfsBalloc_size fun _ => ?_)
    (.bind (returns_rblock_size _) fun _ => .pure)
  refine .bind (returns_modifyVnode_size ?_ ?_ y) fun _ => .pure
  · exact fun _ => rfl
  · exact fun _ => rfl

theorem returns_sfsBmapIndirect_size (y : UInt32) (i : ℕ) (doalloc : Bool) :
    Returns (SizeIs x c) (sfsBmapIndirect y i doalloc) := by
  refine .bind (returns_getVnode y) fun _ => .bind (.failIf _ _) fun _ => .ite .pure ?_
  refine .bind (returns_indirectBlock_size y _) fun _ => .ite ?_ (returns_handBack _)
  exact .bind returns_sfsBalloc_size fun _ => .bind (returns_wblock_size _ _) fun _ =>
    returns_handBack _

/-- **`sfs_bmap`**, which finds a block only below the largest size. -/
theorem wp_sfsBmap_size (y : UInt32) (fb : ℕ) (doalloc : Bool) :
    wp (sfsBmap y fb doalloc) (fun _ s' => s'.sizeWord x = s.sizeWord x ∧ fb < 143)
      (OnError fun s' => s'.sizeWord x = s.sizeWord x) s := by
  unfold sfsBmap
  split
  · exact wp_imp (returns_sfsBmapDirect_size y _ doalloc s rfl) fun _ _ h => ⟨h, by omega⟩
  by_cases hlt : fb < 143
  · exact wp_imp (returns_sfsBmapIndirect_size y _ doalloc s rfl) fun _ _ h => ⟨h, hlt⟩
  · unfold sfsBmapIndirect
    refine (returns_getVnode y).wp_bind (I := SizeIs x (s.sizeWord x)) rfl fun _ s' hs' => ?_
    rw [wp_bind, wp_failIf, if_pos (by omega)]
    exact fun _ => hs'

/-! ## Bytes on their way to the file -/

/-- **A write has moved `k` bytes** and has left the size alone so far. -/
structure Wrote (x : UInt32) (r r' : Io Sfs) (k : ℕ) : Prop where
  uio : r'.uio = r.uio.advance (r.uio.base.take k)
  size : r'.fs.sizeWord x = r.fs.sizeWord x
  le : k ≤ r.uio.resid
  bound : k = 0 ∨ r.uio.pos + k ≤ 143 * 512

namespace Wrote

theorem none (hok : r.uio.Ok) (hsize : s'.sizeWord x = r.fs.sizeWord x) :
    Wrote x r ⟨s', r.uio⟩ 0 :=
  ⟨by rw [List.take_zero, Uio.advance_nil hok], hsize, Nat.zero_le _, .inl rfl⟩

section

variable (h : Wrote x r r' k)

include h

theorem pos_lt (hok : r.uio.Ok) : r.uio.pos + k < 2 ^ 31 := by
  have := hok.pos_lt
  rcases h.bound with h0 | hle <;> omega

theorem ok (hok : r.uio.Ok) :
    r'.uio.Ok ∧ r'.uio.pos = r.uio.pos + k ∧ r'.uio.resid = r.uio.resid - k := by
  have hlen : (r.uio.base.take k).length = k := by
    rw [List.length_take]
    exact min_eq_left (h.le.trans hok.resid_le)
  have hlt := h.pos_lt hok
  have hle := h.le
  rw [h.uio]
  refine ⟨hok.advance (by rw [hlen]; exact hlt) (by rw [hlen]; exact hle), ?_, ?_⟩
  · rw [hok.pos_advance (by rw [hlen]; exact hlt), hlen]
  · rw [hok.resid_advance (by rw [hlen]; exact hle), hlen]

theorem rw_eq : r'.uio.rw = r.uio.rw := by rw [h.uio]; rfl

theorem trans (h' : Wrote x r' r'' m) (hok : r.uio.Ok) :
    Wrote x r r'' (k + m) := by
  obtain ⟨-, hpos, hresid⟩ := h.ok hok
  have hk := h.le
  have hm := h'.le
  have hbase : r'.uio.base = r.uio.base.drop k := by
    rw [h.uio]
    show r.uio.base.drop (r.uio.base.take k).length = _
    rw [List.length_take, min_eq_left (hk.trans hok.resid_le)]
  refine ⟨?_, h'.size.trans h.size, by omega, ?_⟩
  · rw [h'.uio, hbase, h.uio, Uio.advance_advance, ← List.take_add]
  · have hb := h.bound
    have hb' := h'.bound
    omega

end

end Wrote

/-- An error that is returned before the write has moved anything. -/
def Refused (x : UInt32) (r : Io Sfs) (e : Stop Errno) (r' : Io Sfs) : Prop :=
  (∃ err, e = .error err) → Wrote x r r' 0

/-- A block write ends well or the kernel panics. -/
theorem wp_wblock_size (d : Sector) (b : UInt32) :
    wp (wblock d b) (fun _ s' => s'.sizeWord x = s.sizeWord x) (fun e _ => e = .halt) s := by
  have hdevice : wp (sfsWblock d b) (fun _ _ => True) (fun e _ => e = .halt) s.device := by
    rw [wp_sfsWblock]
    generalize target b = sector, targetNext b = next
    split
    · rfl
    · cases s.device.pattern 0 with
      | ok => trivial
      | media left =>
        dsimp only
        split <;> trivial
  unfold wblock
  rw [wp_zoom]
  exact wp_imp hdevice fun _ _ _ => rfl

/-- **`sfs_partialio`** of a write. -/
theorem wp_sfsPartialio_write (hok : r.uio.Ok) (hrw : r.uio.rw = .write) {len : ℕ}
    (hlen : len ≤ r.uio.resid) (hfits : r.uio.pos % 512 + len ≤ 512) :
    wp (sfsPartialio x (r.uio.pos % 512) len) (fun _ r' => Wrote x r r' len) (Refused x r) r := by
  unfold sfsPartialio
  rw [wp_get_bind, wp_assert_bind (by unfold word32; omega), wp_bind, wp_onFs,
    hok.fileblockAt_eq]
  refine wp_mono (wp_sfsBmap_size (x := x) x _ _) ?_ fun e s' hsize herr => .none hok (hsize herr)
  rintro b s₁ ⟨hsize₁, hlt⟩
  rw [wp_ite]
  split
  · -- without a block for it the kernel panics
    rw [wp_bind, wp_assert, if_neg (by rw [hrw]; decide)]
    exact OnError.halt
  · rw [wp_bind, wp_onFs]
    refine wp_mono (returns_rblock_size (x := x) b s₁ rfl) ?_ fun e s' hsize herr =>
      .none hok ((hsize herr).trans hsize₁)
    rintro iobuf s₂ hsize₂
    rw [wp_bind, hok.wp_uiomove (r := ⟨s₂, r.uio⟩) hlen]
    split
    · exact fun _ => .none hok (hsize₂.trans hsize₁)
    · have htaken : r.uio.taken (iobuf.toList.drop (r.uio.pos % 512)) len =
          r.uio.base.take len := by
        unfold Uio.taken
        rw [hrw]
      dsimp only
      rw [htaken, wp_onFs]
      refine wp_mono (wp_wblock_size (x := x) _ b) ?_ ?_
      · rintro _ s₃ hsize₃
        exact ⟨rfl, (hsize₃.trans hsize₂).trans hsize₁, hlen, .inr (by omega)⟩
      · rintro e s₃ rfl
        exact OnError.halt

/-- **`sfs_rwblock`** takes 512 bytes from the buffer, whatever the drive
answers, or none. -/
theorem wp_sfsRwblock_write {t : Io Lhd} (hoffset : ∃ q, t.uio.offset = 512 * q)
    (hrw : t.uio.rw = .write) (hres : t.uio.resid = 512) (hlen : 512 ≤ t.uio.base.length) :
    wp sfsRwblock (fun _ t' => t'.uio = t.uio.advance (t.uio.base.take 512))
      (OnError fun t' => t'.uio = t.uio) t := by
  obtain ⟨q, hq⟩ := hoffset
  have htake : (t.uio.base.take 512).length = 512 := by
    rw [List.length_take, min_eq_left hlen]
  have htmod : t.uio.offset.tmod 512 = 0 := by rw [hq, Int.mul_tmod_right]
  have htmod' : (t.uio.advance (t.uio.base.take 512)).offset.tmod 512 = 0 := by
    have hdvd : off32 (t.uio.offset + 512) = 512 * (off32 (t.uio.offset + 512) / 512) := by
      unfold off32
      omega
    show (off32 (t.uio.offset + (t.uio.base.take 512).length)).tmod 512 = 0
    rw [htake, Nat.cast_ofNat, hdvd, Int.mul_tmod_right]
  have hres' : (t.uio.advance (t.uio.base.take 512)).resid = 0 := by
    show word32 (t.uio.resid - (t.uio.base.take 512).length) = 0
    rw [htake, hres]
    rfl
  unfold sfsRwblock
  rw [sfsRwblockFrom, wp_sfsRwblockTry, wp_lhdIo_one htmod hres]
  split
  · exact OnError.halt
  rw [wp_lhdIoLoop_write hrw (by omega) hlen]
  split
  · exact fun _ => rfl
  split
  · exact OnError.halt
  cases t.fs.pattern 0 with
  | ok => rfl
  | media left =>
    -- the retry asks for no sector
    show wp (sfsRwblockFrom 9) _ _ ⟨t.fs.tick.put _ left, t.uio.advance (t.uio.base.take 512)⟩
    rw [sfsRwblockFrom, wp_sfsRwblockTry, wp_lhdIo_none htmod' hres']
    split
    · exact OnError.halt
    · rfl

/-- A block goes directly from the buffer to the drive, and the offset and the
residue that the drive has seen are undone. -/
theorem wp_sfsBlockioOn_write (hok : r.uio.Ok) (hrw : r.uio.rw = .write)
    (hres : 512 ≤ r.uio.resid) :
    wp (sfsBlockioOn b)
      (fun _ r' => r'.uio = r.uio.advance (r.uio.base.take 512) ∧
        r'.fs.sizeWord x = r.fs.sizeWord x)
      (OnError fun r' => r'.uio = r.uio ∧ r'.fs.sizeWord x = r.fs.sizeWord x)
      r := by
  unfold sfsBlockioOn
  -- the offset is kept out of sight, so that no step computes it
  obtain ⟨diskoff, hd⟩ : ∃ d, off32 (b.toNat * 512) = d := ⟨_, rfl⟩
  have hdiskoff : ∃ q, diskoff = 512 * q := by
    refine ⟨diskoff / 512, ?_⟩
    rw [← hd]
    unfold off32
    omega
  rw [hd]
  rw [wp_get_bind, wp_assert_bind hres, wp_bind, wp_set, wp_bind, wp_result,
    wp_onDevice]
  refine wp_mono (wp_sfsRwblock_write
    (t := ⟨r.fs.device, { r.uio with offset := diskoff, resid := 512 }⟩) hdiskoff hrw rfl
    (hres.trans hok.resid_le)) ?_ ?_
  · rintro _ t' huio
    rw [wp_bind, wp_modify, wp_ofExcept]
    rw [huio]
    refine ⟨?_, rfl⟩
    dsimp only [Uio.advance]
    rw [off32_undo, word32_undo]
  · rintro e t' huio
    cases e with
    | error err =>
      have huio' := huio ⟨err, rfl⟩
      dsimp only at huio' ⊢
      rw [wp_bind, wp_modify, wp_ofExcept]
      rw [huio']
      intro _
      refine ⟨?_, rfl⟩
      rw [hok.offset_undone, hok.resid_undone]
    | halt | longjmp => exact nofun

/-- **`sfs_blockio`** of a write. -/
theorem wp_sfsBlockio_write (hok : r.uio.Ok) (hrw : r.uio.rw = .write) (hres : 512 ≤ r.uio.resid)
    (haligned : r.uio.pos % 512 = 0) :
    wp (sfsBlockio x) (fun _ r' => Wrote x r r' 512) (Refused x r) r := by
  unfold sfsBlockio
  rw [wp_get_bind, wp_bind, wp_onFs, hok.fileblockAt_eq]
  refine wp_mono (wp_sfsBmap_size (x := x) x _ _) ?_ fun e s' hsize herr => .none hok (hsize herr)
  rintro b s₁ ⟨hsize₁, hlt⟩
  split
  · rw [wp_bind, wp_assert, if_neg (by rw [hrw]; decide)]
    exact OnError.halt
  · refine wp_mono (wp_sfsBlockioOn_write (r := ⟨s₁, r.uio⟩) (x := x) hok hrw hres) ?_ ?_
    · rintro _ r' ⟨huio, hsize⟩
      exact ⟨huio, hsize.trans hsize₁, hres, .inr (by omega)⟩
    · rintro e ⟨s', u'⟩ hstop herr
      obtain ⟨rfl, hsize⟩ := hstop herr
      exact .none hok (hsize.trans hsize₁)

/-! ## The pieces of a write -/

/-- **The pieces are written, or some of them.** -/
def Ended (x : UInt32) (r r' : Io Sfs) : Prop := ∃ k, Wrote x r r' k

/-- **One piece** of a write. -/
theorem wp_firstPiece_write (hok : r.uio.Ok) (hrw : r.uio.rw = .write) :
    wp (firstPiece x r.uio) (fun _ r' => Wrote x r r' r.uio.piece) (Refused x r) r := by
  unfold Uio.piece firstPiece
  split
  · rename_i hblock
    rw [show min r.uio.resid (512 - r.uio.pos % 512) = 512 by omega]
    exact wp_sfsBlockio_write hok hrw hblock.2 hblock.1
  · exact wp_sfsPartialio_write hok hrw (by omega) (by omega)

/-- From the leading partial block on. -/
theorem wp_sfsIoBlocks_write (hok : r.uio.Ok) (hrw : r.uio.rw = .write) :
    wp (sfsIoBlocks x) (fun _ r' => Ended x r r') (OnError (Ended x r)) r := by
  refine wp_imp (wp_sfsIoBlocks_pieces (I := Ended x r) ?_ ?_ ⟨0, .none hok rfl⟩) ?_
  · rintro r' ⟨k, hwrote⟩ -
    obtain ⟨hok', -⟩ := hwrote.ok hok
    refine wp_mono (wp_firstPiece_write (x := x) hok' (hwrote.rw_eq.trans hrw)) ?_ ?_
    · rintro _ r'' hwrote'
      exact ⟨⟨_, hwrote.trans hwrote' hok⟩, (hwrote'.ok hok').2⟩
    · rintro e r'' hstop herr
      exact ⟨_, hwrote.trans (hstop herr) hok⟩
  · rintro r' ⟨k, hwrote⟩
    exact (hwrote.ok hok).1
  · rintro _ r' ⟨hended, -⟩
    exact hended

/-! ## The end of the file -/

theorem Sfs.size_eq_of_sizeWord (h : s'.sizeWord x = s.sizeWord x) (hv : s.vnode? x = some v) :
    s'.size x = s.size x ∧ ∃ v', s'.vnode? x = some v' := by
  unfold sizeWord at h
  rw [hv] at h
  obtain ⟨v', hv', hsize⟩ := Option.map_eq_some_iff.1 h
  rw [← size_of_loaded hv, ← size_of_loaded hv', hsize]
  exact ⟨rfl, v', hv'⟩

/-- **After the label `out`** the end of the file is moved up to the offset. -/
theorem wp_sfsIoOut_write {E : Stop Errno → Io Sfs → Prop} (hv : r.fs.vnode? x = some v)
    (hok : r.uio.Ok) (hrw : r.uio.rw = .write) :
    wp (sfsIoOut x 0)
      (fun _ r' => r'.uio.resid = r.uio.resid ∧ r'.fs.size x = max (r.fs.size x) r.uio.pos)
      E r := by
  have hlt := hok.pos_lt
  have hresid : word32 (r.uio.resid + (0 : ℕ)) = r.uio.resid := word32_eq hok.resid_lt
  unfold sfsIoOut
  rw [wp_get_bind, wp_bind, wp_onFs, wp_getVnode hv]
  rw [size_of_loaded hv, hok.offset_eq, wp_ite]
  split
  · rename_i hgrow
    rw [wp_bind, wp_onFs, wp_modifyVnode, wp_modify]
    refine ⟨hresid, ?_⟩
    let f : SfsVnode → SfsVnode := fun sv =>
      { sv with i := { sv.i with size := UInt32.ofNat (word32 r.uio.pos) }, dirty := true }
    rw [max_eq_right hgrow.2.le]
    unfold size
    rw [inode_modifyVnode (f := f) (fun _ => rfl) hv]
    exact off32_ofNat hlt
  · rename_i hstay
    rw [wp_modify]
    refine ⟨hresid, ?_⟩
    rw [max_eq_left (not_lt.1 fun h => hstay ⟨hrw, h⟩)]

/-- **A write is over.** The end of the file is at least where the write has
stopped, and this is its offset if it has moved nothing. -/
def WriteEnds (x : UInt32) (r r' : Io Sfs) : Prop :=
  ∃ k, r'.uio.resid = r.uio.resid - k ∧ k ≤ r.uio.resid ∧
    r'.fs.size x = max (r.fs.size x) (r.uio.pos + k : ℕ)

/-- **`sfs_io`** of a write. -/
theorem wp_sfsIo_write (hv : r.fs.vnode? x = some v) (hok : r.uio.Ok) (hrw : r.uio.rw = .write) :
    wp (sfsIo x) (fun _ r' => WriteEnds x r r') (OnError (WriteEnds x r)) r := by
  have hresid : word32 (r.uio.resid - (0 : ℕ)) = r.uio.resid := by
    rw [Nat.cast_zero, sub_zero, word32_eq hok.resid_lt]
  have hout : ∀ {r₁ E}, Ended x r r₁ → wp (sfsIoOut x 0) (fun _ r' => WriteEnds x r r') E r₁ := by
    rintro r₁ E ⟨k, hwrote⟩
    obtain ⟨hok₁, hpos₁, hres₁⟩ := hwrote.ok hok
    obtain ⟨hsize, v₁, hv₁⟩ := size_eq_of_sizeWord hwrote.size hv
    refine wp_imp (wp_sfsIoOut_write hv₁ hok₁ (hwrote.rw_eq.trans hrw)) ?_
    rintro _ r' ⟨hres, hmax⟩
    exact ⟨k, hres.trans hres₁, hwrote.le, by rw [hmax, hsize, hpos₁]⟩
  unfold sfsIo
  rw [wp_get_bind, wp_bind, wp_onFs, wp_getVnode hv]
  rw [hrw]
  unfold sfsIoFrom
  rw [wp_get_bind, wp_assert_bind (.inl rfl), wp_bind, wp_modify, hresid, wp_bind,
    wp_result]
  refine wp_mono (wp_sfsIoBlocks_write (x := x) hok hrw) ?_ fun e r₁ hended => ?_
  · rintro _ r₁ hended
    refine wp_then (hout hended) fun _ r' hends => ?_
    rw [wp_ofExcept]
    exact hends
  · cases e with
    | error err =>
      dsimp only
      refine wp_then (hout (hended ⟨err, rfl⟩)) fun _ r' hends => ?_
      rw [wp_ofExcept]
      exact fun _ => hends
    | halt | longjmp => exact nofun

/-- **A write returns**, with 0 or with an error. -/
def WriteReturns (s : Sfs) (x : UInt32) (u : Uio) (r' : Io Sfs) : Prop :=
  vopIo x ⟨s, u⟩ = .ok () r' ∨ ∃ err, vopIo x ⟨s, u⟩ = .error (.error err) r'

/-- **The size that a write should leave**: the old one if no bytes have been
moved, and one that reaches to the last of them otherwise. -/
def WriteLaw (s : Sfs) (x : UInt32) (u : Uio) (r' : Io Sfs) : Prop :=
  (r'.uio.resid = u.resid → r'.fs.size x = s.size x) ∧
    (r'.uio.resid < u.resid →
      r'.fs.size x = max (s.size x) (u.pos + (u.resid - r'.uio.resid) : ℕ))

/-- A write that moves nothing changes no byte of the file. -/
theorem WriteReturns.byte_eq {u : Uio} (hend : WriteReturns s x u r') (hready : s.Ready)
    (haccounts : s.Accounts) (hv : s.vnode? x = some v) (hops : v.ops = .file) (hok : u.Ok)
    (hrw : u.rw = .write) (hnone : r'.uio.resid = u.resid) : r'.fs.byte x = s.byte x := by
  have hcore : s.Core s.Live := haccounts.core hready
  have hx : s.Live x := hcore.loaded x v hv
  have hdone : ∃ k ≤ u.resid, Done s.Live x ⟨s, u⟩ r' k := by
    have hwp := wp_sfsIo (r := ⟨s, u⟩) hcore hv hok
    rw [← wp_vopIo_file (r := ⟨s, u⟩) hv hops] at hwp
    rcases hend with hrun | ⟨err, hrun⟩
    · rw [wp_of_ok hrun, Io.count_of_write hrw] at hwp
      exact ⟨_, le_refl _, hwp.1⟩
    · rw [wp_of_error hrun] at hwp
      obtain ⟨k, n, hn, hdone, hhalf⟩ := hwp
      refine ⟨k, ?_, hdone⟩
      rcases hhalf.part with h0 | hlt
      · omega
      · exact (hlt.le.trans hn)
  obtain ⟨k, hk, hdone⟩ := hdone
  have hlen : (Io.gone x ⟨s, u⟩ k).length = k := Io.length_gone (hk.trans hok.resid_le)
  have hresid : r'.uio.resid = u.resid - k := by
    rw [hdone.uio, hok.resid_advance (by rw [hlen]; exact hk), hlen]
  obtain rfl : k = 0 := by omega
  rw [hdone.data x hx]
  unfold Io.after
  rw [if_pos ⟨hrw, rfl⟩, List.take_zero, patch_nil]

/-- One byte for the empty file of `tinySfs`. -/
def oneByteWrite : Uio := mkKuio [7] 0 .write

/-- A write of nothing past the end of that file. -/
def nothingWrite : Uio := mkKuio [] 512 .write

end Fs

end Os161
