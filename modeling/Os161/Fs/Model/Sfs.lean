import Os161.Fs.Model.Format
import Os161.Lib.Model.Bitmap
/-!
# `kern/fs/sfs/sfs_vnode.c`: blocks and files

The state of a mounted file system, the allocation of blocks and the I/O of
files. A vnode is named by its inode number: `sfs_loadvnode` has one vnode for
each inode. Functions that work on a `uio` are programs over a request,
`Io Sfs`, and the others over the file system; a panic, or an assertion that
fails, is a program that does not come back.

The static buffers `idbuf` and `iobuf` are filled before they are used in every
call, and are local here. `vn_opencount` is the business of the VFS layer and
left out.
-/

namespace Os161

namespace Fs

open Userprog (UioRw)

/-- The tables `sfs_fileops` and `sfs_dirops`. -/
inductive VnodeOps where
  | file | dir
  deriving DecidableEq, Repr

/-- `struct sfs_vnode`. -/
structure SfsVnode where
  ino : UInt32
  i : SfsInode
  dirty : Bool
  ops : VnodeOps
  /-- `vn_refcount`, an `int`. -/
  refcount : ℤ

/-- `struct sfs_fs`. -/
structure Sfs where
  super : SfsSuper
  superdirty : Bool
  device : Lhd
  vnodes : List SfsVnode
  freemap : Lib.Bitmap
  freemapdirty : Bool
  /-- Which of the calls of `kmalloc` to come are met. -/
  mem : ℕ → Bool

namespace Sfs

def devicePart : Prog.Part Sfs Lhd where
  get s := s.device
  put d s := { s with device := d }

def freemapPart : Prog.Part Sfs Lib.Bitmap where
  get s := s.freemap
  put b s := { s with freemap := b }

/-- The vnode of an inode that is loaded. -/
def vnode? (s : Sfs) (ino : UInt32) : Option SfsVnode := s.vnodes.find? (·.ino = ino)

/-- Write to the vnode of an inode. -/
def modifyVnode (s : Sfs) (ino : UInt32) (f : SfsVnode → SfsVnode) : Sfs :=
  { s with vnodes := s.vnodes.map fun v => if v.ino = ino then f v else v }

end Sfs

/-- `sv`, for a vnode that is loaded. -/
def getVnode (ino : UInt32) : Prog Sfs Errno SfsVnode := do
  let s ← get
  match s.vnode? ino with
  | some sv => pure sv
  | none => Prog.halt

def modifyVnode (ino : UInt32) (f : SfsVnode → SfsVnode) : Prog Sfs Errno Unit :=
  modify fun s => s.modifyVnode ino f

/-- A `kmalloc`, and `return ENOMEM` if it is not met. -/
def kmalloc : Prog Sfs Errno Unit := do
  let s ← get
  set { s with mem := fun i => s.mem (i + 1) }
  Prog.failIf (s.mem 0 = false) .ENOMEM

def rblock (block : UInt32) : Prog Sfs Errno Sector := Prog.zoom Sfs.devicePart (sfsRblock block)

def wblock (data : Sector) (block : UInt32) : Prog Sfs Errno Unit :=
  Prog.zoom Sfs.devicePart (sfsWblock data block)

/-- `sfs_clearblock`. -/
def sfsClearblock (block : UInt32) : Prog Sfs Errno Unit := wblock Sector.zero block

/-- `sfs_sync_inode`. -/
def sfsSyncInode (ino : UInt32) : Prog Sfs Errno Unit := do
  let sv ← getVnode ino
  if sv.dirty then do
    wblock sv.i.toSector ino
    modifyVnode ino fun sv => { sv with dirty := false }
  else pure ()

/-! ## Space allocation -/

/-- `sfs_balloc`. -/
def sfsBalloc : Prog Sfs Errno UInt32 := do
  let index ← Prog.zoom Sfs.freemapPart Lib.Bitmap.bitmapAlloc
  modify fun s => { s with freemapdirty := true }
  let diskblock := UInt32.ofNat index
  let s ← get
  -- panic("sfs: balloc: invalid block %u\n")
  Prog.assert (diskblock < s.super.nblocks)
  sfsClearblock diskblock
  pure diskblock

/-- `sfs_bfree`. -/
def sfsBfree (diskblock : UInt32) : Prog Sfs Errno Unit := do
  Prog.zoom Sfs.freemapPart (Lib.Bitmap.bitmapUnmark diskblock.toNat)
  modify fun s => { s with freemapdirty := true }

/-- `sfs_bused`, and a panic if the block is not in use. -/
def checkUsed (diskblock : UInt32) : Prog Sfs Errno Unit := do
  let s ← get
  -- panic("sfs: sfs_bused called on out of range block %u\n")
  Prog.assert (diskblock < s.super.nblocks)
  Prog.assert (s.freemap.IsSet diskblock.toNat)

/-- The end of `sfs_bmap`. -/
def handBack (block : UInt32) : Prog Sfs Errno UInt32 := do
  if block ≠ 0 then checkUsed block
  pure block

/-- `sfs_bmap`, for one of the direct blocks. -/
def sfsBmapDirect (ino : UInt32) (k : Fin 15) (doalloc : Bool) : Prog Sfs Errno UInt32 := do
  let sv ← getVnode ino
  if sv.i.direct k = 0 ∧ doalloc then do
    let block ← sfsBalloc
    modifyVnode ino fun sv =>
      { sv with i := { sv.i with direct := Function.update sv.i.direct k block }, dirty := true }
    handBack block
  else handBack (sv.i.direct k)

/-- The indirect block of a file, which is allocated if there is none, and what
is in it. -/
def indirectBlock (ino : UInt32) (idblock : UInt32) : Prog Sfs Errno (UInt32 × (ℕ → UInt32)) :=
  if idblock = 0 then do
    let idblock ← sfsBalloc
    modifyVnode ino fun sv => { sv with i := { sv.i with indirect := idblock }, dirty := true }
    pure (idblock, fun _ => 0)
  else do
    let idbuf ← rblock idblock
    pure (idblock, idbuf.word)

/-- `sfs_bmap`, for block number `fileblock` of those in the indirect blocks. -/
def sfsBmapIndirect (ino : UInt32) (fileblock : ℕ) (doalloc : Bool) : Prog Sfs Errno UInt32 := do
  let sv ← getVnode ino
  let idnum := fileblock / 128
  let idoff := fileblock % 128
  Prog.failIf (0 < idnum) .EINVAL
  if sv.i.indirect = 0 ∧ ¬ doalloc then pure 0
  else do
    let (idblock, idbuf) ← indirectBlock ino sv.i.indirect
    if idbuf idoff = 0 ∧ doalloc then do
      let block ← sfsBalloc
      wblock (Sector.ofWords (Function.update idbuf idoff block)) idblock
      handBack block
    else handBack (idbuf idoff)

/-- `sfs_bmap`. -/
def sfsBmap (ino : UInt32) (fileblock : ℕ) (doalloc : Bool) : Prog Sfs Errno UInt32 :=
  if h : fileblock < 15 then sfsBmapDirect ino ⟨fileblock, h⟩ doalloc
  else sfsBmapIndirect ino (fileblock - 15) doalloc

/-! ## File-level I/O -/

/-- Run a program of the file system in a request. -/
def onFs {α : Type} (x : Prog Sfs Errno α) : Prog (Io Sfs) Errno α := Prog.zoom Io.fsPart x

/-- The drive that a request of the file system goes to. -/
def Io.devicePart : Prog.Part (Io Sfs) (Io Lhd) where
  get r := ⟨r.fs.device, r.uio⟩
  put d r := ⟨{ r.fs with device := d.fs }, d.uio⟩

/-- `uio->uio_offset / SFS_BLOCKSIZE`. -/
def fileblockAt (offset : ℤ) : ℕ := word32 (offset.tdiv 512)

/-- `sfs_partialio`. -/
def sfsPartialio (ino : UInt32) (skipstart len : ℕ) : Prog (Io Sfs) Errno Unit := do
  let r ← get
  Prog.assert (word32 (skipstart + len) ≤ 512)
  let diskblock ← onFs (sfsBmap ino (fileblockAt r.uio.offset) (r.uio.rw = .write))
  let iobuf ← if diskblock = 0 then do
      Prog.assert (r.uio.rw = .read)
      pure Sector.zero
    else onFs (rblock diskblock)
  let bytes ← uiomove (iobuf.toList.drop skipstart) len
  if r.uio.rw = .write then onFs (wblock (iobuf.splice skipstart bytes) diskblock)
  else pure ()

/-- The second half of `sfs_blockio`: the I/O goes directly to the drive, with
an offset and a residue that make sense there. -/
def sfsBlockioOn (diskblock : UInt32) : Prog (Io Sfs) Errno Unit := do
  let r ← get
  let diskoff := off32 (diskblock.toNat * 512)
  Prog.assert (512 ≤ r.uio.resid)
  set { r with uio := { r.uio with offset := diskoff, resid := 512 } }
  let result ← Prog.result (Prog.zoom Io.devicePart sfsRwblock)
  modify fun r' => { r' with uio := { r'.uio with
    offset := off32 (r'.uio.offset - diskoff + r.uio.offset)
    resid := word32 (r'.uio.resid - 512 + r.uio.resid) } }
  Prog.ofExcept result

/-- `sfs_blockio`. -/
def sfsBlockio (ino : UInt32) : Prog (Io Sfs) Errno Unit := do
  let r ← get
  let diskblock ← onFs (sfsBmap ino (fileblockAt r.uio.offset) (r.uio.rw = .write))
  if diskblock = 0 then do
    Prog.assert (r.uio.rw = .read)
    uiomovezeros 512
  else sfsBlockioOn diskblock

/-- The loop of `sfs_io` over whole blocks. -/
def sfsBlockioLoop (ino : UInt32) : ℕ → Prog (Io Sfs) Errno Unit
  | 0 => pure ()
  | n + 1 => do
    sfsBlockio ino
    sfsBlockioLoop ino n

/-- `sfs_io` from the whole blocks to the label `out`. -/
def sfsIoRest (ino : UInt32) : Prog (Io Sfs) Errno Unit := do
  let r ← get
  if r.uio.resid = 0 then pure ()
  else do
    Prog.assert (r.uio.offset.tmod 512 = 0)
    sfsBlockioLoop ino (r.uio.resid / 512)
    let r ← get
    Prog.assert (r.uio.resid < 512)
    if 0 < r.uio.resid then sfsPartialio ino 0 r.uio.resid else pure ()

/-- `sfs_io` from the leading partial block to the label `out`. -/
def sfsIoBlocks (ino : UInt32) : Prog (Io Sfs) Errno Unit := do
  let r ← get
  let blkoff := word32 (r.uio.offset.tmod 512)
  if blkoff ≠ 0 then do
    let len := word32 (512 - blkoff)
    sfsPartialio ino blkoff (if r.uio.resid < len then r.uio.resid else len)
    sfsIoRest ino
  else sfsIoRest ino

/-- `sfs_io` after the label `out`. -/
def sfsIoOut (ino : UInt32) (extraresid : ℕ) : Prog (Io Sfs) Errno Unit := do
  let r ← get
  let sv ← onFs (getVnode ino)
  if r.uio.rw = .write ∧ off32 sv.i.size.toNat < r.uio.offset then
    onFs (modifyVnode ino fun sv =>
      { sv with i := { sv.i with size := UInt32.ofNat (word32 r.uio.offset) }, dirty := true })
  else pure ()
  modify fun r => { r with uio := { r.uio with resid := word32 (r.uio.resid + extraresid) } }

/-- `sfs_io` from the check for the end of file on. -/
def sfsIoFrom (ino : UInt32) (extraresid : ℕ) : Prog (Io Sfs) Errno Unit := do
  Prog.assert (extraresid = 0 ∨ extraresid < (← get).uio.resid)
  modify fun r => { r with uio := { r.uio with resid := word32 (r.uio.resid - extraresid) } }
  let result ← Prog.result (sfsIoBlocks ino)
  sfsIoOut ino extraresid
  Prog.ofExcept result

/-- `sfs_io`. -/
def sfsIo (ino : UInt32) : Prog (Io Sfs) Errno Unit := do
  let r ← get
  let sv ← onFs (getVnode ino)
  let size := off32 sv.i.size.toNat
  let endpos := off32 (r.uio.offset + r.uio.resid)
  match r.uio.rw with
  | .write => sfsIoFrom ino 0
  | .read =>
    -- at or past EOF: just return
    if size ≤ r.uio.offset then pure ()
    else if size < endpos then sfsIoFrom ino (word32 (endpos - size))
    else sfsIoFrom ino 0

/-! ## Truncation -/

/-- The direct blocks from `k` on, `n` of them: those at or past `blocklen` go. -/
def truncDirect (ino : UInt32) (blocklen : ℕ) : ℕ → ℕ → Prog Sfs Errno Unit
  | 0, _ => pure ()
  | n + 1, k => do
    let sv ← getVnode ino
    if h : k < 15 then
      if blocklen ≤ k ∧ sv.i.direct ⟨k, h⟩ ≠ 0 then do
        sfsBfree (sv.i.direct ⟨k, h⟩)
        modifyVnode ino fun sv =>
          { sv with i := { sv.i with direct := Function.update sv.i.direct ⟨k, h⟩ 0 }
                    dirty := true }
    truncDirect ino blocklen n (k + 1)

/-- `idbuf`, `hasnonzero` and `iddirty`. -/
structure IdScan where
  idbuf : ℕ → UInt32
  hasnonzero : Bool
  iddirty : Bool

/-- The entries of the indirect block from `j` on, `n` of them: those past
`blocklen` go. -/
def truncEntries (blocklen : ℕ) : ℕ → ℕ → IdScan → Prog Sfs Errno IdScan
  | 0, _, sc => pure sc
  | n + 1, j, sc =>
    if blocklen < 15 + j ∧ sc.idbuf j ≠ 0 then do
      sfsBfree (sc.idbuf j)
      truncEntries blocklen n (j + 1)
        { sc with idbuf := Function.update sc.idbuf j 0, iddirty := true }
    else truncEntries blocklen n (j + 1)
      { sc with hasnonzero := sc.hasnonzero || sc.idbuf j ≠ 0 }

/-- The indirect block of `sfs_truncate`. -/
def truncIndirect (ino : UInt32) (blocklen : ℕ) : Prog Sfs Errno Unit := do
  let sv ← getVnode ino
  let idblock := sv.i.indirect
  let highblock := 15 + 128 - 1
  if blocklen < highblock ∧ idblock ≠ 0 then do
    let idbuf ← rblock idblock
    let sc ← truncEntries blocklen 128 0 ⟨idbuf.word, false, false⟩
    if ¬ sc.hasnonzero then do
      sfsBfree idblock
      modifyVnode ino fun sv => { sv with i := { sv.i with indirect := 0 }, dirty := true }
    else if sc.iddirty then wblock (Sector.ofWords sc.idbuf) idblock
    else pure ()
  else pure ()

/-- `DIVROUNDUP(len, SFS_BLOCKSIZE)`, of an `off_t` and as a `u_int32_t`. -/
def blocklenOf (len : ℤ) : ℕ := word32 ((off32 (len + 511)).tdiv 512)

/-- `sfs_truncate`. -/
def sfsTruncate (ino : UInt32) (len : ℤ) : Prog Sfs Errno Unit := do
  truncDirect ino (blocklenOf len) 15 0
  truncIndirect ino (blocklenOf len)
  modifyVnode ino fun sv =>
    { sv with i := { sv.i with size := UInt32.ofNat (word32 len) }, dirty := true }

end Fs

end Os161
