import Os161.Fs.Model.Vnode
/-!
# `kern/fs/sfs/sfs_fs.c` and `sbin/mksfs/mksfs.c`

How a file system is made, mounted and synced.
-/

namespace Os161

namespace Fs

open Userprog (UioRw)

/-! ## The free block bitmap on the disk -/

/-- Block `j` of the bitmap's data. -/
def mapBlock (v : ℕ → UInt8) (j : ℕ) : Sector := fun i => v (j * 512 + i)

/-- The bitmap with block `j` of its data read in. -/
def loadMapBlock (b : Lib.Bitmap) (j : ℕ) (block : Sector) : Lib.Bitmap :=
  { b with v := fun ix =>
      if j * 512 ≤ ix ∧ ix < (j + 1) * 512 then block.byte (ix - j * 512) else b.v ix }

/-- The blocks of `sfs_mapio` from `j` on, `n` of them. -/
def sfsMapioFrom (rw : UioRw) : ℕ → ℕ → Prog Sfs Errno Unit
  | 0, _ => pure ()
  | n + 1, j => do
    match rw with
    | .read => do
      let block ← rblock (UInt32.ofNat (2 + j))
      modify fun s => { s with freemap := loadMapBlock s.freemap j block }
    | .write => do
      let s ← get
      wblock (mapBlock s.freemap.v j) (UInt32.ofNat (2 + j))
    sfsMapioFrom rw n (j + 1)

/-- `sfs_mapio`. -/
def sfsMapio (rw : UioRw) : Prog Sfs Errno Unit := do
  let s ← get
  sfsMapioFrom rw (bitBlocks s.super.nblocks) 0

/-! ## Sync -/

/-- The loop of `sfs_sync` over the vnodes: what `VOP_FSYNC` returns is not
looked at. -/
def syncVnodes : List SfsVnode → Prog Sfs Errno Unit
  | [] => pure ()
  | sv :: svs => do
    let _ ← Prog.result (vopFsync sv.ino)
    syncVnodes svs

/-- `sfs_sync`. -/
def sfsSync : Prog Sfs Errno Unit := do
  let s ← get
  syncVnodes s.vnodes
  let s ← get
  if s.freemapdirty then do
    sfsMapio .write
    modify fun s => { s with freemapdirty := false }
  let s ← get
  if s.superdirty then do
    wblock s.super.toSector 0
    modify fun s => { s with superdirty := false }

/-! ## Mount -/

/-- The file system object before anything has been read. -/
def newSfs (device : Lhd) (mem : ℕ → Bool) : Sfs where
  super := ⟨0, 0, []⟩
  superdirty := false
  device := device
  vnodes := []
  freemap := ⟨0, fun _ => 0⟩
  freemapdirty := false
  mem := mem

/-- `sfs_domount`, on a device with sectors of 512 bytes. The allocations are
those of the object, of `array_create` and of `bitmap_create`. -/
def sfsDomount : Prog Sfs Errno Unit := do
  kmalloc
  kmalloc
  let block ← rblock 0
  let super := SfsSuper.ofSector block
  Prog.failIf (super.magic ≠ sfsMagic) .EINVAL
  modify fun s => { s with super := { super with volname := super.volname.take 31 ++ [0] } }
  kmalloc
  kmalloc
  let freemap ← Lib.Bitmap.bitmapCreate (bitmapSize super.nblocks)
  modify fun s => { s with freemap }
  sfsMapio .read
  modify fun s => { s with superdirty := false, freemapdirty := false }

/-- `sfs_unmount`. -/
def sfsUnmount : Prog Sfs Errno Unit := do
  let s ← get
  Prog.failIf (0 < s.vnodes.length) .EBUSY
  Prog.assert (s.superdirty = false)
  Prog.assert (s.freemapdirty = false)

/-- `vfs_unmount` of a device with a file system on it. -/
def vfsUnmount : Prog Sfs Errno Unit := do
  sfsSync
  sfsUnmount

/-! ## `mksfs` -/

/-- The disk and the buffer `bitbuf`. -/
structure Mksfs where
  sectors : ℕ → Sector
  bitbuf : ℕ → UInt8

/-- `diskwrite`. -/
def diskwrite (data : Sector) (block : ℕ) : Prog Mksfs Errno Unit :=
  modify fun m => { m with sectors := Function.update m.sectors block data }

/-- `writesuper`. -/
def writesuper (volname : CString) (nblocks : UInt32) : Prog Mksfs Errno Unit := do
  -- errx(1, "Volume name %s too long", volname)
  Prog.assert (volname.bytes.length < 32)
  diskwrite (SfsSuper.toSector ⟨sfsMagic, nblocks, volname.bytes⟩) 0

/-- `writerootdir`. -/
def writerootdir : Prog Mksfs Errno Unit :=
  diskwrite (SfsInode.toSector ⟨0, typeDir, 1, fun _ => 0, 0⟩) 1

/-- `doallocbit`. -/
def doallocbit (bit : ℕ) : Prog Mksfs Errno Unit := do
  let m ← get
  Prog.assert (m.bitbuf (bit / 8) &&& Lib.Bitmap.mask (bit % 8) = 0)
  let byte := m.bitbuf (bit / 8) ||| Lib.Bitmap.mask (bit % 8)
  set { m with bitbuf := Function.update m.bitbuf (bit / 8) byte }

/-- `doallocbit` for `n` bits from `i` on. -/
def doallocbits : ℕ → ℕ → Prog Mksfs Errno Unit
  | 0, _ => pure ()
  | n + 1, i => do
    doallocbit i
    doallocbits n (i + 1)

/-- The blocks of the bitmap from `i` on, `n` of them. -/
def writebits : ℕ → ℕ → Prog Mksfs Errno Unit
  | 0, _ => pure ()
  | n + 1, i => do
    let m ← get
    diskwrite (mapBlock m.bitbuf i) (2 + i)
    writebits n (i + 1)

/-- `writebitmap`. -/
def writebitmap (fsblocks : UInt32) : Prog Mksfs Errno Unit := do
  let nbits := bitmapSize fsblocks
  let nblocks := bitBlocks fsblocks
  -- errx(1, "Filesystem too large - increase MAXBITBLOCKS and recompile")
  Prog.assert (nblocks ≤ 32)
  doallocbit 0
  doallocbit 1
  doallocbits nblocks 2
  doallocbits (nbits - fsblocks.toNat) fsblocks.toNat
  writebits nblocks 0

/-- `mksfs` on a disk of `size` blocks. -/
def mksfs (volname : CString) (size : UInt32) : Prog Mksfs Errno Unit := do
  writesuper volname size
  writerootdir
  writebitmap size

/-! ## Runs -/

/-- What can be done to a file system. Vnodes are named by their inodes. -/
inductive Op where
  | getroot
  | lookup (v : UInt32) (path : CString)
  | creat (v : UInt32) (name : CString) (excl : Bool)
  | link (dir : UInt32) (name : CString) (file : UInt32)
  | remove (dir : UInt32) (name : CString)
  | rename (dir : UInt32) (n1 n2 : CString)
  /-- `VOP_READ` or `VOP_WRITE` with this `uio`. -/
  | io (v : UInt32) (uio : Uio)
  | truncate (v : UInt32) (len : ℤ)
  /-- `VOP_INCREF`. -/
  | incref (v : UInt32)
  /-- `VOP_DECREF`. -/
  | decref (v : UInt32)
  | fsync (v : UInt32)
  | sync

/-- The program of an operation; what it hands back is left out. -/
def Op.run : Op → Prog Sfs Errno Unit
  | .getroot => do let _ ← sfsGetroot
  | .lookup v path => do let _ ← vopLookup v path
  | .creat v name excl => do let _ ← vopCreat v name excl
  | .link dir name file => vopLink dir name file
  | .remove dir name => vopRemove dir name
  | .rename dir n1 n2 => vopRename dir n1 n2
  | .io v uio => do let _ ← withUio uio (vopIo v)
  | .truncate v len => vopTruncate v len
  | .incref v => do
    let _ ← getVnode v
    vnodeIncref v
  | .decref v => vnodeDecref v
  | .fsync v => vopFsync v
  | .sync => sfsSync

/-- One operation, which returns 0 or an error. After a panic there is no
state. -/
def Sfs.step (s : Sfs) (op : Op) : Option Sfs :=
  match op.run s with
  | .ok _ s' => some s'
  | .error (.error _) s' => some s'
  | .error _ _ => none

end Fs

end Os161
