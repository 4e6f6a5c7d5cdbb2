import Os161.Fs.Model.Uio
/-!
# The disk: `kern/dev/lamebus/lhd.c` and `kern/fs/sfs/sfs_io.c`

One drive with the sectors it holds and what it will answer to the operations
to come. The driver is modelled for one request at a time: the waits for
`lh_clear` and `lh_done` are left out, and the buffer on the card lives from
the start of an operation to its end.
-/

namespace Os161

namespace Fs

open Userprog (UioRw)

/-- The bytes of a sector, or of a block, which is the same here. -/
abbrev Sector := Fin 512 → UInt8

namespace Sector

@[irreducible] def toList (b : Sector) : List UInt8 := List.ofFn b

/-- The buffer of 512 bytes that begins with these. -/
def ofList (l : List UInt8) : Sector := fun i => l.getD i 0

def zero : Sector := fun _ => 0

end Sector

/-- How the drive ends an operation on a sector that it has. -/
inductive Outcome where
  | ok
  /-- `LHD_MEDIA`. If it was a write, `left` is in the sector now. -/
  | media (left : Sector)

/-- `struct lhd_softc`, and the drive. -/
structure Lhd where
  /-- `d_blocks`. -/
  nsect : UInt32
  sectors : ℕ → Sector
  /-- How the operations to come will end. -/
  pattern : ℕ → Outcome

namespace Lhd

def put (d : Lhd) (sector : ℕ) (data : Sector) : Lhd :=
  { d with sectors := Function.update d.sectors sector data }

/-- One operation is over. -/
def tick (d : Lhd) : Lhd := { d with pattern := fun i => d.pattern (i + 1) }

/-- What the drive does once the status register is written, up to the errno
that `lhd_code_to_errno` makes of its answer. The buffer on the card goes to
the sector or comes from it. -/
def operate (sector : ℕ) (rw : UioRw) (buf : Sector) : Prog Lhd Errno Sector := do
  let d ← get
  if d.nsect.toNat ≤ sector then Prog.fail .EINVAL
  else match d.pattern 0, rw with
    | .ok, .read => do
      set d.tick
      pure (d.sectors sector)
    | .ok, .write => do
      set (d.tick.put sector buf)
      pure buf
    | .media _, .read => do
      set d.tick
      Prog.fail Errno.EIO
    | .media left, .write => do
      set (d.tick.put sector left)
      Prog.fail Errno.EIO

end Lhd

/-- The loop of `lhd_io`, for as many sectors as are left. -/
def lhdIoLoop : ℕ → ℕ → Prog (Io Lhd) Errno Unit
  | 0, _ => pure ()
  | n + 1, sector => do
    let r ← get
    match r.uio.rw with
    | .write => do
      let bytes ← uiomove [] 512
      let _ ← Prog.zoom Io.fsPart (Lhd.operate sector .write (Sector.ofList bytes))
      lhdIoLoop n (word32 (sector + 1))
    | .read => do
      let buf ← Prog.zoom Io.fsPart (Lhd.operate sector .read Sector.zero)
      let _ ← uiomove buf.toList 512
      lhdIoLoop n (word32 (sector + 1))

/-- The sector in which a byte offset lies, as `lhd_io` computes it. -/
def sectorAt (offset : ℤ) : ℕ := word32 (offset.tdiv 512)

/-- `lhd_io`. -/
def lhdIo : Prog (Io Lhd) Errno Unit := do
  let r ← get
  let sector := sectorAt r.uio.offset
  let sectoff := word32 (r.uio.offset.tmod 512)
  let len := r.uio.resid / 512
  let lenoff := r.uio.resid % 512
  Prog.failIf (sectoff ≠ 0 ∨ lenoff ≠ 0) .EINVAL
  Prog.failIf (word32 (sector + len) > r.fs.nsect.toNat) .EINVAL
  lhdIoLoop len sector

/-- One round of `sfs_rwblock`, with what it does after an `EIO`. -/
def sfsRwblockTry (onEio : Prog (Io Lhd) Errno Unit) : Prog (Io Lhd) Errno Unit := do
  match ← Prog.result lhdIo with
  | .error .EINVAL => Prog.halt
  | .error Errno.EIO => onEio
  | .error e => Prog.fail e
  | .ok () => pure ()

/-- The rounds of `sfs_rwblock`, with `10 - tries` retries left. -/
def sfsRwblockFrom : ℕ → Prog (Io Lhd) Errno Unit
  | 0 => sfsRwblockTry (Prog.fail Errno.EIO)
  | retries + 1 => sfsRwblockTry (sfsRwblockFrom retries)

/-- `sfs_rwblock`. -/
def sfsRwblock : Prog (Io Lhd) Errno Unit := sfsRwblockFrom 10

/-- The offset that `SFSUIO` gives a block. -/
def blockOffset (block : UInt32) : ℤ := off32 (off32 block.toNat * 512)

/-- `sfs_rblock`. -/
def sfsRblock (block : UInt32) : Prog Lhd Errno Sector := do
  let ku ← withUio (mkKuio Sector.zero.toList (blockOffset block) .read) sfsRwblock
  pure (Sector.ofList ku.moved)

/-- `sfs_wblock`. -/
def sfsWblock (data : Sector) (block : UInt32) : Prog Lhd Errno Unit := do
  let _ ← withUio (mkKuio data.toList (blockOffset block) .write) sfsRwblock

end Fs

end Os161
