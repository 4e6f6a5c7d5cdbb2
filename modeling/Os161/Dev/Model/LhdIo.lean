import Os161.Fs.Model.Disk
/-!
# The disk driver as threads share it: `kern/dev/lamebus/lhd.c`

Any number of threads are in `lhd_io`, each at its own place, with `lhd_irq`
and the drive between their steps. The drive is the one of the file system's
model: an operation that was started ends as `Lhd.operate` says, once. What
`uiomove` does, which may sleep and may fail, is told by the event.

`P` is a step that can be taken where the count is positive, `V` adds one.
-/

namespace Os161

namespace Dev

open Userprog (UioRw)
open Fs (Sector sectorAt word32)

/-- `LHD_REG_STAT`, under `LHD_STATEMASK`; a write in progress has
`LHD_ISWRITE`. -/
inductive Stat
  | IDLE
  | WORKING (rw : UioRw)
  | OK
  | INVSECT
  | MEDIA
  deriving DecidableEq, Repr

/-- `lhd_code_to_errno`, of the codes that it is called with. -/
def lhdCodeToErrno : Stat → Option Errno
  | .INVSECT => some .EINVAL
  | .MEDIA => some Errno.EIO
  | _ => none

/-- A call of `lhd_io`, by what it computes from the `uio`. -/
structure Request where
  rw : UioRw
  sector : ℕ
  len : ℕ
  deriving DecidableEq

/-- `sector+i`. -/
def Request.at (r : Request) (i : ℕ) : ℕ := word32 (r.sector + i : ℕ)

/-- Where a thread stands. The bytes are those that it has moved to `lh_buf`. -/
inductive IoPc
  /-- Outside `lhd_io`. -/
  | user
  /-- At `P(lh->lh_clear)`. -/
  | clear (r : Request) (i : ℕ)
  /-- At the first `uiomove`. -/
  | copyIn (r : Request) (i : ℕ)
  /-- At the write to `LHD_REG_SECT`. -/
  | setSect (r : Request) (i : ℕ) (moved : Option Sector)
  /-- At the write to `LHD_REG_STAT`. -/
  | start (r : Request) (i : ℕ) (moved : Option Sector)
  /-- At `P(lh->lh_done)`. -/
  | wait (r : Request) (i : ℕ) (moved : Option Sector)
  /-- At `result = lh->lh_result`. -/
  | getResult (r : Request) (i : ℕ) (moved : Option Sector)
  /-- At the second `uiomove`, and the test before it. -/
  | copyOut (r : Request) (i : ℕ) (moved : Option Sector) (result : Option Errno)
  /-- At `V(lh->lh_clear)`. -/
  | release (r : Request) (i : ℕ) (result : Option Errno)

/-- An operation that has ended: the sector, the direction, what was written,
the result, and what the buffer on the card held then. -/
structure Op where
  sector : ℕ
  rw : UioRw
  wrote : Option Sector
  result : Option Errno
  data : Sector

/-- `struct lhd_softc`, the drive and the threads. -/
structure LhdSoftc (W : Type) where
  -- the drive
  drive : Fs.Lhd
  /-- `lh_buf`. -/
  buf : Sector
  /-- `LHD_REG_SECT`. -/
  sect : ℕ
  /-- `LHD_REG_STAT`. -/
  stat : Stat
  -- `struct lhd_softc`
  lhResult : Option Errno
  lhClear : ℕ
  lhDone : ℕ
  pc : W → IoPc
  -- history
  /-- The thread that wrote `LHD_REG_STAT` last. -/
  owner : Option W
  /-- The threads that started an operation, one by one. -/
  starts : List W
  /-- The operations that ended, with the threads that had started them. -/
  ops : List (W × Op)
  /-- The operations that `lhd_irq` reported, by their threads. -/
  posts : List W
  /-- The threads whose `P(lh->lh_done)` returned. -/
  waits : List W
  /-- What each thread took for the ends of its operations. -/
  log : W → List Op
  /-- A register or the buffer was written while an operation was in flight or
  its end not yet reported. -/
  clobbered : Bool

/-- What happens next. -/
inductive IoEvent (W : Type)
  /-- A thread calls `lhd_io`, with this `uio`. -/
  | io (w : W) (offset : ℤ) (resid : ℕ) (rw : UioRw)
  /-- A thread takes its next step. -/
  | run (w : W)
  /-- The first `uiomove` ends: it leaves this in the buffer. -/
  | copyIn (w : W) (bytes : Sector) (result : Option Errno)
  /-- The second `uiomove` ends. -/
  | copyOut (w : W) (result : Option Errno)
  /-- The drive ends the operation. -/
  | complete
  /-- An interrupt of the device. -/
  | irq

namespace LhdSoftc

variable {W : Type} [DecidableEq W]

def goTo (s : LhdSoftc W) (w : W) (pc : IoPc) : LhdSoftc W :=
  { s with pc := Function.update s.pc w pc }

/-- The card is written to. -/
def touch (s : LhdSoftc W) : LhdSoftc W :=
  { s with clobbered := s.clobbered || decide (s.stat ≠ .IDLE) }

/-- `lhd_io`, up to the loop. -/
def lhdIo (s : LhdSoftc W) (w : W) (offset : ℤ) (resid : ℕ) (rw : UioRw) : LhdSoftc W :=
  let sector := sectorAt offset
  let sectoff := word32 (offset.tmod 512)
  let len := resid / 512
  let lenoff := resid % 512
  if sectoff ≠ 0 ∨ lenoff ≠ 0 then s
  else if word32 (sector + len : ℕ) > s.drive.nsect.toNat then s
  else if 0 < len then s.goTo w (.clear ⟨rw, sector, len⟩ 0)
  else s

/-- Where the loop goes on after `V(lh->lh_clear)`. -/
def nextRound (r : Request) (i : ℕ) (result : Option Errno) : IoPc :=
  if result ≠ none then .user else if i + 1 < r.len then .clear r (i + 1) else .user

/-- Thread `w` took the end of its operation for this. -/
def taken (s : LhdSoftc W) (w : W) (r : Request) (i : ℕ) (moved : Option Sector)
    (result : Option Errno) : LhdSoftc W :=
  { s with
    log := Function.update s.log w (s.log w ++ [⟨r.at i, r.rw, moved, result, s.buf⟩]) }

/-- The next step of thread `w`, where it is no `uiomove`. -/
def run (s : LhdSoftc W) (w : W) : Option (LhdSoftc W) :=
  match s.pc w with
  | .clear r i =>
    if 0 < s.lhClear then
      some ({ s with lhClear := s.lhClear - 1 }.goTo w
        (if r.rw = UioRw.write then .copyIn r i else .setSect r i none))
    else none
  | .setSect r i moved => some ({ s.touch with sect := r.at i }.goTo w (.start r i moved))
  | .start r i moved =>
    some ({ s.touch with
      stat := .WORKING r.rw
      owner := some w
      starts := s.starts ++ [w] }.goTo w (.wait r i moved))
  | .wait r i moved =>
    if 0 < s.lhDone then
      some ({ s with lhDone := s.lhDone - 1, waits := s.waits ++ [w] }.goTo w
        (.getResult r i moved))
    else none
  | .getResult r i moved => some (s.goTo w (.copyOut r i moved s.lhResult))
  | .copyOut r i moved result =>
    if result = none ∧ r.rw = UioRw.read then none
    else some ((s.taken w r i moved result).goTo w (.release r i result))
  | .release r i result =>
    some ({ s with lhClear := s.lhClear + 1 }.goTo w (nextRound r i result))
  | _ => none

/-- How the drive ends the operation: the status, the buffer and the drive
then. -/
def driveEnd (s : LhdSoftc W) (rw : UioRw) : Stat × Sector × Fs.Lhd :=
  match Fs.Lhd.operate s.sect rw s.buf s.drive with
  | .ok buf drive => (.OK, buf, drive)
  | .error (.error .EINVAL) drive => (.INVSECT, s.buf, drive)
  | .error _ drive => (.MEDIA, s.buf, drive)

/-- The drive ends the operation, for the thread that started it. -/
def complete (s : LhdSoftc W) : Option (LhdSoftc W) :=
  match s.stat, s.owner with
  | .WORKING rw, some w =>
    let (stat, buf, drive) := s.driveEnd rw
    let wrote := if rw = UioRw.write then some s.buf else none
    some { s with
      stat, buf, drive
      ops := s.ops ++ [(w, ⟨s.sect, rw, wrote, lhdCodeToErrno stat, buf⟩)] }
  | _, _ => none

/-- `lhd_iodone`, after `lhd_irq` has cleared the status register. -/
def lhdIodone (s : LhdSoftc W) (err : Option Errno) : LhdSoftc W :=
  { s with
    stat := .IDLE
    lhResult := err
    lhDone := s.lhDone + 1
    posts := s.posts ++ s.owner.toList }

/-- `lhd_irq`. -/
def lhdIrq (s : LhdSoftc W) : LhdSoftc W :=
  match s.stat with
  | .IDLE | .WORKING _ => s
  | .OK | .INVSECT | .MEDIA => s.lhdIodone (lhdCodeToErrno s.stat)

/-- One event. -/
def step (s : LhdSoftc W) : IoEvent W → Option (LhdSoftc W)
  | .io w offset resid rw =>
    match s.pc w with
    | .user => some (s.lhdIo w offset resid rw)
    | _ => none
  | .run w => s.run w
  | .copyIn w bytes result =>
    match s.pc w with
    | .copyIn r i =>
      some ({ s.touch with buf := bytes }.goTo w
        (if result ≠ none then .release r i result else .setSect r i (some bytes)))
    | _ => none
  | .copyOut w result =>
    match s.pc w with
    | .copyOut r i moved none =>
      if r.rw = UioRw.read then some ((s.taken w r i moved none).goTo w (.release r i result))
      else none
    | _ => none
  | .complete => s.complete
  | .irq => some s.lhdIrq

end LhdSoftc

/-- `config_lhd`. -/
def configLhd {W : Type} (drive : Fs.Lhd) (buf : Sector) : LhdSoftc W where
  drive := drive
  buf := buf
  sect := 0
  stat := .IDLE
  lhResult := none
  lhClear := 1
  lhDone := 0
  pc := fun _ => .user
  owner := none
  starts := []
  ops := []
  posts := []
  waits := []
  log := fun _ => []
  clobbered := false

end Dev

end Os161
