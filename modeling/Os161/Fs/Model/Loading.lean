import Os161.Fs.Model.Vnode
/-!
# `sfs_loadvnode` with several threads

The table is searched, then the inode is read, then the vnode is added to the table.
`sfs_rblock` sleeps, and nothing is locked meanwhile: other threads run between the
search and the rest. The tries of `sfs_rwblock` are one step here, for those that
fail do nothing but use up an answer of the drive. Vnodes only come, none is
reclaimed, so that a vnode is known by its place in the table.
-/

namespace Os161

namespace Fs

/-- The vnode at place `p` of the table is changed. -/
def Sfs.modifyAt (s : Sfs) (p : ℕ) (f : SfsVnode → SfsVnode) : Sfs :=
  { s with vnodes := s.vnodes.modify p f }

/-- `sfs_loadvnode` up to the read: the place of the vnode, if it is there. -/
def loadSearch (ino : UInt32) (forcetype : UInt16) : Prog Sfs Errno (Option ℕ) := do
  let s ← get
  if ← findLoaded ino s.vnodes then do
    Prog.assert (forcetype = typeInval)
    let i := s.vnodes.findIdx fun sv => sv.ino = ino
    modify fun s => s.modifyAt i fun sv => { sv with refcount := off32 (sv.refcount + 1) }
    pure (some i)
  else do
    kmalloc
    checkUsed ino
    pure none

/-- `sfs_loadvnode` from the read on: the vnode that has been added to the table. -/
def loadRest (ino : UInt32) (forcetype : UInt16) : Prog Sfs Errno SfsVnode := do
  let block ← rblock ino
  let inode := SfsInode.ofSector block
  Prog.assert (forcetype = typeInval ∨ inode.type = typeInval)
  let inode := if forcetype = typeInval then inode else { inode with type := forcetype }
  -- panic("sfs: loadvnode: Invalid inode type (inode %u, type %u)\n")
  Prog.assert (inode.type = typeFile ∨ inode.type = typeDir)
  kmalloc
  kmalloc
  kmalloc
  let sv : SfsVnode :=
    { ino, i := inode, dirty := forcetype ≠ typeInval
      ops := if inode.type = typeFile then .file else .dir, refcount := 1 }
  modify fun s => { s with vnodes := s.vnodes ++ [sv] }
  pure sv

/-- Where a thread is. -/
inductive Phase where
  /-- In none of the two functions. -/
  | away
  /-- In `sfs_loadvnode`, waiting for the drive to read the inode. -/
  | reading (ino : UInt32) (forcetype : UInt16)
  /-- In `sfs_sync_inode`, waiting for the drive to write the inode. -/
  | writing (p : ℕ)
  deriving DecidableEq

/-- The file system, the threads, and what is to be said about them. -/
structure Loads where
  fs : Sfs
  threads : ℕ → Phase
  /-- What the calls have handed back: the inode number asked for, and the place of
  the vnode. -/
  got : List (UInt32 × ℕ)
  /-- What the users of a file have last made of its inode. -/
  latest : UInt32 → SfsInode

/-- What the threads do. -/
inductive LoadEvent where
  /-- `t` calls `sfs_loadvnode`. -/
  | call (t : ℕ) (ino : UInt32) (forcetype : UInt16)
  /-- The drive has done what `t` waits for. -/
  | wake (t : ℕ)
  /-- A user of the vnode at `p` gives the inode other contents. -/
  | change (p : ℕ) (i : SfsInode)
  /-- `t` calls `sfs_sync_inode` for the vnode at `p`. -/
  | sync (t : ℕ) (p : ℕ)

namespace Loads

def enter (s : Loads) (t : ℕ) (phase : Phase) : Loads :=
  { s with threads := Function.update s.threads t phase }

/-- `t` calls `sfs_loadvnode`. -/
def call (s : Loads) (t : ℕ) (ino : UInt32) (forcetype : UInt16) : Option Loads :=
  match loadSearch ino forcetype s.fs with
  | .ok (some p) fs => some { s with fs, got := (ino, p) :: s.got }
  | .ok none fs => some ({ s with fs }.enter t (.reading ino forcetype))
  | .error (.error _) fs => some { s with fs }
  | .error _ _ => none

/-- `sv` has been added to the table. A new object has the inode that it gets
here. -/
def added (s : Loads) (sv : SfsVnode) (forcetype : UInt16) (fs : Sfs) : Loads :=
  { s with
    fs := fs
    got := (sv.ino, s.fs.vnodes.length) :: s.got
    latest := if forcetype = typeInval then s.latest else Function.update s.latest sv.ino sv.i }

/-- `t` returns from `sfs_loadvnode` with what the rest of it has given. -/
def returned (s : Loads) (t : ℕ) (forcetype : UInt16) :
    EStateM.Result (Stop Errno) Sfs SfsVnode → Option Loads
  | .ok sv fs => some ((s.added sv forcetype fs).enter t .away)
  | .error (.error _) fs => some ({ s with fs }.enter t .away)
  | .error _ _ => none

/-- `t` goes on with `sfs_loadvnode`. -/
def finish (s : Loads) (t : ℕ) (ino : UInt32) (forcetype : UInt16) : Option Loads :=
  s.returned t forcetype (loadRest ino forcetype s.fs)

/-- `t` calls `sfs_sync_inode` for the vnode at `p`. -/
def sync (s : Loads) (t p : ℕ) : Option Loads :=
  match s.fs.vnodes[p]? with
  | none => none
  | some sv =>
    if sv.dirty then
      match wblock sv.i.toSector sv.ino s.fs with
      | .ok _ fs => some ({ s with fs }.enter t (.writing p))
      | .error (.error _) fs => some { s with fs }
      | .error _ _ => none
    else some s

/-- One step of one thread. There is none if the thread cannot make it, or if the
kernel panics. -/
def step (s : Loads) : LoadEvent → Option Loads
  | .call t ino forcetype =>
    if s.threads t = .away then s.call t ino forcetype else none
  | .wake t =>
    match s.threads t with
    | .away => none
    | .reading ino forcetype => s.finish t ino forcetype
    | .writing p =>
      some ({ s with fs := s.fs.modifyAt p fun sv => { sv with dirty := false } }.enter t .away)
  | .change p i =>
    match s.fs.vnodes[p]? with
    | none => none
    | some sv => some { s with
        fs := s.fs.modifyAt p fun sv => { sv with i := i, dirty := true }
        latest := Function.update s.latest sv.ino i }
  | .sync t p => if s.threads t = .away then s.sync t p else none

end Loads

end Fs

end Os161
