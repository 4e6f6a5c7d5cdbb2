import Os161.Fs.Model.Sfs
/-!
# `kern/fs/sfs/sfs_vnode.c`: the directory and the vnode operations

The root directory, the loading and the reclaiming of vnodes, and the
operations of `sfs_fileops` and `sfs_dirops`, with the reference counts of
`kern/fs/vfs/vnode.c`. An operation is called on a vnode that is loaded.
-/

namespace Os161

namespace Fs

/-- `SFS_ROOT_LOCATION`. -/
def rootIno : UInt32 := 1

/-! ## Directory I/O -/

/-- `sfs_readdir`. -/
def sfsReaddir (ino : UInt32) (slot : ℕ) : Prog Sfs Errno SfsDir := do
  let ku ← withUio (mkKuio (List.replicate 64 0) (off32 (slot * 64)) .read) (sfsIo ino)
  -- panic("sfs: readdir: Short entry (inode %u)\n")
  Prog.assert (ku.resid = 0)
  pure (SfsDir.ofBytes ku.moved)

/-- `sfs_writedir`. -/
def sfsWritedir (ino : UInt32) (sd : SfsDir) (slot : ℕ) : Prog Sfs Errno Unit := do
  let ku ← withUio (mkKuio sd.toBytes (off32 (slot * 64)) .write) (sfsIo ino)
  -- panic("sfs: writedir: Short write (ino %u)\n")
  Prog.assert (ku.resid = 0)

/-- `sfs_dir_nentries`. -/
def sfsDirNentries (ino : UInt32) : Prog Sfs Errno ℕ := do
  let sv ← getVnode ino
  Prog.assert (sv.i.type = typeDir)
  -- panic("sfs: directory %u: Invalid size %u\n")
  Prog.assert (sv.i.size.toNat % 64 = 0)
  pure (sv.i.size.toNat / 64)

/-- What a search of the directory has come upon: `*slot` and `*ino` of the
name, and `*emptyslot`. -/
structure Found where
  entry : Option (ℕ × UInt32)
  emptyslot : Option ℕ

/-- The slots of `sfs_dir_findname` from `slot` on, `n` of them. -/
def sfsDirFindnameFrom (ino : UInt32) (name : CString) : ℕ → ℕ → Found → Prog Sfs Errno Found
  | 0, _, found => pure found
  | n + 1, slot, found => do
    let tsd ← sfsReaddir ino slot
    if tsd.ino = 0 then
      sfsDirFindnameFrom ino name n (slot + 1) { found with emptyslot := some slot }
    -- the last byte of the name counts as NUL
    else if cstring (tsd.name.take 59) = name.bytes then do
      Prog.assert (found.entry = none)
      sfsDirFindnameFrom ino name n (slot + 1) { found with entry := some (slot, tsd.ino) }
    else sfsDirFindnameFrom ino name n (slot + 1) found

/-- `sfs_dir_findname`. It is the callers that take a name which is not there
for an `ENOENT`. -/
def sfsDirFindname (ino : UInt32) (name : CString) : Prog Sfs Errno Found := do
  let nentries ← sfsDirNentries ino
  sfsDirFindnameFrom ino name nentries 0 ⟨none, none⟩

/-- `sfs_dir_link`, which hands back the slot. -/
def sfsDirLink (ino : UInt32) (name : CString) (target : UInt32) : Prog Sfs Errno ℕ := do
  let found ← sfsDirFindname ino name
  Prog.failIf (found.entry ≠ none) .EEXIST
  Prog.failIf (60 < name.bytes.length + 1) .ENAMETOOLONG
  let slot ← match found.emptyslot with
    | some slot => pure slot
    | none => sfsDirNentries ino
  sfsWritedir ino ⟨target, name.padded⟩ slot
  pure slot

/-- `sfs_dir_unlink`. -/
def sfsDirUnlink (ino : UInt32) (slot : ℕ) : Prog Sfs Errno Unit :=
  sfsWritedir ino ⟨0, List.replicate 60 0⟩ slot

/-! ## Vnodes -/

/-- `vnode_incref`. -/
def vnodeIncref (ino : UInt32) : Prog Sfs Errno Unit :=
  modifyVnode ino fun sv => { sv with refcount := off32 (sv.refcount + 1) }

/-- The search of `sfs_loadvnode` through the vnodes in memory: every inode
that it comes by must be in an allocated block. -/
def findLoaded (ino : UInt32) : List SfsVnode → Prog Sfs Errno Bool
  | [] => pure false
  | sv :: svs => do
    checkUsed sv.ino
    if sv.ino = ino then pure true else findLoaded ino svs

/-- `sfs_loadvnode`. The allocations are those of the vnode, of the lock of
`VOP_INIT` and its name, and of `array_add`. -/
def sfsLoadvnode (ino : UInt32) (forcetype : UInt16) : Prog Sfs Errno Unit := do
  let s ← get
  if ← findLoaded ino s.vnodes then do
    Prog.assert (forcetype = typeInval)
    vnodeIncref ino
  else do
    kmalloc
    checkUsed ino
    let block ← rblock ino
    let inode := SfsInode.ofSector block
    Prog.assert (forcetype = typeInval ∨ inode.type = typeInval)
    let inode := if forcetype = typeInval then inode else { inode with type := forcetype }
    -- panic("sfs: loadvnode: Invalid inode type (inode %u, type %u)\n")
    Prog.assert (inode.type = typeFile ∨ inode.type = typeDir)
    kmalloc
    kmalloc
    kmalloc
    modify fun s => { s with vnodes := s.vnodes ++
      [{ ino, i := inode, dirty := forcetype ≠ typeInval
         ops := if inode.type = typeFile then .file else .dir, refcount := 1 }] }

/-- `VOP_TRUNCATE`: for the directory it is `sfs_isdir`. -/
def vopTruncate (ino : UInt32) (len : ℤ) : Prog Sfs Errno Unit := do
  let sv ← getVnode ino
  match sv.ops with
  | .file => sfsTruncate ino len
  | .dir => Prog.fail .EISDIR

/-- `sfs_reclaim`. -/
def sfsReclaim (ino : UInt32) : Prog Sfs Errno Unit := do
  let sv ← getVnode ino
  if sv.refcount ≠ 1 then do
    Prog.assert (1 < sv.refcount)
    modifyVnode ino fun sv => { sv with refcount := sv.refcount - 1 }
    Prog.fail .EBUSY
  else do
    -- if there are no on-disk references to the file either, erase it
    if sv.i.linkcount = 0 then vopTruncate ino 0 else pure ()
    sfsSyncInode ino
    let sv ← getVnode ino
    if sv.i.linkcount = 0 then sfsBfree ino else pure ()
    modify fun s => { s with vnodes := s.vnodes.eraseP (·.ino = ino) }

/-- `vnode_decref`. What `VOP_RECLAIM` returns is at most printed. -/
def vnodeDecref (ino : UInt32) : Prog Sfs Errno Unit := do
  let sv ← getVnode ino
  Prog.assert (0 < sv.refcount)
  if 1 < sv.refcount then
    modifyVnode ino fun sv => { sv with refcount := sv.refcount - 1 }
  else do
    let _ ← Prog.result (sfsReclaim ino)
    pure ()

/-- `sfs_lookonce`, which hands back the vnode and the slot. -/
def sfsLookonce (ino : UInt32) (name : CString) : Prog Sfs Errno (UInt32 × ℕ) := do
  let found ← sfsDirFindname ino name
  match found.entry with
  | none => Prog.fail .ENOENT
  | some (slot, file) => do
    sfsLoadvnode file typeInval
    let sv ← getVnode file
    -- panic("sfs: Link count of file %u found in dir %u is 0\n")
    Prog.assert (sv.i.linkcount ≠ 0)
    pure (file, slot)

/-- `sfs_makeobj`. -/
def sfsMakeobj (type : UInt16) : Prog Sfs Errno UInt32 := do
  let ino ← sfsBalloc
  sfsLoadvnode ino type
  pure ino

/-- `sfs_getroot`. -/
def sfsGetroot : Prog Sfs Errno UInt32 := do
  match ← Prog.result (sfsLoadvnode rootIno typeInval) with
  | .ok () => pure rootIno
  -- panic("sfs: getroot: Cannot load root vnode\n")
  | .error _ => Prog.halt

/-! ## Operations on the directory -/

/-- `sfs_creat`. -/
def sfsCreat (v : UInt32) (name : CString) (excl : Bool) : Prog Sfs Errno UInt32 := do
  let found ← sfsDirFindname v name
  match found.entry with
  | some (_, ino) => do
    Prog.failIf (excl = true) .EEXIST
    sfsLoadvnode ino typeInval
    pure ino
  | none => do
    let newguy ← sfsMakeobj typeFile
    match ← Prog.result (sfsDirLink v name newguy) with
    | .error e => do
      vnodeDecref newguy
      Prog.fail e
    | .ok _ => do
      modifyVnode newguy fun sv =>
        { sv with i := { sv.i with linkcount := sv.i.linkcount + 1 }, dirty := true }
      pure newguy

/-- `sfs_link`. -/
def sfsLink (dir : UInt32) (name : CString) (file : UInt32) : Prog Sfs Errno Unit := do
  let _ ← sfsDirLink dir name file
  modifyVnode file fun sv =>
    { sv with i := { sv.i with linkcount := sv.i.linkcount + 1 }, dirty := true }

/-- `linkcount--`, which must not be 0 before it. -/
def dropLink (ino : UInt32) : Prog Sfs Errno Unit := do
  let sv ← getVnode ino
  Prog.assert (0 < sv.i.linkcount)
  modifyVnode ino fun sv =>
    { sv with i := { sv.i with linkcount := sv.i.linkcount - 1 }, dirty := true }

/-- `sfs_remove`. -/
def sfsRemove (dir : UInt32) (name : CString) : Prog Sfs Errno Unit := do
  let (victim, slot) ← sfsLookonce dir name
  let result ← Prog.result (sfsDirUnlink dir slot)
  match result with
  | .ok () => dropLink victim
  | .error _ => pure ()
  vnodeDecref victim
  Prog.ofExcept result

/-- The error recovery of `sfs_rename` from the label `puke_harder` on. -/
def sfsRenameUndo (d1 g1 : UInt32) (slot2 : ℕ) (e : Errno) : Prog Sfs Errno Unit := do
  match ← Prog.result (sfsDirUnlink d1 slot2) with
  -- panic("sfs: rename: Cannot recover\n")
  | .error _ => Prog.halt
  | .ok () => do
    modifyVnode g1 fun sv => { sv with i := { sv.i with linkcount := sv.i.linkcount - 1 } }
    vnodeDecref g1
    Prog.fail e

/-- `sfs_rename`, for `d1 == d2`. -/
def sfsRename (d1 : UInt32) (n1 n2 : CString) : Prog Sfs Errno Unit := do
  Prog.assert (d1 = rootIno)
  let (g1, slot1) ← sfsLookonce d1 n1
  let sv ← getVnode g1
  Prog.assert (sv.i.type = typeFile)
  match ← Prog.result (sfsDirLink d1 n2 g1) with
  | .error e => do
    vnodeDecref g1
    Prog.fail e
  | .ok slot2 => do
    modifyVnode g1 fun sv =>
      { sv with i := { sv.i with linkcount := sv.i.linkcount + 1 }, dirty := true }
    match ← Prog.result (sfsDirUnlink d1 slot1) with
    | .error e => sfsRenameUndo d1 g1 slot2 e
    | .ok () => do
      dropLink g1
      vnodeDecref g1

/-- `sfs_lookup`. -/
def sfsLookup (v : UInt32) (path : CString) : Prog Sfs Errno UInt32 := do
  let sv ← getVnode v
  Prog.failIf (sv.i.type ≠ typeDir) .ENOTDIR
  let (final, _) ← sfsLookonce v path
  pure final

/-! ## The operations of a vnode -/

/-- An operation that only one of the two tables has: the other one returns
`ENOTDIR`, or `EISDIR`. -/
def vop {α : Type} (ops : VnodeOps) (v : UInt32) (x : Prog Sfs Errno α) : Prog Sfs Errno α := do
  let sv ← getVnode v
  if sv.ops = ops then x
  else Prog.fail (match ops with | .file => .EISDIR | .dir => .ENOTDIR)

def vopCreat (v : UInt32) (name : CString) (excl : Bool) : Prog Sfs Errno UInt32 :=
  vop .dir v (sfsCreat v name excl)

def vopLookup (v : UInt32) (path : CString) : Prog Sfs Errno UInt32 := vop .dir v (sfsLookup v path)

/-- `VOP_LINK`, of a vnode `file` of the same file system. -/
def vopLink (dir : UInt32) (name : CString) (file : UInt32) : Prog Sfs Errno Unit := do
  let _ ← getVnode file
  vop .dir dir (sfsLink dir name file)

def vopRemove (dir : UInt32) (name : CString) : Prog Sfs Errno Unit :=
  vop .dir dir (sfsRemove dir name)

def vopRename (d1 : UInt32) (n1 n2 : CString) : Prog Sfs Errno Unit :=
  vop .dir d1 (sfsRename d1 n1 n2)

/-- `VOP_READ` and `VOP_WRITE`, by the direction of the `uio`, which has to be
that of the operation. -/
def vopIo (v : UInt32) : Prog (Io Sfs) Errno Unit := do
  let sv ← onFs (getVnode v)
  match sv.ops with
  | .file => sfsIo v
  | .dir => Prog.fail .EISDIR

/-- `sfs_fsync`, which both tables have. -/
def vopFsync (v : UInt32) : Prog Sfs Errno Unit := sfsSyncInode v

end Fs

end Os161
