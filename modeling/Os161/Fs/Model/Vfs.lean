import Os161.Fs.Model.Vnode
/-!
# `kern/fs/vfs/vfslookup.c` and `kern/fs/vfs/vfspath.c`

The operations on pathnames, of a kernel in which this file system is mounted.
A path can lead to it or to another one, to a device or nowhere: `Outside` says
which, for one call, and what the vnodes that are not of this file system answer.
-/

namespace Os161

namespace Fs

/-- A vnode: one of this file system, by its inode number, or another one. -/
inductive Vn where
  | ours (v : UInt32)
  | other
  deriving DecidableEq

/-- Operations of a vnode. -/
inductive Vop where
  | creat | open | truncate | link | remove | rename
  deriving DecidableEq

/-- What is outside of the file system. -/
structure Outside where
  /-- `vfs_getroot` of this name: whether it is the root of this file system. -/
  getroot : List UInt8 → Except Errno Bool
  /-- The current directory of the thread. -/
  cwd : Option Vn
  /-- `bootfs_vnode`. -/
  bootfs : Option Vn
  /-- `VOP_LOOKUP` of another vnode. -/
  lookup : CString → Except Errno Unit
  /-- `VOP_LOOKPARENT` of another vnode, with the name that it leaves in `buf`. -/
  lookparent : CString → Except Errno CString
  /-- The other operations of another vnode. -/
  vop : Vop → Except Errno Unit
  /-- Whether `VOP_DECOPEN` comes to the last open. -/
  lastOpen : Bool

/-- The string from byte `n` on. -/
def CString.drop (path : CString) (n : ℕ) : CString :=
  ⟨path.bytes.drop n, fun h => path.nul_not_mem (List.mem_of_mem_drop h)⟩

namespace Vn

/-- `VOP_INCREF`. -/
def incref : Vn → Prog Sfs Errno Unit
  | ours v => do
    let _ ← getVnode v
    vnodeIncref v
  | other => pure ()

/-- `VOP_DECREF`. -/
def decref : Vn → Prog Sfs Errno Unit
  | ours v => vnodeDecref v
  | other => pure ()

end Vn

/-! ## Operations that a vnode has for the VFS layer -/

/-- `sfs_lookparent`, which leaves the whole path in `buf`. -/
def sfsLookparent (v : UInt32) (path : CString) (buflen : ℕ) : Prog Sfs Errno UInt32 := do
  let sv ← getVnode v
  Prog.failIf (sv.i.type ≠ typeDir) .ENOTDIR
  Prog.failIf (buflen < path.bytes.length + 1) .ENAMETOOLONG
  vnodeIncref v
  pure v

/-- `VOP_LOOKPARENT`. -/
def Vn.lookparent (out : Outside) (vn : Vn) (path : CString) (buflen : ℕ) :
    Prog Sfs Errno (Vn × CString) :=
  match vn with
  | .ours v => do
    let dir ← vop .dir v (sfsLookparent v path buflen)
    pure (.ours dir, path)
  | .other => do
    let name ← Prog.ofExcept (out.lookparent path)
    pure (.other, name)

/-- `O_ACCMODE`, `O_CREAT`, `O_EXCL`, `O_TRUNC` and `O_APPEND`. -/
def oAccmode : UInt32 := 3

@[inherit_doc oAccmode] def oCreat : UInt32 := 4

@[inherit_doc oAccmode] def oExcl : UInt32 := 8

@[inherit_doc oAccmode] def oTrunc : UInt32 := 16

@[inherit_doc oAccmode] def oAppend : UInt32 := 32

/-- `VOP_LOOKUP`. -/
def Vn.lookup (out : Outside) (vn : Vn) (path : CString) : Prog Sfs Errno Vn :=
  match vn with
  | .ours v => do
    let final ← vopLookup v path
    pure (.ours final)
  | .other => do
    Prog.ofExcept (out.lookup path)
    pure .other

/-- `VOP_CREAT`. -/
def Vn.creat (out : Outside) (dir : Vn) (name : CString) (excl : Bool) : Prog Sfs Errno Vn :=
  match dir with
  | .ours v => do
    let file ← vopCreat v name excl
    pure (.ours file)
  | .other => do
    Prog.ofExcept (out.vop .creat)
    pure .other

/-- `VOP_OPEN`: `sfs_open` and `sfs_opendir`. -/
def Vn.open (out : Outside) (vn : Vn) (openflags : UInt32) : Prog Sfs Errno Unit :=
  match vn with
  | .ours v => do
    let sv ← getVnode v
    match sv.ops with
    | .file => Prog.failIf (openflags &&& oAppend ≠ 0) .EUNIMP
    | .dir => do
      Prog.failIf (openflags &&& oAccmode ≠ 0) .EISDIR
      Prog.failIf (openflags &&& oAppend ≠ 0) .EISDIR
  | .other => Prog.ofExcept (out.vop .open)

/-- `VOP_DECOPEN`: the last one calls `VOP_CLOSE`, which is `VOP_FSYNC`. What that
returns is at most printed. -/
def Vn.decopen (out : Outside) (vn : Vn) : Prog Sfs Errno Unit :=
  match vn with
  | .ours v =>
    if out.lastOpen = true then do
      let _ ← Prog.result (vopFsync v)
      pure ()
    else pure ()
  | .other => pure ()

/-- `VOP_TRUNCATE`. -/
def Vn.truncate (out : Outside) (vn : Vn) (len : ℤ) : Prog Sfs Errno Unit :=
  match vn with
  | .ours v => vopTruncate v len
  | .other => Prog.ofExcept (out.vop .truncate)

/-- `VOP_REMOVE`. -/
def Vn.remove (out : Outside) (dir : Vn) (name : CString) : Prog Sfs Errno Unit :=
  match dir with
  | .ours v => vopRemove v name
  | .other => Prog.ofExcept (out.vop .remove)

/-- `VOP_RENAME`, or `EXDEV` if the directories are not of one file system. -/
def Vn.rename (out : Outside) (olddir : Vn) (oldname : CString) (newdir : Vn)
    (newname : CString) : Prog Sfs Errno Unit :=
  match olddir, newdir with
  | .ours d1, .ours d2 => vop .dir d1 do
    Prog.assert (d1 = d2)
    sfsRename d1 oldname newname
  | .other, .other => Prog.ofExcept (out.vop .rename)
  | _, _ => Prog.fail .EXDEV

/-- `VOP_LINK`, or `EXDEV` if the two are not of one file system. -/
def Vn.link (out : Outside) (newdir : Vn) (newname : CString) (oldfile : Vn) :
    Prog Sfs Errno Unit :=
  match newdir, oldfile with
  | .ours dir, .ours file => vopLink dir newname file
  | .other, .other => Prog.ofExcept (out.vop .link)
  | _, _ => Prog.fail .EXDEV

/-! ## Pathname translation -/

/-- `vfs_getcurdir`. -/
def vfsGetcurdir (out : Outside) : Prog Sfs Errno Vn :=
  match out.cwd with
  | none => Prog.fail .ENOENT
  | some vn => do
    vn.incref
    pure vn

/-- `FSOP_GETROOT`, of the file system that `vn` is in. -/
def fsopGetroot : Vn → Prog Sfs Errno Vn
  | .ours _ => do
    let root ← sfsGetroot
    pure (.ours root)
  | .other => pure .other

/-- `vfs_getroot`. -/
def vfsGetroot (out : Outside) (devname : List UInt8) : Prog Sfs Errno Vn := do
  if ← Prog.ofExcept (out.getroot devname) then do
    let root ← sfsGetroot
    pure (.ours root)
  else pure .other

/-- `:` and `/`. -/
def colon : UInt8 := 58

@[inherit_doc colon] def slash : UInt8 := 47

/-- The position behind byte `n` of the path and the slashes that follow it. -/
def skipSlashes (path : CString) (n : ℕ) : ℕ :=
  n + 1 + ((path.bytes.drop (n + 1)).takeWhile (· = slash)).length

/-- `getdevice`, which hands back `*startvn` and `*subpath`. -/
def getdevice (out : Outside) (path : CString) : Prog Sfs Errno (Vn × CString) := do
  -- the part before the first colon or slash
  let front := path.bytes.takeWhile fun c => c ≠ colon ∧ c ≠ slash
  let sep := path.bytes[front.length]?
  if sep ≠ some colon ∧ ¬ (sep = some slash ∧ front.length = 0) then do
    let vn ← vfsGetcurdir out
    pure (vn, path)
  else if 0 < front.length then do
    -- device:path
    let vn ← vfsGetroot out front
    pure (vn, path.drop (skipSlashes path front.length))
  else if sep = some slash then
    match out.bootfs with
    | none => Prog.fail .ENOENT
    | some vn => do
      vn.incref
      pure (vn, path.drop (skipSlashes path 0))
  else do
    let vn ← vfsGetcurdir out
    let root ← fsopGetroot vn
    vn.decref
    pure (root, path.drop (skipSlashes path 0))

/-- `vfs_lookparent`, with a buffer of `NAME_MAX + 1` bytes. -/
def vfsLookparent (out : Outside) (path : CString) : Prog Sfs Errno (Vn × CString) := do
  let (startvn, path) ← getdevice out path
  let result ← (if path.bytes.length = 0 then pure (.error .EINVAL)
    else Prog.result (startvn.lookparent out path 256))
  startvn.decref
  Prog.ofExcept result

/-- `vfs_lookup`. -/
def vfsLookup (out : Outside) (path : CString) : Prog Sfs Errno Vn := do
  let (startvn, path) ← getdevice out path
  if path.bytes.length = 0 then pure startvn
  else do
    let result ← Prog.result (startvn.lookup out path)
    startvn.decref
    Prog.ofExcept result

/-! ## Operations on pathnames -/

/-- `vfs_open` from `VOP_OPEN` on. -/
def vfsOpenVnode (out : Outside) (vn : Vn) (openflags : UInt32) : Prog Sfs Errno Unit := do
  match ← Prog.result (vn.open out openflags) with
  | .error e => do
    vn.decref
    Prog.fail e
  | .ok () => do
    let result ← (if openflags &&& oTrunc = 0 then pure (.ok ())
      -- not opened for writing
      else if openflags &&& oAccmode = 0 then pure (.error .EINVAL)
      else Prog.result (vn.truncate out 0))
    match result with
    | .error e => do
      vn.decopen out
      vn.decref
      Prog.fail e
    | .ok () => pure ()

/-- `vfs_open` with `O_CREAT`, up to `VOP_OPEN`. -/
def vfsCreat (out : Outside) (path : CString) (excl : Bool) : Prog Sfs Errno Vn := do
  let (dir, name) ← vfsLookparent out path
  let result ← Prog.result (dir.creat out name excl)
  dir.decref
  Prog.ofExcept result

/-- `vfs_open`. -/
def vfsOpen (out : Outside) (path : CString) (openflags : UInt32) : Prog Sfs Errno Vn := do
  Prog.failIf (openflags &&& oAccmode = 3) .EINVAL
  let vn ← (if openflags &&& oCreat ≠ 0 then vfsCreat out path (openflags &&& oExcl ≠ 0)
    else vfsLookup out path)
  vfsOpenVnode out vn openflags
  pure vn

/-- `vfs_close`. -/
def vfsClose (out : Outside) (vn : Vn) : Prog Sfs Errno Unit := do
  vn.decopen out
  vn.decref

/-- `vfs_remove`. -/
def vfsRemove (out : Outside) (path : CString) : Prog Sfs Errno Unit := do
  let (dir, name) ← vfsLookparent out path
  let result ← Prog.result (dir.remove out name)
  dir.decref
  Prog.ofExcept result

/-- `vfs_rename`. -/
def vfsRename (out : Outside) (oldpath newpath : CString) : Prog Sfs Errno Unit := do
  let (olddir, oldname) ← vfsLookparent out oldpath
  match ← Prog.result (vfsLookparent out newpath) with
  | .error e => do
    olddir.decref
    Prog.fail e
  | .ok (newdir, newname) => do
    let result ← Prog.result (olddir.rename out oldname newdir newname)
    newdir.decref
    olddir.decref
    Prog.ofExcept result

/-- `vfs_link` behind `vfs_lookup`. -/
def vfsLinkVnode (out : Outside) (oldfile : Vn) (newpath : CString) : Prog Sfs Errno Unit := do
  match ← Prog.result (vfsLookparent out newpath) with
  | .error e => do
    oldfile.decref
    Prog.fail e
  | .ok (newdir, newname) => do
    let result ← Prog.result (newdir.link out newname oldfile)
    newdir.decref
    oldfile.decref
    Prog.ofExcept result

/-- `vfs_link`. -/
def vfsLink (out : Outside) (oldpath newpath : CString) : Prog Sfs Errno Unit := do
  let oldfile ← vfsLookup out oldpath
  vfsLinkVnode out oldfile newpath

/-- The calls of the VFS layer. -/
inductive VfsOp where
  | open (path : CString) (openflags : UInt32)
  | close (vn : Vn)
  | link (oldpath newpath : CString)
  | remove (path : CString)
  | rename (oldpath newpath : CString)

/-- The program of a call; what it hands back is left out. -/
def VfsOp.run (out : Outside) : VfsOp → Prog Sfs Errno Unit
  | .open path openflags => do let _ ← vfsOpen out path openflags
  | .close vn => vfsClose out vn
  | .link oldpath newpath => vfsLink out oldpath newpath
  | .remove path => vfsRemove out path
  | .rename oldpath newpath => vfsRename out oldpath newpath

/-- One call, with what is outside of the file system at that time. -/
def Sfs.vfsStep (s : Sfs) (call : Outside × VfsOp) : Option Sfs :=
  match call.2.run call.1 s with
  | .ok _ s' => some s'
  | .error (.error _) s' => some s'
  | .error _ _ => none

end Fs

end Os161
