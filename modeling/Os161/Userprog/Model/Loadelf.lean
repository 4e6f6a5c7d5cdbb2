import Os161.Userprog.Model.Copyinout
/-!
# `kern/userprog/loadelf.c`

The loader of programs, with the `uiomove` through which the file systems hand
it the bytes of a file, and the functions of `kern/vm/addrspace.c` that it
calls for `curthread->t_vmspace`.
-/

namespace Os161

namespace Userprog

open Vm

/-! ## `uiomove` -/

/-- `enum uio_seg`. -/
inductive UioSeg where
  | userispace | userspace | sysspace
  deriving DecidableEq, Repr

/-- `enum uio_rw`. -/
inductive UioRw where
  | read | write
  deriving DecidableEq, Repr

/-- `struct uio`. A buffer of the kernel is the part behind `iov_kbase` and
the part from there on. -/
structure Uio where
  iovUbase : UInt32
  iovBehind : List UInt8
  iovKbase : List UInt8
  iovLen : UInt32
  uioOffset : UInt32
  uioResid : UInt32
  uioSegflg : UioSeg
  uioRw : UioRw
  uioSpace : UInt32
  deriving DecidableEq, Repr

/-- `mk_kuio`, over a buffer of the kernel. -/
def mkKuio (kbuf : List UInt8) (pos : UInt32) (rw : UioRw) : Uio where
  iovUbase := 0
  iovBehind := []
  iovKbase := kbuf
  iovLen := UInt32.ofNat kbuf.length
  uioOffset := pos
  uioResid := UInt32.ofNat kbuf.length
  uioSegflg := .sysspace
  uioRw := rw
  uioSpace := 0

variable (env : Env)

/-- The `switch` of `uiomove`: `size` bytes go from `ptr` to the `uio` or the
other way. It returns the bytes that have gone. -/
def uioCopy (ptr : List UInt8) (size : UInt32) (uio : Uio) : Kernel (List UInt8 × Uio) :=
  match uio.uioSegflg, uio.uioRw with
  | .sysspace, .read =>
    pure (ptr.take size.toNat,
      { uio with iovBehind := uio.iovBehind ++ ptr.take size.toNat,
                 iovKbase := uio.iovKbase.drop size.toNat })
  | .sysspace, .write =>
    pure (uio.iovKbase.take size.toNat,
      { uio with iovBehind := uio.iovBehind ++ uio.iovKbase.take size.toNat,
                 iovKbase := uio.iovKbase.drop size.toNat })
  | _, .read => do
    copyout env (ptr.take size.toNat) uio.iovUbase
    pure (ptr.take size.toNat, { uio with iovUbase := uio.iovUbase + size })
  | _, .write => do
    let bytes ← copyin env uio.iovUbase size
    pure (bytes, { uio with iovUbase := uio.iovUbase + size })

/-- The loop of `uiomove`, which makes progress in every round, with the bytes
that it has moved. -/
def uiomoveLoop : ℕ → List UInt8 → UInt32 → Uio → Kernel (List UInt8 × Uio)
  | 0, _, _, uio => pure ([], uio)
  | fuel + 1, ptr, n, uio =>
    if n > 0 ∧ uio.uioResid > 0 then do
      let size := if uio.iovLen > n then n else uio.iovLen
      Prog.assert (size ≠ 0)
      let (bytes, uio) ← uioCopy env ptr size uio
      let (rest, uio) ← uiomoveLoop fuel (ptr.drop size.toNat) (n - size)
        { uio with iovLen := uio.iovLen - size, uioResid := uio.uioResid - size,
                   uioOffset := uio.uioOffset + size }
      pure (bytes ++ rest, uio)
    else pure ([], uio)

/-- `uiomove` over the buffer `ptr`. -/
def uiomove (ptr : List UInt8) (n : UInt32) (uio : Uio) : Kernel (List UInt8 × Uio) := do
  let m ← get
  Prog.assert (uio.uioSpace = if uio.uioSegflg = .sysspace then 0 else m.vmspace)
  uiomoveLoop env n.toNat ptr n uio

/-- The loop of `uiomovezeros`, sixteen bytes a round. -/
def uiomovezerosLoop : ℕ → UInt32 → Uio → Kernel Uio
  | 0, _, uio => pure uio
  | fuel + 1, n, uio =>
    if n > 0 then do
      let amt := if 16 > n then n else 16
      let (_, uio) ← uiomove env (List.replicate 16 0) amt uio
      uiomovezerosLoop fuel (n - amt) uio
    else pure uio

def uiomovezeros (n : UInt32) (uio : Uio) : Kernel Uio := do
  Prog.assert (uio.uioRw = .read)
  uiomovezerosLoop env n.toNat n uio

/-- The pieces of a file go to the `uio`, one after the other. -/
def uiomoveAll : List (List UInt8) → Uio → Kernel Uio
  | [], uio => pure uio
  | piece :: pieces, uio => do
    let (_, uio) ← uiomove env piece (UInt32.ofNat piece.length) uio
    uiomoveAll pieces uio

/-- `VOP_READ`. -/
def vopRead (v : Vnode) (uio : Uio) : Kernel Uio := do
  let uio' ← uiomoveAll env (v.read uio.uioOffset uio.uioResid).1 uio
  match (v.read uio.uioOffset uio.uioResid).2 with
  | some e => Prog.fail e
  | none => pure uio'

/-! ## The headers -/

/-- Two bytes of a file, as the number they are on this machine. -/
def halfAt (b : List UInt8) (i : ℕ) : UInt32 :=
  (b.getD i 0).toUInt32 <<< 8 ||| (b.getD (i + 1) 0).toUInt32

/-- Four bytes of a file. -/
def wordAt (b : List UInt8) (i : ℕ) : UInt32 := halfAt b i <<< 16 ||| halfAt b (i + 2)

/-- The fields of `Elf_Ehdr` that the loader reads. -/
structure Ehdr where
  eIdent : List UInt8
  eType : UInt32
  eMachine : UInt32
  eVersion : UInt32
  eEntry : UInt32
  ePhoff : UInt32
  ePhentsize : UInt32
  ePhnum : UInt32
  deriving DecidableEq, Repr

/-- The fields of `Elf_Phdr` that the loader reads. -/
structure Phdr where
  pType : UInt32
  pOffset : UInt32
  pVaddr : UInt32
  pFilesz : UInt32
  pMemsz : UInt32
  pFlags : UInt32
  deriving DecidableEq, Repr

def Ehdr.ofBytes (b : List UInt8) : Ehdr where
  eIdent := b.take 16
  eType := halfAt b 16
  eMachine := halfAt b 18
  eVersion := wordAt b 20
  eEntry := wordAt b 24
  ePhoff := wordAt b 28
  ePhentsize := halfAt b 42
  ePhnum := halfAt b 44

def Phdr.ofBytes (b : List UInt8) : Phdr where
  pType := wordAt b 0
  pOffset := wordAt b 4
  pVaddr := wordAt b 8
  pFilesz := wordAt b 16
  pMemsz := wordAt b 20
  pFlags := wordAt b 24

/-- The test of the executable header: `ELFMAG0` to `ELFMAG3`, `ELFCLASS32`,
`ELFDATA2MSB`, `EV_CURRENT`, and then `EV_CURRENT`, `ET_EXEC` and `EM_MIPS`. -/
def Ehdr.Good (eh : Ehdr) : Prop :=
  eh.eIdent.take 7 = [0x7f, 0x45, 0x4c, 0x46, 1, 2, 1] ∧
    eh.eVersion = 1 ∧ eh.eType = 2 ∧ eh.eMachine = 8
  deriving Decidable

/-- `PT_NULL`, `PT_PHDR` and `PT_MIPS_REGINFO`, which are skipped. -/
def Phdr.Skipped (ph : Phdr) : Prop := ph.pType = 0 ∨ ph.pType = 6 ∨ ph.pType = 0x70000000
  deriving Decidable

/-- A structure of `len` bytes at an offset of the file. -/
def readStruct (v : Vnode) (len : ℕ) (offset : UInt32) : Kernel (List UInt8) := do
  let ku ← vopRead env v (mkKuio (List.replicate len 0) offset .read)
  Prog.failIf (ku.uioResid ≠ 0) .ENOEXEC
  pure ku.iovBehind

/-- The loop over the program headers, which `load_elf` has twice: `n` of them
left, from number `i` on, and `load` for those with `PT_LOAD`. -/
def forPhdrs (v : Vnode) (eh : Ehdr) (load : Phdr → Kernel Unit) : ℕ → UInt32 → Kernel Unit
  | 0, _ => pure ()
  | n + 1, i => do
    let bytes ← readStruct env v 32 (eh.ePhoff + i * eh.ePhentsize)
    let ph := Phdr.ofBytes bytes
    if ph.Skipped then forPhdrs v eh load n (i + 1)
    else if ph.pType = 1 then do
      load ph
      forPhdrs v eh load n (i + 1)
    else Prog.fail .ENOEXEC

/-! ## The address space of the thread -/

/-- `as_create` into `curthread->t_vmspace`; `sizeof(struct addrspace)` is 36. -/
def asCreateCur : Kernel UInt32 := do
  let block ← kmalloc env 36
  let m ← get
  match m.heap.asCreate block with
  | some heap => do
    set { m with heap := heap, vmspace := block }
    pure block
  | none => do
    set { m with vmspace := 0 }
    pure 0

/-- `as_activate`. -/
def asActivate : Kernel Unit := modify fun m => { m with tlb := [] }

/-- `as_destroy(curthread->t_vmspace)`. -/
def asDestroyCur : Kernel Unit := modify fun m => { m with heap := m.heap.asDestroy m.vmspace }

/-- `as_define_region(curthread->t_vmspace, ..)`. -/
def asDefineRegionCur (vaddr sz : UInt32) : Kernel Unit := do
  let m ← get
  match m.heap.space m.vmspace with
  | none => Prog.halt
  | some as =>
    match asDefineRegion as vaddr sz with
    | .error e => Prog.fail e
    | .ok as' => set { m with heap := m.heap.store m.vmspace as' }

/-- `as_prepare_load(curthread->t_vmspace)`. -/
def asPrepareLoadCur : Kernel Unit := do
  let m ← get
  match (m.heap.space m.vmspace).bind fun as => asPrepareLoad as m.ram with
  | none => Prog.halt
  | some (e, as', r) => do
    set { m with heap := m.heap.store m.vmspace as', ram := r }
    match e with
    | some e => Prog.fail e
    | none => pure ()

/-- `as_define_stack(curthread->t_vmspace, ..)`. -/
def asDefineStackCur : Kernel UInt32 := do
  let m ← get
  match m.heap.space m.vmspace with
  | none => Prog.halt
  | some as => do
    Prog.assert (as.stackpbase ≠ 0)
    pure userStack

/-! ## `load_elf` -/

/-- `load_segment`. -/
def loadSegment (v : Vnode) (offset vaddr memsize filesize : UInt32) (isExecutable : Bool) :
    Kernel Unit := do
  let filesize := if filesize > memsize then memsize else filesize
  let m ← get
  let u ← vopRead env v
    { iovUbase := vaddr, iovBehind := [], iovKbase := [], iovLen := memsize,
      uioOffset := offset, uioResid := filesize,
      uioSegflg := if isExecutable then .userispace else .userspace,
      uioRw := .read, uioSpace := m.vmspace }
  Prog.failIf (u.uioResid ≠ 0) .ENOEXEC
  let fillamt := memsize - filesize
  if fillamt > 0 then do
    let _ ← uiomovezeros env fillamt { u with uioResid := u.uioResid + fillamt }
    pure ()
  else pure ()

/-- `load_elf`; it returns the entry point. -/
def loadElf (v : Vnode) : Kernel UInt32 := do
  let bytes ← readStruct env v 52 0
  let eh := Ehdr.ofBytes bytes
  Prog.failIf (¬ eh.Good) .ENOEXEC
  forPhdrs env v eh (fun ph => asDefineRegionCur ph.pVaddr ph.pMemsz) eh.ePhnum.toNat 0
  asPrepareLoadCur
  forPhdrs env v eh
    (fun ph => loadSegment env v ph.pOffset ph.pVaddr ph.pMemsz ph.pFilesz (ph.pFlags &&& 1 ≠ 0))
    eh.ePhnum.toNat 0
  pure eh.eEntry

end Userprog

end Os161
