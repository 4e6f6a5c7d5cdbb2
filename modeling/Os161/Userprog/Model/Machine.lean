import Os161.Common.Prog
import Os161.Vm.Model.AddrSpace
/-!
# The kernel and a pointer from user mode

What a system call sees of the machine while it follows a pointer that a user
program gave it: physical memory, the TLB, the address spaces, and the
`pcb_badfaultfunc` that `copyin` and its relatives set. An access goes through
the segments of the processor: `kuseg` and `kseg2` are mapped by the TLB and
`vm_fault`, `kseg0` and `kseg1` are windows on physical memory. A fault that
cannot be served ends in `copyfail` if `pcb_badfaultfunc` is set and in a
panic if it is not.

`accesses` is a record of what the system call has touched. No code reads it.

Buffers of the kernel are lists of bytes here, and not places in `mem`.
-/

namespace Os161

namespace Userprog

open Vm

/-- One access: where, whether `pcb_badfaultfunc` was set, and whether
`vm_fault` has a frame for the address. -/
structure Access where
  addr : UInt32
  guarded : Bool
  mapped : Bool
  deriving DecidableEq, Repr

/-- The machine, during a system call of `curthread`. -/
structure Machine where
  ram : Ram
  mem : Memory
  tlb : Tlb
  heap : Heap
  /-- `curthread->t_vmspace`. -/
  vmspace : UInt32
  /-- Whether `pcb_badfaultfunc` is `copyfail` or `NULL`. -/
  badfaultfunc : Bool
  ticks : ℕ
  accesses : List Access

/-- A file, by what its `VOP_READ` does at an offset, with a number of bytes
left to read: the pieces that it hands to `uiomove`, and the error that it ends
with. -/
structure Vnode where
  read : UInt32 → UInt32 → List (List UInt8) × Option Errno

/-- What the model leaves open. -/
structure Env where
  /-- Whether the processor is taken away before an access, and given back:
  `mi_switch` empties the TLB. -/
  switches : ℕ → Bool
  /-- What `subpage_kmalloc` returns, and what is left of the memory it may
  take a page from. -/
  subpageKmalloc : ℕ → Ram → UInt32 × Ram
  vfsOpen : List UInt8 → Except Errno Vnode

/-- Code of the kernel. -/
abbrev Kernel : Type → Type := Prog Machine Errno

/-- `MIPS_KSEG1`. -/
def mipsKseg1 : UInt32 := 0xa0000000

/-- `MIPS_KSEG2`. -/
def mipsKseg2 : UInt32 := 0xc0000000

namespace Machine

/-- The byte at a user address, as `vm_fault` translates it. -/
def userByte (m : Machine) (va : UInt32) : Option UInt8 :=
  (m.heap.space m.vmspace).bind fun as => (as.translate va).map m.mem

/-- Time passes. -/
def tick (env : Env) (m : Machine) : Machine :=
  { m with ticks := m.ticks + 1, tlb := if env.switches m.ticks then [] else m.tlb }

/-- An access is recorded. -/
def record (va : UInt32) (m : Machine) : Machine :=
  { m with accesses := ⟨va, m.badfaultfunc, (m.userByte va).isSome⟩ :: m.accesses }

/-- The word at a physical address; the machine is big-endian. -/
def word (m : Machine) (pa : UInt32) : UInt32 :=
  (m.mem pa).toUInt32 <<< 24 ||| (m.mem (pa + 1)).toUInt32 <<< 16 |||
    (m.mem (pa + 2)).toUInt32 <<< 8 ||| (m.mem (pa + 3)).toUInt32

end Machine

/-- The four bytes of a word. -/
def wordBytes (w : UInt32) : List UInt8 :=
  [(w >>> 24).toUInt8, (w >>> 16).toUInt8, (w >>> 8).toUInt8, w.toUInt8]

variable (env : Env)

/-- A fatal fault in kernel mode: the end of `mips_trap`. -/
def fatalFault {α : Type} : Kernel α := do
  let m ← get
  if m.badfaultfunc then Prog.longjmp else Prog.halt

/-- The physical address that the processor finds for an access. -/
def physicalAddress (faulttype : FaultType) (va : UInt32) : Kernel UInt32 :=
  if mipsKseg0 ≤ va ∧ va < mipsKseg1 then pure (va - mipsKseg0)
  else if mipsKseg1 ≤ va ∧ va < mipsKseg2 then pure (va - mipsKseg1)
  else do
    let m ← get
    match m.heap.touch m.vmspace m.tlb faulttype va with
    | .loaded f tlb => do
      set { m with tlb := tlb }
      pure (f + pageOffset va)
    | .fails _ => fatalFault
    | .panics => Prog.halt

/-- An access. Beyond the end of memory there is a bus error, for which
`mips_trap` panics. -/
def access (faulttype : FaultType) (va : UInt32) : Kernel UInt32 := do
  modify (Machine.tick env)
  modify (Machine.record va)
  let pa ← physicalAddress faulttype va
  let m ← get
  Prog.assert (pa < m.ram.lastpaddr)
  pure pa

def loadByte (va : UInt32) : Kernel UInt8 := do
  let pa ← access env .read va
  let m ← get
  pure (m.mem pa)

def storeByte (va : UInt32) (b : UInt8) : Kernel Unit := do
  let pa ← access env .write va
  modify fun m => { m with mem := Function.update m.mem pa b }

/-- A load of a word. An address that is not a multiple of four is an address
error, which `mips_trap` does not serve. -/
def loadWord (va : UInt32) : Kernel UInt32 :=
  if va % 4 ≠ 0 then fatalFault
  else do
    let pa ← access env .read va
    let m ← get
    pure (m.word pa)

def storeWord (va w : UInt32) : Kernel Unit :=
  if va % 4 ≠ 0 then fatalFault
  else do
    let pa ← access env .write va
    modify fun m => { m with mem := fun a =>
      if a - pa < 4 then (wordBytes w).getD (a - pa).toNat 0 else m.mem a }

/-- `strlen` of a string in memory. A string that goes round the address space
has no end. -/
def strlen (str : UInt32) : Kernel UInt32 :=
  Prog.scanFrom (fun n => loadByte env (str + n)) (· == 0) (2 ^ 32) 0

/-- `LARGEST_SUBPAGE_SIZE`. -/
def largestSubpageSize : UInt32 := 2048

/-- `kmalloc`. -/
def kmalloc (sz : UInt32) : Kernel UInt32 := do
  modify (Machine.tick env)
  let m ← get
  let block := if sz ≥ largestSubpageSize then allocKpages m.ram (kmallocNpages sz)
    else env.subpageKmalloc m.ticks m.ram
  set { m with ram := block.2 }
  pure block.1

end Userprog

end Os161
