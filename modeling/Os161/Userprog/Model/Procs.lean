import Os161.Userprog.Model.Trapframe
import Os161.Vm.Model.AddrSpace
/-!
# Processes and their memory

What the system calls do to memory, one step at a time, with the processor
free to change threads between any two steps: the loading of a program by
`runprogram` and `sys_execv`, `sys_fork` with `md_forkentry`, the exit of a
process, and loads and stores in user mode. There is one TLB, which
`as_activate` empties and `vm_fault` fills.

`sys_fork` runs with interrupts off from its first line to its last, so it is
one step. `sys_execv` and `runprogram` are cut at every place where another
thread can run and see the difference. `kmalloc` may return any block that is
not in use, so the steps that call `as_create` carry the address they get,
`0` for none.

The memory of this model is what user frames hold; what the kernel keeps for
itself is in the fields of the state.

`sys_waitpid` stores through its `status` argument as it is, in kernel mode. A
kernel address there is one of physical memory, whoever has the frame. What such a
store does to the tables of the kernel is not modelled.
-/

namespace Os161

namespace Userprog

open Vm

/-- Where a thread is. The flag of the two loading stages tells `sys_execv`
from `runprogram`. -/
inductive Stage where
  /-- A thread of the kernel, or one whose `runprogram` has failed. -/
  | kernel
  /-- A child of `sys_fork` that has not reached `md_forkentry`, with the two
  arguments that wait for it. -/
  | forkEntry (data1 : Trapframe) (data2 : UInt32)
  /-- In `sys_execv`, after `as_destroy` and before `as_create`. -/
  | opening
  /-- In the first loop of `load_elf`. -/
  | defining (execv : Bool)
  /-- After `as_prepare_load`, up to `md_usermode`. -/
  | loading (execv : Bool)
  | user
  | exited
  deriving DecidableEq, Repr

/-- The parts of `struct thread` that matter here: where the thread is, its
`t_vmspace` and the trapframe it returns to user mode with. -/
structure Proc where
  stage : Stage
  vmspace : UInt32
  tf : Trapframe
  deriving DecidableEq, Repr

/-- The machine and the kernel's tables. -/
structure World where
  ram : Ram
  mem : Memory
  heap : Heap
  tlb : Tlb
  procs : ℕ → Option Proc
  maxPid : ℕ
  /-- The pid of `curthread`. -/
  cur : ℕ

/-- How the `thread_fork` of a `sys_fork` ends. -/
inductive ThreadFork where
  | created
  /-- `thread_create` finds no memory. -/
  | noThread
  /-- A later allocation fails, and the pid is gone. -/
  | noStack
  deriving DecidableEq, Repr

/-- The steps. -/
inductive Event where
  /-- `mi_switch` to another thread. -/
  | switch (pid : ℕ)
  /-- The kernel takes pages for itself. -/
  | allocKpages (npages : UInt32)
  /-- `thread_fork` by the menu, of a thread that will call `runprogram`. -/
  | threadFork
  /-- `as_create` and `as_activate` of `runprogram` and `sys_execv`. -/
  | asCreate (block : UInt32)
  | asDefineRegion (vaddr sz : UInt32)
  | asPrepareLoad
  /-- One byte that `load_elf` or the argument loops copy out. -/
  | copyout (va : UInt32) (b : UInt8)
  /-- Any other error return of a loading stage. -/
  | loadFails (e : Errno)
  | mdUsermode (argc argv stack entry : UInt32)
  /-- `sys_execv` up to and with its `as_destroy`. -/
  | execv
  /-- The `vfs_open` of `sys_execv` fails. -/
  | openFails (e : Errno)
  | fork (block : UInt32) (thread : ThreadFork)
  | mdForkentry
  | exit
  /-- An instruction that changes registers only, or a system call that
  changes no memory. -/
  | compute (tf : Trapframe)
  | load (va : UInt32)
  /-- A store in user mode, or one byte that a system call copies out. -/
  | store (va : UInt32) (b : UInt8)
  /-- One byte of the `*status = get_excode(pid)` of `sys_waitpid`. -/
  | statusStore (va : UInt32) (b : UInt8)
  deriving DecidableEq, Repr

namespace World

/-- The entry of the current thread changes. -/
def setCur (w : World) (p : Proc) : World :=
  { w with procs := Function.update w.procs w.cur (some p) }

/-- A new thread, with the next pid. -/
def addProc (w : World) (p : Proc) : World :=
  { w with procs := Function.update w.procs w.maxPid (some p), maxPid := w.maxPid + 1 }

/-- The byte that a user address stands for in the address space at `q`. -/
def byteAt (w : World) (q va : UInt32) : Option UInt8 :=
  (w.heap.space q).bind fun as => (as.translate va).map w.mem

/-- `mi_switch`, whose last lines activate the address space of the thread
that comes back, if it has one. -/
def miSwitch (w : World) (pid : ℕ) : Option World :=
  match w.procs pid with
  | none => none
  | some p =>
    if p.stage = .exited then none
    else some { w with cur := pid, tlb := if p.vmspace = 0 then w.tlb else [] }

/-- `thread_exit` of the current thread, up to its `mi_switch`. -/
def threadExit (w : World) (p : Proc) : World :=
  { w with heap := if p.vmspace = 0 then w.heap else w.heap.asDestroy p.vmspace }.setCur
    { p with stage := .exited, vmspace := 0 }

/-- An access to a user page by the current thread. -/
def touch (w : World) (p : Proc) (faulttype : FaultType) (va : UInt32) : Fault :=
  w.heap.touch p.vmspace w.tlb faulttype va

/-- An access in user mode. One that cannot be served ends the process
(`kill_curthread`); a kernel address never is. -/
def access (w : World) (p : Proc) (faulttype : FaultType) (va : UInt32)
    (go : UInt32 → World → Option World) : Option World :=
  if userTop ≤ va then some (w.threadExit p) else
  match w.touch p faulttype va with
  | .loaded f tlb => go (f + pageOffset va) { w with tlb := tlb }
  | .fails _ => some (w.threadExit p)
  | .panics => none

/-- A store of `sys_waitpid` through `status`. Where no frame is found the kernel
panics, since it has not set `pcb_badfaultfunc`. -/
def statusStore (w : World) (p : Proc) (va : UInt32) (b : UInt8) : Option World :=
  if 0x80000000 ≤ va ∧ va < 0xa0000000 then
    some { w with mem := Function.update w.mem (va - 0x80000000) b }
  else if 0xa0000000 ≤ va ∧ va < 0xc0000000 then
    some { w with mem := Function.update w.mem (va - 0xa0000000) b }
  else
    match w.touch p .write va with
    | .loaded f tlb =>
      some { w with tlb := tlb, mem := Function.update w.mem (f + pageOffset va) b }
    | .fails _ => none
    | .panics => none

/-- The next instruction is fetched. -/
def fetch (w : World) (p : Proc) (go : World → Option World) : Option World :=
  w.access p .read p.tf.tfEpc fun _ w => go w

/-- A loading stage returns an error: `sys_execv` to its caller, `runprogram`
to the kernel thread that called it. -/
def returnError (w : World) (p : Proc) (execv : Bool) (e : Errno) : World :=
  w.setCur (if execv then { p with stage := .user, tf := syscallReturn p.tf (.error e) }
    else { p with stage := .kernel })

/-- `curthread->t_vmspace = as_create()` and `as_activate`. -/
def createSpace (w : World) (p : Proc) (execv : Bool) (block : UInt32) : World :=
  match w.heap.asCreate block with
  | none => w.returnError { p with vmspace := 0 } execv .ENOMEM
  | some h => { w with heap := h, tlb := [] }.setCur
      { p with vmspace := block, stage := .defining execv }

/-- `as_define_region` in `load_elf`. -/
def defineRegion (w : World) (p : Proc) (execv : Bool) (vaddr sz : UInt32) : Option World :=
  (w.heap.space p.vmspace).map fun as =>
    match asDefineRegion as vaddr sz with
    | .error e => w.returnError p execv e
    | .ok as' => { w with heap := w.heap.store p.vmspace as' }

/-- `as_prepare_load` in `load_elf`. -/
def prepareLoad (w : World) (p : Proc) (execv : Bool) : Option World :=
  (w.heap.space p.vmspace).bind fun as =>
    (asPrepareLoad as w.ram).map fun (e, as', r) =>
      let w := { w with heap := w.heap.store p.vmspace as', ram := r }
      match e with
      | some e => w.returnError p execv e
      | none => w.setCur { p with stage := .loading execv }

/-- One byte of a `copyout` in a loading stage. -/
def copyout (w : World) (p : Proc) (execv : Bool) (va : UInt32) (b : UInt8) : Option World :=
  if userTop ≤ va then some (w.returnError p execv .EFAULT) else
  match w.touch p .write va with
  | .loaded f tlb =>
    some { w with tlb := tlb, mem := Function.update w.mem (f + pageOffset va) b }
  | .fails _ => some (w.returnError p execv .EFAULT)
  | .panics => none

/-- The regions of an address space, without frames: what `as_copy` takes
over before it calls `as_prepare_load`. -/
def regions (old : AddrSpace) : AddrSpace :=
  { AddrSpace.zero with vbase1 := old.vbase1, npages1 := old.npages1,
                        vbase2 := old.vbase2, npages2 := old.npages2 }

/-- `sys_fork` from the `as_copy` on. The parent's address space is read
after `as_create`, as the source does. -/
def sysFork (w : World) (p : Proc) (block : UInt32) (thread : ThreadFork) : Option World :=
  let enomem := { p with tf := syscallReturn p.tf (.error .ENOMEM) }
  match w.heap.asCreate block with
  | none => some (w.setCur enomem)
  | some h => (h.space p.vmspace).bind fun old =>
    (asPrepareLoad (regions old) w.ram).map fun (e, new, r) =>
      match e with
      | some _ => { w with heap := h.asDestroy block, ram := r }.setCur enomem
      | none =>
        let w := { w with heap := h.store block new, ram := r, mem := copyFrames old new w.mem }
        match thread with
        | .created =>
          (w.setCur { p with tf := syscallReturn p.tf (.ok (UInt32.ofNat w.maxPid)) }).addProc
            ⟨.forkEntry p.tf block, 0, p.tf⟩
        | .noThread => w.setCur enomem
        | .noStack => { w with maxPid := w.maxPid + 1 }.setCur enomem

/-- One step of the current thread, `p`. -/
def stepCur (w : World) (p : Proc) : Event → Option World
  | .switch pid => w.miSwitch pid
  | .allocKpages npages => some { w with ram := (getppages w.ram npages).2 }
  | .threadFork => if p.stage = .kernel then some (w.addProc ⟨.kernel, 0, {}⟩) else none
  | .asCreate block =>
    match p.stage with
    | .kernel => if p.vmspace = 0 then some (w.createSpace p false block) else none
    | .opening => some (w.createSpace p true block)
    | _ => none
  | .asDefineRegion vaddr sz =>
    match p.stage with
    | .defining execv => w.defineRegion p execv vaddr sz
    | _ => none
  | .asPrepareLoad =>
    match p.stage with
    | .defining execv => w.prepareLoad p execv
    | _ => none
  | .copyout va b =>
    match p.stage with
    | .loading execv => w.copyout p execv va b
    | _ => none
  | .loadFails e =>
    match p.stage with
    | .defining execv => some (w.returnError p execv e)
    | .loading execv => some (w.returnError p execv e)
    | _ => none
  | .mdUsermode argc argv stack entry =>
    match p.stage with
    | .loading _ => some (w.setCur { p with stage := .user,
                                            tf := Userprog.mdUsermode argc argv stack entry })
    | _ => none
  | .execv =>
    if p.stage = .user then w.fetch p fun w =>
      some ({ w with heap := w.heap.asDestroy p.vmspace }.setCur { p with stage := .opening })
    else none
  | .openFails e => if p.stage = .opening then some (w.returnError p true e) else none
  | .fork block thread =>
    if p.stage = .user then w.fetch p fun w => w.sysFork p block thread else none
  | .mdForkentry =>
    match p.stage with
    | .forkEntry data1 data2 => some ({ w with tlb := [] }.setCur
        ⟨.user, data2, Userprog.mdForkentry data1⟩)
    | _ => none
  | .exit => if p.stage = .user ∨ p.stage = .kernel then some (w.threadExit p) else none
  | .compute tf =>
    if p.stage = .user then w.fetch p fun w => some (w.setCur { p with tf := tf }) else none
  | .load va =>
    if p.stage = .user then w.fetch p fun w => w.access p .read va fun _ w => some w else none
  | .store va b =>
    if p.stage = .user then w.fetch p fun w => w.access p .write va fun pa w =>
      some { w with mem := Function.update w.mem pa b }
    else none
  | .statusStore va b => if p.stage = .user then w.statusStore p va b else none

/-- One step. -/
def step (w : World) (e : Event) : Option World := (w.procs w.cur).bind fun p => w.stepCur p e

/-- The state after boot: the menu thread, no program, and memory as it is. -/
def boot (r : Ram) (mem : Memory) : World where
  ram := r
  mem := mem
  heap := .empty
  tlb := []
  procs := fun pid => if pid = 1 then some ⟨.kernel, 0, {}⟩ else none
  maxPid := 2
  cur := 1

end World

end Userprog

end Os161
