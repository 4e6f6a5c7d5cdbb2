import Os161.Thread.Model.Plist
import Os161.Userprog.Model.Loadelf
import Os161.Userprog.Model.Trapframe
/-!
# `sys_waitpid` and `sys_execv`

The two system calls of `kern/arch/mips/mips/syscall.c` that follow a pointer
from user mode without `copyin`. Both compare it with three constants first.
-/

namespace Os161

namespace Userprog

open Vm Thread

variable (env : Env)

/-! ## `sys_waitpid` -/

/-- What the other threads do while `sys_waitpid` runs: the process list when
it has the lock, and the one that it finds when it has slept on the semaphore
of the process, `none` if nobody wakes it up. -/
structure Waiting where
  /-- `curthread->pid`. -/
  self : Int32
  locked : List PNode
  woken : Option (List PNode)

/-- The pids that are refused outright. -/
def RefusedPid (pid : Int32) : Prop := pid = -8 ∨ pid = -1 ∨ pid = 0 ∨ pid = 34000
  deriving Decidable

/-- The three pointers that are refused. -/
def Tested (p : UInt32) : Prop := p = 0 ∨ p = 0x40000000 ∨ p = 0x80000000
  deriving Decidable

/-- `sys_waitpid` from its `P(lock)` on. -/
def waitFor (waiting : Waiting) (pid : Int32) (status : UInt32) : Kernel (Int32 × List PNode) :=
  let hasExited := getExited waiting.locked pid
  if hasExited = 1 then do
    storeWord env status (getExcode waiting.locked pid).toUInt32
    pure (pid, waiting.locked)
  else if hasExited = 0 then
    match waiting.woken with
    | none => Prog.halt
    | some plist => do
      storeWord env status (getExcode plist pid).toUInt32
      pure (pid, deleteFromPlist plist pid)
  else Prog.fail .EINVAL

/-- `sys_waitpid`, with its `*retval` and the process list it leaves. -/
def sysWaitpid (waiting : Waiting) (pid : Int32) (status : UInt32) (options : Int32) :
    Kernel (Int32 × List PNode) := do
  Prog.failIf (RefusedPid pid) .EINVAL
  Prog.failIf (Tested status) .EFAULT
  Prog.failIf (options ≠ 0) .EINVAL
  Prog.failIf (pid = waiting.self) .EINVAL
  waitFor env waiting pid status

/-! ## `sys_execv` -/

/-- A string of the user is copied in, once its length is known: `kmalloc`
and `copyinstr`, which have one error. The source looks up `str` where it calls
`copyinstr`. -/
def copyString (len : UInt32) (str : Kernel UInt32) : Kernel (List UInt8) := do
  let block ← kmalloc env (len + 1)
  Prog.failIf (block = 0) .ENOMEM
  let str ← str
  Prog.mapError (fun _ => .ENOMEM) (copyinstr env str (len + 1))

/-- The path of the program. -/
def copyPath (program : UInt32) : Kernel (List UInt8) := do
  Prog.failIf (program = 0) .EFAULT
  Prog.failIf (program = 0x40000000) .EFAULT
  Prog.failIf (program = 0x80000000) .EFAULT
  let programLen ← strlen env program
  Prog.failIf (programLen = 0) .EINVAL
  copyString env programLen (pure program)

/-- `args[i]`. -/
def argAt (args i : UInt32) : Kernel UInt32 := loadWord env (args + 4 * i)

/-- The tests of `args`, and `while (args[argc] != NULL) argc++;`. An array
that goes round the address space has no end. -/
def countArgs (args : UInt32) : Kernel UInt32 := do
  Prog.failIf (args = 0x40000000) .EFAULT
  Prog.failIf (args = 0x80000000) .EFAULT
  Prog.failIf (args = 0) .EFAULT
  Prog.scanFrom (argAt env args) (· == 0) (2 ^ 30) 0

/-- One round of the loop that copies the arguments. Each use of `args[i]` is
a load. -/
def copyArg (args i : UInt32) : Kernel (List UInt8) := do
  let arg ← argAt env args i
  Prog.failIf (arg = 0x40000000) .EFAULT
  let arg ← argAt env args i
  Prog.failIf (arg = 0x80000000) .EFAULT
  let arg ← argAt env args i
  let argLen ← strlen env arg
  copyString env argLen (argAt env args i)

/-- The loop that copies the arguments, with `n` of them left from number `i`
on. -/
def copyArgsFrom (args : UInt32) : ℕ → UInt32 → Kernel (List (List UInt8))
  | 0, _ => pure []
  | n + 1, i => do
    let arg ← copyArg env args i
    let rest ← copyArgsFrom args n (i + 1)
    pure (arg :: rest)

/-- `sys_execv` up to its `as_destroy`: the path and the arguments. -/
def copyInArgs (program args : UInt32) : Kernel (List UInt8 × List (List UInt8)) := do
  let programPath ← copyPath env program
  let argc ← countArgs env args
  let argv ← copyArgsFrom env args argc.toNat 0
  pure (programPath, argv)

/-- `strlen` of a string in the kernel. -/
def kstrlen (str : List UInt8) : UInt32 := UInt32.ofNat (str.takeWhile (· ≠ 0)).length

/-- The length of an argument on the stack, with its end, and padded to a
multiple of four. -/
def blockLen (arg : List UInt8) : UInt32 :=
  let len := kstrlen arg + 1
  if len % 4 = 0 then len else len + (4 - len % 4)

/-- The arguments go onto the stack, the last one first. It returns where they
are, and the stack pointer. -/
def copyoutArgs : List (List UInt8) → UInt32 → Kernel (List UInt32 × UInt32)
  | [], stackptr => pure ([], stackptr)
  | arg :: rest, stackptr => do
    let (pointers, stackptr) ← copyoutArgs rest stackptr
    let stackptr := stackptr - blockLen arg
    let _ ← copyoutstr env arg stackptr (kstrlen arg + 1)
    pure (stackptr :: pointers, stackptr)

/-- The pointers to the arguments go onto the stack, the last one first. -/
def copyoutPointers : List UInt32 → UInt32 → Kernel UInt32
  | [], stackptr => pure stackptr
  | pointer :: rest, stackptr => do
    let stackptr ← copyoutPointers rest stackptr
    let stackptr := stackptr - 4
    copyout env (wordBytes pointer) stackptr
    pure stackptr

/-- `sys_execv` after its `as_destroy`. It does not return where it succeeds,
but goes to user mode with the trapframe that `md_usermode` makes. -/
def execImage (programPath : List UInt8) (argv : List (List UInt8)) : Kernel Trapframe := do
  let v ← Prog.ofExcept (env.vfsOpen programPath)
  let vmspace ← asCreateCur env
  Prog.failIf (vmspace = 0) .ENOMEM
  asActivate
  let entrypoint ← loadElf env v
  let stackptr ← asDefineStackCur
  let (pointers, stackptr) ← copyoutArgs env argv stackptr
  let stackptr ← copyoutPointers env pointers stackptr
  pure (mdUsermode (UInt32.ofNat argv.length) stackptr stackptr entrypoint)

/-- `sys_execv`. -/
def sysExecv (program args : UInt32) : Kernel Trapframe := do
  let (programPath, argv) ← copyInArgs env program args
  asDestroyCur
  execImage env programPath argv

end Userprog

end Os161
