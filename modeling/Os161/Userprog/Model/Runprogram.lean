import Os161.Common.Wp
import Os161.Userprog.Model.Syscall
/-!
# `kern/userprog/runprogram.c`

`runprogram` has its own copy of the loops with which `sys_execv` puts the
arguments onto the initial stack. It computes the length of a block with `int`s,
and it does not look at what `copyout` returns for the pointers.
-/

namespace Os161

namespace Userprog

open Vm

variable (env : Env)

/-- `block_len`, from `arg_len`; both are `int`s. -/
def runBlockLen (argLen : Int32) : Int32 :=
  if (argLen + 1) % 4 = 0 then argLen + 1 else argLen + 1 + 4 - (argLen + 1) % 4

/-- The arguments go onto the stack, the last one first. It returns where they
are, and the stack pointer. -/
def runArgs : List (List UInt8) → UInt32 → Kernel (List UInt32 × UInt32)
  | [], stackptr => pure ([], stackptr)
  | arg :: rest, stackptr => do
    let (pointers, stackptr) ← runArgs rest stackptr
    let argLen := (kstrlen arg).toInt32
    let stackptr := stackptr - (runBlockLen argLen).toUInt32
    let _ ← copyoutstr env arg stackptr (argLen + 1).toUInt32
    pure (stackptr :: pointers, stackptr)

/-- The pointers to the arguments go onto the stack, the last one first. What
`copyout` returns is thrown away by the source; it is kept here for those who
want to know. -/
def runPointers : List UInt32 → UInt32 → Kernel (UInt32 × List (Except Errno Unit))
  | [], stackptr => pure (stackptr, [])
  | pointer :: rest, stackptr => do
    let (stackptr, results) ← runPointers rest stackptr
    let stackptr := stackptr - 4
    let result ← Prog.result (copyout env (wordBytes pointer) stackptr)
    pure (stackptr, result :: results)

/-- `runprogram` after its `as_define_stack`, with the results of `copyout`. -/
def runStack (args : List (List UInt8)) (stackptr entrypoint : UInt32) :
    Kernel (Trapframe × List (Except Errno Unit)) := do
  let (pointers, stackptr) ← runArgs env args stackptr
  let (stackptr, results) ← runPointers env pointers stackptr
  pure (mdUsermode (UInt32.ofNat args.length) stackptr stackptr entrypoint, results)

/-- `runprogram`. -/
def runprogram (progname : List UInt8) (args : List (List UInt8)) : Kernel Trapframe := do
  let v ← Prog.ofExcept (env.vfsOpen progname)
  let m ← get
  -- we should be a new thread
  Prog.assert (m.vmspace = 0)
  let vmspace ← asCreateCur env
  Prog.failIf (vmspace = 0) .ENOMEM
  asActivate
  let entrypoint ← loadElf env v
  let stackptr ← asDefineStackCur
  let (tf, _) ← runStack env args stackptr entrypoint
  pure tf

end Userprog

end Os161
