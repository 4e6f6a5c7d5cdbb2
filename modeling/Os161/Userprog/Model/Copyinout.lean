import Os161.Userprog.Model.Machine
/-!
# `kern/lib/copyinout.c`

The four functions that copy between the kernel and a user program. Each of
them checks the range, sets `pcb_badfaultfunc`, and touches user memory
between a `setjmp` and the line that sets `pcb_badfaultfunc` to `NULL` again.
-/

namespace Os161

namespace Userprog

open Vm

/-- `copycheck`: the `stoplen`, or an error. -/
def copycheck (userptr len : UInt32) : Except Errno UInt32 :=
  let bot := userptr
  let top := bot + len - 1
  -- addresses wrapped around
  if top < bot then .error .EFAULT
  -- region is within the kernel
  else if bot ≥ userTop then .error .EFAULT
  -- region overlaps the kernel
  else if top ≥ userTop then .ok (userTop - bot)
  else .ok len

def setBadfaultfunc (set : Bool) : Kernel Unit := modify fun m => { m with badfaultfunc := set }

/-- The lines around the copying that the four functions share. -/
def protect {α : Type} (copy : Kernel (Except Errno α)) : Kernel α := do
  setBadfaultfunc true
  Prog.setjmp
    (do
      let result ← copy
      setBadfaultfunc false
      Prog.ofExcept result)
    (do
      setBadfaultfunc false
      Prog.fail .EFAULT)

variable (env : Env)

/-- The bytes from `va` on. -/
def loadBytes : ℕ → UInt32 → Kernel (List UInt8)
  | 0, _ => pure []
  | n + 1, va => do
    let b ← loadByte env va
    let bs ← loadBytes n (va + 1)
    pure (b :: bs)

def storeBytes : List UInt8 → UInt32 → Kernel Unit
  | [], _ => pure ()
  | b :: bs, va => do
    storeByte env va b
    storeBytes bs (va + 1)

def copyin (usersrc len : UInt32) : Kernel (List UInt8) := do
  let stoplen ← Prog.ofExcept (copycheck usersrc len)
  Prog.failIf (stoplen ≠ len) .EFAULT
  protect do
    let bytes ← loadBytes env len.toNat usersrc
    pure (.ok bytes)

/-- `copyout` of the bytes in `src`. -/
def copyout (src : List UInt8) (userdest : UInt32) : Kernel Unit := do
  let len := UInt32.ofNat src.length
  let stoplen ← Prog.ofExcept (copycheck userdest len)
  Prog.failIf (stoplen ≠ len) .EFAULT
  protect do
    storeBytes env src userdest
    pure (.ok ())

/-- The loop of `copystr`, with `n` rounds left from index `i` on. It returns
the bytes that it has stored. The source reads `src[i]` twice. -/
def copystrFrom (src : UInt32 → Kernel UInt8) (dest : UInt32 → UInt8 → Kernel Unit)
    (tooLong : Errno) : ℕ → UInt32 → Kernel (Except Errno (List UInt8))
  | 0, _ => pure (.error tooLong)
  | n + 1, i => do
    let c ← src i
    dest i c
    let c' ← src i
    if c' = 0 then pure (.ok [c])
    else do
      let result ← copystrFrom src dest tooLong n (i + 1)
      pure (result.map (c :: ·))

def copystr (src : UInt32 → Kernel UInt8) (dest : UInt32 → UInt8 → Kernel Unit)
    (maxlen stoplen : UInt32) : Kernel (Except Errno (List UInt8)) :=
  copystrFrom src dest (if stoplen < maxlen then .EFAULT else .ENAMETOOLONG)
    (min maxlen.toNat stoplen.toNat) 0

/-- `copyinstr`, with the string that it leaves in its buffer. -/
def copyinstr (usersrc len : UInt32) : Kernel (List UInt8) := do
  let stoplen ← Prog.ofExcept (copycheck usersrc len)
  protect (copystr (fun i => loadByte env (usersrc + i)) (fun _ _ => pure ()) len stoplen)

/-- `copyoutstr` of a string in the kernel. -/
def copyoutstr (src : List UInt8) (userdest len : UInt32) : Kernel (List UInt8) := do
  let stoplen ← Prog.ofExcept (copycheck userdest len)
  protect (copystr (fun i => pure (src.getD i.toNat 0))
    (fun i c => storeByte env (userdest + i) c) len stoplen)

end Userprog

end Os161
