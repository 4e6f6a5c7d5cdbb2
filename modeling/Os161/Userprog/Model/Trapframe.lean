import Os161.Lib.Model.Errno
/-!
# Trapframes

`struct trapframe` of `kern/arch/mips/include/trapframe.h`, and the three
places that build the one a process next enters user mode with: the end of
`mips_syscall`, `md_forkentry` and `md_usermode`.
-/

namespace Os161

namespace Userprog

/-- `struct trapframe`: the registers saved on entry to the kernel. -/
structure Trapframe where
  tfVaddr : UInt32 := 0
  tfStatus : UInt32 := 0
  tfCause : UInt32 := 0
  tfLo : UInt32 := 0
  tfHi : UInt32 := 0
  tfRa : UInt32 := 0
  tfAt : UInt32 := 0
  tfV0 : UInt32 := 0
  tfV1 : UInt32 := 0
  tfA0 : UInt32 := 0
  tfA1 : UInt32 := 0
  tfA2 : UInt32 := 0
  tfA3 : UInt32 := 0
  tfT0 : UInt32 := 0
  tfT1 : UInt32 := 0
  tfT2 : UInt32 := 0
  tfT3 : UInt32 := 0
  tfT4 : UInt32 := 0
  tfT5 : UInt32 := 0
  tfT6 : UInt32 := 0
  tfT7 : UInt32 := 0
  tfS0 : UInt32 := 0
  tfS1 : UInt32 := 0
  tfS2 : UInt32 := 0
  tfS3 : UInt32 := 0
  tfS4 : UInt32 := 0
  tfS5 : UInt32 := 0
  tfS6 : UInt32 := 0
  tfS7 : UInt32 := 0
  tfT8 : UInt32 := 0
  tfT9 : UInt32 := 0
  tfK0 : UInt32 := 0
  tfK1 : UInt32 := 0
  tfGp : UInt32 := 0
  tfSp : UInt32 := 0
  tfS8 : UInt32 := 0
  tfEpc : UInt32 := 0
  deriving DecidableEq, Repr

/-- The end of `mips_syscall`: the error code and a flag, or the return value
and no flag, and on to the next instruction. -/
def syscallReturn (tf : Trapframe) (result : Except Errno UInt32) : Trapframe :=
  let tf := match result with
    | .error err => { tf with tfV0 := err.code, tfA3 := 1 }
    | .ok retval => { tf with tfV0 := retval, tfA3 := 0 }
  { tf with tfEpc := tf.tfEpc + 4 }

/-- `md_forkentry`: the trapframe the child of a fork starts from. -/
def mdForkentry (tf : Trapframe) : Trapframe :=
  { tf with tfV0 := 0, tfA3 := 0, tfEpc := tf.tfEpc + 4 }

/-- `CST_IRQMASK | CST_IEp | CST_KUp`. -/
def userStatus : UInt32 := 0xff00 ||| 0x4 ||| 0x8

/-- `md_usermode`: the trapframe a new program starts from. -/
def mdUsermode (argc argv stack entry : UInt32) : Trapframe :=
  { tfStatus := userStatus, tfEpc := entry, tfA0 := argc, tfA1 := argv, tfSp := stack }

end Userprog

end Os161
