import Mathlib.Data.Nat.Notation
/-!
# Error codes

`kern/include/kern/errno.h`. A function of the kernel returns `0` or one of
these; none of them is `0`.
-/

namespace Os161

/-- The error codes, under their names in the header. -/
inductive Errno where
  | EINVAL | EFAULT | ENAMETOOLONG | ENOMEM | EIO | ENOENT | ENOTDIR | EISDIR | EEXIST
  | EXDEV | EAGAIN | ESPIPE | EUNIMP | ENXIO | ENODEV | EBUSY | EIOCTL | ENOTEMPTY
  | ERANGE | ENOSPC | EMFILE | ENFILE | ENOSYS | ENOEXEC | E2BIG | EBADF
  deriving DecidableEq, Repr

/-- The number of a code: the header counts them from `1` in this order. -/
def Errno.code (e : Errno) : UInt32 := UInt32.ofNat (e.ctorIdx + 1)

end Os161
