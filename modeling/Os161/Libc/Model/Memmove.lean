import Os161.Vm.Model.AddrSpace
/-!
# `lib/libc/memmove.c` and `lib/libc/memcpy.c`

Pointers are 32-bit, and a `long` has four bytes. A `long` that is only copied is kept as
its bytes, in the order in which they lie in memory.
-/

namespace Os161

namespace Libc

open Vm (Memory)

/-- `sizeof(long)`. -/
def sizeofLong : UInt32 := 4

/-- `*p` for a `long *p`. -/
def loadLong (mem : Memory) (p : UInt32) : Fin 4 → UInt8 :=
  fun k => mem (p + UInt32.ofNat k)

/-- `*p = v` for a `long *p`. -/
def storeLong (mem : Memory) (p : UInt32) (v : Fin 4 → UInt8) : Memory := fun a =>
  if h : (a - p).toNat < 4 then v ⟨(a - p).toNat, h⟩ else mem a

/-- `d[i] = s[i]` for longs. -/
def copyLong (d s : UInt32) (mem : Memory) (i : ℕ) : Memory :=
  storeLong mem (d + UInt32.ofNat i * sizeofLong)
    (loadLong mem (s + UInt32.ofNat i * sizeofLong))

/-- `d[i] = s[i]` for chars. -/
def copyChar (d s : UInt32) (mem : Memory) (i : ℕ) : Memory :=
  Function.update mem (d + UInt32.ofNat i) (mem (s + UInt32.ofNat i))

/-- `for (i=0; i<n; i++) copy(i)`. -/
def forwards (copy : Memory → ℕ → Memory) : ℕ → Memory → Memory
  | 0, mem => mem
  | n + 1, mem => copy (forwards copy n mem) n

/-- `for (i=n; i>0; i--) copy(i-1)`. -/
def backwards (copy : Memory → ℕ → Memory) : ℕ → Memory → Memory
  | 0, mem => mem
  | n + 1, mem => backwards copy n (copy mem n)

/-- Both pointers and the length are whole words. -/
def Aligned (dst src len : UInt32) : Prop :=
  dst % sizeofLong = 0 ∧ src % sizeofLong = 0 ∧ len % sizeofLong = 0

instance (dst src len : UInt32) : Decidable (Aligned dst src len) :=
  inferInstanceAs (Decidable (_ ∧ _ ∧ _))

/-- `memcpy`: what it returns and the memory after it. -/
def memcpy (mem : Memory) (dst src len : UInt32) : UInt32 × Memory :=
  if Aligned dst src len then
    (dst, forwards (copyLong dst src) (len / sizeofLong).toNat mem)
  else
    (dst, forwards (copyChar dst src) len.toNat mem)

/-- `memmove`. -/
def memmove (mem : Memory) (dst src len : UInt32) : UInt32 × Memory :=
  if dst < src then memcpy mem dst src len
  else if Aligned dst src len then
    (dst, backwards (copyLong dst src) (len / sizeofLong).toNat mem)
  else
    (dst, backwards (copyChar dst src) len.toNat mem)

end Libc

end Os161
