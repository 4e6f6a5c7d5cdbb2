import Os161.Common.Prog
import Os161.Lib.Model.Errno
import Mathlib.Logic.Function.Basic
/-!
# Arrays of bits

`kern/lib/bitmap.c`. The words are bytes, as in the source, and `v` is the
memory behind the pointer: the first `DIVROUNDUP(nbits, 8)` bytes of it are the
bitmap's. An assertion that fails is a panic.
-/

namespace Os161

namespace Lib

/-- `struct bitmap`. -/
structure Bitmap where
  nbits : ℕ
  v : ℕ → UInt8

namespace Bitmap

/-- `((WORD_TYPE)1) << offset`. -/
def mask (offset : ℕ) : UInt8 := 1 <<< UInt8.ofNat offset

/-- `DIVROUNDUP(nbits, BITS_PER_WORD)`. -/
def words (nbits : ℕ) : ℕ := (nbits + 7) % 2 ^ 32 / 8

/-- `b->v[ix] = w`. -/
def setWord (b : Bitmap) (ix : ℕ) (w : UInt8) : Bitmap :=
  { b with v := Function.update b.v ix w }

/-- The last word of a new bitmap, with the bits from `overbits` on in use. -/
def leftover (overbits : ℕ) : UInt8 :=
  (List.range' overbits (8 - overbits)).foldl (fun w j => w ||| mask j) 0

/-- `bitmap_create`, once there is memory for it. -/
def bitmapCreate {σ : Type} (nbits : ℕ) : Prog σ Errno Bitmap :=
  if nbits / 8 < words nbits then do
    let ix := words nbits - 1
    let overbits := nbits - ix * 8
    Prog.assert (nbits / 8 = words nbits - 1)
    Prog.assert (0 < overbits ∧ overbits < 8)
    pure { nbits, v := Function.update (fun _ => 0) ix (leftover overbits) }
  else pure { nbits, v := fun _ => 0 }

/-- The words of `bitmap_alloc` from `ix` on, `n` of them. -/
def bitmapAllocFrom : ℕ → ℕ → Prog Bitmap Errno ℕ
  | 0, _ => Prog.fail .ENOSPC
  | n + 1, ix => do
    let b ← get
    if b.v ix ≠ 0xff then
      match (List.range 8).find? fun offset => b.v ix &&& mask offset == 0 with
      | some offset => do
        set (b.setWord ix (b.v ix ||| mask offset))
        Prog.assert (ix * 8 + offset < b.nbits)
        pure (ix * 8 + offset)
      -- assert(0)
      | none => Prog.halt
    else bitmapAllocFrom n (ix + 1)

/-- `bitmap_alloc`. -/
def bitmapAlloc : Prog Bitmap Errno ℕ := do
  let b ← get
  bitmapAllocFrom (words b.nbits) 0

/-- `bitmap_isset`, as a test. -/
def IsSet (b : Bitmap) (index : ℕ) : Prop := b.v (index / 8) &&& mask (index % 8) ≠ 0
  deriving Decidable

/-- `bitmap_mark`. -/
def bitmapMark (index : ℕ) : Prog Bitmap Errno Unit := do
  let b ← get
  Prog.assert (index < b.nbits)
  Prog.assert (¬ b.IsSet index)
  set (b.setWord (index / 8) (b.v (index / 8) ||| mask (index % 8)))

/-- `bitmap_unmark`. -/
def bitmapUnmark (index : ℕ) : Prog Bitmap Errno Unit := do
  let b ← get
  Prog.assert (index < b.nbits)
  Prog.assert (b.IsSet index)
  set (b.setWord (index / 8) (b.v (index / 8) &&& ~~~ mask (index % 8)))

end Bitmap

end Lib

end Os161
