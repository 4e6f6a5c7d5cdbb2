import Os161.Common.Addr
import Os161.Common.Prog
import Os161.Common.Runs
import Mathlib.Logic.Function.Basic
/-!
# `lib/libc/malloc.c`

The allocator of user programs, on the machine with 32-bit words. Memory is
read in cells of `MBLOCKSIZE` bytes, each of which is a `struct mheader` if it
is read as one. Addresses and sizes are natural numbers, and every sum and
difference of the source is taken modulo `2 ^ 32`.

What `sbrk` grants is left open: it returns the old break, and the break moves,
or it returns `-1`.
-/

namespace Os161

namespace Libc

/-- `struct mheader`. The offsets to the neighbours count in cells, and have 29
bits; `mh_inuse` and `mh_pad` have one bit, the magics two. -/
structure Mheader where
  prevblock : ℕ
  pad : ℕ
  magic1 : ℕ
  nextblock : ℕ
  inuse : ℕ
  magic2 : ℕ
  deriving DecidableEq, Repr

/-- `MBLOCKSIZE`. -/
def mblocksize : ℕ := 8

/-- `MMAGIC`. -/
def mmagic : ℕ := 2

namespace Mheader

/-- `M_NEXTOFF`. -/
def nextOff (mh : Mheader) : ℕ := mh.nextblock * mblocksize

/-- `M_PREVOFF`. -/
def prevOff (mh : Mheader) : ℕ := mh.prevblock * mblocksize

/-- `M_SIZE`. -/
def size (mh : Mheader) : ℕ := sub32 mh.nextOff mblocksize

/-- `M_OK`. -/
def Ok (mh : Mheader) : Prop := mh.magic1 = mmagic ∧ mh.magic2 = mmagic
  deriving Decidable

/-- A cell of two words `0xdeadbeef`. -/
def deadbeef : Mheader := ⟨0xdeadbeef / 8, 1, 3, 0xdeadbeef / 8, 1, 3⟩

end Mheader

/-- `M_MKFIELD`. -/
def mkfield (off : ℕ) : ℕ := off / mblocksize

/-- What `malloc` and `free` call `err` and `errx` for. -/
inductive Exit where
  | badInit
  | initialSbrk
  | heapAtZero
  | alignSbrk
  | baseMoved
  | topMoved
  | splitSize
  | splitScrewedUp
  | localData
  | badMagic
  | badPrevblock
  | ranOffEnd
  | inconsistent
  | outOfRange
  | corruptHeader
  | alreadyFree
  deriving DecidableEq, Repr

/-- The static variables of `malloc.c`, memory, and the break that the kernel
keeps. -/
structure Heap where
  heapbase : ℕ
  heaptop : ℕ
  brk : ℕ
  mem : ℕ → Mheader

/-- Code of a user program. -/
abbrev User : Type → Type := Prog Heap Exit

/-- `(void *)-1`. -/
def minusOne : ℕ := 2 ^ 32 - 1

/-- `sbrk`, and whether the kernel grants it. -/
def sbrk (granted : Bool) (amount : ℕ) : User ℕ := do
  let h ← get
  if granted ∧ h.brk + amount < 2 ^ 32 then do
    set { h with brk := h.brk + amount }
    pure h.brk
  else pure minusOne

/-- An assignment to fields of the header at `mh`. -/
def setHeader (mh : ℕ) (f : Mheader → Mheader) : User Unit :=
  modify fun h => { h with mem := Function.update h.mem mh (f (h.mem mh)) }

/-- `M_NEXT`. -/
def Heap.next (h : Heap) (mh : ℕ) : ℕ := add32 mh (h.mem mh).nextOff

/-- `M_PREV`. -/
def Heap.prev (h : Heap) (mh : ℕ) : ℕ := sub32 mh (h.mem mh).prevOff

/-- `M_DATA`. -/
def mData (mh : ℕ) : ℕ := add32 mh mblocksize

/-- `__malloc_init`; the tests of the constants are left out. -/
def mallocInit (granted : ℕ → Bool) : User Unit := do
  let h ← get
  Prog.failIf (h.heapbase ≠ 0 ∨ h.heaptop ≠ 0) .badInit
  let x ← sbrk (granted 0) 0
  Prog.failIf (x = minusOne) .initialSbrk
  Prog.failIf (x = 0) .heapAtZero
  modify fun h => { h with heapbase := x, heaptop := x }
  if x % mblocksize ≠ 0 then do
    let adjust := mblocksize - x % mblocksize
    let y ← sbrk (granted 1) adjust
    Prog.failIf (y = minusOne) .alignSbrk
    Prog.failIf (y ≠ x) .baseMoved
    modify fun h => { h with heapbase := add32 x adjust, heaptop := add32 x adjust }
  else pure ()

/-- `__malloc_sbrk`. -/
def mallocSbrk (granted : Bool) (size : ℕ) : User ℕ := do
  let x ← sbrk granted size
  if x = minusOne then pure 0
  else do
    let h ← get
    Prog.failIf (x ≠ h.heaptop) .topMoved
    set { h with heaptop := add32 h.heaptop size }
    pure x

/-- `__malloc_split`. -/
def mallocSplit (mh size : ℕ) : User Unit := do
  Prog.failIf (size % mblocksize ≠ 0) .splitSize
  let h ← get
  -- no room
  if sub32 (h.mem mh).size size < 2 * mblocksize then pure ()
  else do
    let mhnext := h.next mh
    let oldsize := (h.mem mh).size
    setHeader mh fun c => { c with nextblock := mkfield (add32 size mblocksize) }
    let h ← get
    let mhnew := h.next mh
    Prog.failIf (mhnew = mhnext) .splitScrewedUp
    setHeader mhnew fun _ =>
      { prevblock := mkfield (add32 size mblocksize), pad := 0, magic1 := mmagic,
        nextblock := mkfield (sub32 oldsize size), inuse := 0, magic2 := mmagic }
    let h ← get
    if mhnext ≠ h.heaptop then
      setHeader mhnext fun c => { c with prevblock := (h.mem mhnew).nextblock }
    else pure ()

/-- The first-fit search of `malloc` from the header at `i` on: the header that
it stops at, or where it runs to with the last `rightprevblock`. -/
def findFrom (size : ℕ) : ℕ → ℕ → ℕ → User (ℕ ⊕ ℕ × ℕ)
  | 0, _, _ => Prog.halt
  | fuel + 1, i, rightprevblock => do
    let h ← get
    if i < h.heaptop then do
      let mh := h.mem i
      Prog.failIf (¬ mh.Ok) .badMagic
      Prog.failIf (mh.prevblock ≠ rightprevblock) .badPrevblock
      if mh.inuse ≠ 0 ∨ mh.size < size then findFrom size fuel (add32 i mh.nextOff) mh.nextblock
      else pure (.inl i)
    else pure (.inr (i, rightprevblock))

/-- `malloc` behind the call of `__malloc_init`. -/
def mallocInited (granted : ℕ → Bool) (size : ℕ) : User ℕ := do
  let h ← get
  Prog.failIf (h.heapbase = 0 ∨ h.heaptop = 0 ∨ h.heapbase > h.heaptop) .localData
  let size := add32 size (mblocksize - 1) / mblocksize * mblocksize
  match ← findFrom size (2 ^ 32) h.heapbase 0 with
  | .inl mh => do
    mallocSplit mh size
    setHeader mh fun c => { c with inuse := 1 }
    pure (mData mh)
  | .inr (i, rightprevblock) => do
    let h ← get
    Prog.failIf (i ≠ h.heaptop) .ranOffEnd
    let mh ← mallocSbrk (granted 2) (add32 size mblocksize)
    if mh = 0 then pure 0
    else do
      setHeader mh fun _ =>
        { prevblock := rightprevblock, pad := 0, magic1 := mmagic,
          nextblock := mkfield (add32 size mblocksize), inuse := 1, magic2 := mmagic }
      pure (mData mh)

/-- `malloc`; `granted` tells of its calls of `sbrk`. -/
def malloc (granted : ℕ → Bool) (size : ℕ) : User ℕ := do
  let h ← get
  if h.heapbase = 0 then do
    mallocInit granted
    mallocInited granted size
  else mallocInited granted size

/-- `__malloc_deadbeef`. -/
def mallocDeadbeef (ptr size : ℕ) : User Unit :=
  modify fun h => { h with mem := fun a => if ptr ≤ a ∧ a < ptr + size then .deadbeef else h.mem a }

/-- `__malloc_trymerge`. -/
def mallocTrymerge (mh mhnext : ℕ) : User Unit := do
  let h ← get
  Prog.failIf ((h.mem mh).nextblock ≠ (h.mem mhnext).prevblock) .inconsistent
  -- can't merge
  if (h.mem mh).inuse ≠ 0 ∨ (h.mem mhnext).inuse ≠ 0 then pure ()
  else do
    let mhnextnext := h.next mhnext
    setHeader mh fun c => { c with nextblock := mkfield (add32 (add32 (add32 mblocksize c.size)
      mblocksize) (h.mem mhnext).size) }
    let h ← get
    if mhnextnext ≠ h.heaptop then
      setHeader mhnextnext fun c => { c with prevblock := (h.mem mh).nextblock }
    else pure ()
    mallocDeadbeef mhnext mblocksize

/-- Try merging with the block above (but not if we're at the top). -/
def mergeAbove (mh : ℕ) : User Unit := do
  let h ← get
  if h.next mh ≠ h.heaptop then mallocTrymerge mh (h.next mh) else pure ()

/-- Try merging with the block below (but not if we're at the bottom). -/
def mergeBelow (mh : ℕ) : User Unit := do
  let h ← get
  if mh ≠ h.heapbase then mallocTrymerge (h.prev mh) mh else pure ()

/-- `free`. -/
def free (x : ℕ) : User Unit :=
  if x = 0 then pure ()
  else do
    let h ← get
    Prog.failIf (h.heapbase = 0 ∨ h.heaptop = 0 ∨ h.heapbase > h.heaptop) .localData
    Prog.failIf (x < h.heapbase ∨ x ≥ h.heaptop) .outOfRange
    let mh := sub32 x mblocksize
    Prog.failIf (¬ (h.mem mh).Ok) .corruptHeader
    Prog.failIf ((h.mem mh).inuse = 0) .alreadyFree
    setHeader mh fun c => { c with inuse := 0 }
    mallocDeadbeef (mData mh) (h.mem mh).size
    mergeAbove mh
    mergeBelow mh

/-! ## Programs that use the heap -/

/-- A program with what it has allocated and not freed: pointers, each with the
number of bytes it asked for. -/
structure Program where
  heap : Heap
  live : List (ℕ × ℕ)

/-- What a program does. -/
inductive Event where
  | malloc (n : ℕ) (granted : ℕ → Bool)
  | free (p : ℕ)
  /-- It writes to a cell. -/
  | write (a : ℕ) (c : Mheader)

/-- How many bytes `malloc(n)` needs after rounding. -/
def roundUp (n : ℕ) : ℕ := (n + 7) / 8 * 8

/-- A program asks for at least one byte and for no size that wraps around, and
it frees and writes what it has. -/
def Allowed (s : Program) : Event → Prop
  | .malloc n _ => 1 ≤ n ∧ roundUp n + 8 < 2 ^ 32
  | .free p => p = 0 ∨ ∃ n, (p, n) ∈ s.live
  | .write a _ => a % 8 = 0 ∧ ∃ p n, (p, n) ∈ s.live ∧ p ≤ a ∧ a < p + roundUp n

instance (s : Program) : DecidablePred (Allowed s) := fun e =>
  match e with
  | .malloc n _ => inferInstanceAs (Decidable (1 ≤ n ∧ roundUp n + 8 < 2 ^ 32))
  | .free p => decidable_of_iff (p = 0 ∨ ∃ l ∈ s.live, l.1 = p) (by simp [Allowed])
  | .write a _ => decidable_of_iff (a % 8 = 0 ∧ ∃ l ∈ s.live, l.1 ≤ a ∧ a < l.1 + roundUp l.2)
      (by simp [Allowed])

/-- One step of a program; `none` where it exits. -/
def Program.step (s : Program) : Event → Option Program
  | .malloc n granted =>
    match malloc granted n s.heap with
    | .ok p h => some ⟨h, if p = 0 then s.live else (p, n) :: s.live⟩
    | .error _ _ => none
  | .free p =>
    match free p s.heap with
    | .ok _ h => some ⟨h, s.live.filter fun l => l.1 ≠ p⟩
    | .error _ _ => none
  | .write a c => some { s with heap := { s.heap with mem := Function.update s.heap.mem a c } }

/-- A program that has not called `malloc` yet. -/
def Program.start (brk : ℕ) (mem : ℕ → Mheader) : Program := ⟨⟨0, 0, brk, mem⟩, []⟩

end Libc

end Os161
