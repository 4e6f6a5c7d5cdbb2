import Mathlib.Data.Set.Lattice
import Mathlib.Algebra.Group.Nat.Defs
import Mathlib.Order.CompletePartialOrder
import Mathlib.Order.Interval.Set.Disjoint
/-!
# The physical page allocator

`kern/arch/mips/mips/ram.c`, with the two routes by which a page count
reaches it: `getppages`/`alloc_kpages` of `kern/vm/addrspace.c` and the
large-block branch of `kmalloc` in `kern/lib/kheap.c`. Every quantity is
the `u_int32_t` of the source, so sums and products wrap at `2 ^ 32` as
they do there.
-/

namespace Os161

namespace Vm

/-- `PAGE_SIZE`. -/
def pageSize : UInt32 := 4096

/-- `MIPS_KSEG0`, where physical memory is mapped for the kernel. -/
def mipsKseg0 : UInt32 := 0x80000000

/-- `USERTOP`: the first address that is not a user address. -/
def userTop : UInt32 := mipsKseg0

/-- `PADDR_TO_KVADDR`. -/
def paddrToKvaddr (paddr : UInt32) : UInt32 := paddr + mipsKseg0

/-- The two static variables of `ram.c`: the first free physical address
and one past the last. -/
structure Ram where
  firstpaddr : UInt32
  lastpaddr : UInt32
  deriving DecidableEq, Repr

/-- `ram_bootstrap`, given what `mips_ramsize` reports and the `firstfree`
that `start.S` saved. -/
def ramBootstrap (ramsize firstfree : UInt32) : Ram where
  firstpaddr := firstfree - mipsKseg0
  lastpaddr := if ramsize > 508 * 1024 * 1024 then 508 * 1024 * 1024 else ramsize

/-- `ram_stealmem`: the address handed back, `0` for a refusal, and the
allocator afterwards. -/
def ramStealmem (r : Ram) (npages : UInt32) : UInt32 × Ram :=
  let size := npages * pageSize
  if r.firstpaddr + size > r.lastpaddr then (0, r)
  else (r.firstpaddr, { r with firstpaddr := r.firstpaddr + size })

/-- `getppages`: `ram_stealmem` with interrupts off. -/
def getppages (r : Ram) (npages : UInt32) : UInt32 × Ram := ramStealmem r npages

/-- `alloc_kpages`: a refusal stays `0`, anything else becomes a kernel
virtual address. -/
def allocKpages (r : Ram) (npages : UInt32) : UInt32 × Ram :=
  let pa := (getppages r npages).1
  (if pa = 0 then 0 else paddrToKvaddr pa, (getppages r npages).2)

/-- The page count `kmalloc` asks `alloc_kpages` for when `sz` is too large
for the subpage allocator. -/
def kmallocNpages (sz : UInt32) : UInt32 := (sz + pageSize - 1) / pageSize

/-! ## Runs of requests -/

/-- One request of a run: what was asked, what came back, and the
allocator on either side. -/
structure Steal where
  npages : UInt32
  paddr : UInt32
  before : Ram
  after : Ram

/-- The bytes a request stands for, with no wraparound anywhere. -/
def Steal.range (t : Steal) : Set ℕ :=
  Set.Ico t.paddr.toNat (t.paddr.toNat + t.npages.toNat * 4096)

/-- The requests `ns`, made one after the other. -/
def steals : Ram → List UInt32 → List Steal
  | _, [] => []
  | r, n :: ns =>
    ⟨n, (ramStealmem r n).1, r, (ramStealmem r n).2⟩ :: steals (ramStealmem r n).2 ns

/-- **Physical memory is handed out at most once** along the run: every
block handed back lies in the memory there was at the start, two blocks
never share a byte, and the free pointer only moves up. -/
structure HandsOutOnce (r : Ram) (ns : List UInt32) : Prop where
  inRange : ∀ t ∈ steals r ns, t.paddr ≠ 0 →
    t.range ⊆ Set.Ico r.firstpaddr.toNat r.lastpaddr.toNat
  disjoint : (steals r ns).Pairwise fun t u =>
    t.paddr ≠ 0 → u.paddr ≠ 0 → Disjoint t.range u.range
  mono : ∀ t ∈ steals r ns, t.before.firstpaddr ≤ t.after.firstpaddr

/-- The overflow test of `ram_stealmem` means what it says for this
request: the sum it compares did not wrap, or it wrapped to a value that
is refused all the same. -/
def Ram.Measures (r : Ram) (npages : UInt32) : Prop :=
  r.firstpaddr.toNat + npages.toNat * 4096 < 2 ^ 32 ∨
    r.lastpaddr.toNat < (r.firstpaddr.toNat + npages.toNat * 4096) % 2 ^ 32

instance (r : Ram) (npages : UInt32) : Decidable (r.Measures npages) :=
  inferInstanceAs (Decidable (_ ∨ _))

end Vm

end Os161
