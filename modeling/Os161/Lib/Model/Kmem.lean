import Os161.Lib.Model.Kheap
import Os161.Vm.Model.Ram
/-!
# The kernel's memory

`kmalloc` with the `alloc_kpages` it calls: the heap of `kheap.c` above, the
physical memory of `ram.c` below. Address spaces take pages from the same memory
through `getppages`.
-/

namespace Os161

namespace Kheap

/-- Physical memory and the heap. -/
structure Memory where
  ram : Vm.Ram
  kernel : Kernel

/-- What is asked of memory. -/
inductive Request where
  | kmalloc (sz : UInt32)
  | kfree (p : ℕ)
  | write (a w : ℕ)
  /-- Pages for something else than the heap. -/
  | getppages (npages : UInt32)

namespace Memory

/-- The pages that `kmalloc(sz)` asks `alloc_kpages` for, if it calls it. -/
def pagesAsked (sz : UInt32) : UInt32 := if sz ≥ 2048 then Vm.kmallocNpages sz else 1

/-- `kmalloc`: what it returns, and memory afterwards; `none` where the kernel
panics. Physical memory has changed if pages have come to the heap. -/
def kmalloc (w : Memory) (sz : UInt32) : Option (ℕ × Memory) :=
  let alloc := Vm.allocKpages w.ram (pagesAsked sz)
  match Kheap.kmalloc alloc.1.toNat sz.toNat w.kernel.heap with
  | .ok p h => some (p,
      { ram := if h.kpages = w.kernel.heap.kpages then w.ram else alloc.2
        kernel := ⟨h, if p = 0 then w.kernel.live else (p, sz.toNat) :: w.kernel.live⟩ })
  | .error _ _ => none

/-- One request. -/
def step (w : Memory) : Request → Option Memory
  | .kmalloc sz => (w.kmalloc sz).map Prod.snd
  | .kfree p => (w.kernel.step (.kfree p)).map fun k => { w with kernel := k }
  | .write a v => (w.kernel.step (.write a v)).map fun k => { w with kernel := k }
  | .getppages npages => some { w with ram := (Vm.getppages w.ram npages).2 }

/-- Memory after `ram_bootstrap`. -/
def start (ramsize firstfree : UInt32) (mem : ℕ → ℕ) : Memory where
  ram := Vm.ramBootstrap ramsize firstfree
  kernel := Kernel.start mem

end Memory

end Kheap

end Os161
