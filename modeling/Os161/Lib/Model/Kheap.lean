import Os161.Common.Addr
import Os161.Common.Prog
import Os161.Common.Runs
import Mathlib.Logic.Function.Basic
/-!
# `kern/lib/kheap.c`

The allocator of the kernel. Its functions run with interrupts off from their
first access to its variables to the last one, so that each is one step. A
pointer to a `struct pageref` is its index in `pagerefs`, or nothing; memory is
read word by word. `assert(0)`, a failed assertion and a panic are `halt`.

What `alloc_kpages` returns is left open: the caller of `kmalloc` says what the
one call of it would give, 0 or the address of the pages. The pages it has
handed out and not been given back are part of the state.
-/

namespace Os161

namespace Kheap

/-- `PAGE_SIZE`. -/
def pageSize : ℕ := 4096

/-- `sizes`. -/
def sizes : List ℕ := [16, 32, 64, 128, 256, 512, 1024, 2048]

/-- `NSIZES`. -/
def nsizes : ℕ := 8

/-- `sizes[blktype]`. -/
def sizeOf (blktype : ℕ) : ℕ := sizes.getD blktype 0

/-- `LARGEST_SUBPAGE_SIZE`. -/
def largestSubpageSize : ℕ := 2048

/-- `NPAGEREFS`. -/
def npagerefs : ℕ := 256

/-- `INUSE_WORDS`. -/
def inuseWords : ℕ := 8

/-- `INVALID_OFFSET`. -/
def invalidOffset : ℕ := 0xffff

/-- `struct pageref`. -/
structure Pageref where
  nextSamesize : Option ℕ
  nextAll : Option ℕ
  pageaddrAndBlocktype : ℕ
  freelistOffset : ℕ
  nfree : ℕ
  deriving DecidableEq, Repr

namespace Pageref

/-- `PR_PAGEADDR`. -/
def pageaddr (pr : Pageref) : ℕ := pr.pageaddrAndBlocktype / pageSize * pageSize

/-- `PR_BLOCKTYPE`. -/
def blocktype (pr : Pageref) : ℕ := pr.pageaddrAndBlocktype % pageSize

end Pageref

/-- `MKPAB`. -/
def mkpab (pa blk : ℕ) : ℕ := pa / pageSize * pageSize + blk % pageSize

/-- The static variables of `kheap.c`, memory, and the pages that `alloc_kpages`
has handed out, each run with its address and its length. -/
structure Heap where
  pagerefs : ℕ → Pageref
  inuse : ℕ → BitVec 32
  sizebases : ℕ → Option ℕ
  allbase : Option ℕ
  mem : ℕ → ℕ
  kpages : List (ℕ × ℕ)

/-- Code of the kernel. -/
abbrev Kern : Type → Type := Prog Heap Empty

/-- An assignment to fields of a `struct pageref`. -/
def setPageref (pr : ℕ) (f : Pageref → Pageref) : Kern Unit :=
  modify fun h => { h with pagerefs := Function.update h.pagerefs pr (f (h.pagerefs pr)) }

/-- `fl->next = next`. -/
def setNext (fl next : ℕ) : Kern Unit :=
  modify fun h => { h with mem := Function.update h.mem fl next }

/-- `fill_deadbeef`. -/
def fillDeadbeef (ptr len : ℕ) : Kern Unit :=
  modify fun h => { h with mem := fun a => if ptr ≤ a ∧ a < ptr + len then 0xdeadbeef else h.mem a }

/-- `alloc_kpages`, which gives `page`. -/
def allocKpages (page npages : ℕ) : Kern ℕ := do
  if page = 0 then pure 0
  else do
    modify fun h => { h with kpages := (page, npages) :: h.kpages }
    pure page

/-- `free_kpages`. -/
def freeKpages (addr : ℕ) : Kern Unit :=
  modify fun h => { h with kpages := h.kpages.filter fun r => r.1 ≠ addr }

/-! ## The pagerefs -/

/-- The search for a clear bit in a word: `for (k=1,j=0; k!=0; k<<=1,j++)`. -/
def allocBit (i : ℕ) : ℕ → BitVec 32 → ℕ → Kern (Option ℕ)
  | 0, _, _ => Prog.halt
  | fuel + 1, k, j =>
    if k ≠ 0 then do
      let h ← get
      if h.inuse i &&& k = 0 then do
        set { h with inuse := Function.update h.inuse i (h.inuse i ||| k) }
        pure (some (i * 32 + j))
      else allocBit i fuel (k <<< 1) (j + 1)
    -- `assert(0)`
    else Prog.halt

/-- `allocpageref` from the word `i` on, with `n` words to go. -/
def allocpagerefFrom : ℕ → ℕ → Kern (Option ℕ)
  | 0, _ => pure none
  | n + 1, i => do
    let h ← get
    -- full
    if h.inuse i = BitVec.allOnes 32 then allocpagerefFrom n (i + 1) else allocBit i 33 1 0

/-- `allocpageref`. -/
def allocpageref : Kern (Option ℕ) := allocpagerefFrom inuseWords 0

/-- `freepageref`. -/
def freepageref (j : ℕ) : Kern Unit := do
  Prog.assert (j < npagerefs)
  let h ← get
  let k := (1 : BitVec 32) <<< (j % 32)
  Prog.assert (h.inuse (j / 32) &&& k ≠ 0)
  set { h with inuse := Function.update h.inuse (j / 32) (h.inuse (j / 32) &&& ~~~ k) }

/-! ## The two lists of a pageref -/

/-- A list that a pageref is on. -/
inductive Which where
  | samesize (blktype : ℕ)
  | all
  deriving DecidableEq, Repr

/-- The link of a pageref to the next one on a list. -/
def Pageref.next (pr : Pageref) : Which → Option ℕ
  | .samesize _ => pr.nextSamesize
  | .all => pr.nextAll

def Pageref.setNext (pr : Pageref) (q : Option ℕ) : Which → Pageref
  | .samesize _ => { pr with nextSamesize := q }
  | .all => { pr with nextAll := q }

namespace Heap

/-- `sizebases[blktype]`, or `allbase`. -/
def head (h : Heap) : Which → Option ℕ
  | .samesize b => h.sizebases b
  | .all => h.allbase

def setHead (h : Heap) (q : Option ℕ) : Which → Heap
  | .samesize b => { h with sizebases := Function.update h.sizebases b q }
  | .all => { h with allbase := q }

/-- `*guy`, where `guy` points to the head of a list or into a pageref. -/
def deref (h : Heap) (k : Which) : Option ℕ → Option ℕ
  | none => h.head k
  | some pr => (h.pagerefs pr).next k

/-- `*guy = q`. -/
def assign (h : Heap) (k : Which) (q : Option ℕ) : Option ℕ → Heap
  | none => h.setHead q k
  | some pr =>
    { h with pagerefs := Function.update h.pagerefs pr ((h.pagerefs pr).setNext q k) }

end Heap

/-- A loop of `remove_lists`. -/
def removeFrom (k : Which) (pr : ℕ) : ℕ → Option ℕ → Kern Unit
  | 0, _ => Prog.halt
  | fuel + 1, guy => do
    let h ← get
    match h.deref k guy with
    | none => pure ()
    | some q =>
      if q = pr then set (h.assign k ((h.pagerefs pr).next k) guy)
      else removeFrom k pr fuel (some q)

/-- `remove_lists`. -/
def removeLists (pr blktype : ℕ) : Kern Unit := do
  Prog.assert (blktype < nsizes)
  removeFrom (.samesize blktype) pr (npagerefs + 1) none
  removeFrom .all pr (npagerefs + 1) none

/-! ## `kmalloc` -/

/-- `blocktype`. -/
def blocktype (sz : ℕ) : Kern ℕ :=
  match sizes.findIdx? fun s => sz ≤ s with
  | some i => pure i
  | none => Prog.halt

/-- The search of `subpage_kmalloc` for a page with a free block. -/
def findPage (blktype : ℕ) : ℕ → Option ℕ → Kern (Option ℕ)
  | 0, _ => Prog.halt
  | _ + 1, none => pure none
  | fuel + 1, some pr => do
    let h ← get
    Prog.assert ((h.pagerefs pr).blocktype = blktype)
    if (h.pagerefs pr).nfree > 0 then pure (some pr)
    else findPage blktype fuel (h.pagerefs pr).nextSamesize

/-- `doalloc`: take the first block of the free list. -/
def doalloc (pr : ℕ) : Kern ℕ := do
  let h ← get
  Prog.assert ((h.pagerefs pr).freelistOffset < pageSize)
  let prpage := (h.pagerefs pr).pageaddr
  let fla := add32 prpage (h.pagerefs pr).freelistOffset
  let fl := h.mem fla
  let nfree := (h.pagerefs pr).nfree - 1
  setPageref pr fun c => { c with nfree := nfree }
  if fl ≠ 0 then do
    Prog.assert (nfree > 0)
    Prog.assert (sub32 fl prpage < pageSize)
    setPageref pr fun c => { c with freelistOffset := sub32 fl prpage % 2 ^ 16 }
  else do
    Prog.assert (nfree = 0)
    setPageref pr fun c => { c with freelistOffset := invalidOffset }
  pure fla

/-- The loop that links the blocks of a new page, from block `i` on, with `n`
blocks to go. -/
def carve (fla size : ℕ) : ℕ → ℕ → Kern Unit
  | 0, _ => pure ()
  | n + 1, i => do
    let fl := add32 fla (i * size)
    let next := add32 fla ((i - 1) * size)
    setNext fl next
    Prog.assert (fl ≠ next)
    carve fla size n (i + 1)

/-- Make a new page of blocks. -/
def newPage (pr prpage blktype : ℕ) : Kern Unit := do
  let nfree := pageSize / sizeOf blktype
  setPageref pr fun c => { c with pageaddrAndBlocktype := mkpab prpage blktype, nfree := nfree }
  setNext prpage 0
  carve prpage (sizeOf blktype) (nfree - 1) 1
  let offset := sub32 (add32 prpage ((nfree - 1) * sizeOf blktype)) prpage % 2 ^ 16
  setPageref pr fun c => { c with freelistOffset := offset }
  Prog.assert (offset = (nfree - 1) * sizeOf blktype)
  let h ← get
  setPageref pr fun c => { c with nextSamesize := h.sizebases blktype, nextAll := h.allbase }
  modify fun h => { h with
    sizebases := Function.update h.sizebases blktype (some pr)
    allbase := some pr }

/-- `subpage_kmalloc`; `page` is what `alloc_kpages` gives. -/
def subpageKmalloc (page sz : ℕ) : Kern ℕ := do
  let blktype ← blocktype sz
  let h ← get
  match ← findPage blktype (npagerefs + 1) (h.sizebases blktype) with
  | some pr => doalloc pr
  | none =>
    match ← allocpageref with
    -- no accounting space for the new page
    | none => pure 0
    | some pr => do
      let prpage ← allocKpages page 1
      -- out of memory
      if prpage = 0 then do
        freepageref pr
        pure 0
      else do
        newPage pr prpage blktype
        doalloc pr

/-- The number of pages of a large allocation. -/
def npages (sz : ℕ) : ℕ := add32 sz (pageSize - 1) / pageSize

/-- `kmalloc`. -/
def kmalloc (page sz : ℕ) : Kern ℕ :=
  if sz ≥ largestSubpageSize then allocKpages page (npages sz) else subpageKmalloc page sz

/-! ## `kfree` -/

/-- The search of `subpage_kfree` for the page of a block. -/
def findOwner (ptraddr : ℕ) : ℕ → Option ℕ → Kern (Option ℕ)
  | 0, _ => Prog.halt
  | _ + 1, none => pure none
  | fuel + 1, some pr => do
    let h ← get
    let prpage := (h.pagerefs pr).pageaddr
    Prog.assert ((h.pagerefs pr).blocktype < nsizes)
    if ptraddr ≥ prpage ∧ ptraddr < add32 prpage pageSize then pure (some pr)
    else findOwner ptraddr fuel (h.pagerefs pr).nextAll

/-- `subpage_kfree`, and whether the block was on one of its pages. -/
def subpageKfree (ptraddr : ℕ) : Kern Bool := do
  let h ← get
  match ← findOwner ptraddr (npagerefs + 1) h.allbase with
  | none => pure false
  | some pr => do
    let prpage := (h.pagerefs pr).pageaddr
    let blktype := (h.pagerefs pr).blocktype
    let offset := sub32 ptraddr prpage
    -- `panic("kfree: subpage free of invalid addr")`
    Prog.assert (¬ (offset ≥ pageSize ∨ offset % sizeOf blktype ≠ 0))
    fillDeadbeef ptraddr (sizeOf blktype)
    setNext (add32 prpage offset) (if (h.pagerefs pr).freelistOffset = invalidOffset then 0
      else add32 prpage (h.pagerefs pr).freelistOffset)
    let nfree := (h.pagerefs pr).nfree + 1
    setPageref pr fun c => { c with freelistOffset := offset % 2 ^ 16, nfree := nfree }
    Prog.assert (nfree ≤ pageSize / sizeOf blktype)
    if nfree = pageSize / sizeOf blktype then do
      -- the whole page is free
      removeLists pr blktype
      freeKpages prpage
      freepageref pr
      pure true
    else pure true

/-- `kfree`. -/
def kfree (ptr : ℕ) : Kern Unit :=
  if ptr = 0 then pure ()
  else do
    if ← subpageKfree ptr then pure ()
    else do
      Prog.assert (ptr % pageSize = 0)
      freeKpages ptr

/-! ## The kernel that uses the heap -/

/-- The heap with what has been allocated and not freed: pointers, each with the
number of bytes that were asked for. -/
structure Kernel where
  heap : Heap
  live : List (ℕ × ℕ)

/-- What the kernel does. -/
inductive Event where
  | kmalloc (sz page : ℕ)
  | kfree (p : ℕ)
  /-- It writes a word. -/
  | write (a w : ℕ)

/-- The number of pages that `kmalloc(sz)` asks `alloc_kpages` for. -/
def pagesFor (sz : ℕ) : ℕ := if sz ≥ largestSubpageSize then npages sz else 1

/-- The length of the block that `kmalloc(sz)` gives. -/
def blockLen (sz : ℕ) : ℕ :=
  if sz ≥ largestSubpageSize then npages sz * pageSize
  else (sizes.find? fun s => sz ≤ s).getD 0

/-- Two stretches of memory do not overlap. -/
def Apart (a m b n : ℕ) : Prop := a + m ≤ b ∨ b + n ≤ a
  deriving Decidable

/-- `n` fresh pages at `page`: they are aligned, they end below the end of the
address space, and none of them has been handed out. -/
def FreshPages (ks : List (ℕ × ℕ)) (page n : ℕ) : Prop :=
  0 < page ∧ page % pageSize = 0 ∧ page + n * pageSize < 2 ^ 32 ∧
    ∀ r ∈ ks, Apart page (n * pageSize) r.1 (r.2 * pageSize)

/-- The kernel asks for no size that wraps around, gets fresh pages, frees what
it has allocated, and writes there or outside of the pages of the heap. -/
def Allowed (s : Kernel) : Event → Prop
  | .kmalloc sz page =>
    sz + (pageSize - 1) < 2 ^ 32 ∧ (page = 0 ∨ FreshPages s.heap.kpages page (pagesFor sz))
  | .kfree p => p = 0 ∨ ∃ sz, (p, sz) ∈ s.live
  | .write a _ => (∃ p sz, (p, sz) ∈ s.live ∧ p ≤ a ∧ a < p + blockLen sz) ∨
    ∀ r ∈ s.heap.kpages, a < r.1 ∨ r.1 + r.2 * pageSize ≤ a

instance (ks : List (ℕ × ℕ)) (page n : ℕ) : Decidable (FreshPages ks page n) :=
  inferInstanceAs (Decidable (_ ∧ _ ∧ _ ∧ _))

instance (s : Kernel) : DecidablePred (Allowed s) := fun e =>
  match e with
  | .kmalloc sz page => inferInstanceAs (Decidable (sz + (pageSize - 1) < 2 ^ 32 ∧
      (page = 0 ∨ FreshPages s.heap.kpages page (pagesFor sz))))
  | .kfree p => decidable_of_iff (p = 0 ∨ ∃ l ∈ s.live, l.1 = p) (by simp [Allowed])
  | .write a _ => decidable_of_iff ((∃ l ∈ s.live, l.1 ≤ a ∧ a < l.1 + blockLen l.2) ∨
      ∀ r ∈ s.heap.kpages, a < r.1 ∨ r.1 + r.2 * pageSize ≤ a) (by simp [Allowed])

/-- One step; `none` where the kernel panics. -/
def Kernel.step (s : Kernel) : Event → Option Kernel
  | .kmalloc sz page =>
    match kmalloc page sz s.heap with
    | .ok p h => some ⟨h, if p = 0 then s.live else (p, sz) :: s.live⟩
    | .error _ _ => none
  | .kfree p =>
    match kfree p s.heap with
    | .ok _ h => some ⟨h, s.live.filter fun l => l.1 ≠ p⟩
    | .error _ _ => none
  | .write a w => some { s with heap := { s.heap with mem := Function.update s.heap.mem a w } }

/-- The heap before the first call: its variables are in the BSS. -/
def Kernel.start (mem : ℕ → ℕ) : Kernel where
  heap :=
    { pagerefs := fun _ => ⟨none, none, 0, 0, 0⟩
      inuse := fun _ => 0
      sizebases := fun _ => none
      allbase := none
      mem := mem
      kpages := [] }
  live := []

end Kheap

end Os161
