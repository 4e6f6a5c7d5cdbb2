import Os161.Vm.Model.Ram
import Os161.Lib.Model.Errno
import Mathlib.Logic.Function.Basic
/-!
# Address spaces

The part of `kern/vm/addrspace.c` that is compiled: `struct addrspace`, the
functions that make, fill and copy one, and the page fault handler with the
TLB it loads. Addresses are the `u_int32_t` of the source throughout.

The blocks that `as_create` obtains from `kmalloc` are kept in a `Heap`. An
address can be handed out again once it has been freed, so a block also
carries the number of the allocation that made it: a pointer to a freed
block is told from a pointer to a later block at the same address.
-/

namespace Os161

namespace Vm

/-- `PAGE_FRAME`: the mask that leaves the page of an address. -/
def pageFrame : UInt32 := 0xfffff000

/-- The offset of an address in its page. -/
def pageOffset (a : UInt32) : UInt32 := a &&& ~~~pageFrame

/-- `DUMBVM_STACKPAGES`. -/
def dumbvmStackpages : UInt32 := 12

/-- `USERSTACK`. -/
def userStack : UInt32 := userTop

/-- `NUM_TLB`. -/
def numTlb : ℕ := 64

/-- Physical memory. -/
abbrev Memory := UInt32 → UInt8

/-- `memmove` between two physical addresses, as the kernel sees them
through `PADDR_TO_KVADDR`. -/
def memmove (mem : Memory) (dst src len : UInt32) : Memory :=
  fun a => if a - dst < len then mem (src + (a - dst)) else mem a

/-- `struct addrspace`: two regions, each a run of pages at a virtual base
over a run of frames, and the frames of the stack. -/
structure AddrSpace where
  vbase1 : UInt32
  pbase1 : UInt32
  npages1 : UInt32
  vbase2 : UInt32
  pbase2 : UInt32
  npages2 : UInt32
  stackpbase : UInt32
  deriving DecidableEq, Repr

/-- What `as_create` stores in a new block. -/
def AddrSpace.zero : AddrSpace := ⟨0, 0, 0, 0, 0, 0, 0⟩

/-- `as_define_region`; every page is readable, writeable and executable, so
the three flags are not kept. -/
def asDefineRegion (as : AddrSpace) (vaddr sz : UInt32) : Except Errno AddrSpace :=
  let sz := sz + pageOffset vaddr
  let vaddr := vaddr &&& pageFrame
  let sz := (sz + pageSize - 1) &&& pageFrame
  let npages := sz / pageSize
  if as.vbase1 = 0 then .ok { as with vbase1 := vaddr, npages1 := npages }
  else if as.vbase2 = 0 then .ok { as with vbase2 := vaddr, npages2 := npages }
  else .error .EUNIMP

/-- `as_prepare_load`: `none` where one of its assertions fails, otherwise
whether it ran out of memory, with the address space and the allocator as
it leaves them. -/
def asPrepareLoad (as : AddrSpace) (r : Ram) : Option (Option Errno × AddrSpace × Ram) :=
  if as.pbase1 = 0 ∧ as.pbase2 = 0 ∧ as.stackpbase = 0 then
    let g₁ := getppages r as.npages1
    if g₁.1 = 0 then some (some .ENOMEM, { as with pbase1 := g₁.1 }, g₁.2) else
    let g₂ := getppages g₁.2 as.npages2
    if g₂.1 = 0 then some (some .ENOMEM, { as with pbase1 := g₁.1, pbase2 := g₂.1 }, g₂.2) else
    let g₃ := getppages g₂.2 dumbvmStackpages
    some (if g₃.1 = 0 then some .ENOMEM else none,
      { as with pbase1 := g₁.1, pbase2 := g₂.1, stackpbase := g₃.1 }, g₃.2)
  else none

/-- The three `memmove`s of `as_copy`. -/
def copyFrames (old new : AddrSpace) (mem : Memory) : Memory :=
  let mem := memmove mem new.pbase1 old.pbase1 (old.npages1 * pageSize)
  let mem := memmove mem new.pbase2 old.pbase2 (old.npages2 * pageSize)
  memmove mem new.stackpbase old.stackpbase (dumbvmStackpages * pageSize)

/-! ## The page fault -/

/-- The assertions at the head of `vm_fault`. -/
def AddrSpace.SetUp (as : AddrSpace) : Prop :=
  as.vbase1 ≠ 0 ∧ as.pbase1 ≠ 0 ∧ as.npages1 ≠ 0 ∧
  as.vbase2 ≠ 0 ∧ as.pbase2 ≠ 0 ∧ as.npages2 ≠ 0 ∧ as.stackpbase ≠ 0 ∧
  as.vbase1 &&& pageFrame = as.vbase1 ∧ as.pbase1 &&& pageFrame = as.pbase1 ∧
  as.vbase2 &&& pageFrame = as.vbase2 ∧ as.pbase2 &&& pageFrame = as.pbase2 ∧
  as.stackpbase &&& pageFrame = as.stackpbase

instance (as : AddrSpace) : Decidable as.SetUp :=
  inferInstanceAs (Decidable (_ ∧ _))

/-- The three runs of frames of an address space. -/
inductive Part where
  | one | two | stack
  deriving DecidableEq, Repr

/-- The virtual base of a part; `stackbase` is a constant. -/
def AddrSpace.vbase (as : AddrSpace) : Part → UInt32
  | .one => as.vbase1
  | .two => as.vbase2
  | .stack => userStack - dumbvmStackpages * pageSize

/-- The physical base of a part. -/
def AddrSpace.pbase (as : AddrSpace) : Part → UInt32
  | .one => as.pbase1
  | .two => as.pbase2
  | .stack => as.stackpbase

/-- The number of pages of a part. -/
def AddrSpace.npages (as : AddrSpace) : Part → UInt32
  | .one => as.npages1
  | .two => as.npages2
  | .stack => dumbvmStackpages

/-- The `if` chain of `vm_fault`: the part that a page belongs to. Parts may
overlap, and then the first one counts. -/
def AddrSpace.part (as : AddrSpace) (faultaddress : UInt32) : Option Part :=
  let vtop1 := as.vbase1 + as.npages1 * pageSize
  let vtop2 := as.vbase2 + as.npages2 * pageSize
  let stackbase := userStack - dumbvmStackpages * pageSize
  if faultaddress ≥ as.vbase1 ∧ faultaddress < vtop1 then some .one
  else if faultaddress ≥ as.vbase2 ∧ faultaddress < vtop2 then some .two
  else if faultaddress ≥ stackbase ∧ faultaddress < userStack then some .stack
  else none

/-- The frame that the `if` chain computes for a page. -/
def AddrSpace.frame (as : AddrSpace) (faultaddress : UInt32) : Option UInt32 :=
  (as.part faultaddress).map fun i => (faultaddress - as.vbase i) + as.pbase i

/-- The valid entries of the TLB: pairs of a page and its frame. -/
abbrev Tlb := List (UInt32 × UInt32)

/-- The kinds of fault that `mips_trap` passes to `vm_fault`. -/
inductive FaultType where
  | readonly | read | write
  deriving DecidableEq, Repr

/-- What `vm_fault` does: it loads an entry for the page, or returns an
error, or panics. -/
inductive Fault where
  | loaded (paddr : UInt32) (tlb : Tlb)
  | fails (e : Errno)
  | panics
  deriving DecidableEq, Repr

/-- `vm_fault`, for the address space that `curthread->t_vmspace` points to,
`none` where that is `NULL`. -/
def vmFault (as : Option AddrSpace) (tlb : Tlb) (faulttype : FaultType)
    (faultaddress : UInt32) : Fault :=
  let faultaddress := faultaddress &&& pageFrame
  if faulttype = .readonly then .panics else
  match as with
  | none => .fails .EFAULT
  | some as =>
    if ¬ as.SetUp then .panics else
    match as.frame faultaddress with
    | none => .fails .EFAULT
    | some paddr =>
      if paddr &&& pageFrame ≠ paddr then .panics
      -- the loop over the slots looks for one that is not valid
      else if tlb.length < numTlb then .loaded paddr ((faultaddress, paddr) :: tlb)
      else .fails .EFAULT

/-- **The translation of `vm_fault`**, TLB slots apart: the frame of a page
in an address space that passes the assertions. -/
def AddrSpace.maps (as : AddrSpace) (page : UInt32) : Option UInt32 :=
  if as.SetUp then as.frame page else none

/-- The physical address that a user address stands for. -/
def AddrSpace.translate (as : AddrSpace) (va : UInt32) : Option UInt32 :=
  (as.maps (va &&& pageFrame)).map (· + pageOffset va)

/-- The bytes of memory that an address space translates to. -/
def AddrSpace.frames (as : AddrSpace) : Set UInt32 := {pa | ∃ va, as.translate va = some pa}

/-! ## The blocks of `as_create` -/

/-- The blocks that `as_create` has obtained and nobody has freed, each with
the number of its allocation. -/
structure Heap where
  blocks : UInt32 → Option (ℕ × AddrSpace)
  next : ℕ
  null : blocks 0 = none
  lt_next : ∀ p n as, blocks p = some (n, as) → n < next
  inj : ∀ p q n as as', blocks p = some (n, as) → blocks q = some (n, as') → p = q

namespace Heap

/-- No block at all. -/
def empty : Heap where
  blocks := fun _ => none
  next := 0
  null := rfl
  lt_next := by nofun
  inj := by nofun

/-- The address space in the block at `p`. -/
def space (h : Heap) (p : UInt32) : Option AddrSpace := (h.blocks p).map Prod.snd

/-- `as_create`, where `kmalloc` finds the block at `p`; `none` where it
returns `NULL`. A block in use is never handed out, so a `p` in use stands
for no block as well. -/
def asCreate (h : Heap) (p : UInt32) : Option Heap :=
  if hp : p = 0 ∨ (h.blocks p).isSome then none
  else some {
    blocks := Function.update h.blocks p (some (h.next, .zero))
    next := h.next + 1
    null := by
      rw [not_or] at hp
      rw [Function.update_of_ne (Ne.symm hp.1)]
      exact h.null
    lt_next := by
      intro q n as hq
      by_cases hqp : q = p
      · subst hqp
        simp only [Function.update_self, Option.some.injEq, Prod.mk.injEq] at hq
        omega
      · rw [Function.update_of_ne hqp] at hq
        exact Nat.lt_succ_of_lt (h.lt_next q n as hq)
    inj := by
      intro q q' n as as' hq hq'
      by_cases hqp : q = p <;> by_cases hqp' : q' = p
      · rw [hqp, hqp']
      · subst hqp
        rw [Function.update_of_ne hqp'] at hq'
        simp only [Function.update_self, Option.some.injEq, Prod.mk.injEq] at hq
        exact absurd (h.lt_next q' n as' hq') (by omega)
      · subst hqp'
        rw [Function.update_of_ne hqp] at hq
        simp only [Function.update_self, Option.some.injEq, Prod.mk.injEq] at hq'
        exact absurd (h.lt_next q n as hq) (by omega)
      · rw [Function.update_of_ne hqp] at hq
        rw [Function.update_of_ne hqp'] at hq'
        exact h.inj q q' n as as' hq hq' }

/-- `as_destroy`: `kfree` of the block. -/
def asDestroy (h : Heap) (p : UInt32) : Heap where
  blocks := Function.update h.blocks p none
  next := h.next
  null := by
    by_cases hp : 0 = p
    · rw [hp, Function.update_self]
    · rw [Function.update_of_ne hp]
      exact h.null
  lt_next := by
    intro q n as hq
    by_cases hqp : q = p
    · rw [hqp, Function.update_self] at hq
      cases hq
    · rw [Function.update_of_ne hqp] at hq
      exact h.lt_next q n as hq
  inj := by
    intro q q' n as as' hq hq'
    by_cases hqp : q = p
    · rw [hqp, Function.update_self] at hq
      cases hq
    by_cases hqp' : q' = p
    · rw [hqp', Function.update_self] at hq'
      cases hq'
    rw [Function.update_of_ne hqp] at hq
    rw [Function.update_of_ne hqp'] at hq'
    exact h.inj q q' n as as' hq hq'

/-- The fields of the block at `p` change, and it stays the same block. -/
def store (h : Heap) (p : UInt32) (as : AddrSpace) : Heap where
  blocks := fun q => if q = p then (h.blocks p).map fun b => (b.1, as) else h.blocks q
  next := h.next
  null := by
    split
    · next hp => rw [← hp, h.null, Option.map_none]
    · exact h.null
  lt_next := by
    intro q n as' hq
    split at hq
    · obtain ⟨b, hb, he⟩ := Option.map_eq_some_iff.1 hq
      obtain ⟨rfl, rfl⟩ := Prod.mk.inj he
      exact h.lt_next p b.1 b.2 hb
    · exact h.lt_next q n as' hq
  inj := by
    have key : ∀ q n as', (if q = p then (h.blocks p).map fun b => (b.1, as) else h.blocks q) =
        some (n, as') → ∃ as'', h.blocks q = some (n, as'') := by
      intro q n as' hq
      split at hq
      · next hqp =>
        obtain ⟨b, hb, he⟩ := Option.map_eq_some_iff.1 hq
        obtain ⟨rfl, rfl⟩ := Prod.mk.inj he
        exact ⟨b.2, hqp ▸ hb⟩
      · exact ⟨as', hq⟩
    intro q q' n as₁ as₂ hq hq'
    obtain ⟨_, h₁⟩ := key q n as₁ hq
    obtain ⟨_, h₂⟩ := key q' n as₂ hq'
    exact h.inj q q' n _ _ h₁ h₂

/-- `vm_fault` for a thread with this `t_vmspace`. A block that was freed
holds `0xdeadbeef`, which fails the assertions. -/
def vmFault (h : Heap) (vmspace : UInt32) (tlb : Tlb) (faulttype : FaultType)
    (va : UInt32) : Fault :=
  if vmspace = 0 then Vm.vmFault none tlb faulttype va
  else match h.space vmspace with
    | none => .panics
    | some as => Vm.vmFault (some as) tlb faulttype va

/-- An access to a page that the TLB maps, or `vm_fault` is called for. -/
def touch (h : Heap) (vmspace : UInt32) (tlb : Tlb) (faulttype : FaultType)
    (va : UInt32) : Fault :=
  match tlb.lookup (va &&& pageFrame) with
  | some f => .loaded f tlb
  | none => h.vmFault vmspace tlb faulttype va

end Heap

end Vm

end Os161
