import Os161.Common.Prog
import Os161.Vm.Model.AddrSpace
/-!
# The processor

The interrupt level of `kern/arch/mips/mips/spl.c` and the slots of the TLB, with the
two functions of `kern/vm/addrspace.c` that work on both. A return of an error code is
an error here; a failed assertion and a panic are `halt`.
-/

namespace Os161

namespace Vm

/-- An entry of the TLB: its high-order and its low-order word. -/
structure TlbEntry where
  ehi : UInt32
  elo : UInt32
  deriving DecidableEq, Repr

/-- `TLBLO_DIRTY`, the write privilege. -/
def tlbloDirty : UInt32 := 0x400

/-- `TLBLO_VALID`. -/
def tlbloValid : UInt32 := 0x200

/-- `TLBHI_INVALID`. -/
def tlbhiInvalid (entryno : ℕ) : UInt32 := (0x80000 + UInt32.ofNat entryno) <<< 12

/-- `TLBLO_INVALID()`. -/
def tlbloInvalid : UInt32 := 0

/-- `SPL_HIGH`. -/
def splHigh : ℤ := 15

/-- `curspl`, and the slots of the TLB. -/
structure Cpu where
  curspl : ℤ
  tlb : Fin numTlb → TlbEntry

abbrev CpuProg : Type → Type := Prog Cpu Errno

namespace Cpu

variable {ε : Type}

/-- `splx`. -/
def splx (newspl : ℤ) : Prog Cpu ε ℤ := do
  let c ← get
  set { c with curspl := newspl }
  pure c.curspl

/-- `splhigh`. -/
def splhigh : Prog Cpu ε ℤ := splx splHigh

/-- `TLB_Read`. -/
def tlbRead (i : Fin numTlb) : Prog Cpu ε TlbEntry := do
  let c ← get
  pure (c.tlb i)

/-- `TLB_Write`. -/
def tlbWrite (e : TlbEntry) (i : Fin numTlb) : Prog Cpu ε Unit :=
  modify fun c => { c with tlb := Function.update c.tlb i e }

/-- The loop of `vm_fault` over the slots, and whether it has found one. -/
def loadFrom (e : TlbEntry) : List (Fin numTlb) → CpuProg Bool
  | [] => pure false
  | i :: is => do
    let old ← tlbRead i
    if old.elo &&& tlbloValid ≠ 0 then loadFrom e is
    else do
      tlbWrite e i
      pure true

/-- `vm_fault` behind its `switch`, with the level that it has saved. -/
def loadFault (as : Option AddrSpace) (spl : ℤ) (faultaddress : UInt32) : CpuProg Unit :=
  match as with
  -- no `splx` here
  | none => Prog.fail .EFAULT
  | some as => do
    Prog.assert as.SetUp
    match as.frame faultaddress with
    | none => do
      let _ ← splx spl
      Prog.fail .EFAULT
    | some paddr => do
      Prog.assert (paddr &&& pageFrame = paddr)
      let loaded ← loadFrom ⟨faultaddress, paddr ||| tlbloDirty ||| tlbloValid⟩
        (List.finRange numTlb)
      let _ ← splx spl
      Prog.failIf (loaded = false) .EFAULT

/-- `vm_fault`, for the address space that `curthread->t_vmspace` points to. A fault type
of `none` is a number that is none of the three. -/
def vmFault (as : Option AddrSpace) (faulttype : Option FaultType) (faultaddress : UInt32) :
    CpuProg Unit := do
  let spl ← splhigh
  match faulttype with
  | some .readonly => Prog.halt
  | some .read | some .write => loadFault as spl (faultaddress &&& pageFrame)
  | none => do
    let _ ← splx spl
    Prog.fail .EINVAL

end Cpu

end Vm

end Os161
