import Os161.Userprog.Copyinout
import Os161.Userprog.Model.Syscall
/-!
# `sys_execv` and the address space of its caller

`sys_execv` copies its arguments in, destroys the address space of its caller
and builds another one. An error of the first part finds the caller as it was
(`Core.holds_copyInArgs`). After the second step the block of the old address
space is gone, and nothing that follows brings it back: allocations have
numbers, and a number that is gone stays gone (`imageCore_gone`). So an error
of the third part never leaves the caller's address space alone
(`not_preserved_of_late`).
-/

namespace Os161

namespace Userprog

open Vm

variable {env : Env} {K : Machine → Prop} {m m' : Machine}

/-! ## The arguments -/

/-- **A scan for a zero** reads what is not zero, and then a zero. -/
theorem holds_scanZero {α : Type} [BEq α] [LawfulBEq α] [OfNat α 0] {load : UInt32 → Kernel α}
    {S : UInt32 → α → Prop} {fuel : ℕ} (hfuel : 0 + fuel ≤ 2 ^ 32)
    (hload : ∀ j, (∀ j', j' < j → ∃ c, c ≠ 0 ∧ S j' c) → Holds K false (load j) (S j)) :
    Holds K false (Prog.scanFrom load (· == 0) fuel 0)
      (fun n => S n 0 ∧ ∀ j, j < n → ∃ c, c ≠ 0 ∧ S j c) := by
  have hz : ∀ j : UInt32, 0 ≤ j := fun j => UInt32.le_iff_toNat_le.2 (Nat.zero_le _)
  refine (Prog.Keeps.scanFrom (fun _ hm => hm.1) hfuel fun j _ hprev => hload j ?_).mono ?_
  · intro j' hj'
    obtain ⟨c, hc, hS⟩ := hprev j' (hz j') hj'
    exact ⟨c, ne_of_beq_false hc, hS⟩
  · rintro n ⟨-, ⟨c, hc, hS⟩, hbefore⟩
    rw [eq_of_beq hc] at hS
    refine ⟨hS, fun j hj => ?_⟩
    obtain ⟨c, hc, hS⟩ := hbefore j (hz j) hj
    exact ⟨c, ne_of_beq_false hc, hS⟩

theorem Touching.holds_strlen (h : Touching env K) (hr : ∀ b va, Records K b va) (str : UInt32) :
    Holds K false (strlen env str) (fun _ => True) :=
  (holds_scanZero (S := fun _ _ => True) (by decide)
    fun _ _ => (h.holds_loadByte (hr false _)).mono fun _ _ => trivial).mono fun _ _ => trivial

namespace Core

section

variable (h : Core env K)

include h

section

variable (hr : ∀ b va, Records K b va)

include hr

theorem holds_argAt (args i : UInt32) :
    Holds K false (argAt env args i) (fun _ => True) :=
  (h.holds_loadWord fun _ => hr false _).mono fun _ _ => trivial

theorem holds_copyString (len : UInt32)
    {str : Kernel UInt32} (hstr : Holds K false str (fun _ => True)) :
    Holds K false (copyString env len str) (fun _ => True) :=
  .bind (h.holds_kmalloc _) fun _ _ => .bind (.failIf _ _) fun _ _ => .bind hstr fun _ _ =>
    (h.holds_copyinstr (fun va _ => hr true va) _ _).mapError _

theorem holds_copyPath (program : UInt32) :
    Holds K false (copyPath env program) (fun _ => True) :=
  .bind (.failIf _ _) fun _ _ => .bind (.failIf _ _) fun _ _ => .bind (.failIf _ _) fun _ _ =>
    .bind (h.holds_strlen hr program) fun _ _ => .bind (.failIf _ _) fun _ _ =>
    h.holds_copyString hr _ (.pure trivial)

theorem holds_countArgs (args : UInt32) :
    Holds K false (countArgs env args) (fun _ => True) :=
  .bind (.failIf _ _) fun _ _ => .bind (.failIf _ _) fun _ _ => .bind (.failIf _ _) fun _ _ =>
    (holds_scanZero (S := fun _ _ => True) (by decide)
      fun _ _ => h.holds_argAt hr args _).mono fun _ _ => trivial

theorem holds_copyArg (args i : UInt32) :
    Holds K false (copyArg env args i) (fun _ => True) :=
  .bind (h.holds_argAt hr args i) fun _ _ => .bind (.failIf _ _) fun _ _ =>
    .bind (h.holds_argAt hr args i) fun _ _ => .bind (.failIf _ _) fun _ _ =>
    .bind (h.holds_argAt hr args i) fun _ _ => .bind (h.holds_strlen hr _) fun _ _ =>
    h.holds_copyString hr _ (h.holds_argAt hr args i)

theorem holds_copyArgsFrom (args : UInt32) (n : ℕ)
    (i : UInt32) : Holds K false (copyArgsFrom env args n i) (fun _ => True) := by
  induction n generalizing i with
  | zero => exact .pure trivial
  | succ n ih =>
    exact .bind (h.holds_copyArg hr args i) fun _ _ => .bind (ih _) fun _ _ => .pure trivial

/-- **The copying of the arguments** keeps what an access keeps. -/
theorem holds_copyInArgs (program args : UInt32) :
    Holds K false (copyInArgs env program args) (fun _ => True) :=
  .bind (h.holds_copyPath hr program) fun _ _ => .bind (h.holds_countArgs hr args) fun _ _ =>
    .bind (h.holds_copyArgsFrom hr args _ _) fun _ _ => .pure trivial

end

end

end Core

/-- A path that is copied in has passed the tests. -/
theorem copyPath_eq_ok {program : UInt32} {path : List UInt8}
    (h : copyPath env program m = .ok path m') : ∃ n m₁, strlen env program m = .ok n m₁ ∧
      n ≠ 0 ∧ copyString env n (pure program) m₁ = .ok path m' := by
  obtain ⟨_, m₁, h1, hrest₁⟩ := Prog.bind_eq_ok.1 h
  obtain ⟨_, m₂, h2, hrest₂⟩ := Prog.bind_eq_ok.1 hrest₁
  obtain ⟨_, m₃, h3, hrest₃⟩ := Prog.bind_eq_ok.1 hrest₂
  obtain ⟨n, m₄, hlen, hrest₄⟩ := Prog.bind_eq_ok.1 hrest₃
  obtain ⟨_, m₅, h5, hstr⟩ := Prog.bind_eq_ok.1 hrest₄
  obtain ⟨-, rfl⟩ := Prog.failIf_eq_ok.1 h1
  obtain ⟨-, rfl⟩ := Prog.failIf_eq_ok.1 h2
  obtain ⟨-, rfl⟩ := Prog.failIf_eq_ok.1 h3
  obtain ⟨hne, rfl⟩ := Prog.failIf_eq_ok.1 h5
  exact ⟨n, _, hlen, hne, hstr⟩

/-! ## The image -/

/-- What `K` must not depend on for the part of `sys_execv` that builds the
new address space. -/
structure ImageCore (env : Env) (K : Machine → Prop) : Prop extends Core env K where
  writable : Writable K
  guarded : Guarded K
  create : ∀ m block heap, K m → m.heap.asCreate block = some heap →
    K { m with heap := heap, vmspace := block }
  noSpace : ∀ m, K m → K { m with vmspace := 0 }
  activate : ∀ m, K m → K { m with tlb := [] }
  store : ∀ m as r, K m → K { m with heap := m.heap.store m.vmspace as, ram := r }

namespace ImageCore

section

variable (h : ImageCore env K)

include h

theorem holds_uioCopy (ptr : List UInt8) (size : UInt32) (uio : Uio) :
    Holds K false (uioCopy env ptr size uio) (fun _ => True) := by
  have hlen : (ptr.take size.toNat).length < 2 ^ 32 :=
    (List.length_take_le _ _).trans_lt size.toNat_lt
  have hout : ∀ uio' : Uio, Holds K false (do
      copyout env (ptr.take size.toNat) uio.iovUbase
      pure (ptr.take size.toNat, uio')) (fun _ => True) := fun _ =>
    .bind (h.holds_copyout h.writable h.guarded _ hlen) fun _ _ => .pure trivial
  have hin : ∀ uio' : Uio, Holds K false (do
      let bytes ← copyin env uio.iovUbase size
      pure (bytes, uio')) (fun _ => True) := fun _ =>
    .bind (h.holds_copyin h.guarded _ _) fun _ _ => .pure trivial
  unfold uioCopy
  split
  · exact .pure trivial
  · exact .pure trivial
  · exact hout _
  · exact hin _

theorem holds_uiomoveLoop (fuel : ℕ) (ptr : List UInt8) (n : UInt32) (uio : Uio) :
    Holds K false (uiomoveLoop env fuel ptr n uio) (fun _ => True) := by
  induction fuel generalizing ptr n uio with
  | zero => exact .pure trivial
  | succ fuel ih =>
    exact .ite (fun _ => .bind (.assert _) fun _ _ => .bind (h.holds_uioCopy _ _ _) fun _ _ =>
      .bind (ih _ _ _) fun _ _ => .pure trivial) fun _ => .pure trivial

theorem holds_uiomove (ptr : List UInt8) (n : UInt32) (uio : Uio) :
    Holds K false (uiomove env ptr n uio) (fun _ => True) :=
  .bind .get fun _ _ => .bind (.assert _) fun _ _ => h.holds_uiomoveLoop _ _ _ _

theorem holds_uiomovezerosLoop (fuel : ℕ) (n : UInt32) (uio : Uio) :
    Holds K false (uiomovezerosLoop env fuel n uio) (fun _ => True) := by
  induction fuel generalizing n uio with
  | zero => exact .pure trivial
  | succ fuel ih =>
    exact .ite (fun _ => .bind (h.holds_uiomove _ _ _) fun _ _ => ih _ _) fun _ => .pure trivial

theorem holds_uiomovezeros (n : UInt32) (uio : Uio) :
    Holds K false (uiomovezeros env n uio) (fun _ => True) :=
  .bind (.assert _) fun _ _ => h.holds_uiomovezerosLoop _ _ _

theorem holds_uiomoveAll (pieces : List (List UInt8)) (uio : Uio) :
    Holds K false (uiomoveAll env pieces uio) (fun _ => True) := by
  induction pieces generalizing uio with
  | nil => exact .pure trivial
  | cons piece pieces ih => exact .bind (h.holds_uiomove _ _ _) fun _ _ => ih _

theorem holds_vopRead (v : Vnode) (uio : Uio) :
    Holds K false (vopRead env v uio) (fun _ => True) := by
  refine .bind (h.holds_uiomoveAll _ _) fun _ _ => ?_
  cases (v.read uio.uioOffset uio.uioResid).2 with
  | none => exact .pure trivial
  | some e => exact .fail e

theorem holds_readStruct (v : Vnode) (len : ℕ) (offset : UInt32) :
    Holds K false (readStruct env v len offset) (fun _ => True) :=
  .bind (h.holds_vopRead _ _) fun _ _ => .bind (.failIf _ _) fun _ _ => .pure trivial

theorem holds_forPhdrs (v : Vnode) (eh : Ehdr) {load : Phdr → Kernel Unit}
    (hload : ∀ ph, Holds K false (load ph) (fun _ => True)) (n : ℕ) (i : UInt32) :
    Holds K false (forPhdrs env v eh load n i) (fun _ => True) := by
  induction n generalizing i with
  | zero => exact .pure trivial
  | succ n ih =>
    exact .bind (h.holds_readStruct _ _ _) fun _ _ => .ite (fun _ => ih _) fun _ =>
      .ite (fun _ => .bind (hload _) fun _ _ => ih _) fun _ => .fail _

theorem holds_asCreateCur :
    Holds K false (asCreateCur env) (fun _ => True) := by
  refine .bind (h.holds_kmalloc _) fun block _ => .bind .get fun m hm => ?_
  cases hc : m.heap.asCreate block with
  | some heap => exact .bind (.set (h.create m block heap hm.1 hc) hm.2) fun _ _ => .pure trivial
  | none => exact .bind (.set (h.noSpace m hm.1) hm.2) fun _ _ => .pure trivial

theorem holds_asDefineRegionCur (vaddr sz : UInt32) :
    Holds K false (asDefineRegionCur vaddr sz) (fun _ => True) := by
  refine .bind .get fun m hm => ?_
  cases m.heap.space m.vmspace with
  | none => exact .halt
  | some as =>
    simp only
    cases asDefineRegion as vaddr sz with
    | error e => exact .fail e
    | ok as' => exact .set (h.store m as' m.ram hm.1) hm.2

theorem holds_asPrepareLoadCur :
    Holds K false asPrepareLoadCur (fun _ => True) := by
  refine .bind .get fun m hm => ?_
  cases (m.heap.space m.vmspace).bind fun as => asPrepareLoad as m.ram with
  | none => exact .halt
  | some r =>
    obtain ⟨e, as', ram⟩ := r
    refine .bind (.set (h.store m as' ram hm.1) hm.2) fun _ _ => ?_
    cases e with
    | some e => exact .fail e
    | none => exact .pure trivial

end

theorem holds_asDefineStackCur : Holds K false asDefineStackCur (fun _ => True) := by
  refine .bind .get fun m _ => ?_
  cases m.heap.space m.vmspace with
  | none => exact .halt
  | some as => exact .bind (.assert _) fun _ _ => .pure trivial

theorem holds_loadSegment (h : ImageCore env K) (v : Vnode)
    (offset vaddr memsize filesize : UInt32) (isExecutable : Bool) :
    Holds K false (loadSegment env v offset vaddr memsize filesize isExecutable)
      (fun _ => True) :=
  .bind .get fun _ _ => .bind (h.holds_vopRead _ _) fun _ _ => .bind (.failIf _ _) fun _ _ =>
    .ite (fun _ => .bind (h.holds_uiomovezeros _ _) fun _ _ => .pure trivial)
      fun _ => .pure trivial

theorem holds_loadElf (h : ImageCore env K) (v : Vnode) :
    Holds K false (loadElf env v) (fun _ => True) :=
  .bind (h.holds_readStruct _ _ _) fun _ _ => .bind (.failIf _ _) fun _ _ =>
    .bind (h.holds_forPhdrs _ _ (fun _ => h.holds_asDefineRegionCur _ _) _ _) fun _ _ =>
    .bind h.holds_asPrepareLoadCur fun _ _ =>
    .bind (h.holds_forPhdrs _ _ (fun _ => h.holds_loadSegment _ _ _ _ _ _) _ _) fun _ _ =>
    .pure trivial

theorem holds_copyoutArgs (h : ImageCore env K) (argv : List (List UInt8)) (stackptr : UInt32) :
    Holds K false (copyoutArgs env argv stackptr) (fun _ => True) := by
  induction argv with
  | nil => exact .pure trivial
  | cons arg rest ih =>
    exact .bind ih fun _ _ => .bind (h.holds_copyoutstr h.writable h.guarded _ _ _) fun _ _ =>
      .pure trivial

theorem wordBytes_length (w : UInt32) : (wordBytes w).length < 2 ^ 32 := by
  show 4 < 2 ^ 32
  decide

theorem holds_copyoutPointers (h : ImageCore env K) (pointers : List UInt32) (stackptr : UInt32) :
    Holds K false (copyoutPointers env pointers stackptr) (fun _ => True) := by
  induction pointers with
  | nil => exact .pure trivial
  | cons pointer rest ih =>
    exact .bind ih fun _ _ => .bind (h.holds_copyout h.writable h.guarded _
      (wordBytes_length pointer))
      fun _ _ => .pure trivial

/-- **The building of the new image**, from `vfs_open` to `md_usermode`. -/
theorem holds_execImage (h : ImageCore env K) (path : List UInt8) (argv : List (List UInt8)) :
    Holds K false (execImage env path argv) (fun _ => True) :=
  .bind (.ofExcept _) fun _ _ => .bind h.holds_asCreateCur fun _ _ =>
    .bind (.failIf _ _) fun _ _ =>
    .bind (.modify (fun m hm _ => h.activate m hm) fun _ => rfl) fun _ _ =>
    .bind (h.holds_loadElf _) fun _ _ => .bind holds_asDefineStackCur fun _ _ =>
    .bind (h.holds_copyoutArgs _ _) fun _ _ => .bind (h.holds_copyoutPointers _ _) fun _ _ =>
    .pure trivial

end ImageCore

/-! ## What an error leaves behind -/

/-- **The caller's address space is as it was**: `t_vmspace` points to the
same block of the same allocation, with the same fields, and every user
address holds the same byte. -/
structure Preserved (m m' : Machine) : Prop where
  vmspace : m'.vmspace = m.vmspace
  block : m'.heap.blocks m.vmspace = m.heap.blocks m.vmspace
  contents : ∀ va, m'.userByte va = m.userByte va

/-- The address spaces, which of them is the thread's, and the contents of
memory. -/
def SameMemory (m₀ m : Machine) : Prop :=
  m.heap = m₀.heap ∧ m.vmspace = m₀.vmspace ∧ m.mem = m₀.mem

theorem SameMemory.userByte {m₀ : Machine} (h : SameMemory m₀ m) (va : UInt32) :
    m.userByte va = m₀.userByte va := by
  obtain ⟨hheap, hvm, hmem⟩ := h
  rw [Machine.userByte, Machine.userByte, hheap, hvm, hmem]

theorem SameMemory.preserved {m₀ : Machine} (h : SameMemory m₀ m) : Preserved m₀ m where
  vmspace := h.2.1
  block := by rw [h.1]
  contents := h.userByte

theorem core_sameMemory (env : Env) (m₀ : Machine) : Core env (SameMemory m₀) where
  badfaultfunc _ _ h := h
  tick _ h := h
  tlb _ _ _ _ _ h _ := h
  ram _ _ h := h

/-- **An allocation that is over stays over.** -/
theorem imageCore_gone (env : Env) (n : ℕ) : ImageCore env (fun m => m.heap.Gone n) where
  badfaultfunc _ _ h := h
  tick _ h := h
  tlb _ _ _ _ _ h _ := h
  ram _ _ h := h
  writable _ _ h := h
  guarded _ _ _ h _ := h
  noSpace _ h := h
  activate _ h := h
  create _ _ _ h hc := h.asCreate hc
  store m as _ h := h.store m.vmspace as

/-- **An error that comes late costs the caller its address space**, whatever it is: once the
arguments are copied in, the old block is gone for good. -/
theorem not_preserved_of_late {program args : UInt32} {copied : List UInt8 × List (List UInt8)}
    {m₁ : Machine} {e : Errno} (hblock : (m.heap.blocks m.vmspace).isSome)
    (hfault : m.badfaultfunc = false) (hcin : copyInArgs env program args m = .ok copied m₁)
    (hrun : sysExecv env program args m = .error (.error e) m') : ¬ Preserved m m' := by
  obtain ⟨⟨n, as⟩, hb⟩ := Option.isSome_iff_exists.1 hblock
  obtain ⟨⟨hheap, hvm, -⟩, hfault₁, -⟩ := ((core_sameMemory env m).holds_copyInArgs
    (fun _ _ _ h _ => h) program args).ok ⟨rfl, rfl, rfl⟩ hfault hcin
  have himg : execImage env copied.1 copied.2 { m₁ with heap := m₁.heap.asDestroy m₁.vmspace } =
      .error (.error e) m' := by
    rw [sysExecv, Prog.bind_of_ok hcin] at hrun
    exact hrun
  have hgone : (m₁.heap.asDestroy m₁.vmspace).Gone n :=
    Heap.gone_asDestroy (by rw [hheap, hvm]; exact hb)
  have hgone' : m'.heap.Gone n := ((imageCore_gone env n).holds_execImage copied.1 copied.2).error
    (m := { m₁ with heap := m₁.heap.asDestroy m₁.vmspace }) hgone hfault₁ himg
  exact fun hpres => hgone'.2 m.vmspace as (hpres.block.trans hb)

/-- A program with two regions of one page each, and its stack. -/
def oneSpace : AddrSpace := ⟨0x400000, 0x30000, 1, 0x10000000, 0x31000, 1, 0x32000⟩

/-- The block of the program's address space. -/
def oneHeap : Heap := ((Heap.empty.asCreate 0x80040000).getD .empty).store 0x80040000 oneSpace

/-- A program that is about to make a system call, on a machine with four
megabytes: the string `"x"` at `0x400000`, and a null pointer behind it. -/
def oneProgram : Machine where
  ram := ⟨0x3e000, 0x400000⟩
  mem := fun pa => if pa = 0x30000 then 0x78 else 0
  tlb := []
  heap := oneHeap
  vmspace := 0x80040000
  badfaultfunc := false
  ticks := 0
  accesses := []

/-- Memory for small blocks, and no files. -/
def noFiles : Env where
  switches := fun _ => false
  subpageKmalloc := fun _ r => (0x80040020, r)
  vfsOpen := fun _ => .error .ENOENT

end Userprog

end Os161
