import Os161.Common.Wp
import Os161.Vm.Regions
import Os161.Vm.Model.Cpu
/-!
# Page faults and the slots of the TLB

`vm_fault` looks for a slot of the TLB that is not valid and never replaces a valid
entry. So whether it serves a page depends on the slots that earlier faults have
filled since the TLB was last emptied (`fault_served_iff`). What it does to the slots
is what the model with a list of the valid entries has (`Cpu.vmFault_refines`).
-/

namespace Os161

namespace Vm

open Prog Function Cpu List Option

variable {as : AddrSpace} {c : Cpu} {ty : FaultType} {va : UInt32} {i : Part}

/-- A well-formed address space: two regions that are not empty, aligned and below
`USERTOP`, and frames for them and for the stack. -/
structure AddrSpace.WellFormed (as : AddrSpace) : Prop where
  pages : as.npages1 ≠ 0 ∧ as.npages2 ≠ 0
  aligned : as.vbase1.toNat % 4096 = 0 ∧ as.vbase2.toNat % 4096 = 0
  below : as.vbase1.toNat + as.npages1.toNat * 4096 ≤ userTop.toNat ∧
    as.vbase2.toNat + as.npages2.toNat * 4096 ≤ userTop.toNat
  frames : ∀ i, as.pbase i ≠ 0 ∧ (as.pbase i).toNat % 4096 = 0

/-- The address lies in a region or the stack. -/
def AddrSpace.Legal (as : AddrSpace) (va : UInt32) : Prop := ∃ i, as.InRegion i va.toNat

/-- A slot that is not valid. -/
def TlbEntry.Invalid (e : TlbEntry) : Prop := e.elo &&& tlbloValid = 0
  deriving Decidable

/-- A valid and writable entry for a page and its frame. -/
def entryFor (page paddr : UInt32) : TlbEntry := ⟨page, paddr ||| tlbloDirty ||| tlbloValid⟩

/-- The frame of the page of an address, in a part. -/
def AddrSpace.frameIn (as : AddrSpace) (i : Part) (va : UInt32) : UInt32 :=
  (va &&& pageFrame) - as.vbase i + as.pbase i

/-- **`vm_fault` serves the address**: it returns 0 and has put a valid and writable entry
for the page into a slot of the TLB, or, if the address is not legal, it returns `EFAULT`
and the TLB is as it was. -/
structure Served (as : AddrSpace) (c : Cpu) (ty : FaultType) (va : UInt32) : Prop where
  legal : as.Legal va → ∃ i j c', as.InRegion i va.toNat ∧
    Cpu.vmFault (some as) (some ty) va c = .ok () c' ∧
    c'.tlb = update c.tlb j (entryFor (va &&& pageFrame) (as.frameIn i va))
  illegal : ¬ as.Legal va → ∃ c',
    Cpu.vmFault (some as) (some ty) va c = .error (.error .EFAULT) c' ∧ c'.tlb = c.tlb

/-! ## The parts -/

namespace AddrSpace

variable {a : UInt32}

/-- A comparison with the end of a run, where the end does not wrap. -/
theorem in_run_iff {vbase npages : UInt32} (h : vbase.toNat + npages.toNat * 4096 < 2 ^ 32) :
    a ≥ vbase ∧ a < vbase + npages * pageSize ↔
      vbase.toNat ≤ a.toNat ∧ a.toNat < vbase.toNat + npages.toNat * 4096 := by
  have hsize : pageSize.toNat = 4096 := rfl
  rw [ge_iff_le, UInt32.le_iff_toNat_le, UInt32.lt_iff_toNat_lt, UInt32.toNat_add,
    UInt32.toNat_mul, hsize, Nat.mod_eq_of_lt (a := npages.toNat * 4096) (by omega),
    Nat.mod_eq_of_lt h]

theorem userStack_eq (as : AddrSpace) :
    userStack = as.vbase .stack + as.npages .stack * pageSize := by
  show userStack = userStack - dumbvmStackpages * pageSize + dumbvmStackpages * pageSize
  decide

namespace WellFormed

section

variable (hw : as.WellFormed)

include hw

theorem setUp_iff : as.SetUp ↔ as.vbase1 ≠ 0 ∧ as.vbase2 ≠ 0 := by
  obtain ⟨hp1, hp2⟩ := hw.pages
  obtain ⟨hv1, hv2⟩ := hw.aligned
  obtain ⟨hf1, hf1'⟩ := hw.frames .one
  obtain ⟨hf2, hf2'⟩ := hw.frames .two
  obtain ⟨hf3, hf3'⟩ := hw.frames .stack
  constructor
  · rintro ⟨h1, -, -, h2, -⟩
    exact ⟨h1, h2⟩
  · rintro ⟨h1, h2⟩
    exact ⟨h1, hf1, hp1, h2, hf2, hp2, hf3, and_pageFrame_eq_self_iff.2 hv1,
      and_pageFrame_eq_self_iff.2 hf1', and_pageFrame_eq_self_iff.2 hv2,
      and_pageFrame_eq_self_iff.2 hf2', and_pageFrame_eq_self_iff.2 hf3'⟩

theorem vbase_mod (i : Part) : (as.vbase i).toNat % 4096 = 0 := by
  cases i with
  | one => exact hw.aligned.1
  | two => exact hw.aligned.2
  | stack => rw [toNat_vbase_stack]

theorem no_wrap (i : Part) :
    (as.vbase i).toNat + (as.npages i).toNat * 4096 < 2 ^ 32 := by
  have htop : userTop.toNat = 2 ^ 31 := rfl
  obtain ⟨h1, h2⟩ := hw.below
  cases i with
  | one => exact lt_of_le_of_lt h1 (by omega)
  | two => exact lt_of_le_of_lt h2 (by omega)
  | stack =>
    have hpages : (as.npages .stack).toNat = 12 := rfl
    rw [toNat_vbase_stack, hpages]
    omega

/-- **The `if` chain finds a part for every address that lies in one.** -/
theorem exists_part_iff : (∃ i, as.part a = some i) ↔ as.Legal a := by
  constructor
  · rintro ⟨i, hi⟩
    exact ⟨i, part_spec hi⟩
  · rintro ⟨i, hi⟩
    have hin : a ≥ as.vbase i ∧ a < as.vbase i + as.npages i * pageSize :=
      (in_run_iff (hw.no_wrap i)).2 hi
    unfold part
    dsimp only
    split_ifs with h1 h2 h3
    · exact ⟨.one, rfl⟩
    · exact ⟨.two, rfl⟩
    · exact ⟨.stack, rfl⟩
    · cases i with
      | one => exact absurd hin h1
      | two => exact absurd hin h2
      | stack =>
        rw [← as.userStack_eq] at hin
        exact absurd hin h3

/-- An address is in a part where its page is. -/
theorem inRegion_page_iff :
    as.InRegion i (va &&& pageFrame).toNat ↔ as.InRegion i va.toNat := by
  have hmod := hw.vbase_mod i
  unfold InRegion
  rw [toNat_and_pageFrame]
  omega

theorem legal_page_iff : as.Legal (va &&& pageFrame) ↔ as.Legal va :=
  exists_congr fun _ => hw.inRegion_page_iff

/-- The frame of a page is aligned. -/
theorem frame_aligned (i : Part) (va : UInt32) :
    as.frameIn i va &&& pageFrame = as.frameIn i va := by
  have hv := hw.vbase_mod i
  have hp := (hw.frames i).2
  have hb := (as.vbase i).toNat_lt
  rw [and_pageFrame_eq_self_iff, frameIn, UInt32.toNat_add, UInt32.toNat_sub,
    toNat_and_pageFrame]
  omega

/-- **The frame that the chain computes**, or none. -/
theorem frame_cases (va : UInt32) :
    (∃ i, as.InRegion i va.toNat ∧ as.frame (va &&& pageFrame) = some (as.frameIn i va)) ∨
    (¬ as.Legal va ∧ as.frame (va &&& pageFrame) = none) := by
  cases hpart : as.part (va &&& pageFrame) with
  | some i =>
    refine .inl ⟨i, hw.inRegion_page_iff.1 (part_spec hpart), ?_⟩
    rw [frame, hpart, map_some, frameIn]
  | none =>
    refine .inr ⟨fun hlegal => ?_, by rw [frame, hpart, map_none]⟩
    obtain ⟨i, hi⟩ := hw.exists_part_iff.2 (hw.legal_page_iff.2 hlegal)
    rw [hpart] at hi
    cases hi

end

end WellFormed

end AddrSpace

/-! ## The slots -/

namespace Cpu

/-- The first slot that is not valid. -/
def free? (c : Cpu) : Option (Fin numTlb) :=
  (finRange numTlb).find? fun i => decide (c.tlb i).Invalid

theorem free?_eq_none_iff : c.free? = none ↔ ∀ i, ¬ (c.tlb i).Invalid := by
  unfold free?
  simp only [find?_eq_none, mem_finRange, decide_eq_true_eq, true_implies]

theorem free?_isSome_iff : (∃ j, c.free? = some j) ↔ ∃ j, (c.tlb j).Invalid := by
  rw [← isSome_iff_exists, ← ne_none_iff_isSome, ne_eq, free?_eq_none_iff]
  simp only [not_forall, not_not]

variable {j : Fin numTlb}

theorem invalid_of_free? (h : c.free? = some j) : (c.tlb j).Invalid :=
  of_decide_eq_true (find?_some h :)

/-- The loop of `vm_fault` over the slots. -/
theorem loadFrom_eq (e : TlbEntry) (is : List (Fin numTlb)) (c : Cpu) :
    loadFrom e is c = match is.find? fun i => decide (c.tlb i).Invalid with
      | some j => .ok true { c with tlb := update c.tlb j e }
      | none => .ok false c := by
  induction is with
  | nil => rfl
  | cons i is ih =>
    have hread : (tlbRead i : CpuProg TlbEntry) c = .ok (c.tlb i) c := rfl
    unfold loadFrom
    rw [bind_of_ok hread, find?_cons]
    by_cases hinv : (c.tlb i).elo &&& tlbloValid = 0
    · have hfound : decide (c.tlb i).Invalid = true := decide_eq_true hinv
      rw [if_neg (not_not.2 hinv), hfound]
      rfl
    · have hnext : decide (c.tlb i).Invalid = false := decide_eq_false hinv
      rw [if_pos hinv, hnext]
      exact ih

/-- What `vm_fault` does with a page and its frame. -/
def fill (c : Cpu) (page paddr : UInt32) : EStateM.Result (Stop Errno) Cpu Unit :=
  match c.free? with
  | some j => .ok () { c with tlb := update c.tlb j (entryFor page paddr) }
  | none => .error (.error .EFAULT) c

theorem fill_of_free? {page paddr : UInt32} (h : c.free? = some j) :
    c.fill page paddr =
      .ok () { c with tlb := update c.tlb j (entryFor page paddr) } := by
  rw [fill, h]

theorem fill_of_full {page paddr : UInt32} (h : c.free? = none) :
    c.fill page paddr = .error (.error .EFAULT) c := by
  rw [fill, h]

theorem exists_of_fill {page paddr : UInt32} {c' : Cpu} (h : c.fill page paddr = .ok () c') :
    ∃ j, c.free? = some j := by
  cases hfree : c.free? with
  | none =>
    rw [fill_of_full hfree] at h
    cases h
  | some j => exact ⟨j, rfl⟩

/-- **What `vm_fault` does for a read or a write**, when its assertions hold. -/
theorem loadFault_of_setUp (hset : as.SetUp) (page : UInt32) (c : Cpu) :
    loadFault (some as) c.curspl page { c with curspl := splHigh } =
      match as.frame page with
      | none => .error (.error .EFAULT) c
      | some paddr =>
        if paddr &&& pageFrame = paddr then c.fill page paddr
        else .error .halt { c with curspl := splHigh } := by
  unfold loadFault
  dsimp only
  rw [bind_of_ok (assert_of hset)]
  cases as.frame page with
  | none => rfl
  | some paddr =>
    dsimp only
    by_cases hal : paddr &&& pageFrame = paddr
    · rw [if_pos hal, bind_of_ok (assert_of hal)]
      have hloop := loadFrom_eq (entryFor page paddr) (finRange numTlb)
        { c with curspl := splHigh }
      unfold fill free?
      cases hfree : (finRange numTlb).find? fun i => decide (c.tlb i).Invalid with
      | none | some j =>
        rw [hfree] at hloop
        exact (bind_of_ok hloop).trans rfl
    · rw [if_neg hal, bind_of_error (assert_of_not hal)]

/-- An assertion of `vm_fault` fails where the address space has not been set up. -/
theorem loadFault_of_not_setUp (hset : ¬ as.SetUp) (spl : ℤ) (page : UInt32) (c : Cpu) :
    loadFault (some as) spl page c = .error .halt c := by
  exact bind_of_error (assert_of_not hset)

/-- A read and a write fault alike go on behind the `switch`. -/
theorem vmFault_of_ne (space : Option AddrSpace) (hty : ty ≠ .readonly) (va : UInt32)
    (c : Cpu) : vmFault space (some ty) va c =
      loadFault space c.curspl (va &&& pageFrame) { c with curspl := splHigh } := by
  cases ty with
  | readonly => exact absurd rfl hty
  | read => rfl
  | write => rfl

end Cpu

/-! ## What is served -/

/-- **What `vm_fault` does in a well-formed address space** whose regions do not start at
0: it fills the first slot that is not valid, if there is one. -/
theorem vmFault_wellFormed (hw : as.WellFormed) (hset : as.SetUp) (hty : ty ≠ .readonly)
    (va : UInt32) (c : Cpu) :
    (∃ i, as.InRegion i va.toNat ∧ Cpu.vmFault (some as) (some ty) va c =
      c.fill (va &&& pageFrame) (as.frameIn i va)) ∨
    (¬ as.Legal va ∧ Cpu.vmFault (some as) (some ty) va c = .error (.error .EFAULT) c) := by
  rw [vmFault_of_ne _ hty, loadFault_of_setUp hset]
  rcases hw.frame_cases va with ⟨i, hi, hframe⟩ | ⟨hno, hframe⟩
  · rw [hframe]
    exact .inl ⟨i, hi, if_pos (hw.frame_aligned i va)⟩
  · rw [hframe]
    exact .inr ⟨hno, rfl⟩

theorem not_served_of_not_setUp (hset : ¬ as.SetUp) (hty : ty ≠ .readonly) :
    ¬ Served as c ty va := by
  intro hserved
  have hrun : Cpu.vmFault (some as) (some ty) va c = .error .halt { c with curspl := splHigh } := by
    rw [vmFault_of_ne _ hty, loadFault_of_not_setUp hset]
  by_cases hlegal : as.Legal va
  · obtain ⟨-, -, c', -, hok, -⟩ := hserved.legal hlegal
    rw [hrun] at hok
    cases hok
  · obtain ⟨c', herr, -⟩ := hserved.illegal hlegal
    rw [hrun] at herr
    cases herr

/-- **`vm_fault` serves a fault exactly if the two regions do not start at 0**, where its
assertions stop the kernel, **and a slot of the TLB is left for a legal page.** -/
theorem fault_served_iff (hw : as.WellFormed) (c : Cpu) (ty : FaultType)
    (hty : ty ≠ .readonly) (va : UInt32) :
    Served as c ty va ↔
      as.vbase1 ≠ 0 ∧ as.vbase2 ≠ 0 ∧ (as.Legal va → ∃ j, (c.tlb j).Invalid) := by
  rw [← and_assoc, ← hw.setUp_iff]
  by_cases hset : as.SetUp
  · rw [and_iff_right hset]
    rcases vmFault_wellFormed hw hset hty va c with ⟨i, hi, hrun⟩ | ⟨hno, hrun⟩
    · have hlegal : as.Legal va := ⟨i, hi⟩
      constructor
      · intro hserved _
        obtain ⟨-, -, c', -, hok, -⟩ := hserved.legal hlegal
        rw [hrun] at hok
        exact free?_isSome_iff.1 (exists_of_fill hok)
      · intro hslot
        obtain ⟨j, hj⟩ := free?_isSome_iff.2 (hslot hlegal)
        refine ⟨fun _ => ⟨i, j, _, hi, hrun.trans (fill_of_free? hj), rfl⟩, ?_⟩
        intro hno
        exact absurd hlegal hno
    · exact iff_of_true ⟨fun hlegal => absurd hlegal hno, fun _ => ⟨c, hrun, rfl⟩⟩
        fun hlegal => absurd hlegal hno
  · exact iff_of_false (not_served_of_not_setUp hset hty) fun h => hset h.1

/-- An address space with two regions of one page. -/
def twoPages : AddrSpace := ⟨0x400000, 0x20000, 1, 0x10000000, 0x21000, 1, 0x22000⟩

theorem twoPages_wellFormed : twoPages.WellFormed where
  pages := by decide
  aligned := by decide
  below := by decide
  frames := by
    intro i
    cases i <;> decide

/-- A TLB with the same word in the low half of every slot. -/
def Cpu.uniform (elo : UInt32) : Cpu := ⟨0, fun i => ⟨tlbhiInvalid i, elo⟩⟩

theorem fault_served_empty :
    Served twoPages (Cpu.uniform tlbloInvalid) .read 0x400010 :=
  (fault_served_iff twoPages_wellFormed (uniform tlbloInvalid) .read (by decide)
    0x400010).2 ⟨by decide, by decide, fun _ =>
      ⟨⟨0, by decide⟩, (by decide : tlbloInvalid &&& tlbloValid = 0)⟩⟩

/-- **A legal page is refused where every slot is valid.** -/
theorem full_tlb_refuses : twoPages.WellFormed ∧ twoPages.Legal 0x400010 ∧
    Cpu.vmFault (some twoPages) (some .read) 0x400010 (Cpu.uniform tlbloValid) =
      .error (.error .EFAULT) (Cpu.uniform tlbloValid) := by
  have hlegal : twoPages.Legal 0x400010 := ⟨.one, by decide, by decide⟩
  refine ⟨twoPages_wellFormed, hlegal, ?_⟩
  have hfull : (uniform tlbloValid).free? = none :=
    free?_eq_none_iff.2 fun i => (by decide : ¬ tlbloValid &&& tlbloValid = 0)
  rcases vmFault_wellFormed twoPages_wellFormed (by decide) (by decide : FaultType.read ≠ _)
    0x400010 (uniform tlbloValid) with ⟨i, -, hrun⟩ | ⟨hno, -⟩
  · exact hrun.trans (fill_of_full hfull)
  · exact absurd hlegal hno

/-! ## The valid entries as a list -/

namespace Cpu

/-- The slots that are valid. -/
def valid (c : Cpu) : List (Fin numTlb) :=
  (finRange numTlb).filter fun i => decide ¬ (c.tlb i).Invalid

/-- The pair of a page and its frame in an entry. -/
def pair (e : TlbEntry) : UInt32 × UInt32 := (e.ehi, e.elo &&& pageFrame)

/-- The valid entries, in the order of their slots. -/
def entries (c : Cpu) : Tlb := c.valid.map fun i => pair (c.tlb i)

/-- There is room in the list where there is a slot. -/
theorem entries_length_lt_iff : c.entries.length < numTlb ↔ ∃ j, c.free? = some j := by
  have hlt := length_filter_lt_length_iff_exists
    (p := fun i => decide ¬ (c.tlb i).Invalid) (l := finRange numTlb)
  rw [length_finRange] at hlt
  rw [free?_isSome_iff, entries, length_map, valid, hlt]
  simp only [mem_finRange, true_and, decide_eq_true_eq, not_not]

/-- The entry that is written is valid. -/
theorem entryFor_valid (page paddr : UInt32) : ¬ (entryFor page paddr).Invalid := by
  intro hzero
  -- the bit of `TLBLO_VALID`
  have hbit := congrArg (fun w : UInt32 => w.toNat.testBit 9) hzero
  have hvalid : tlbloValid.toNat.testBit 9 = true := by decide
  simp [entryFor, UInt32.toNat_and, UInt32.toNat_or, hvalid] at hbit

theorem or_and_distrib (a b m : UInt32) : (a ||| b) &&& m = a &&& m ||| b &&& m := by
  refine UInt32.toNat_inj.1 ?_
  rw [UInt32.toNat_or, UInt32.toNat_and, UInt32.toNat_and, UInt32.toNat_and, UInt32.toNat_or,
    Nat.and_or_distrib_right]

/-- The pair of the entry that is written. -/
theorem pair_entryFor {page paddr : UInt32} (h : paddr &&& pageFrame = paddr) :
    pair (entryFor page paddr) = (page, paddr) := by
  have hdirty : tlbloDirty &&& pageFrame = 0 := by decide
  have hvalid : tlbloValid &&& pageFrame = 0 := by decide
  rw [pair, entryFor, or_and_distrib, or_and_distrib, h, hdirty, hvalid, UInt32.or_zero,
    UInt32.or_zero]

/-- The slots that are valid once a slot has been filled. -/
theorem valid_fill {e : TlbEntry} (hj : (c.tlb j).Invalid)
    (he : ¬ e.Invalid) :
    ({ c with tlb := update c.tlb j e } : Cpu).valid.Perm (j :: c.valid) := by
  have hold : j ∉ c.valid := by
    simp [valid, hj]
  refine (perm_ext_iff_of_nodup ((nodup_finRange numTlb).filter _)
    (nodup_cons.2 ⟨hold, (nodup_finRange numTlb).filter _⟩)).2 fun i => ?_
  rcases eq_or_ne i j with rfl | hij
  · simp [valid, he]
  · simp [valid, hij]

/-- **Filling a slot adds its entry to the list.** -/
theorem entries_fill {e : TlbEntry} (hj : (c.tlb j).Invalid)
    (he : ¬ e.Invalid) :
    ({ c with tlb := update c.tlb j e } : Cpu).entries.Perm (pair e :: c.entries) := by
  have hold : ∀ i ∈ c.valid, update c.tlb j e i = c.tlb i := by
    intro i hi
    refine update_of_ne ?_ _ _
    rintro rfl
    exact of_decide_eq_true (mem_filter.1 hi).2 hj
  have hperm := (valid_fill hj he).map fun i => pair (update c.tlb j e i)
  rw [map_cons, update_self,
    map_congr_left fun i hi => congrArg pair (hold i hi)] at hperm
  exact hperm

/-- **What `vm_fault` does to the slots is what it does to the list of the valid
entries**: it ends in the same way, and the slots then hold the same entries. -/
theorem vmFault_refines (space : Option AddrSpace) (ty : FaultType) (va : UInt32) (c : Cpu) :
    match Vm.vmFault space c.entries ty va with
    | .loaded _ tlb => ∃ c', vmFault space (some ty) va c = .ok () c' ∧ c'.entries.Perm tlb
    | .fails e => ∃ c', vmFault space (some ty) va c = .error (.error e) c' ∧ c'.tlb = c.tlb
    | .panics => ∃ c', vmFault space (some ty) va c = .error .halt c' ∧ c'.tlb = c.tlb := by
  unfold Vm.vmFault
  by_cases hty : ty = .readonly
  · rw [if_pos hty, hty]
    exact ⟨_, rfl, rfl⟩
  rw [if_neg hty, vmFault_of_ne space hty]
  cases space with
  | none => exact ⟨_, rfl, rfl⟩
  | some as =>
    dsimp only
    by_cases hset : as.SetUp
    · rw [if_neg (not_not.2 hset), loadFault_of_setUp hset]
      cases as.frame (va &&& pageFrame) with
      | none => exact ⟨c, rfl, rfl⟩
      | some paddr =>
        dsimp only
        by_cases hal : paddr &&& pageFrame = paddr
        · rw [if_neg (not_not.2 hal), if_pos hal]
          by_cases hroom : c.entries.length < numTlb
          · rw [if_pos hroom]
            obtain ⟨j, hj⟩ := entries_length_lt_iff.1 hroom
            refine ⟨_, fill_of_free? hj, ?_⟩
            rw [← pair_entryFor hal]
            exact entries_fill (invalid_of_free? hj) (entryFor_valid _ _)
          · rw [if_neg hroom]
            have hfull : c.free? = none := by
              rw [eq_none_iff_forall_ne_some]
              intro j hj
              exact hroom (entries_length_lt_iff.2 ⟨j, hj⟩)
            exact ⟨c, fill_of_full hfull, rfl⟩
        · rw [if_pos hal, if_neg hal]
          exact ⟨_, rfl, rfl⟩
    · rw [if_pos hset, loadFault_of_not_setUp hset]
      exact ⟨_, rfl, rfl⟩

end Cpu

end Vm

end Os161
