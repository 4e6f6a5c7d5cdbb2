import Mathlib.Data.List.Perm.Subperm
import Os161.Common.Wp
import Os161.Userprog.Model.ElfFile
import Os161.Userprog.Copyinout
/-!
# Stores to user memory

How the stores of `copyout` end, byte for byte: `fate` says it of one address,
and the specifications here carry it to `storeBytes`, `copyout` and `uiomove`.
An address space may have more pages than the TLB has entries, and then
`vm_fault` returns `EFAULT` for an address that it could translate. In an
environment that empties the TLB before every access (`Switching`) this does
not happen, so that there the end of a store is known exactly.
-/

namespace Os161

namespace Userprog

open Vm Prog UInt32

variable {env : Env} {m m' : Machine} {q lastpaddr va : UInt32} {as : AddrSpace} {n k : ℕ}

/-- The TLB is empty before every access. -/
def Env.Switching (env : Env) : Prop := ∀ t, env.switches t = true

/-- The number of pages of an address space. -/
def pageCount (as : AddrSpace) : ℕ := as.npages1.toNat + as.npages2.toNat + dumbvmStackpages.toNat

/-- **The TLB never runs full** of the pages of an address space: it is emptied often, or it
has room for all of them. -/
def Env.Spares (env : Env) (as : AddrSpace) : Prop := env.Switching ∨ pageCount as ≤ numTlb

/-- The entries of the TLB are for different pages. -/
def Paged (tlb : Tlb) : Prop :=
  (tlb.map Prod.fst).Nodup ∧ ∀ e ∈ tlb, e.1.toNat % 4096 = 0

/-- **The machine while it loads** an address space whose frames are found. -/
structure Loading (q : UInt32) (as : AddrSpace) (lastpaddr : UInt32) (m : Machine) : Prop where
  vmspace : m.vmspace = q
  space : m.heap.space q = some as
  lastpaddr : m.ram.lastpaddr = lastpaddr
  coherent : Coherent as m.tlb
  paged : Paged m.tlb

/-- A byte is stored where the address is translated to. -/
def poke (as : AddrSpace) (mem : Memory) (w : UInt32 × UInt8) : Memory :=
  match as.translate w.1 with
  | some pa => Function.update mem pa w.2
  | none => mem

/-- The stores of a list of bytes, from `va` on. -/
def storesAt : UInt32 → List UInt8 → List (UInt32 × UInt8)
  | _, [] => []
  | va, b :: bs => (va, b) :: storesAt (va + 1) bs

/-- What memory holds after the bytes `bs` are stored from `va` on. -/
def storeAll (as : AddrSpace) (mem : Memory) (va : UInt32) (bs : List UInt8) : Memory :=
  (storesAt va bs).foldl (poke as) mem

/-! ## Fates -/

theorem add_ofNat_add (va : UInt32) (n i : ℕ) :
    va + UInt32.ofNat n + UInt32.ofNat i = va + UInt32.ofNat (n + i) := by
  rw [UInt32.add_assoc, UInt32.ofNat_add]

theorem fateAt_add (n i : ℕ) :
    fateAt as lastpaddr (va + ofNat n) i = fateAt as lastpaddr va (n + i) := by
  unfold fateAt
  rw [add_ofNat_add]

theorem storesAt_append (va : UInt32) (bs cs : List UInt8) :
    storesAt va (bs ++ cs) = storesAt va bs ++ storesAt (va + ofNat bs.length) cs := by
  induction bs generalizing va with
  | nil => simp [storesAt]
  | cons b bs ih =>
    have hone : va + 1 + ofNat bs.length = va + ofNat (bs.length + 1) := by
      rw [Nat.add_comm]
      exact add_ofNat_add va 1 bs.length
    simp only [List.cons_append, storesAt, ih, List.length_cons, hone]

theorem storeAll_append (mem : Memory) (va : UInt32) (bs cs : List UInt8) :
    storeAll as mem va (bs ++ cs) =
      storeAll as (storeAll as mem va bs) (va + ofNat bs.length) cs := by
  rw [storeAll, storesAt_append, List.foldl_append]
  rfl

/-- The page that `vm_fault` finds is a page. -/
theorem frame_mod {page f : UInt32} (hset : as.SetUp) (hpage : page.toNat % 4096 = 0)
    (hf : as.frame page = some f) : f &&& pageFrame = f := by
  obtain ⟨i, -, rfl⟩ := Option.map_eq_some_iff.1 hf
  have hv := hset.vbase_mod i
  have hp := hset.pbase_mod i
  rw [and_pageFrame_eq_self_iff, UInt32.toNat_add, UInt32.toNat_sub]
  have hlt := (as.vbase i).toNat_lt
  omega

/-- **Where `vm_fault` is called it does what the fate of the address says**,
a full TLB apart. -/
theorem vmFault_cases {ty : FaultType} (hty : ty ≠ .readonly) (lastpaddr : UInt32) (tlb : Tlb)
    (va : UInt32) :
    (∃ f, vmFault (some as) tlb ty va = .loaded f ((va &&& pageFrame, f) :: tlb)) ∨
    (∃ e, vmFault (some as) tlb ty va = .fails e ∧ (fate as lastpaddr va = .faults ∨
      (as.maps (va &&& pageFrame)).isSome ∧ numTlb ≤ tlb.length)) ∨
    (vmFault (some as) tlb ty va = .panics ∧ fate as lastpaddr va = .crashes) := by
  unfold vmFault fate
  by_cases hset : as.SetUp
  · simp only [hset, not_true_eq_false, if_false, if_true, hty]
    cases hf : as.frame (va &&& pageFrame) with
    | none =>
      have htr : as.translate va = none := by
        rw [AddrSpace.translate, AddrSpace.maps, if_pos hset, hf, Option.map_none]
      exact .inr (.inl ⟨_, rfl, .inl (by rw [htr])⟩)
    | some f =>
      have hmaps : as.maps (va &&& pageFrame) = some f := by
        rw [AddrSpace.maps, if_pos hset, hf]
      have hpage : (va &&& pageFrame).toNat % 4096 = 0 := by
        rw [toNat_and_pageFrame]
        omega
      simp only [frame_mod hset hpage hf, ne_eq, not_true_eq_false, if_false]
      by_cases hroom : tlb.length < numTlb
      · rw [if_pos hroom]
        exact .inl ⟨_, rfl⟩
      · rw [if_neg hroom]
        exact .inr (.inl ⟨_, rfl, .inr ⟨by rw [hmaps]; rfl, Nat.le_of_not_lt hroom⟩⟩)
  · simp only [hset, not_false_eq_true, if_true, if_false, hty]
    exact .inr (.inr ⟨trivial, trivial⟩)

/-- `vm_fault` cannot serve an access: the address has no frame, or no slot is free. -/
def Misses (as : AddrSpace) (lastpaddr va : UInt32) (tlb : Tlb) : Prop :=
  tlb.lookup (va &&& pageFrame) = none ∧ (fate as lastpaddr va = .faults ∨
    (as.maps (va &&& pageFrame)).isSome ∧ numTlb ≤ tlb.length)

theorem paged_nil : Paged [] := ⟨List.nodup_nil, fun _ h => by cases h⟩

/-- An entry for a page that has none. -/
theorem Paged.cons {tlb : Tlb} (h : Paged tlb) (hnone : tlb.lookup (va &&& pageFrame) = none)
    (f : UInt32) : Paged ((va &&& pageFrame, f) :: tlb) := by
  refine ⟨List.nodup_cons.2 ⟨fun hmem => ?_, h.1⟩, List.forall_mem_cons.2 ⟨?_, h.2⟩⟩
  · obtain ⟨e, he, hpage⟩ := List.mem_map.1 hmem
    exact absurd (List.lookup_eq_none_iff.1 hnone e he) (by simp [hpage])
  · rw [toNat_and_pageFrame]
    omega

/-- The pages of a run. -/
def pagesFrom (base : UInt32) (n : ℕ) : List UInt32 :=
  (List.range n).map fun k => base + UInt32.ofNat (4096 * k)

theorem mem_pagesFrom {base n page : UInt32} (hbase : base.toNat % 4096 = 0)
    (hpage : page.toNat % 4096 = 0) (hge : base ≤ page) (hlt : page < base + n * pageSize) :
    page ∈ pagesFrom base n.toNat := by
  have hsize : pageSize.toNat = 4096 := rfl
  rw [le_iff_toNat_le] at hge
  rw [lt_iff_toNat_lt, UInt32.toNat_add, UInt32.toNat_mul, hsize] at hlt
  have hp := page.toNat_lt
  refine List.mem_map.2 ⟨(page.toNat - base.toNat) / 4096, List.mem_range.2 ?_,
    UInt32.toNat_inj.1 ?_⟩
  · omega
  · rw [UInt32.toNat_add, UInt32.toNat_ofNat_of_lt' (show _ < 2 ^ 32 by omega)]
    omega

/-- **The TLB holds no more entries than there are pages.** -/
theorem Paged.length_le {tlb : Tlb} (h : Paged tlb) (hc : Coherent as tlb) :
    tlb.length ≤ pageCount as := by
  have hsub : tlb.map Prod.fst ⊆ pagesFrom as.vbase1 as.npages1.toNat ++
      pagesFrom as.vbase2 as.npages2.toNat ++
      pagesFrom (as.vbase .stack) dumbvmStackpages.toNat := by
    intro page hmem
    obtain ⟨e, he, rfl⟩ := List.mem_map.1 hmem
    have hmaps := hc e he
    have hmod := h.2 e he
    unfold AddrSpace.maps at hmaps
    split at hmaps
    swap
    · cases hmaps
    rename_i hset
    obtain ⟨i, hi, -⟩ := Option.map_eq_some_iff.1 hmaps
    have hv := hset.vbase_mod
    unfold AddrSpace.part at hi
    simp only at hi
    rw [List.mem_append, List.mem_append]
    split at hi
    · next hin => exact .inl (.inl (mem_pagesFrom (hv .one) hmod hin.1 hin.2))
    split at hi
    · next hin => exact .inl (.inr (mem_pagesFrom (hv .two) hmod hin.1 hin.2))
    split at hi
    · next hin =>
      refine .inr (mem_pagesFrom (hv .stack) hmod hin.1 ?_)
      rw [AddrSpace.vbase, UInt32.sub_add_cancel]
      exact hin.2
    · cases hi
  have hlen : ∀ base n, (pagesFrom base n).length = n := fun base n => by
    rw [pagesFrom, List.length_map, List.length_range]
  have hle := (h.1.subperm hsub).length_le
  rwa [List.length_append, List.length_append, hlen, hlen, hlen, List.length_map] at hle

/-- Where the TLB never runs full, an access that is not served has no frame. -/
theorem Misses.faults {tlb : Tlb} (h : Misses as lastpaddr va tlb) (hc : Coherent as tlb)
    (hp : Paged tlb) (hroom : tlb = [] ∨ pageCount as ≤ numTlb) :
    fate as lastpaddr va = .faults := by
  obtain ⟨hnone, hfate | ⟨hmaps, hfull⟩⟩ := h
  · exact hfate
  rcases hroom with rfl | hroom
  · exact absurd hfull (by decide)
  · -- an entry for the page would be one too many
    obtain ⟨f, hf⟩ := Option.isSome_iff_exists.1 hmaps
    have hlen := (hp.cons hnone f).length_le (List.forall_mem_cons.2 ⟨hf, hc⟩)
    rw [List.length_cons] at hlen
    omega

/-- What an access does, with the TLB as it is. -/
theorem touch_cases {ty : FaultType} (hty : ty ≠ .readonly) (hm : Loading q as lastpaddr m)
    (va : UInt32) :
    (∃ f tlb, m.heap.touch m.vmspace m.tlb ty va = .loaded f tlb ∧
      as.translate va = some (f + pageOffset va) ∧ Coherent as tlb ∧ Paged tlb) ∨
    (∃ e, m.heap.touch m.vmspace m.tlb ty va = .fails e ∧ Misses as lastpaddr va m.tlb) ∨
    (m.heap.touch m.vmspace m.tlb ty va = .panics ∧ fate as lastpaddr va = .crashes) := by
  have hq : q ≠ 0 := fun h => by
    have := hm.space
    rw [h, Heap.space_zero] at this
    cases this
  have hspace : m.heap.space m.vmspace = some as := hm.vmspace ▸ hm.space
  have hloaded : ∀ f tlb, m.heap.touch m.vmspace m.tlb ty va = .loaded f tlb →
      as.translate va = some (f + pageOffset va) ∧ Coherent as tlb :=
    fun f tlb h => Heap.touch_loaded hspace hm.coherent h
  cases hl : m.tlb.lookup (va &&& pageFrame) with
  | some f =>
    have htouch : m.heap.touch m.vmspace m.tlb ty va = .loaded f m.tlb := by
      rw [Heap.touch, hl]
    obtain ⟨htr, hc⟩ := hloaded f _ htouch
    exact .inl ⟨f, m.tlb, htouch, htr, hc, hm.paged⟩
  | none =>
    have htouch : m.heap.touch m.vmspace m.tlb ty va = vmFault (some as) m.tlb ty va := by
      rw [Heap.touch, hl]
      simp only [Heap.vmFault, hm.vmspace, hq, if_false, hm.space]
    rcases vmFault_cases hty lastpaddr m.tlb va with ⟨f, h⟩ | ⟨e, h, hfate⟩ | ⟨h, hfate⟩
    · obtain ⟨htr, hc⟩ := hloaded f _ (htouch.trans h)
      exact .inl ⟨f, _, htouch.trans h, htr, hc, hm.paged.cons hl f⟩
    · exact .inr (.inl ⟨e, htouch.trans h, hl, hfate⟩)
    · exact .inr (.inr ⟨htouch.trans h, hfate⟩)

theorem fate_of_translate (lastpaddr : UInt32) {pa : UInt32} (h : as.translate va = some pa) :
    fate as lastpaddr va = if pa < lastpaddr then .stored else .crashes := by
  have hset : as.SetUp := by
    by_contra hset
    rw [AddrSpace.translate, AddrSpace.maps, if_neg hset] at h
    cases h
  rw [fate, if_pos hset, h]

/-! ## One byte -/

/-- How a protected store ends that does not return. -/
def StoreStops (env : Env) (as : AddrSpace) (fates : Fate → Prop) (e : Stop Errno) : Prop :=
  (e = .longjmp ∧ (env.Spares as → fates .faults)) ∨ (e = .halt ∧ fates .crashes)

theorem Loading.record (hm : Loading q as lastpaddr m) (va : UInt32) :
    Loading q as lastpaddr (m.record va) :=
  { hm with }

theorem Loading.tick (hm : Loading q as lastpaddr m) : Loading q as lastpaddr (m.tick env) where
  vmspace := hm.vmspace
  space := hm.space
  lastpaddr := hm.lastpaddr
  coherent := by
    simp only [Machine.tick]
    split
    · exact fun _ h => by cases h
    · exact hm.coherent
  paged := by
    simp only [Machine.tick]
    split
    · exact paged_nil
    · exact hm.paged

theorem wp_access {ty : FaultType} (hty : ty ≠ .readonly) (hm : Loading q as lastpaddr m)
    (hb : m.badfaultfunc = true) (hva : va < userTop) :
    wp (access env ty va)
      (fun pa m' => Loading q as lastpaddr m' ∧ m'.badfaultfunc = true ∧ m'.mem = m.mem ∧
        as.translate va = some pa ∧ fate as lastpaddr va = .stored)
      (fun e m' => Loading q as lastpaddr m' ∧
        ((e = .longjmp ∧ Misses as lastpaddr va (m.tick env).tlb) ∨
          (e = .halt ∧ fate as lastpaddr va = .crashes))) m := by
  have hseg0 : ¬ (mipsKseg0 ≤ va ∧ va < mipsKseg1) := fun h => UInt32.not_le.2 hva h.1
  have hseg1 : ¬ (mipsKseg1 ≤ va ∧ va < mipsKseg2) := fun h =>
    UInt32.not_le.2 (UInt32.lt_trans hva (by decide)) h.1
  have hm₁ : Loading q as lastpaddr ((m.tick env).record va) := hm.tick.record va
  unfold access
  simp only [wp_bind, wp_modify]
  unfold physicalAddress
  rw [if_neg hseg0, if_neg hseg1]
  simp only [wp_bind, wp_get]
  rcases touch_cases hty hm₁ va with ⟨f, tlb, ht, htr, hc, hp⟩ | ⟨e, ht, hmiss⟩ | ⟨ht, hfate⟩
  · have hfate := fate_of_translate lastpaddr htr
    rw [ht]
    simp only [wp_bind, wp_set, wp_pure, wp_assert]
    have hlast : ((m.tick env).record va).ram.lastpaddr = lastpaddr := hm₁.lastpaddr
    rw [hlast]
    by_cases hlt : f + pageOffset va < lastpaddr
    · rw [if_pos hlt]
      exact ⟨{ hm₁ with coherent := hc, paged := hp }, hb, rfl, htr,
        hfate.trans (if_pos hlt)⟩
    · rw [if_neg hlt]
      exact ⟨{ hm₁ with coherent := hc, paged := hp },
        .inr ⟨trivial, hfate.trans (if_neg hlt)⟩⟩
  · rw [ht]
    have hbad : ((m.tick env).record va).badfaultfunc = true := hb
    simp only [fatalFault, wp_bind, wp_get, hbad, if_true, wp_longjmp]
    exact ⟨hm₁, .inl ⟨trivial, hmiss⟩⟩
  · rw [ht]
    exact wp_halt.2 ⟨hm₁, .inr ⟨rfl, hfate⟩⟩

theorem wp_storeByte (hm : Loading q as lastpaddr m) (hb : m.badfaultfunc = true)
    (hva : va < userTop) (b : UInt8) :
    wp (storeByte env va b)
      (fun _ m' => Loading q as lastpaddr m' ∧ m'.badfaultfunc = true ∧
        m'.mem = poke as m.mem (va, b) ∧ fate as lastpaddr va = .stored)
      (fun e m' => Loading q as lastpaddr m' ∧
        StoreStops env as (fun f => fate as lastpaddr va = f) e) m := by
  unfold storeByte
  refine wp_seq (wp_access (by decide) hm hb hva) (fun pa m' h => ?_) fun e m' h => ?_
  · obtain ⟨hm', hb', hmem, htr, hfate⟩ := h
    refine wp_modify.2 ⟨{ hm' with }, hb', ?_, hfate⟩
    simp only [poke, htr, hmem]
  · have htick : Loading q as lastpaddr (m.tick env) := hm.tick
    refine ⟨h.1, h.2.imp_left fun hj => ⟨hj.1, fun hs => ?_⟩⟩
    exact hj.2.faults htick.coherent htick.paged (hs.imp_left fun hs => if_pos (hs _))

/-! ## A run of bytes -/

theorem StopsIn.zero {f : Fate} (h : fate as lastpaddr va = f) (n : ℕ) :
    StopsIn as lastpaddr va (n + 1) f :=
  ⟨0, n.succ_pos, by rw [fateAt, ← h]; rw [show va + UInt32.ofNat 0 = va from UInt32.add_zero va],
    fun j hj => absurd hj j.not_lt_zero⟩

/-- Bytes that can be stored, and then more of them. -/
theorem stored_add (hs : ∀ i < n, fateAt as lastpaddr va i = .stored)
    (h : ∀ j < k, fateAt as lastpaddr (va + ofNat n) j = .stored) :
    ∀ j < n + k, fateAt as lastpaddr va j = .stored := by
  intro j hj
  by_cases hjn : j < n
  · exact hs j hjn
  · obtain ⟨j, rfl⟩ := Nat.exists_eq_add_of_le (Nat.le_of_not_lt hjn)
    exact (fateAt_add n j).symm.trans (h j (by omega))

/-- The bytes before can be stored. -/
theorem StopsIn.add {f : Fate} (hs : ∀ i < n, fateAt as lastpaddr va i = .stored)
    (h : StopsIn as lastpaddr (va + ofNat n) k f) : StopsIn as lastpaddr va (n + k) f := by
  obtain ⟨i, hi, hf, hbefore⟩ := h
  exact ⟨n + i, by omega, (fateAt_add n i).symm.trans hf, stored_add hs hbefore⟩

/-- The first byte that cannot be stored has one fate. -/
theorem StopsIn.unique {f f' : Fate} (h : StopsIn as lastpaddr va n f)
    (h' : StopsIn as lastpaddr va n f') (hf : f ≠ .stored) (hf' : f' ≠ .stored) : f = f' := by
  obtain ⟨i, hi, hfi, hi'⟩ := h
  obtain ⟨j, hj, hfj, hj'⟩ := h'
  rcases Nat.lt_trichotomy i j with hij | rfl | hij
  · exact absurd (hfi.symm.trans (hj' i hij)) hf
  · exact hfi.symm.trans hfj
  · exact absurd (hfj.symm.trans (hi' j hij)) hf'

theorem StopsIn.not_takes {f : Fate} (h : StopsIn as lastpaddr va n f) (hf : f ≠ .stored) :
    ¬ Takes as lastpaddr va n := by
  obtain ⟨i, hi, hfi, -⟩ := h
  exact fun ht => hf (hfi.symm.trans (ht i hi).2)

theorem wp_storeBytes {bs : List UInt8} (hm : Loading q as lastpaddr m)
    (hb : m.badfaultfunc = true) (hva : va.toNat + bs.length ≤ userTop.toNat) :
    wp (storeBytes env bs va)
      (fun _ m' => Loading q as lastpaddr m' ∧ m'.badfaultfunc = true ∧
        m'.mem = storeAll as m.mem va bs ∧ ∀ i < bs.length, fateAt as lastpaddr va i = .stored)
      (fun e m' => Loading q as lastpaddr m' ∧
        StoreStops env as (StopsIn as lastpaddr va bs.length) e) m := by
  induction bs generalizing va m with
  | nil => exact wp_pure.2 ⟨hm, hb, rfl, fun i hi => absurd hi i.not_lt_zero⟩
  | cons b bs ih =>
    rw [List.length_cons] at hva
    have hlt : va < userTop := lt_iff_toNat_lt.2 (by omega)
    have hnext : (va + 1).toNat + bs.length ≤ userTop.toNat := by
      rw [UInt32.toNat_add, UInt32.toNat_one]
      omega
    unfold storeBytes
    refine wp_seq (wp_storeByte hm hb hlt b) (fun _ m₁ h₁ => ?_) fun e m₁ h₁ => ?_
    · obtain ⟨hm₁, hb₁, hmem₁, hfate⟩ := h₁
      have hfirst : ∀ i < 1, fateAt as lastpaddr va i = .stored := by
        intro i hi
        obtain rfl : i = 0 := by omega
        rw [fateAt, ← hfate]
        rw [show va + UInt32.ofNat 0 = va from UInt32.add_zero va]
      refine wp_mono (ih hm₁ hb₁ hnext) (fun _ m' h => ?_) fun e m' h => ?_
      · obtain ⟨hm', hb', hmem', hrest⟩ := h
        refine ⟨hm', hb', hmem'.trans ?_, fun i hi => ?_⟩
        · rw [hmem₁]
          rfl
        · rcases i with _ | i
          · exact hfirst 0 Nat.one_pos
          · rw [Nat.add_comm i 1, ← fateAt_add]
            exact hrest i (by simpa using hi)
      · refine ⟨h.1, h.2.imp (fun hj => ⟨hj.1, fun hs => ?_⟩) fun hh => ⟨hh.1, ?_⟩⟩
        · rw [List.length_cons, Nat.add_comm]
          exact StopsIn.add hfirst (hj.2 hs)
        · rw [List.length_cons, Nat.add_comm]
          exact StopsIn.add hfirst hh.2
    · exact ⟨h₁.1, h₁.2.imp (fun hj => ⟨hj.1, fun hs => .zero (hj.2 hs) _⟩)
        fun hh => ⟨hh.1, .zero hh.2 _⟩⟩

/-! ## `copyout` -/

/-- **A checked copy**: the range lies in user space, or there is an error. -/
theorem wp_checked {α : Type} {copy : Kernel α} {len : UInt32} {Q : α → Machine → Prop}
    {E : Stop Errno → Machine → Prop} (hlen : 0 < len.toNat) :
    wp (do
      let stoplen ← ofExcept (copycheck va len)
      failIf (stoplen ≠ len) .EFAULT
      copy) Q E m ↔
        if va.toNat + len.toNat ≤ userTop.toNat then wp copy Q E m else E (.error .EFAULT) m := by
  have hne : len ≠ 0 := by
    rintro rfl
    exact absurd hlen (by decide)
  have hin : InUser va len ∧ len ≠ 0 ↔ va.toNat + len.toNat ≤ userTop.toNat := by
    rw [and_iff_left hne]
    exact ⟨And.right, fun h => ⟨lt_iff_toNat_lt.2 (by omega), h⟩⟩
  by_cases huser : va.toNat + len.toNat ≤ userTop.toNat
  · rw [if_pos huser, wp_congr ((checked_eq copy m).trans (if_pos (hin.2 huser)))]
  · rw [if_neg huser, wp_of_error ((checked_eq copy m).trans (if_neg fun h => huser (hin.1 h)))]

/-- How a copy of `n` bytes to `va` ends that does not return. -/
def CopyStops (env : Env) (as : AddrSpace) (lastpaddr va : UInt32) (n : ℕ) (e : Stop Errno) :
    Prop :=
  (∃ errno, e = .error errno ∧
    (env.Spares as → ¬ Takes as lastpaddr va n ∧ ¬ CopyHits as lastpaddr va n)) ∨
  (e = .halt ∧ CopyHits as lastpaddr va n)

/-- **The bytes `bs` have been stored from `va` on**, from `m` to `m'`. -/
structure Stored (q : UInt32) (as : AddrSpace) (last va : UInt32) (bs : List UInt8)
    (m m' : Machine) : Prop extends Loading q as last m' where
  guard : m'.badfaultfunc = false
  mem : m'.mem = storeAll as m.mem va bs
  takes : Takes as last va bs.length

/-- **`copyout` of a run of bytes** returns if all of them can be stored. -/
theorem wp_copyout {src : List UInt8} (hm : Loading q as lastpaddr m) (hpos : 0 < src.length)
    (hlen : src.length < 2 ^ 32) :
    wp (copyout env src va) (fun _ m' => Stored q as lastpaddr va src m m')
      (fun e m' => Loading q as lastpaddr m' ∧ CopyStops env as lastpaddr va src.length e) m := by
  have hn : (ofNat src.length).toNat = src.length := toNat_ofNat_of_lt' hlen
  unfold copyout
  rw [wp_checked (by omega), hn]
  split
  · rename_i huser
    simp only [protect, setBadfaultfunc, wp_bind, wp_modify, wp_setjmp]
    have hm₁ : Loading q as lastpaddr { m with badfaultfunc := true } := { hm with }
    refine wp_mono (wp_storeBytes hm₁ rfl huser) (fun _ m' h => ?_) fun e m' h => ?_
    · obtain ⟨hm', -, hmem, hstored⟩ := h
      simp only [wp_pure, wp_ofExcept]
      exact ⟨{ hm' with }, rfl, hmem, fun i hi => ⟨by omega, hstored i hi⟩⟩
    · obtain ⟨hm', ⟨rfl, hfault⟩ | ⟨rfl, hcrash⟩⟩ := h
      · simp only [wp_fail]
        refine ⟨{ hm' with }, .inl ⟨_, rfl, fun hs => ⟨(hfault hs).not_takes (by decide), ?_⟩⟩⟩
        exact fun hc => absurd ((hfault hs).unique hc.2 (by decide) (by decide)) (by decide)
      · exact ⟨hm', .inr ⟨rfl, huser, hcrash⟩⟩
  · rename_i huser
    refine ⟨hm, .inl ⟨_, rfl, fun _ => ⟨fun ht => huser ?_, fun hc => huser hc.1⟩⟩⟩
    have := (ht (src.length - 1) (by omega)).1
    omega

/-! ## Runs of copies -/

theorem toNat_add_ofNat (h : va.toNat + n < 2 ^ 32) :
    (va + UInt32.ofNat n).toNat = va.toNat + n := by
  rw [UInt32.toNat_add, UInt32.toNat_ofNat_of_lt' (show n < 2 ^ 32 by omega), Nat.mod_eq_of_lt h]

section

variable (h : Takes as lastpaddr va n)

include h

/-- Where bytes can be stored, addresses do not wrap around. -/
theorem Takes.toNat_add :
    (va + ofNat n).toNat = va.toNat + n := by
  have htop : userTop.toNat = 2 ^ 31 := rfl
  refine toNat_add_ofNat ?_
  have hva := va.toNat_lt
  rcases Nat.eq_zero_or_pos n with rfl | hpos
  · exact hva
  · have := (h (n - 1) (by omega)).1
    omega

theorem Takes.mono (hk : k ≤ n) : Takes as lastpaddr va k :=
  fun i hi => h i (by omega)

theorem Takes.add_iff :
    Takes as lastpaddr va (n + k) ↔ Takes as lastpaddr (va + ofNat n) k := by
  constructor
  · intro ht i hi
    obtain ⟨h1, h2⟩ := ht (n + i) (by omega)
    rw [h.toNat_add, fateAt_add]
    exact ⟨by omega, h2⟩
  · intro ht i hi
    by_cases hin : i < n
    · exact h i hin
    · obtain ⟨h1, h2⟩ := ht (i - n) (by omega)
      rw [h.toNat_add] at h1
      rw [fateAt_add, Nat.add_sub_cancel' (Nat.le_of_not_lt hin)] at h2
      exact ⟨by omega, h2⟩

end

/-- The first byte whose store does not come back is behind those that can be stored. -/
theorem crash_add {P : ℕ → Prop} (hs : ∀ i < n, fateAt as lastpaddr va i = .stored) :
    (∃ i < n + k, P i ∧ fateAt as lastpaddr va i = .crashes ∧
      ∀ j < i, fateAt as lastpaddr va j = .stored) ↔
    ∃ i < k, P (n + i) ∧ fateAt as lastpaddr (va + ofNat n) i = .crashes ∧
      ∀ j < i, fateAt as lastpaddr (va + ofNat n) j = .stored := by
  constructor
  · rintro ⟨i, hi, hP, hc, hbefore⟩
    have hin : n ≤ i := Nat.le_of_not_lt fun hlt => by
      rw [hs i hlt] at hc
      cases hc
    obtain ⟨i, rfl⟩ := Nat.exists_eq_add_of_le hin
    exact ⟨i, by omega, hP, (fateAt_add n i).trans hc, fun j hj =>
      (fateAt_add n j).trans (hbefore _ (by omega))⟩
  · rintro ⟨i, hi, hP, hc, hbefore⟩
    exact ⟨n + i, by omega, hP, (fateAt_add n i).symm.trans hc, stored_add hs hbefore⟩

theorem Takes.not_copyHits (h : Takes as lastpaddr va n) : ¬ CopyHits as lastpaddr va n := by
  rintro ⟨-, i, hi, hc, -⟩
  rw [(h i hi).2] at hc
  cases hc

/-- Where all of them can be stored, no copy fails to come back. -/
theorem Takes.not_readHits {pieces : List (List UInt8)}
    (h : Takes as lastpaddr va pieces.flatten.length) : ¬ ReadHits as lastpaddr va pieces := by
  induction pieces generalizing va with
  | nil => exact id
  | cons piece pieces ih =>
    rw [List.flatten_cons, List.length_append] at h
    have hfirst : Takes as lastpaddr va piece.length := h.mono (by omega)
    rintro (hc | ⟨-, hr⟩)
    · exact hfirst.not_copyHits hc
    · exact ih (hfirst.add_iff.1 h) hr

namespace Stored

variable {bs cs : List UInt8} {m₁ : Machine}

theorem nil (hm : Loading q as lastpaddr m) (hb : m.badfaultfunc = false) :
    Stored q as lastpaddr va [] m m :=
  ⟨hm, hb, rfl, fun i hi => absurd hi i.not_lt_zero⟩

/-- More bytes behind them. -/
theorem append (h : Stored q as lastpaddr va bs m m₁)
    (h' : Stored q as lastpaddr (va + ofNat bs.length) cs m₁ m') :
    Stored q as lastpaddr va (bs ++ cs) m m' where
  toLoading := h'.toLoading
  guard := h'.guard
  mem := by rw [h'.mem, h.mem, storeAll_append]
  takes := by
    rw [List.length_append]
    exact h.takes.add_iff.2 h'.takes

end Stored

/-- How the copying of pieces to `va` ends that does not return. -/
def ReadStops (env : Env) (as : AddrSpace) (lastpaddr va : UInt32) (pieces : List (List UInt8))
    (e : Stop Errno) : Prop :=
  (∃ errno, e = .error errno ∧ (env.Spares as →
    ¬ Takes as lastpaddr va pieces.flatten.length ∧ ¬ ReadHits as lastpaddr va pieces)) ∨
  (e = .halt ∧ ReadHits as lastpaddr va pieces)

variable {e : Stop Errno} {piece : List UInt8}

/-- The copy of the first piece has stopped. -/
theorem CopyStops.readStops (h : CopyStops env as lastpaddr va piece.length e)
    (pieces : List (List UInt8)) : ReadStops env as lastpaddr va (piece :: pieces) e := by
  rcases h with ⟨errno, rfl, hno⟩ | ⟨rfl, hh⟩
  · refine .inl ⟨errno, rfl, fun hsw => ?_⟩
    obtain ⟨hnt, hnh⟩ := hno hsw
    refine ⟨fun ht => hnt (ht.mono ?_), fun h => h.elim hnh fun h => hnt h.1⟩
    rw [List.flatten_cons, List.length_append]
    omega
  · exact .inr ⟨rfl, .inl hh⟩

/-- The copy of a later piece has stopped. -/
theorem ReadStops.cons {pieces : List (List UInt8)} (ht : Takes as lastpaddr va piece.length)
    (h : ReadStops env as lastpaddr (va + ofNat piece.length) pieces e) :
    ReadStops env as lastpaddr va (piece :: pieces) e := by
  rcases h with ⟨errno, rfl, hno⟩ | ⟨rfl, hh⟩
  · refine .inl ⟨errno, rfl, fun hsw => ?_⟩
    obtain ⟨hnt, hnh⟩ := hno hsw
    rw [List.flatten_cons, List.length_append, ht.add_iff]
    exact ⟨hnt, fun h => h.elim ht.not_copyHits fun h => hnh h.2⟩
  · exact .inr ⟨rfl, .inr ⟨ht, hh⟩⟩

/-- How the filling with `n` zeros ends that does not return. -/
def ZeroStops (env : Env) (as : AddrSpace) (lastpaddr va : UInt32) (n : ℕ) (e : Stop Errno) :
    Prop :=
  (∃ errno, e = .error errno ∧
    (env.Spares as → ¬ Takes as lastpaddr va n ∧ ¬ ZeroHits as lastpaddr va n)) ∨
  (e = .halt ∧ ZeroHits as lastpaddr va n)

/-- The first round has stopped. -/
theorem CopyStops.zeroStops (h : CopyStops env as lastpaddr va (min 16 n) e) :
    ZeroStops env as lastpaddr va n e := by
  rcases h with ⟨errno, rfl, hno⟩ | ⟨rfl, huser, i, hi, hc, hbefore⟩
  · refine .inl ⟨errno, rfl, fun hsw => ?_⟩
    obtain ⟨hnt, hnh⟩ := hno hsw
    refine ⟨fun ht => hnt (ht.mono (min_le_right _ _)), ?_⟩
    rintro ⟨i, hi, hle, hc, hbefore⟩
    by_cases hi16 : i < 16
    · have hround : min (16 * (i / 16 + 1)) n = min 16 n := by
        rw [Nat.div_eq_of_lt hi16]
      rw [hround] at hle
      exact hnh ⟨hle, i, by omega, hc, hbefore⟩
    · refine hnt fun j hj => ⟨?_, hbefore j (by omega)⟩
      omega
  · refine .inr ⟨rfl, i, by omega, ?_, hc, hbefore⟩
    rw [Nat.div_eq_of_lt (by omega)]
    exact huser

/-- A later round has stopped. -/
theorem ZeroStops.add (ht : Takes as lastpaddr va (min 16 n))
    (h : ZeroStops env as lastpaddr (va + ofNat (min 16 n)) (n - min 16 n) e) :
    ZeroStops env as lastpaddr va n e := by
  have hsplit : min 16 n + (n - min 16 n) = n := by omega
  have hstored : ∀ i < min 16 n, fateAt as lastpaddr va i = .stored := fun i hi => (ht i hi).2
  have hzero : ZeroHits as lastpaddr va n ↔
      ZeroHits as lastpaddr (va + ofNat (min 16 n)) (n - min 16 n) := by
    have hcrash := crash_add (k := n - min 16 n)
      (P := fun i => va.toNat + min (16 * (i / 16 + 1)) n ≤ userTop.toNat) hstored
    rw [hsplit] at hcrash
    refine hcrash.trans (exists_congr fun i => and_congr_right fun hi => and_congr_left' ?_)
    rw [ht.toNat_add]
    clear hcrash
    omega
  rcases h with ⟨errno, rfl, hno⟩ | ⟨rfl, hh⟩
  · refine .inl ⟨errno, rfl, fun hsw => ?_⟩
    rw [hzero]
    have hadd := ht.add_iff (k := n - min 16 n)
    rw [hsplit] at hadd
    rw [hadd]
    exact hno hsw
  · exact .inr ⟨rfl, hzero.2 hh⟩

end Userprog

end Os161
