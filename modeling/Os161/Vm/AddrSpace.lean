import Os161.Vm.Model.AddrSpace
import Os161.Vm.Ram
/-!
# Frames of an address space

`vm_fault` computes with 32-bit sums that may wrap. Over the naturals, what
it finds for a page lies in the run of frames of one part
(`AddrSpace.translate_spec`), wherever the regions lie. `as_prepare_load`
gives the three parts runs of frames above everything handed out before
(`asPrepareLoad_spec`), and `as_copy` then makes every page of the copy read
as the original (`copyFrames_eq`).
-/

namespace Os161

namespace Vm

open Function AddrSpace Option

variable {as old new : AddrSpace} {a va pa : UInt32} {i j : Part}

/-! ## Pages -/

theorem toNat_and_pageFrame (a : UInt32) : (a &&& pageFrame).toNat = a.toNat / 4096 * 4096 := by
  have hmask : pageFrame.toNat = (2 ^ 20 - 1) <<< 12 := rfl
  have hround : a.toNat / 4096 * 4096 = (a.toNat >>> 12) <<< 12 := by
    rw [Nat.shiftRight_eq_div_pow, Nat.shiftLeft_eq]
  rw [UInt32.toNat_and, hmask, hround]
  refine Nat.eq_of_testBit_eq fun i => ?_
  rw [Nat.testBit_and, Nat.testBit_shiftLeft, Nat.testBit_shiftLeft,
    Nat.testBit_two_pow_sub_one, Nat.testBit_shiftRight]
  by_cases hi : 12 ≤ i
  · rw [Nat.add_sub_cancel' hi]
    by_cases h32 : i < 32
    · simp [hi, show i - 12 < 20 by omega]
    · -- above bit 31 there is nothing to mask
      have hbit : a.toNat.testBit i = false :=
        Nat.testBit_lt_two_pow
          (lt_of_lt_of_le a.toNat_lt (Nat.pow_le_pow_right (by decide) (by omega)))
      simp [hbit]
  · simp [hi]

theorem toNat_pageOffset (a : UInt32) : (pageOffset a).toNat = a.toNat % 4096 := by
  have hmask : (~~~pageFrame).toNat = 2 ^ 12 - 1 := rfl
  rw [pageOffset, UInt32.toNat_and, hmask, Nat.and_two_pow_sub_one_eq_mod]

theorem and_pageFrame_eq_self_iff : a &&& pageFrame = a ↔ a.toNat % 4096 = 0 := by
  rw [← UInt32.toNat_inj, toNat_and_pageFrame]
  omega

/-! ## The `if` chain -/

theorem AddrSpace.toNat_vbase_stack (as : AddrSpace) : (as.vbase .stack).toNat = 0x7fff4000 := by
  rw [vbase]
  decide

theorem AddrSpace.SetUp.vbase_mod (h : as.SetUp) (i : Part) : (as.vbase i).toNat % 4096 = 0 := by
  obtain ⟨-, -, -, -, -, -, -, h1, -, h2, -, -⟩ := h
  cases i with
  | one => exact and_pageFrame_eq_self_iff.1 h1
  | two => exact and_pageFrame_eq_self_iff.1 h2
  | stack => rw [toNat_vbase_stack]

theorem AddrSpace.SetUp.pbase_mod (h : as.SetUp) (i : Part) : (as.pbase i).toNat % 4096 = 0 := by
  obtain ⟨-, -, -, -, -, -, -, -, h1, -, h2, h3⟩ := h
  cases i with
  | one => exact and_pageFrame_eq_self_iff.1 h1
  | two => exact and_pageFrame_eq_self_iff.1 h2
  | stack => exact and_pageFrame_eq_self_iff.1 h3

theorem AddrSpace.SetUp.pbase_ne_zero (h : as.SetUp) (i : Part) : as.pbase i ≠ 0 := by
  obtain ⟨-, h1, -, -, h2, -, h3, -⟩ := h
  cases i with
  | one => exact h1
  | two => exact h2
  | stack => exact h3

/-- A page below the end of a run, as `vm_fault` compares them, is below it
over the naturals: wrapping only makes the end smaller. -/
theorem lt_of_lt_vtop {vbase npages : UInt32} (h : a < vbase + npages * pageSize) :
    a.toNat < vbase.toNat + npages.toNat * 4096 := by
  rw [UInt32.lt_iff_toNat_lt, UInt32.toNat_add, UInt32.toNat_mul] at h
  have hsize : pageSize.toNat = 4096 := rfl
  rw [hsize] at h
  omega

/-- **A page that the chain accepts is in its part.** -/
theorem AddrSpace.part_spec (h : as.part a = some i) :
    (as.vbase i).toNat ≤ a.toNat ∧
      a.toNat < (as.vbase i).toNat + (as.npages i).toNat * 4096 := by
  simp only [part] at h
  split at h
  · next hin =>
    cases h
    exact ⟨UInt32.le_iff_toNat_le.1 hin.1, lt_of_lt_vtop hin.2⟩
  split at h
  · next hin =>
    cases h
    exact ⟨UInt32.le_iff_toNat_le.1 hin.1, lt_of_lt_vtop hin.2⟩
  split at h
  · next hin =>
    cases h
    refine ⟨UInt32.le_iff_toNat_le.1 hin.1, ?_⟩
    have hlt : a.toNat < userStack.toNat := UInt32.lt_iff_toNat_lt.1 hin.2
    have htop : userStack.toNat = 0x7fff4000 + 12 * 4096 := by decide
    have hpages : (as.npages .stack).toNat = 12 := rfl
    rw [toNat_vbase_stack, hpages]
    omega
  · cases h

/-- The frames of a part, as addresses of bytes; none before they are
allocated. -/
def AddrSpace.block (as : AddrSpace) (i : Part) : Set ℕ :=
  {n | as.pbase i ≠ 0 ∧ (as.pbase i).toNat ≤ n ∧
    n < (as.pbase i).toNat + (as.npages i).toNat * 4096}

/-- The frames of an address space end below `hi`. -/
def AddrSpace.Below (as : AddrSpace) (hi : ℕ) : Prop :=
  ∀ i, as.pbase i ≠ 0 → (as.pbase i).toNat + (as.npages i).toNat * 4096 ≤ hi

theorem AddrSpace.Below.mono {lo hi : ℕ} (h : as.Below lo) (hle : lo ≤ hi) : as.Below hi :=
  fun i hi' => (h i hi').trans hle

/-- **What a user address stands for.** It keeps its distance from the base
of its part. -/
theorem AddrSpace.translate_spec (h : as.translate va = some pa) (hb : as.Below (2 ^ 32)) :
    as.SetUp ∧ ∃ i, as.part (va &&& pageFrame) = some i ∧ (as.vbase i).toNat ≤ va.toNat ∧
      va.toNat - (as.vbase i).toNat < (as.npages i).toNat * 4096 ∧
      pa.toNat = (as.pbase i).toNat + (va.toNat - (as.vbase i).toNat) := by
  obtain ⟨f, hf, rfl⟩ := map_eq_some_iff.1 h
  unfold maps at hf
  split at hf
  · next hset =>
    obtain ⟨i, hi, rfl⟩ := map_eq_some_iff.1 hf
    obtain ⟨hlo, hhi⟩ := part_spec hi
    have hv := hset.vbase_mod i
    have hbound := hb i (hset.pbase_ne_zero i)
    have hva : va.toNat < 2 ^ 32 := va.toNat_lt
    rw [toNat_and_pageFrame] at hlo hhi
    refine ⟨hset, i, hi, by omega, by omega, ?_⟩
    rw [UInt32.toNat_add, UInt32.toNat_add, UInt32.toNat_sub, toNat_and_pageFrame, toNat_pageOffset]
    omega
  · cases hf

/-- A user address stands for an address in a frame of its part. -/
theorem AddrSpace.mem_block_of_translate (h : as.translate va = some pa) (hb : as.Below (2 ^ 32)) :
    ∃ i, pa.toNat ∈ as.block i := by
  obtain ⟨hset, i, -, hlo, hlt, hpa⟩ := translate_spec h hb
  exact ⟨i, hset.pbase_ne_zero i, by omega, by omega⟩

/-- What `vm_fault` loads is the translation of the page. -/
theorem vmFault_loaded {tlb tlb' : Tlb} {faulttype : FaultType} {f : UInt32}
    (h : vmFault (some as) tlb faulttype va = .loaded f tlb') :
    as.maps (va &&& pageFrame) = some f ∧ tlb' = (va &&& pageFrame, f) :: tlb := by
  unfold vmFault at h
  simp only at h
  split at h
  · cases h
  split at h
  · cases h
  next hset =>
  rw [not_not] at hset
  cases hframe : as.frame (va &&& pageFrame) with
  | none =>
    rw [hframe] at h
    cases h
  | some paddr =>
    rw [hframe] at h
    simp only at h
    split at h
    · cases h
    split at h
    · cases h
      exact ⟨by rw [maps, if_pos hset, hframe], rfl⟩
    · cases h

/-- **Every entry of the TLB is one that `vm_fault` would load** for this
address space. -/
def Coherent (as : AddrSpace) (tlb : Tlb) : Prop := ∀ e ∈ tlb, as.maps e.1 = some e.2

/-- **An access reaches the translation of `vm_fault`**, through an entry of
the TLB or through the fault, and the TLB stays coherent. -/
theorem Heap.touch_loaded {h : Heap} {vmspace f : UInt32} {tlb tlb' : Tlb} {ty : FaultType}
    (has : h.space vmspace = some as) (hc : Coherent as tlb)
    (ht : h.touch vmspace tlb ty va = .loaded f tlb') :
    as.translate va = some (f + pageOffset va) ∧ Coherent as tlb' := by
  have key : as.maps (va &&& pageFrame) = some f ∧ Coherent as tlb' := by
    unfold Heap.touch at ht
    cases hl : tlb.lookup (va &&& pageFrame) with
    | some f' =>
      rw [hl] at ht
      cases ht
      obtain ⟨l₁, l₂, hmem, -⟩ := List.lookup_eq_some_iff.1 hl
      exact ⟨hc (va &&& pageFrame, f) (by rw [hmem]; simp), hc⟩
    | none =>
      have hne : vmspace ≠ 0 := fun hz => by
        rw [hz, Heap.space, h.null] at has
        cases has
      rw [hl] at ht
      simp only [Heap.vmFault, if_neg hne, has] at ht
      obtain ⟨hmaps, rfl⟩ := vmFault_loaded ht
      exact ⟨hmaps, List.forall_mem_cons.2 ⟨hmaps, hc⟩⟩
  exact ⟨by rw [AddrSpace.translate, key.1, map_some], key.2⟩

theorem asDefineRegion_pbase {vaddr sz : UInt32} {as' : AddrSpace}
    (h : asDefineRegion as vaddr sz = .ok as') (i : Part) : as'.pbase i = as.pbase i := by
  unfold asDefineRegion at h
  split at h
  · cases h
    cases i <;> rfl
  split at h
  · cases h
    cases i <;> rfl
  · cases h

/-! ## Loading -/

/-- The requests that `as_prepare_load` makes. -/
def AddrSpace.requests (as : AddrSpace) : List UInt32 :=
  [as.npages1, as.npages2, dumbvmStackpages]

/-- Every request is measured, in the order in which they are made. -/
def Ram.MeasuresAll (r : Ram) (ns : List UInt32) : Prop :=
  ∀ t ∈ steals r ns, t.before.Measures t.npages

instance (r : Ram) (ns : List UInt32) : Decidable (r.MeasuresAll ns) :=
  inferInstanceAs (Decidable (∀ t ∈ _, _))

/-- The address space `as` with frames of its own above `lo` and below `hi`. -/
structure Prepared (as as' : AddrSpace) (lo hi : ℕ) : Prop where
  vbase : ∀ i, as'.vbase i = as.vbase i
  npages : ∀ i, as'.npages i = as.npages i
  above : ∀ i, as'.pbase i ≠ 0 → lo ≤ (as'.pbase i).toNat
  aligned : ∀ i, as'.pbase i ≠ 0 → (as'.pbase i).toNat % 4096 = lo % 4096
  below : as'.Below hi
  disjoint : ∀ i j, i ≠ j → Disjoint (as'.block i) (as'.block j)

/-- From one address up to another by whole pages. -/
def Advances (lo hi : ℕ) : Prop := lo ≤ hi ∧ hi % 4096 = lo % 4096

theorem Advances.refl (n : ℕ) : Advances n n := ⟨le_rfl, rfl⟩

theorem Advances.trans {l m n : ℕ} (h : Advances l m) (h' : Advances m n) : Advances l n :=
  ⟨h.1.trans h'.1, h'.2.trans h.2⟩

/-- Frames found in the order of the parts, each above the last, are frames
of its own. -/
theorem prepared_of_order {lo m₁ m₂ hi : ℕ} {p₁ p₂ p₃ : UInt32} (hm₁ : Advances lo m₁)
    (hm₂ : Advances m₁ m₂) (hm₃ : Advances m₂ hi)
    (h₁ : p₁ ≠ 0 → Advances lo p₁.toNat ∧ p₁.toNat + as.npages1.toNat * 4096 ≤ m₁)
    (h₂ : p₂ ≠ 0 → Advances m₁ p₂.toNat ∧ p₂.toNat + as.npages2.toNat * 4096 ≤ m₂)
    (h₃ : p₃ ≠ 0 → Advances m₂ p₃.toNat ∧ p₃.toNat + dumbvmStackpages.toNat * 4096 ≤ hi) :
    Prepared as { as with pbase1 := p₁, pbase2 := p₂, stackpbase := p₃ } lo hi where
  vbase := by intro i; cases i <;> rfl
  npages := by intro i; cases i <;> rfl
  above := by
    intro i hi
    cases i with
    | one => exact (h₁ hi).1.1
    | two => exact (hm₁.trans (h₂ hi).1).1
    | stack => exact ((hm₁.trans hm₂).trans (h₃ hi).1).1
  aligned := by
    intro i hi
    cases i with
    | one => exact (h₁ hi).1.2
    | two => exact (hm₁.trans (h₂ hi).1).2
    | stack => exact ((hm₁.trans hm₂).trans (h₃ hi).1).2
  below := by
    intro i hi
    cases i with
    | one => exact (h₁ hi).2.trans (hm₂.trans hm₃).1
    | two => exact (h₂ hi).2.trans hm₃.1
    | stack => exact (h₃ hi).2
  disjoint := by
    intro i j hij
    refine Set.disjoint_left.2 ?_
    rintro n ⟨hi, hilo, hihi⟩ ⟨hj, hjlo, hjhi⟩
    have hle := hm₂.1
    cases i <;> cases j <;> simp only [pbase, npages] at * <;>
      first
        | exact hij rfl
        | (have h := (h₁ ‹_›).2; have h' := (h₂ ‹_›).1.1; omega)
        | (have h := (h₁ ‹_›).2; have h' := (h₃ ‹_›).1.1; omega)
        | (have h := (h₂ ‹_›).2; have h' := (h₃ ‹_›).1.1; omega)

/-- One measured request: what is handed back lies between the two free
pointers, and all of them are whole pages apart. -/
theorem getppages_spec {r : Ram} {n : UInt32} (hm : r.Measures n) (hpos : r.firstpaddr ≠ 0) :
    Advances r.firstpaddr.toNat (getppages r n).2.firstpaddr.toNat ∧
      (getppages r n).2.firstpaddr ≠ 0 ∧
      ((getppages r n).1 ≠ 0 → Advances r.firstpaddr.toNat (getppages r n).1.toNat ∧
        (getppages r n).1.toNat + n.toNat * 4096 ≤ (getppages r n).2.firstpaddr.toNat) := by
  unfold getppages
  rcases ramStealmem_of_measures hm with h | ⟨h1, -, h2⟩
  · rw [h]
    exact ⟨.refl _, hpos, fun hne => absurd rfl hne⟩
  · have hnext : (ramStealmem r n).2.firstpaddr ≠ 0 := by
      intro h0
      rw [h0, UInt32.toNat_zero] at h2
      exact hpos (UInt32.toNat_inj.1 (by rw [UInt32.toNat_zero]; omega))
    rw [h1]
    exact ⟨⟨by omega, by omega⟩, hnext, fun _ => ⟨.refl _, by omega⟩⟩

/-- **Frames of its own.** With measured requests `as_prepare_load` leaves
the regions as they were, and the parts it found memory for lie above
everything handed out before and do not meet; if it succeeds, that is every
part. -/
theorem asPrepareLoad_spec {e : Option Errno} {as' : AddrSpace} {r r' : Ram}
    (h : asPrepareLoad as r = some (e, as', r')) (hm : r.MeasuresAll as.requests)
    (hpos : r.firstpaddr ≠ 0) :
    Prepared as as' r.firstpaddr.toNat r'.firstpaddr.toNat ∧
      Advances r.firstpaddr.toNat r'.firstpaddr.toNat ∧ r'.firstpaddr ≠ 0 ∧
      (e = none → ∀ i, as'.pbase i ≠ 0) := by
  simp only [Ram.MeasuresAll, requests, steals, List.mem_cons, List.not_mem_nil,
    or_false, forall_eq_or_imp, forall_eq] at hm
  have hm2 : (getppages r as.npages1).2.Measures as.npages2 := hm.2.1
  have hm3 : (getppages (getppages r as.npages1).2 as.npages2).2.Measures dumbvmStackpages :=
    hm.2.2
  obtain ⟨hle1, hpos1, hp1⟩ := getppages_spec hm.1 hpos
  obtain ⟨hle2, hpos2, hp2⟩ := getppages_spec hm2 hpos1
  obtain ⟨hle3, hpos3, hp3⟩ := getppages_spec hm3 hpos2
  by_cases hzero : as.pbase1 = 0 ∧ as.pbase2 = 0 ∧ as.stackpbase = 0
  case neg =>
    rw [asPrepareLoad, if_neg hzero] at h
    cases h
  rw [asPrepareLoad, if_pos hzero] at h
  simp only at h
  obtain ⟨-, hz2, hz3⟩ := hzero
  -- a request that is refused is the last one, and the later parts stay at `0`
  have none₂ : ∀ {m : ℕ}, as.pbase2 ≠ 0 → Advances m as.pbase2.toNat ∧
      as.pbase2.toNat + as.npages2.toNat * 4096 ≤ m := fun hne => absurd hz2 hne
  have none₃ : ∀ {m : ℕ}, as.stackpbase ≠ 0 → Advances m as.stackpbase.toNat ∧
      as.stackpbase.toNat + dumbvmStackpages.toNat * 4096 ≤ m := fun hne => absurd hz3 hne
  generalize getppages r as.npages1 = g₁ at *
  generalize getppages g₁.2 as.npages2 = g₂ at *
  generalize getppages g₂.2 dumbvmStackpages = g₃ at *
  by_cases h1 : g₁.1 = 0
  · rw [if_pos h1] at h
    cases h
    exact ⟨prepared_of_order hle1 (.refl _) (.refl _) hp1 none₂ none₃, hle1, hpos1,
      fun he => by cases he⟩
  rw [if_neg h1] at h
  by_cases h2 : g₂.1 = 0
  · rw [if_pos h2] at h
    cases h
    exact ⟨prepared_of_order hle1 hle2 (.refl _) hp1 hp2 none₃, hle1.trans hle2, hpos2,
      fun he => by cases he⟩
  rw [if_neg h2] at h
  cases h
  refine ⟨prepared_of_order hle1 hle2 hle3 hp1 hp2 hp3, (hle1.trans hle2).trans hle3, hpos3, ?_⟩
  intro he i
  have h3 : g₃.1 ≠ 0 := fun h3 => by
    rw [if_pos h3] at he
    cases he
  cases i with
  | one => exact h1
  | two => exact h2
  | stack => exact h3

/-! ## Copying -/

variable {mem : Memory} {dst src len : UInt32} {lo hi : ℕ}

theorem memmove_of_mem (mem : Memory) (hd : dst.toNat + len.toNat ≤ 2 ^ 32)
    (hlo : dst.toNat ≤ a.toNat) (hhi : a.toNat < dst.toNat + len.toNat) :
    memmove mem dst src len a = mem (src + (a - dst)) := by
  refine if_pos (UInt32.lt_iff_toNat_lt.2 ?_)
  rw [UInt32.toNat_sub]
  omega

theorem memmove_of_not_mem (mem : Memory) (hd : dst.toNat + len.toNat ≤ 2 ^ 32)
    (h : a.toNat < dst.toNat ∨ dst.toNat + len.toNat ≤ a.toNat) :
    memmove mem dst src len a = mem a := by
  have ha : a.toNat < 2 ^ 32 := a.toNat_lt
  refine if_neg fun hlt => ?_
  rw [UInt32.lt_iff_toNat_lt, UInt32.toNat_sub] at hlt
  omega

/-- The `memmove` of one part. -/
def copyPart (old new : AddrSpace) (i : Part) (mem : Memory) : Memory :=
  memmove mem (new.pbase i) (old.pbase i) (old.npages i * pageSize)

section

variable (hp : Prepared old new lo hi)

include hp

section

variable (hhi : hi < 2 ^ 32)

include hhi

/-- A part whose frames end below `2 ^ 32` has a length that does not wrap. -/
theorem Prepared.toNat_len
    (hne : new.pbase i ≠ 0) : (old.npages i * pageSize).toNat = (new.npages i).toNat * 4096 := by
  have hsize : pageSize.toNat = 4096 := rfl
  have hb := hp.below i hne
  rw [hp.npages] at hb ⊢
  rw [UInt32.toNat_mul, hsize]
  omega

theorem copyPart_of_mem (h : a.toNat ∈ new.block i) :
    copyPart old new i mem a = mem (old.pbase i + (a - new.pbase i)) := by
  obtain ⟨hne, hlo, hlt⟩ := h
  have hb := hp.below i hne
  have hlen := hp.toNat_len hhi hne
  exact memmove_of_mem mem (by omega) hlo (by omega)

theorem copyPart_of_not_mem
    (hne : new.pbase i ≠ 0) (h : a.toNat ∉ new.block i) : copyPart old new i mem a = mem a := by
  have hb := hp.below i hne
  have hlen := hp.toNat_len hhi hne
  have hout : ¬ ((new.pbase i).toNat ≤ a.toNat ∧
      a.toNat < (new.pbase i).toNat + (new.npages i).toNat * 4096) := fun hin => h ⟨hne, hin⟩
  exact memmove_of_not_mem mem (by omega) (by omega)

/-- **Outside the new frames `as_copy` changes nothing.** -/
theorem copyFrames_of_not_mem (hne : ∀ i, new.pbase i ≠ 0) (h : ∀ i, a.toNat ∉ new.block i) :
    copyFrames old new mem a = mem a := by
  have hfold : copyFrames old new mem =
      copyPart old new .stack (copyPart old new .two (copyPart old new .one mem)) := rfl
  rw [hfold, copyPart_of_not_mem hp hhi (hne _) (h _), copyPart_of_not_mem hp hhi (hne _) (h _),
    copyPart_of_not_mem hp hhi (hne _) (h _)]

/-- **A new frame holds what the old one held.** The part it belongs to is
copied from frames that no copy writes, and no other copy writes it. -/
theorem copyFrames_of_mem (hne : ∀ i, new.pbase i ≠ 0) (h : a.toNat ∈ new.block i)
    (hsrc : ∀ j, (old.pbase i + (a - new.pbase i)).toNat ∉ new.block j) :
    copyFrames old new mem a = mem (old.pbase i + (a - new.pbase i)) := by
  have hfold : copyFrames old new mem =
      copyPart old new .stack (copyPart old new .two (copyPart old new .one mem)) := rfl
  have hother : ∀ j, j ≠ i → a.toNat ∉ new.block j := fun j hj hmem =>
    Set.disjoint_left.1 (hp.disjoint j i hj) hmem h
  rw [hfold]
  cases i with
  | one =>
    rw [copyPart_of_not_mem hp hhi (hne _) (hother _ (by decide)),
      copyPart_of_not_mem hp hhi (hne _) (hother _ (by decide)), copyPart_of_mem hp hhi h]
  | two =>
    rw [copyPart_of_not_mem hp hhi (hne _) (hother _ (by decide)), copyPart_of_mem hp hhi h,
      copyPart_of_not_mem hp hhi (hne _) (hsrc _)]
  | stack =>
    rw [copyPart_of_mem hp hhi h, copyPart_of_not_mem hp hhi (hne _) (hsrc _),
      copyPart_of_not_mem hp hhi (hne _) (hsrc _)]

end

theorem Prepared.same : new.vbase1 = old.vbase1 ∧ new.vbase2 = old.vbase2 ∧
    new.npages1 = old.npages1 ∧ new.npages2 = old.npages2 :=
  ⟨hp.vbase .one, hp.vbase .two, hp.npages .one, hp.npages .two⟩

/-- The address space that `as_copy` fills passes the assertions, if the one
it copies does. -/
theorem Prepared.setUp (hlo : lo % 4096 = 0)
    (hne : ∀ i, new.pbase i ≠ 0) (hset : old.SetUp) : new.SetUp := by
  have hal : ∀ i, (new.pbase i).toNat % 4096 = 0 := fun i => (hp.aligned i (hne i)).trans hlo
  obtain ⟨hv1, hv2, hn1, hn2⟩ := hp.same
  obtain ⟨h1, -, h2, h3, -, h4, -, h5, -, h6, -, -⟩ := hset
  refine ⟨hv1 ▸ h1, hne .one, hn1 ▸ h2, hv2 ▸ h3, hne .two, hn2 ▸ h4, hne .stack, hv1 ▸ h5,
    and_pageFrame_eq_self_iff.2 (hal .one), hv2 ▸ h6, and_pageFrame_eq_self_iff.2 (hal .two),
    and_pageFrame_eq_self_iff.2 (hal .stack)⟩

/-- The two address spaces send a page to the same part. -/
theorem Prepared.part_eq (a : UInt32) :
    new.part a = old.part a := by
  obtain ⟨hv1, hv2, hn1, hn2⟩ := hp.same
  simp only [part, hv1, hv2, hn1, hn2]

/-- **Every page of the copy reads as the original.** A user address is
mapped in both or in neither, and holds the same byte. -/
theorem copyFrames_eq (hlo : lo % 4096 = 0) (hhi : hi < 2 ^ 32)
    (hold : old.Below lo) (hne : ∀ i, new.pbase i ≠ 0) (hset : old.SetUp) (va : UInt32) :
    (new.translate va).map (copyFrames old new mem) =
      (old.translate va).map (copyFrames old new mem) := by
  have hset' : new.SetUp := hp.setUp hlo hne hset
  have hlohi : ∀ i, lo ≤ (new.pbase i).toNat := fun i => hp.above i (hne i)
  have hltlo : lo < 2 ^ 32 := by
    have h1 := hlohi .one
    have h2 := hp.below .one (hne .one)
    omega
  cases hpart : old.part (va &&& pageFrame) with
  | none =>
    simp only [AddrSpace.translate, maps, frame, if_pos hset, if_pos hset',
      hp.part_eq, hpart, map_none]
  | some i =>
    obtain ⟨pa, hpa⟩ : ∃ pa, old.translate va = some pa := by
      simp only [AddrSpace.translate, maps, frame, if_pos hset, hpart,
        map_some, some.injEq, exists_eq']
    obtain ⟨pa', hpa'⟩ : ∃ pa, new.translate va = some pa := by
      simp only [AddrSpace.translate, maps, frame, if_pos hset', hp.part_eq,
        hpart, map_some, some.injEq, exists_eq']
    obtain ⟨-, j, hj, hv, hlt, hpos⟩ := translate_spec hpa (hold.mono hltlo.le)
    obtain ⟨-, j', hj', hv', hlt', hpos'⟩ := translate_spec hpa' (hp.below.mono hhi.le)
    obtain rfl : i = j := some.inj (hpart.symm.trans hj)
    obtain rfl : i = j' := some.inj (hpart.symm.trans ((hp.part_eq _).symm.trans hj'))
    have hbelow := hold i (hset.pbase_ne_zero i)
    -- the old frames end where the new ones begin
    have hout : ∀ j, pa.toNat ∉ new.block j := fun j hmem => by
      have h1 := hlohi j
      have h2 := hmem.2.1
      omega
    have hin : pa'.toNat ∈ new.block i := ⟨hne i, by omega, by omega⟩
    have hsrc : old.pbase i + (pa' - new.pbase i) = pa := by
      rw [hp.vbase] at hpos'
      rw [← UInt32.toNat_inj, UInt32.toNat_add, UInt32.toNat_sub]
      have h1 : pa'.toNat < 2 ^ 32 := pa'.toNat_lt
      omega
    rw [hpa, hpa', map_some, map_some,
      copyFrames_of_mem hp hhi hne hin (by rw [hsrc]; exact hout), hsrc,
      copyFrames_of_not_mem hp hhi hne hout]

end

/-! ## Blocks -/

namespace Heap

variable {h h' : Heap} {q : UInt32}

theorem space_zero (h : Heap) : h.space 0 = none := by
  rw [space, h.null, map_none]

/-- **A new block is one that nobody had.** -/
theorem space_asCreate (hc : h.asCreate q = some h') :
    h.space q = none ∧ h'.space q = some .zero ∧ ∀ q', q' ≠ q → h'.space q' = h.space q' := by
  unfold asCreate at hc
  split at hc
  · cases hc
  · next hfree =>
    obtain rfl := some.inj hc
    rw [not_or, Bool.not_eq_true, isSome_eq_false_iff, isNone_iff_eq_none] at hfree
    refine ⟨by rw [space, hfree.2, map_none], ?_, fun q' hq' => ?_⟩
    · simp only [space, update_self, map_some]
    · simp only [space, update_of_ne hq']

theorem ne_of_asCreate {q' : UInt32} {as : AddrSpace} (hc : h.asCreate q = some h')
    (has : h.space q' = some as) : q' ≠ q := by
  rintro rfl
  rw [(space_asCreate hc).1] at has
  cases has

theorem space_asDestroy_self (h : Heap) (q : UInt32) : (h.asDestroy q).space q = none := by
  simp only [space, asDestroy, update_self, map_none]

theorem space_asDestroy_of_ne {q' : UInt32} (h : Heap) (hq : q' ≠ q) :
    (h.asDestroy q).space q' = h.space q' := by
  simp only [space, asDestroy, update_of_ne hq]

theorem space_store_self (h : Heap) (q : UInt32) (as : AddrSpace) :
    (h.store q as).space q = (h.space q).map fun _ => as := by
  simp only [space, store, if_true, map_map, comp_def]

theorem space_store_of_ne {q' : UInt32} (h : Heap) (as : AddrSpace) (hq : q' ≠ q) :
    (h.store q as).space q' = h.space q' := by
  simp only [space, store, if_neg hq]

/-! An allocation has a number, and a number is used once. -/

/-- The allocation with number `n` is over. -/
def Gone (h : Heap) (n : ℕ) : Prop := n < h.next ∧ ∀ p as, h.blocks p ≠ some (n, as)

theorem gone_asDestroy {n : ℕ} {as : AddrSpace} (hq : h.blocks q = some (n, as)) :
    (h.asDestroy q).Gone n := by
  refine ⟨h.lt_next q n as hq, fun p as' hp => ?_⟩
  simp only [asDestroy] at hp
  by_cases hpq : p = q
  · rw [hpq, update_self] at hp
    cases hp
  · rw [update_of_ne hpq] at hp
    exact hpq (h.inj p q n as' as hp hq)

theorem Gone.asCreate {n : ℕ} (hg : h.Gone n) (hc : h.asCreate q = some h') : h'.Gone n := by
  unfold Heap.asCreate at hc
  split at hc
  · cases hc
  obtain rfl := some.inj hc
  refine ⟨Nat.lt_succ_of_lt hg.1, fun p as hp => ?_⟩
  simp only at hp
  by_cases hpq : p = q
  · -- the new allocation has a number of its own
    rw [hpq, update_self] at hp
    have hn : h.next = n := congrArg Prod.fst (some.inj hp)
    exact absurd hn hg.1.ne'
  · rw [update_of_ne hpq] at hp
    exact hg.2 p as hp

theorem Gone.store {n : ℕ} (hg : h.Gone n) (q : UInt32) (as : AddrSpace) :
    (h.store q as).Gone n := by
  refine ⟨hg.1, fun p as' hp => ?_⟩
  simp only [Heap.store] at hp
  split at hp
  · obtain ⟨c, hc, he⟩ := map_eq_some_iff.1 hp
    obtain ⟨rfl, -⟩ := Prod.mk.inj he
    exact hg.2 q c.2 hc
  · exact hg.2 p as' hp

end Heap

end Vm

end Os161
