import Os161.Lib.KernelHeap
import Os161.Lib.Model.Kmem
import Os161.Vm.Ram
/-!
# `kmalloc` and the size it is asked for

The heap over the physical memory that there is. `kmalloc` rounds a large size up
to pages in 32 bits, and `ram_stealmem` adds them to `firstpaddr` in 32 bits. As
long as neither sum wraps, the pages are there and hold what was asked for; a size
within a page of `2 ^ 32` rounds to no page at all, which `alloc_kpages` hands out
(`kmalloc_honours_iff`).
-/

namespace Os161

namespace Kheap

open Prog Vm UInt32

variable {w w' : Memory} {h h' : Heap} {sz n : UInt32} {p q page : ℕ}
  {ks live : List (ℕ × ℕ)} {sz' : ℕ}

/-- **`kmalloc(sz)` has given `sz` bytes**: they lie in pages that `alloc_kpages` has
handed out, in memory that there is, and in no other live block. For a large size the
pages are those of this call, and as many as the size takes. -/
structure Holding (w w' : Memory) (p : ℕ) (sz : UInt32) : Prop where
  pages : ∃ page n, (page, n) ∈ w'.kernel.heap.kpages ∧ page ≤ p ∧
    p + sz.toNat ≤ page + n * pageSize ∧
    page + n * pageSize ≤ mipsKseg0.toNat + w.ram.lastpaddr.toNat ∧
    (largestSubpageSize ≤ sz.toNat → w'.kernel.heap.kpages = (page, n) :: w.kernel.heap.kpages ∧
      n = (sz.toNat + (pageSize - 1)) / pageSize)
  apart : ∀ e ∈ w.kernel.live, Apart p sz.toNat e.1 e.2

/-- **`kmalloc(sz)` honours the size**: it returns `NULL`, or `sz` bytes. -/
def Honours (w : Memory) (sz : UInt32) : Prop :=
  ∃ p w', w.kmalloc sz = some (p, w') ∧ (p = 0 ∨ Holding w w' p sz)

/-- Neither the sum that counts the pages wraps, nor the one that looks whether they are
there, unless to a value that is refused. -/
def Fits (w : Memory) (sz : UInt32) : Prop :=
  sz.toNat + (pageSize - 1) < 2 ^ 32 ∧
    (largestSubpageSize ≤ sz.toNat → w.ram.Measures (kmallocNpages sz))

/-- Sizes fit, and the heap is used as it should be. -/
def Meets (w : Memory) : Request → Prop
  | .kmalloc sz => Fits w sz
  | .kfree p => Allowed w.kernel (.kfree p)
  | .write a v => Allowed w.kernel (.write a v)
  | .getppages npages => w.ram.Measures npages

/-- What `start.S` leaves: a page-aligned address in the kernel's segment, with memory
behind it. -/
structure Booted (ramsize firstfree : UInt32) : Prop where
  aligned : firstfree.toNat % pageSize = 0
  above : mipsKseg0 < firstfree
  room : (ramBootstrap ramsize firstfree).firstpaddr ≤
    (ramBootstrap ramsize firstfree).lastpaddr

/-- A large block is what `alloc_kpages` gives. -/
theorem kmalloc_large {sz : ℕ} (hsz : largestSubpageSize ≤ sz) (page : ℕ) (h : Heap) :
    kmalloc page sz h = .ok page
      (if page = 0 then h else { h with kpages := (page, npages sz) :: h.kpages }) := by
  unfold kmalloc allocKpages
  rw [if_pos hsz]
  by_cases hpage : page = 0
  · rw [if_pos hpage, if_pos hpage, hpage]
    rfl
  · rw [if_neg hpage, if_neg hpage]
    rfl

/-! ## The pages that there are -/

theorem toNat_kmallocNpages (sz : UInt32) : (kmallocNpages sz).toNat = npages sz.toNat := by
  have hlt := sz.toNat_lt
  have hsize : Vm.pageSize.toNat = 4096 := rfl
  unfold kmallocNpages npages add32 pageSize
  rw [UInt32.toNat_div, UInt32.toNat_sub, UInt32.toNat_add, UInt32.toNat_one, hsize]
  omega

theorem toNat_pagesAsked (sz : UInt32) : (Memory.pagesAsked sz).toNat = pagesFor sz.toNat := by
  have hiff : sz ≥ 2048 ↔ sz.toNat ≥ largestSubpageSize := le_iff_toNat_le
  unfold Memory.pagesAsked pagesFor
  by_cases hsz : sz ≥ 2048
  · rw [if_pos hsz, if_pos (hiff.1 hsz), toNat_kmallocNpages]
  · rw [if_neg hsz, if_neg fun h => hsz (hiff.2 h)]
    rfl

/-- What `kmalloc` leaves of memory when it returns. -/
theorem Memory.kmalloc_of_ok
    (hr : Kheap.kmalloc (Vm.allocKpages w.ram (pagesAsked sz)).1.toNat sz.toNat w.kernel.heap =
      .ok p h') :
    w.kmalloc sz = some (p,
      ⟨if h'.kpages = w.kernel.heap.kpages then w.ram
        else (Vm.allocKpages w.ram (pagesAsked sz)).2,
      ⟨h', if p = 0 then w.kernel.live else (p, sz.toNat) :: w.kernel.live⟩⟩) := by
  unfold Memory.kmalloc
  dsimp only
  rw [hr]

theorem Memory.kmalloc_lastpaddr (hcall : w.kmalloc sz = some (p, w')) :
    w'.ram.lastpaddr = w.ram.lastpaddr := by
  unfold Memory.kmalloc at hcall
  dsimp only at hcall
  split at hcall
  · obtain ⟨-, rfl⟩ := Prod.mk.inj (Option.some.inj hcall)
    split
    · rfl
    · exact ramStealmem_lastpaddr _ _
  · cases hcall

/-- **Memory in order**: the heap is intact, and its pages lie below the first free
address. -/
structure Kept (w : Memory) : Prop where
  intact : Intact w.kernel
  sizes : ∀ e ∈ w.kernel.live, e.2 ≤ blockLen e.2
  first : 0 < w.ram.firstpaddr.toNat
  aligned : w.ram.firstpaddr.toNat % pageSize = 0
  le : w.ram.firstpaddr.toNat ≤ w.ram.lastpaddr.toNat
  last : w.ram.lastpaddr.toNat ≤ 508 * 1024 * 1024
  below : ∀ r ∈ w.kernel.heap.kpages, r.1 + r.2 * pageSize ≤ 2 ^ 31 + w.ram.firstpaddr.toNat

namespace Kept

/-- **What `alloc_kpages` does** with a count that it measures. -/
theorem allocKpages (hw : Kept w) (hm : w.ram.Measures n) :
    Vm.allocKpages w.ram n = (0, w.ram) ∨
      (Vm.allocKpages w.ram n).1.toNat = 2 ^ 31 + w.ram.firstpaddr.toNat ∧
      w.ram.firstpaddr.toNat + n.toNat * pageSize ≤ w.ram.lastpaddr.toNat ∧
      (Vm.allocKpages w.ram n).2.firstpaddr.toNat = w.ram.firstpaddr.toNat + n.toNat * pageSize ∧
      (Vm.allocKpages w.ram n).2.lastpaddr = w.ram.lastpaddr := by
  unfold Vm.allocKpages Vm.getppages
  rcases ramStealmem_of_measures hm with hno | ⟨hpa, hle, hfirst⟩
  · left
    rw [hno]
    rfl
  · right
    have hne : w.ram.firstpaddr ≠ 0 := fun h => absurd hw.first (by rw [h]; decide)
    have hlast := hw.last
    have hkseg : mipsKseg0.toNat = 2 ^ 31 := rfl
    refine ⟨?_, hle, hfirst, ramStealmem_lastpaddr _ _⟩
    dsimp only
    rw [hpa, if_neg hne, paddrToKvaddr, UInt32.toNat_add, hkseg]
    have := hw.le
    omega

/-- The pages that `alloc_kpages` gives are fresh. -/
theorem fresh (hw : Kept w) (hm : w.ram.Measures n) :
    (Vm.allocKpages w.ram n).1.toNat = 0 ∨
      FreshPages w.kernel.heap.kpages (Vm.allocKpages w.ram n).1.toNat n.toNat := by
  rcases hw.allocKpages hm with hno | ⟨hpage, hle, -, -⟩
  · rw [hno]
    exact .inl rfl
  · have hlast := hw.last
    have hal := hw.aligned
    right
    rw [hpage]
    rw [pageSize] at hle hal
    refine ⟨by omega, by rw [pageSize]; omega, by rw [pageSize]; omega, fun r hr => .inr ?_⟩
    exact hw.below r hr

/-- A small block takes at most one page. -/
theorem measures_pagesAsked (hw : Kept w) (hfits : Fits w sz) :
    w.ram.Measures (Memory.pagesAsked sz) := by
  unfold Memory.pagesAsked
  split
  · rename_i hsz
    exact hfits.2 (le_iff_toNat_le.1 hsz)
  · have hone : (1 : UInt32).toNat = 1 := rfl
    have hle := hw.le
    have hlast := hw.last
    left
    omega

/-- **Where a live block lies.** -/
theorem exists_run (hw : Intact ⟨h, live⟩) (hl : (p, sz') ∈ live) :
    ∃ page n, (page, n) ∈ h.kpages ∧ page ≤ p ∧ p + blockLen sz' ≤ page + n * pageSize ∧
      (largestSubpageSize ≤ sz' → page = p ∧ n = npages sz') := by
  obtain ⟨all, free, hp, hk, ho⟩ := hw
  rcases ho.cases hp hl with ⟨hsz, q, hq, hlen, hb, -, hhas⟩ | ⟨hsz, hr, -⟩
  · refine ⟨_, 1, hp.run q hq, hhas.1, ?_, fun h => absurd hsz (Nat.not_lt.2 h)⟩
    rw [← hlen, Nat.one_mul]
    exact (Pageref.block_le (hp.page q hq).type_lt hb).2
  · refine ⟨p, npages sz', hr, Nat.le_refl _, ?_, fun _ => ⟨rfl, rfl⟩⟩
    rw [blockLen, if_pos hsz]

section

variable (hw : Kept w)

include hw

/-- The pages that have come to the heap have been taken from memory. -/
theorem extend {live : List (ℕ × ℕ)} (hm : w.ram.Measures n)
    (hi : Intact ⟨h', live⟩) (hsizes : ∀ e ∈ live, e.2 ≤ blockLen e.2)
    (hext : Extended w.kernel.heap.kpages (Vm.allocKpages w.ram n).1.toNat n.toNat h'.kpages) :
    Kept ⟨if h'.kpages = w.kernel.heap.kpages then w.ram else (Vm.allocKpages w.ram n).2,
      ⟨h', live⟩⟩ := by
  rcases hext with hsame | ⟨hne, hcons⟩
  · rw [if_pos hsame]
    refine ⟨hi, hsizes, hw.first, hw.aligned, hw.le, hw.last, ?_⟩
    rw [hsame]
    exact hw.below
  · have hdiff : ¬ h'.kpages = w.kernel.heap.kpages := by
      rw [hcons]
      exact List.cons_ne_self _ _
    rw [if_neg hdiff]
    rcases hw.allocKpages hm with hno | ⟨hpage, hle, hfirst, hlast⟩
    · exact absurd (by rw [hno]; rfl) hne
    have hal := hw.aligned
    have hpos := hw.first
    refine ⟨hi, hsizes, ?_, ?_, ?_, ?_, ?_⟩ <;> dsimp only
    · omega
    · rw [hfirst]
      rw [pageSize] at hal ⊢
      omega
    · rw [hfirst, hlast]
      exact hle
    · rw [hlast]
      exact hw.last
    · rw [hcons, hfirst]
      refine List.forall_mem_cons.2 ⟨?_, fun r hr => ?_⟩
      · show (Vm.allocKpages w.ram n).1.toNat + n.toNat * pageSize ≤ _
        omega
      · have := hw.below r hr
        omega

/-- **A size that fits is honoured**, and memory stays in order. -/
theorem kmalloc (hfits : Fits w sz) :
    ∃ p w', w.kmalloc sz = some (p, w') ∧ Kept w' ∧ (p = 0 ∨ Holding w w' p sz) := by
  have hm := hw.measures_pagesAsked hfits
  have hpages := hw.fresh hm
  rw [toNat_pagesAsked] at hpages
  obtain ⟨p, h', hr, hg, hext⟩ := exists_ok_of_wp (hw.intact.kmalloc hfits.1 hpages)
  rw [← toNat_pagesAsked] at hext
  have hsizes : ∀ e ∈ if p = 0 then w.kernel.live else (p, sz.toNat) :: w.kernel.live,
      e.2 ≤ blockLen e.2 := by
    split
    · exact hw.sizes
    · exact List.forall_mem_cons.2 ⟨le_blockLen hfits.1, hw.sizes⟩
  have hkept := hw.extend hm hg.1 hsizes hext
  have hcall := Memory.kmalloc_of_ok hr
  refine ⟨p, _, hcall, hkept, or_iff_not_imp_left.2 fun hp => ?_⟩
  have hintact := hg.1
  rw [if_neg hp] at hintact
  obtain ⟨page, n, hmem, hpage, hend, hlarge⟩ := exists_run hintact List.mem_cons_self
  have hlen := le_blockLen hfits.1
  refine ⟨⟨page, n, hmem, hpage, by omega, ?_, fun hsz => ?_⟩, fun e he => ?_⟩
  · have hbelow := hkept.below _ hmem
    have hle := hkept.le
    rw [Memory.kmalloc_lastpaddr hcall] at hle
    exact hbelow.trans (Nat.add_le_add_left hle _)
  · obtain ⟨rfl, rfl⟩ := hlarge hsz
    rw [kmalloc_large hsz] at hr
    obtain ⟨hpage', hh'⟩ := EStateM.Result.ok.inj hr
    rw [hpage', if_neg hp] at hh'
    rw [← hh']
    exact ⟨rfl, npages_of_lt hfits.1⟩
  · obtain ⟨all, free, hp, hk, ho⟩ := hintact
    have hapart := List.rel_of_pairwise_cons (ho.apart_live hp hk) he
    have := hw.sizes e he
    unfold Apart at hapart ⊢
    dsimp only at hapart
    omega

/-- Something else takes pages. -/
theorem getppages (hm : w.ram.Measures n) :
    Kept { w with ram := (getppages w.ram n).2 } := by
  have hmono := firstpaddr_le_of_measures hm
  have hal := hw.aligned
  unfold Vm.getppages
  refine ⟨hw.intact, hw.sizes, Nat.lt_of_lt_of_le hw.first hmono, ?_, ?_, ?_, fun r hr => ?_⟩
  · rcases ramStealmem_of_measures hm with hno | ⟨-, -, hfirst⟩
    · rw [hno]
      exact hal
    · dsimp only
      rw [hfirst]
      rw [pageSize] at hal ⊢
      omega
  · dsimp only
    rw [ramStealmem_lastpaddr]
    rcases ramStealmem_of_measures hm with hno | ⟨-, hle, hfirst⟩
    · rw [hno]
      exact hw.le
    · rw [hfirst]
      exact hle
  · dsimp only
    rw [ramStealmem_lastpaddr]
    exact hw.last
  · exact (hw.below r hr).trans (Nat.add_le_add_left hmono _)

/-- The heap works on with pages that it has. -/
theorem heapStep {e : Event} {s' : Kernel} (ha : Allowed w.kernel e)
    (hs : w.kernel.step e = some s')
    (hks : ∀ r ∈ s'.heap.kpages, r ∈ w.kernel.heap.kpages) : Kept { w with kernel := s' } := by
  obtain ⟨hi, hsizes⟩ := hw.intact.step hw.sizes ha hs
  exact ⟨hi, hsizes, hw.first, hw.aligned, hw.le, hw.last, fun r hr => hw.below r (hks r hr)⟩

/-- **Every request that fits keeps memory in order.** -/
theorem step {e : Request} (hmeets : Meets w e) (hs : w.step e = some w') :
    Kept w' := by
  cases e with
  | kmalloc sz =>
    obtain ⟨p, w₁, hcall, hkept, -⟩ := hw.kmalloc hmeets
    unfold Memory.step at hs
    dsimp only at hs
    rw [hcall] at hs
    cases hs
    exact hkept
  | kfree p =>
    obtain ⟨s', hs', rfl⟩ := Option.map_eq_some_iff.1 hs
    have ha : Allowed w.kernel (.kfree p) := hmeets
    obtain ⟨h', -, hsub, hstep⟩ := hw.intact.step_kfree ha
    obtain rfl := Option.some.inj (hstep.symm.trans hs')
    exact hw.heapStep ha hs' fun r hr => hsub hr
  | write a v =>
    unfold Memory.step at hs
    obtain ⟨s', hs', rfl⟩ := Option.map_eq_some_iff.1 hs
    have ha : Allowed w.kernel (.write a v) := hmeets
    refine hw.heapStep ha hs' fun r hr => ?_
    cases hs'
    exact hr
  | getppages n =>
    cases hs
    exact hw.getppages hmeets

end

end Kept

/-- **After booting.** -/
theorem Booted.kept {ramsize firstfree : UInt32} (hb : Booted ramsize firstfree) (mem : ℕ → ℕ) :
    Kept (Memory.start ramsize firstfree mem) := by
  have habove := lt_iff_toNat_lt.1 hb.above
  have hal := hb.aligned
  have hkseg : mipsKseg0.toNat = 2 ^ 31 := rfl
  have hfirst : (ramBootstrap ramsize firstfree).firstpaddr.toNat = firstfree.toNat - 2 ^ 31 := by
    rw [ramBootstrap, UInt32.toNat_sub_of_le _ _ (UInt32.le_of_lt hb.above), hkseg]
  refine ⟨intact_start mem, nofun, ?_, ?_, le_iff_toNat_le.1 hb.room, ?_, nofun⟩
  · show 0 < (ramBootstrap ramsize firstfree).firstpaddr.toNat
    omega
  · show (ramBootstrap ramsize firstfree).firstpaddr.toNat % pageSize = 0
    rw [pageSize] at hal ⊢
    omega
  · show (ramBootstrap ramsize firstfree).lastpaddr.toNat ≤ _
    unfold ramBootstrap
    split
    · exact Nat.le_refl _
    · rename_i hle
      exact UInt32.le_iff_toNat_le.1 (UInt32.not_lt.1 hle)

/-! ## Sizes that wrap -/

/-- **A size that does not fit is granted all the same.** -/
theorem Kept.grants (hw : Kept w) (hno : ¬ Fits w sz) :
    largestSubpageSize ≤ sz.toNat ∧
      (Vm.allocKpages w.ram (Memory.pagesAsked sz)).1.toNat = 2 ^ 31 + w.ram.firstpaddr.toNat := by
  have hlt := sz.toNat_lt
  have hle := hw.le
  have hlast := hw.last
  have hlarge : largestSubpageSize ≤ sz.toNat := by
    by_contra hsmall
    rw [largestSubpageSize] at hsmall
    refine hno ⟨?_, fun h => ?_⟩
    · rw [pageSize]
      omega
    · rw [largestSubpageSize] at h
      omega
  refine ⟨hlarge, ?_⟩
  have hsz : sz ≥ 2048 := le_iff_toNat_le.2 hlarge
  have hasked : Memory.pagesAsked sz = kmallocNpages sz := if_pos hsz
  rw [hasked]
  have hgrant : (w.ram.firstpaddr.toNat + (kmallocNpages sz).toNat * 4096) % 2 ^ 32 ≤
      w.ram.lastpaddr.toNat := by
    by_cases hw32 : sz.toNat + (pageSize - 1) < 2 ^ 32
    · by_contra hbig
      exact hno ⟨hw32, fun _ => .inr (Nat.lt_of_not_le hbig)⟩
    · have hzero : (kmallocNpages sz).toNat = 0 := by
        rw [toNat_kmallocNpages, npages, add32]
        rw [pageSize] at hw32 ⊢
        omega
      omega
  rcases ramStealmem_cases w.ram (kmallocNpages sz) with ⟨hbig, -⟩ | ⟨-, hpa, -, -⟩
  · exact absurd hgrant (Nat.not_le.2 hbig)
  have hne : w.ram.firstpaddr ≠ 0 := fun h => absurd hw.first (by rw [h]; decide)
  have hkseg : mipsKseg0.toNat = 2 ^ 31 := rfl
  unfold Vm.allocKpages Vm.getppages
  dsimp only
  rw [hpa, if_neg hne, paddrToKvaddr, UInt32.toNat_add, hkseg]
  omega

/-- **What is honoured fits.** -/
theorem Kept.fits_of_honours (hw : Kept w) (h : Honours w sz) : Fits w sz := by
  by_contra hno
  obtain ⟨hlarge, hpage⟩ := hw.grants hno
  obtain ⟨p, w', hcall, hp⟩ := h
  have hr := kmalloc_large hlarge (Vm.allocKpages w.ram (Memory.pagesAsked sz)).1.toNat
    w.kernel.heap
  rw [hpage, if_neg (by omega)] at hr
  rw [Memory.kmalloc_of_ok (by rw [hpage]; exact hr)] at hcall
  obtain ⟨rfl, rfl⟩ := Prod.mk.inj (Option.some.inj hcall)
  rcases hp with hp | ⟨⟨page, n, -, hle, hend, htop, hthis⟩, -⟩
  · omega
  obtain ⟨hcons, hn⟩ := hthis hlarge
  obtain ⟨hpair, -⟩ := List.cons.inj hcons
  obtain ⟨rfl, rfl⟩ := Prod.mk.inj hpair
  have hkseg : mipsKseg0.toNat = 2 ^ 31 := rfl
  have hlast := hw.last
  refine hno ⟨?_, fun _ => .inl ?_⟩
  · by_contra hwrap
    rw [pageSize] at hn hwrap
    have := sz.toNat_lt
    omega
  · rw [toNat_kmallocNpages]
    rw [pageSize] at htop
    omega

/-- **`kmalloc` honours the sizes that fit, and no others.** In every run of the kernel
whose requests all fit, the next size is honoured exactly if it fits. -/
theorem kmalloc_honours_iff (ramsize firstfree : UInt32) (mem : ℕ → ℕ)
    (hb : Booted ramsize firstfree) (w : Memory)
    (hw : Runs.Reachable Memory.step Meets (Memory.start ramsize firstfree mem) w) (sz : UInt32) :
    Honours w sz ↔ Fits w sz := by
  have hkept : Kept w := hw.invariant (hb.kept mem) fun _ _ _ h hm hs => h.step hm hs
  refine ⟨hkept.fits_of_honours, fun hfits => ?_⟩
  obtain ⟨p, w', hcall, -, hp⟩ := hkept.kmalloc hfits
  exact ⟨p, w', hcall, hp⟩

theorem booted_four_megabytes : Booted 0x400000 0x80030000 where
  aligned := by decide
  above := by decide
  room := by decide

instance (w : Memory) : DecidablePred (Meets w) := fun
  | .kmalloc _ => inferInstanceAs (Decidable (_ ∧ (_ → _)))
  | .kfree p => inferInstanceAs (Decidable (Allowed w.kernel (.kfree p)))
  | .write a v => inferInstanceAs (Decidable (Allowed w.kernel (.write a v)))
  | .getppages npages => inferInstanceAs (Decidable (w.ram.Measures npages))

/-- A hundred bytes on a machine with 4 MB of memory, with a small block and a large one in
use and a block that has been given back. -/
theorem kmalloc_honours_hundred :
    ∃ w, Runs.Reachable Memory.step Meets (Memory.start 0x400000 0x80030000 fun _ => 0) w ∧
      w.kernel.live = [(0x80031000, 5000), (0x80030f00, 100)] ∧ Honours w 100 := by
  obtain ⟨w, hw, hlive⟩ := Runs.exists_of_exec (Runs.guarded Memory.step Meets)
    (Memory.start 0x400000 0x80030000 fun _ => 0)
    [.kmalloc 100, .kmalloc 100, .kmalloc 5000, .kfree 0x80030f80]
    (fun w => w.kernel.live = [(0x80031000, 5000), (0x80030f00, 100)]) (by decide +kernel)
  obtain ⟨hr, -⟩ := Runs.reachable_of_exec_guarded hw
  exact ⟨w, hr, hlive, (kmalloc_honours_iff _ _ _ booted_four_megabytes w hr 100).2
    ⟨by decide, fun h => absurd h (by decide)⟩⟩

/-- **`kmalloc(0xffffffff)` returns a pointer to nothing**: no page is taken, and the next
allocation gets the same address. -/
theorem kmalloc_gives_nothing :
    (∃ w', (Memory.start 0x400000 0x80030000 fun _ => 0).kmalloc 0xffffffff =
        some (0x80030000, w') ∧ w'.kernel.heap.kpages = [(0x80030000, 0)] ∧
        w'.ram = Vm.ramBootstrap 0x400000 0x80030000) ∧
      ¬ Honours (Memory.start 0x400000 0x80030000 fun _ => 0) 0xffffffff := by
  refine ⟨⟨_, rfl, rfl, rfl⟩, fun h => ?_⟩
  exact absurd ((booted_four_megabytes.kept _).fits_of_honours h).1 (by decide)

end Kheap

end Os161
