import Os161.Vm.Model.Ram
/-!
# Physical memory is handed out once

The whole of `ram_stealmem` is one comparison of two 32-bit values. Where
neither the product `npages * PAGE_SIZE` nor the sum with `firstpaddr`
wraps, the comparison is the one over the naturals, and the allocator is a
bump allocator: each block begins where the last one ended
(`steals_bounds`), so blocks are in range and disjoint
(`handsOutOnce_of_measures`). A request that wraps and is granted all the
same is never in range, which makes the condition exact
(`handsOutOnce_iff`).
-/

namespace Os161

namespace Vm

variable {r : Ram} {n : UInt32} {ns : List UInt32}

/-- The sum `ram_stealmem` compares, read as a natural number. -/
theorem toNat_firstpaddr_add (r : Ram) (n : UInt32) :
    (r.firstpaddr + n * pageSize).toNat =
      (r.firstpaddr.toNat + n.toNat * 4096) % 2 ^ 32 := by
  rw [UInt32.toNat_add, UInt32.toNat_mul]
  have : pageSize.toNat = 4096 := rfl
  rw [this]
  omega

/-- **What a request does.** It is refused and changes nothing, or it hands
back `firstpaddr` and moves it past the block, modulo `2 ^ 32`. -/
theorem ramStealmem_cases (r : Ram) (n : UInt32) :
    (r.lastpaddr.toNat < (r.firstpaddr.toNat + n.toNat * 4096) % 2 ^ 32 ∧
      ramStealmem r n = (0, r)) ∨
    ((r.firstpaddr.toNat + n.toNat * 4096) % 2 ^ 32 ≤ r.lastpaddr.toNat ∧
      (ramStealmem r n).1 = r.firstpaddr ∧
      (ramStealmem r n).2.lastpaddr = r.lastpaddr ∧
      (ramStealmem r n).2.firstpaddr.toNat =
        (r.firstpaddr.toNat + n.toNat * 4096) % 2 ^ 32) := by
  rw [← toNat_firstpaddr_add]
  unfold ramStealmem
  by_cases h : r.firstpaddr + n * pageSize > r.lastpaddr
  · left
    exact ⟨UInt32.lt_iff_toNat_lt.1 h, by simp only [if_pos h]⟩
  · right
    refine ⟨?_, ?_⟩
    · exact Nat.le_of_not_lt fun hlt => h (UInt32.lt_iff_toNat_lt.2 hlt)
    · simp only [if_neg h, and_self]

/-- The end of memory never moves. -/
theorem ramStealmem_lastpaddr (r : Ram) (n : UInt32) :
    (ramStealmem r n).2.lastpaddr = r.lastpaddr := by
  rcases ramStealmem_cases r n with ⟨-, h⟩ | ⟨-, -, h, -⟩
  · rw [h]
  · exact h

/-- **A measured request, over the naturals.** It is refused with the
allocator unchanged, or it is a block that ends inside memory, and the
next one starts where it ends. -/
theorem ramStealmem_of_measures (hm : r.Measures n) :
    (ramStealmem r n = (0, r)) ∨
    ((ramStealmem r n).1 = r.firstpaddr ∧
      r.firstpaddr.toNat + n.toNat * 4096 ≤ r.lastpaddr.toNat ∧
      (ramStealmem r n).2.firstpaddr.toNat = r.firstpaddr.toNat + n.toNat * 4096) := by
  rcases ramStealmem_cases r n with ⟨-, h⟩ | ⟨hle, h1, -, h2⟩
  · exact .inl h
  · right
    rcases hm with hlt | hbig
    · rw [Nat.mod_eq_of_lt hlt] at hle h2
      exact ⟨h1, hle, h2⟩
    · omega

/-- A measured request never lowers the free pointer. -/
theorem firstpaddr_le_of_measures (hm : r.Measures n) :
    r.firstpaddr.toNat ≤ (ramStealmem r n).2.firstpaddr.toNat := by
  rcases ramStealmem_of_measures hm with h | ⟨-, -, h⟩
  · rw [h]
  · omega

/-- **Where every later block lies.** Along a run of measured requests, a
block handed back begins at or above the free pointer the run started
from, and ends inside memory. -/
theorem steals_bounds (ns : List UInt32) (r : Ram)
    (hm : ∀ t ∈ steals r ns, t.before.Measures t.npages) :
    ∀ t ∈ steals r ns, t.paddr ≠ 0 → r.firstpaddr.toNat ≤ t.paddr.toNat ∧
      t.paddr.toNat + t.npages.toNat * 4096 ≤ r.lastpaddr.toNat := by
  induction ns generalizing r with
  | nil => intro t ht; cases ht
  | cons n ns ih =>
    intro t ht hne
    simp only [steals, List.mem_cons, forall_eq_or_imp] at hm ht
    have hstep := ramStealmem_of_measures hm.1
    rcases ht with rfl | ht
    · -- the first request of the run
      rcases hstep with h | ⟨h1, h2, -⟩
      · exact absurd (by rw [h]) hne
      · simp only [h1]
        exact ⟨le_rfl, h2⟩
    · obtain ⟨hlo, hhi⟩ := ih _ hm.2 t ht hne
      rw [ramStealmem_lastpaddr] at hhi
      have hmono : r.firstpaddr.toNat ≤ (ramStealmem r n).2.firstpaddr.toNat :=
        firstpaddr_le_of_measures hm.1
      exact ⟨by omega, hhi⟩

/-- **Blocks do not meet.** The first block of a run of measured requests
ends where the free pointer is left, and every later one begins at or
above that. -/
theorem steals_pairwise (ns : List UInt32) (r : Ram)
    (hm : ∀ t ∈ steals r ns, t.before.Measures t.npages) :
    (steals r ns).Pairwise fun t u =>
      t.paddr ≠ 0 → u.paddr ≠ 0 → Disjoint t.range u.range := by
  induction ns generalizing r with
  | nil => exact List.Pairwise.nil
  | cons n ns ih =>
    simp only [steals, List.mem_cons, forall_eq_or_imp] at hm
    refine List.Pairwise.cons ?_ (ih _ hm.2)
    intro u hu hne hune
    have hlo := (steals_bounds ns _ hm.2 u hu hune).1
    rcases ramStealmem_of_measures hm.1 with h | ⟨h1, -, h2⟩
    · exact absurd (by rw [h]) hne
    · refine Set.disjoint_left.2 fun x hx hx' => ?_
      simp only [Steal.range, h1, Set.mem_Ico] at hx hx'
      omega

theorem after_eq_of_mem_steals (ns : List UInt32) (r : Ram) :
    ∀ t ∈ steals r ns, t.after = (ramStealmem t.before t.npages).2 := by
  induction ns generalizing r with
  | nil => exact fun t ht => by cases ht
  | cons n ns ih => exact List.forall_mem_cons.2 ⟨rfl, ih _⟩

/-- **Measured requests are served once**, whatever their sizes and order. -/
theorem handsOutOnce_of_measures (hm : ∀ t ∈ steals r ns, t.before.Measures t.npages) :
    HandsOutOnce r ns where
  inRange t ht hne := by
    obtain ⟨hlo, hhi⟩ := steals_bounds ns r hm t ht hne
    exact Set.Ico_subset_Ico hlo hhi
  disjoint := steals_pairwise ns r hm
  mono t ht := by
    rw [UInt32.le_iff_toNat_le, after_eq_of_mem_steals ns r t ht]
    exact firstpaddr_le_of_measures (hm t ht)

/-- **What is left of a run after a measured request** is a run from where
that request leaves the allocator: the later blocks avoid the first one,
so they lie above it. -/
theorem HandsOutOnce.tail (h : HandsOutOnce r (n :: ns)) (hpos : r.firstpaddr ≠ 0)
    (hm : r.Measures n) : HandsOutOnce (ramStealmem r n).2 ns where
  inRange t ht hne := by
    have hin := h.inRange t (List.mem_cons_of_mem _ ht) hne
    have hdisj := (List.pairwise_cons.1 h.disjoint).1 t ht
    rcases ramStealmem_of_measures hm with heq | ⟨h1, -, h2⟩
    · rw [heq]
      exact hin
    · intro x hx
      have hx' := Set.mem_Ico.1 (hin hx)
      rw [Set.mem_Ico, ramStealmem_lastpaddr, h2]
      refine ⟨?_, hx'.2⟩
      by_contra hlt
      refine Set.disjoint_left.1 (hdisj (by simpa only [h1] using hpos) hne) ?_ hx
      simp only [Steal.range, h1, Set.mem_Ico]
      omega
  disjoint := (List.pairwise_cons.1 h.disjoint).2
  mono t ht := h.mono t (List.mem_cons_of_mem _ ht)

/-- **A request that wraps and is granted is out of range.** The block it
claims ends past `2 ^ 32`, and memory does not. -/
theorem measures_of_handsOutOnce (hpos : r.firstpaddr ≠ 0) (h : HandsOutOnce r (n :: ns)) :
    r.Measures n := by
  by_contra hno
  simp only [Ram.Measures, not_or, not_lt] at hno
  rcases ramStealmem_cases r n with ⟨hlt, -⟩ | ⟨-, h1, -, -⟩
  · omega
  · have hsub := h.inRange _ List.mem_cons_self (by simpa only [h1] using hpos)
    have hfirst := r.firstpaddr.toNat_lt
    have hlast := r.lastpaddr.toNat_lt
    -- the last byte of the block is in memory, yet at or above `2 ^ 32 - 1`
    have hmem : r.firstpaddr.toNat + n.toNat * 4096 - 1 ∈
        Set.Ico r.firstpaddr.toNat r.lastpaddr.toNat := by
      refine hsub ?_
      simp only [Steal.range, h1, Set.mem_Ico]
      omega
    rw [Set.mem_Ico] at hmem
    omega

/-- **When physical memory is handed out once.** A run of requests never
hands a byte out twice, never leaves memory and never lowers the free
pointer exactly when every request of it is measured. Physical address `0`
is not allocatable, which is what `hpos` says of the start. -/
theorem handsOutOnce_iff (r : Ram) (ns : List UInt32) (hpos : r.firstpaddr ≠ 0) :
    HandsOutOnce r ns ↔ ∀ t ∈ steals r ns, t.before.Measures t.npages := by
  refine ⟨fun h => ?_, handsOutOnce_of_measures⟩
  induction ns generalizing r with
  | nil => intro t ht; cases ht
  | cons n ns ih =>
    have hm := measures_of_handsOutOnce hpos h
    have hpos' : (ramStealmem r n).2.firstpaddr ≠ 0 := by
      have hmono := firstpaddr_le_of_measures hm
      intro h0
      rw [h0] at hmono
      exact hpos (UInt32.toNat_inj.1 (Nat.le_zero.1 hmono))
    intro t ht
    rcases List.mem_cons.1 ht with rfl | ht
    · exact hm
    · exact ih _ hpos' (h.tail hpos hm) t ht

/-- Two ordinary requests on a machine with 4 MB of memory. -/
theorem handsOutOnce_iff_two_requests :
    HandsOutOnce (ramBootstrap 0x400000 0x80030000) [3, 12] :=
  (handsOutOnce_iff _ _ (by decide)).2 (by
    simp only [steals, List.mem_cons, List.not_mem_nil, or_false, forall_eq_or_imp, forall_eq]
    exact ⟨.inl (by decide), .inl (by decide)⟩)

/-- **A size chosen by a user program lowers the free pointer.** `kmalloc`
of `0xfffff000` bytes asks for `0xfffff` pages; the sum wraps to one page
below `firstpaddr`, the test passes, and a block of almost four gigabytes
is handed back. -/
theorem not_handsOutOnce_of_kmalloc :
    kmallocNpages 0xfffff000 = 0xfffff ∧
      ¬ HandsOutOnce (ramBootstrap 0x400000 0x80030000) [kmallocNpages 0xfffff000] := by
  refine ⟨by decide, fun h => ?_⟩
  have hmono := h.mono _ List.mem_cons_self
  exact absurd hmono (by decide)

end Vm

end Os161
