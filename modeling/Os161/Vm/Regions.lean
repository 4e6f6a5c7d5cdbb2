import Os161.Common.Runs
import Os161.Vm.AddrSpace
import Mathlib.Order.Bounds.Basic
/-!
# The regions of a new address space

`load_elf` calls `as_define_region` with addresses and sizes from the file.
`as_define_region` rounds the size up to pages in 32 bits, and takes a region with a
base of zero for one that has not been set. Where neither matters, what has been
accepted stays covered (`regions_cover_iff`).
-/

namespace Os161

namespace Vm

open Function

variable {as as' : AddrSpace} {v sz : UInt32} {i : Part}

/-- A range that `as_define_region` is called for: its address and its size. -/
abbrev Range := UInt32 × UInt32

/-- The bytes of a range. -/
def Range.Has (r : Range) (b : ℕ) : Prop := r.1.toNat ≤ b ∧ b < r.1.toNat + r.2.toNat

/-- The bytes of a region. -/
def AddrSpace.InRegion (as : AddrSpace) (i : Part) (b : ℕ) : Prop :=
  (as.vbase i).toNat ≤ b ∧ b < (as.vbase i).toNat + (as.npages i).toNat * 4096

/-- The region that `as_define_region` sets. -/
def AddrSpace.slot (as : AddrSpace) : Option Part :=
  if as.vbase1 = 0 then some .one else if as.vbase2 = 0 then some .two else none

/-- The other region. -/
def Part.other : Part → Part
  | .one => .two
  | _ => .one

/-- A new address space after some calls of `as_define_region`, with the ranges that were
accepted and the one that each region was last set for. -/
structure Regions where
  space : AddrSpace
  accepted : List Range
  holds : Part → Option Range

namespace Regions

/-- What `as_create` makes. -/
def start : Regions := ⟨.zero, [], fun _ => none⟩

/-- A call of `as_define_region`. -/
def define (s : Regions) (r : Range) : Regions :=
  match s.space.slot, asDefineRegion s.space r.1 r.2 with
  | some i, .ok as => ⟨as, r :: s.accepted, update s.holds i (some r)⟩
  | _, _ => s

/-- **What has been accepted is covered**: every byte of every range lies in a region, the
bases are aligned, and a region has no more pages than the bytes of its range take. -/
structure Lawful (s : Regions) : Prop where
  covered : ∀ r ∈ s.accepted, ∀ b, r.Has b → s.space.InRegion .one b ∨ s.space.InRegion .two b
  aligned : s.space.vbase1.toNat % 4096 = 0 ∧ s.space.vbase2.toNat % 4096 = 0
  minimal : ∀ i r, s.holds i = some r → IsLeast {n | ∀ b, r.Has b →
    (s.space.vbase i).toNat ≤ b ∧ b < (s.space.vbase i).toNat + n * 4096} (s.space.npages i).toNat

/-- The bytes of the pages that a range touches. -/
def Touches (r : Range) (b : ℕ) : Prop :=
  r.1.toNat / 4096 * 4096 ≤ b ∧ b < (r.1.toNat + r.2.toNat + 4095) / 4096 * 4096

/-- The rounding does not wrap around and makes no page of an empty range, and what the
slot was set for before, if anything, is covered without it. -/
def Fits (s : Regions) (r : Range) : Prop :=
  ∀ i, s.space.slot = some i →
    r.1.toNat % 4096 + r.2.toNat + 4095 < 2 ^ 32 ∧ (r.2 = 0 → r.1.toNat % 4096 = 0) ∧
      ∀ q ∈ s.accepted, ∀ b, q.Has b → s.space.InRegion i.other b ∨ Touches r b

end Regions

theorem Part.other_ne (i : Part) : i.other ≠ i := by cases i <;> nofun

/-! ## One call -/

/-- The number of pages that `as_define_region` computes. -/
def regionPages (r : Range) : UInt32 :=
  ((r.2 + pageOffset r.1 + pageSize - 1) &&& pageFrame) / pageSize

theorem toNat_regionPages (r : Range) :
    (regionPages r).toNat = (r.1.toNat % 4096 + r.2.toNat + 4095) % 2 ^ 32 / 4096 := by
  have hsize : pageSize.toNat = 4096 := rfl
  have hlt := r.2.toNat_lt
  rw [regionPages, UInt32.toNat_div, toNat_and_pageFrame, UInt32.toNat_sub, UInt32.toNat_add,
    UInt32.toNat_add, toNat_pageOffset, UInt32.toNat_one, hsize]
  omega

/-- **What a call does** to an address space with a free slot: the region gets the page of
the address and the number of pages, and nothing else changes. -/
theorem asDefineRegion_of_slot (hslot : as.slot = some i) (r : Range) :
    ∃ as', asDefineRegion as r.1 r.2 = .ok as' ∧ as'.vbase i = r.1 &&& pageFrame ∧
      as'.npages i = regionPages r ∧ i ≠ .stack ∧
      as'.vbase i.other = as.vbase i.other ∧ as'.npages i.other = as.npages i.other := by
  unfold AddrSpace.slot at hslot
  unfold asDefineRegion
  split at hslot
  · rename_i h1
    cases hslot
    rw [if_pos h1]
    exact ⟨_, rfl, rfl, rfl, by nofun, rfl, rfl⟩
  · rename_i h1
    split at hslot
    · rename_i h2
      cases hslot
      rw [if_neg h1, if_pos h2]
      exact ⟨_, rfl, rfl, rfl, by nofun, rfl, rfl⟩
    · cases hslot

/-- A region of `n` pages from the page of the address on has the bytes of the range. -/
theorem covers_iff (r : Range) (n : ℕ) :
    (∀ b, r.Has b → (r.1 &&& pageFrame).toNat ≤ b ∧ b < (r.1 &&& pageFrame).toNat + n * 4096) ↔
      r.2.toNat = 0 ∨ r.1.toNat % 4096 + r.2.toNat ≤ n * 4096 := by
  rw [toNat_and_pageFrame]
  constructor
  · intro h
    rcases Nat.eq_zero_or_pos r.2.toNat with hzero | hpos
    · exact .inl hzero
    · have hlast := (h (r.1.toNat + r.2.toNat - 1) ⟨by omega, by omega⟩).2
      exact .inr (by omega)
  · rintro h b ⟨hlo, hhi⟩
    omega

/-- **The number of pages is the least one**, unless the rounding wraps around or makes a
page of an empty range. -/
theorem isLeast_regionPages_iff (r : Range) :
    IsLeast {n | ∀ b, r.Has b →
        (r.1 &&& pageFrame).toNat ≤ b ∧ b < (r.1 &&& pageFrame).toNat + n * 4096}
      (regionPages r).toNat ↔
    r.1.toNat % 4096 + r.2.toNat + 4095 < 2 ^ 32 ∧ (r.2 = 0 → r.1.toNat % 4096 = 0) := by
  have hlt := r.2.toNat_lt
  have hzero : r.2 = 0 ↔ r.2.toNat = 0 := UInt32.toNat_inj.symm
  simp only [covers_iff, toNat_regionPages, hzero]
  constructor
  · rintro ⟨hmem, hleast⟩
    have hmem : r.2.toNat = 0 ∨ r.1.toNat % 4096 + r.2.toNat ≤
        (r.1.toNat % 4096 + r.2.toNat + 4095) % 2 ^ 32 / 4096 * 4096 := hmem
    refine ⟨by omega, fun hz => ?_⟩
    have hle := hleast (show (0 : ℕ) ∈ {n | _} from .inl hz)
    omega
  · rintro ⟨hlt32, hempty⟩
    refine ⟨?_, fun m hm => ?_⟩
    · show r.2.toNat = 0 ∨ _
      omega
    · have hm : r.2.toNat = 0 ∨ r.1.toNat % 4096 + r.2.toNat ≤ m * 4096 := hm
      omega

namespace Regions

variable {s : Regions} {r : Range}

theorem Lawful.vbase_mod (hs : Lawful s) {j : Part} (hj : j ≠ .stack) :
    (s.space.vbase j).toNat % 4096 = 0 := by
  cases j with
  | one => exact hs.aligned.1
  | two => exact hs.aligned.2
  | stack => exact absurd rfl hj

/-- A call that is refused changes nothing. -/
theorem define_of_full (h : s.space.slot = none) : s.define r = s := by
  unfold define
  rw [h]

/-- **What a call that is accepted leaves.** -/
theorem define_of_slot (hslot : s.space.slot = some i) :
    (s.define r).accepted = r :: s.accepted ∧
      (s.define r).holds = update s.holds i (some r) ∧
      (s.define r).space.vbase i = r.1 &&& pageFrame ∧
      (s.define r).space.npages i = regionPages r ∧ i ≠ .stack ∧
      (s.define r).space.vbase i.other = s.space.vbase i.other ∧
      (s.define r).space.npages i.other = s.space.npages i.other := by
  obtain ⟨as', hok, hrest⟩ := asDefineRegion_of_slot hslot r
  unfold define
  rw [hslot, hok]
  exact ⟨rfl, rfl, hrest⟩

/-- Every part is the one that is set, the other region, or the stack. -/
theorem part_cases (hi : i ≠ .stack) (j : Part) : j = i ∨ j = i.other ∨ j = .stack := by
  cases i <;> cases j <;> simp_all [Part.other]

/-- The two regions in the order of the call. -/
theorem inRegion_or_iff (hi : i ≠ .stack) {b : ℕ} :
    as.InRegion .one b ∨ as.InRegion .two b ↔ as.InRegion i b ∨ as.InRegion i.other b := by
  cases i with
  | one => exact Iff.rfl
  | two => exact or_comm
  | stack => exact absurd rfl hi

/-- **A call keeps what has been accepted covered exactly if it fits.** -/
theorem Lawful.define_iff (hs : Lawful s) : Lawful (s.define r) ↔ Fits s r := by
  cases hslot : s.space.slot with
  | none =>
    rw [define_of_full hslot]
    exact iff_of_true hs fun i hi => by rw [hslot] at hi; cases hi
  | some i =>
    obtain ⟨hacc, hholds, hbase, hpages, hi, hbase', hpages'⟩ := define_of_slot (r := r) hslot
    have hother : ∀ b, (s.define r).space.InRegion i.other b ↔ s.space.InRegion i.other b := by
      intro b
      unfold AddrSpace.InRegion
      rw [hbase', hpages']
    have htouch : r.1.toNat % 4096 + r.2.toNat + 4095 < 2 ^ 32 →
        ∀ b, (s.define r).space.InRegion i b ↔ Touches r b := by
      intro hlt b
      unfold AddrSpace.InRegion Touches
      rw [hbase, hpages, toNat_and_pageFrame, toNat_regionPages, Nat.mod_eq_of_lt hlt]
      omega
    have hself : (s.define r).holds i = some r := by rw [hholds, update_self]
    constructor
    · intro h j hj
      obtain rfl : i = j := Option.some.inj (hslot.symm.trans hj)
      have hleast := h.minimal i r hself
      rw [hbase, hpages, isLeast_regionPages_iff] at hleast
      refine ⟨hleast.1, hleast.2, fun q hq b hb => ?_⟩
      have hcov := h.covered q (hacc ▸ List.mem_cons_of_mem _ hq) b hb
      rw [inRegion_or_iff hi, htouch hleast.1, hother] at hcov
      exact hcov.symm
    · intro h
      obtain ⟨hlt, hempty, hkeep⟩ := h i hslot
      have hmod : ∀ j, j ≠ .stack → ((s.define r).space.vbase j).toNat % 4096 = 0 := by
        intro j hj
        rcases part_cases hi j with rfl | rfl | rfl
        · rw [hbase, toNat_and_pageFrame]
          omega
        · rw [hbase']
          exact hs.vbase_mod hj
        · exact absurd rfl hj
      refine ⟨?_, ⟨hmod .one (by nofun), hmod .two (by nofun)⟩, fun j q hq => ?_⟩
      · rw [hacc]
        refine List.forall_mem_cons.2 ⟨fun b hb => ?_, fun q hq b hb => ?_⟩
        · rw [inRegion_or_iff hi, htouch hlt]
          have hb := hb
          unfold Range.Has at hb
          exact .inl ⟨by omega, by omega⟩
        · rw [inRegion_or_iff hi, htouch hlt, hother]
          exact (hkeep q hq b hb).symm
      · rw [hholds] at hq
        rcases part_cases hi j with rfl | rfl | rfl
        · rw [update_self] at hq
          obtain rfl := Option.some.inj hq
          rw [hbase, hpages]
          exact (isLeast_regionPages_iff r).2 ⟨hlt, hempty⟩
        · rw [update_of_ne i.other_ne] at hq
          rw [hbase', hpages']
          exact hs.minimal _ q hq
        · rw [update_of_ne (Ne.symm hi)] at hq
          exact hs.minimal .stack q hq

/-- A new address space. -/
theorem lawful_start : Lawful start := ⟨nofun, ⟨rfl, rfl⟩, nofun⟩

/-- One call, as a step of a run. -/
def step (s : Regions) (r : Range) : Option Regions := some (s.define r)

/-- **What `as_define_region` accepts stays covered as long as every call fits.** In every
run from a new address space whose calls all fit, what has been accepted is covered; and it
is so after the next call, whatever it is, exactly if that call fits. -/
theorem regions_cover_iff (s : Regions) (hs : Runs.Reachable step Fits start s) (r : Range) :
    Lawful s ∧ (Lawful (s.define r) ↔ Fits s r) := by
  have hlaw : Lawful s := hs.invariant lawful_start fun s r s' h hfit hstep => by
    cases hstep
    exact h.define_iff.2 hfit
  exact ⟨hlaw, hlaw.define_iff⟩

/-- A text segment, and then a data segment. -/
theorem regions_cover_two_segments :
    Lawful ((start.define (0x400000, 0x1234)).define (0x10000000, 0x20)) := by
  have hfits : Fits start (0x400000, 0x1234) := by
    intro i hi
    exact ⟨by decide, by decide, nofun⟩
  have hr : Runs.Reachable step Fits start (start.define (0x400000, 0x1234)) :=
    .tail .refl hfits rfl
  refine (regions_cover_iff _ hr (0x10000000, 0x20)).2.2 fun i hi => ?_
  obtain rfl : Part.two = i := Option.some.inj hi
  refine ⟨by decide, by decide, fun q hq b hb => .inl ?_⟩
  obtain rfl := List.mem_singleton.1 hq
  have hb : 0x400000 ≤ b ∧ b < 0x400000 + 0x1234 := hb
  show 0x400000 ≤ b ∧ b < 0x400000 + 2 * 4096
  omega

/-- **A size that wraps around, and a segment in page 0**: the first is accepted with no page
at all, the second is forgotten when the next segment is accepted. -/
theorem regions_lost :
    ¬ Lawful (start.define (0x400000, 0xffffffff)) ∧
      ¬ Lawful ((start.define (0, 0x1000)).define (0x400000, 0x1000)) := by
  constructor
  · intro h
    rcases h.covered _ List.mem_cons_self 0x400000 ⟨by decide, by decide⟩ with ⟨-, h2⟩ | ⟨-, h2⟩
    · exact absurd h2 (by decide)
    · exact absurd h2 (by decide)
  · intro h
    rcases h.covered (0, 0x1000) (List.mem_cons_of_mem _ List.mem_cons_self) 0
      ⟨by decide, by decide⟩ with ⟨h1, -⟩ | ⟨-, h2⟩
    · exact absurd h1 (by decide)
    · exact absurd h2 (by decide)

end Regions

end Vm

end Os161
