import Os161.Libc.UserHeap
/-!
# `malloc` and the size it is asked for

`malloc` rounds the size up to cells and adds a header, each in 32 bits. A size within
8 bytes of `2 ^ 32` becomes 0 by the rounding, and the next 8 sizes below become an
`sbrk(0)` by the header. What comes back is then a block without the bytes that were
asked for, if anything comes back at all (`malloc_honours_iff`).
-/

namespace Os161

namespace Libc

open Layout Prog

variable {granted : ℕ → Bool} {h h₀ h' : Heap} {bs : List Block} {n p : ℕ}
  {E : Stop Exit → Heap → Prop}

/-- The heap that `malloc` works on: `h`, set up first if that has not been done. -/
def SetUp (granted : ℕ → Bool) (h h₀ : Heap) : Prop :=
  (h.heapbase ≠ 0 ∧ h₀ = h) ∨ (h.heapbase = 0 ∧ mallocInit granted h = .ok () h₀)

/-- The heap is as it was. -/
structure SameHeap (h h' : Heap) : Prop where
  heapbase : h'.heapbase = h.heapbase
  heaptop : h'.heaptop = h.heaptop
  brk : h'.brk = h.brk
  mem : ∀ a < h.heaptop, h'.mem a = h.mem a

/-- **`malloc(n)` honours the size**: it returns `NULL` and leaves the heap as it was, or a
block of a heap in order, the data area of which has at least `n` bytes and ends at or
before the top. -/
def HonoursSize (granted : ℕ → Bool) (n : ℕ) (h h₀ : Heap) : Prop :=
  ∃ p h', malloc granted n h = .ok p h' ∧
    (p = 0 ∧ SameHeap h₀ h' ∨
      ∃ bs x b, TiledBy 8 h' bs ∧ NoTwoFree bs ∧ InUse h'.heapbase bs x b ∧ p = x + 8 ∧
        n ≤ areaSize h' p ∧ p + areaSize h' p ≤ h'.heaptop)

/-- The size wraps around and there is something to be had all the same: `sbrk` grants an
empty block, or the size has become 0 and some block is free. -/
def Wraps (granted : ℕ → Bool) (n : ℕ) (h : Heap) (bs : List Block) : Prop :=
  2 ^ 32 ≤ roundUp n + 8 ∧
    (granted 2 = true ∧ h.heaptop + 8 < 2 ^ 32 ∨ 2 ^ 32 < n + 8 ∧ ∃ b ∈ bs, b.used = false)

theorem SetUp.malloc_eq (hset : SetUp granted h h₀) (n : ℕ) :
    malloc granted n h = mallocInited granted n h₀ := by
  rcases hset with ⟨hne, rfl⟩ | ⟨hzero, hinit⟩
  · show (if h₀.heapbase = 0 then _ else _ : User ℕ) h₀ = _
    rw [if_neg hne]
  · show (if h.heapbase = 0 then _ else _ : User ℕ) h = _
    rw [if_pos hzero]
    exact bind_of_ok hinit

/-- The headers of a heap are below its top. -/
theorem TiledBy.congr {least : ℕ} (ht : TiledBy least h bs) (hs : SameHeap h h') :
    TiledBy least h' bs where
  base_pos := hs.heapbase ▸ ht.base_pos
  base_mod := hs.heapbase ▸ ht.base_mod
  laid := by
    rw [hs.heapbase]
    refine ht.laid.imp fun a q d _ hend ha => ha.congr (hs.mem a ?_)
    have := ha.pos
    have := ht.top
    omega
  top := by rw [hs.heapbase, hs.heaptop, ht.top]
  brk := by rw [hs.brk, hs.heaptop, ht.brk]
  top_lt := hs.heaptop ▸ ht.top_lt

theorem SameHeap.refl (h : Heap) : SameHeap h h := ⟨rfl, rfl, rfl, fun _ _ => rfl⟩

/-- Only sizes that do not wrap have room below the top. -/
theorem lt_of_area {bs : List Block} {x : ℕ} {b : Block} (ht : TiledBy 8 h bs)
    (hb : InUse h.heapbase bs x b) (hn : n ≤ areaSize h (x + 8))
    (hend : x + 8 + areaSize h (x + 8) ≤ h.heaptop) : n + 16 < 2 ^ 32 := by
  have hlow := (ht.placed_le hb.1).1
  have hmod := ht.placed_mod hb.1
  have hpos := ht.base_pos
  have hlt := ht.top_lt
  omega

/-! ## Sizes that do not wrap -/

/-- **A size that does not wrap is honoured.** -/
theorem honoursSize_of_lt (hset : SetUp granted h h₀) (ht : TiledBy 8 h₀ bs) (hc : NoTwoFree bs)
    (hw : roundUp n + 8 < 2 ^ 32) : HonoursSize granted n h h₀ := by
  have hwp : wp (mallocInited granted n) (fun p h' => Gives 8 granted h₀ bs (roundUp n) p h')
      (fun _ _ => False) h₀ := wp_mallocInited ht hc (by omega) (by omega) hw
  obtain ⟨p, h', hr, hg⟩ := exists_ok_of_wp hwp
  refine ⟨p, h', (hset.malloc_eq n).trans hr, ?_⟩
  rcases hg with ⟨hp, rfl, -⟩ | ⟨-, x, b, bs', rfl, hle, hbase, -, ht', hc', -, huse⟩
  · exact .inl ⟨hp, SameHeap.refl _⟩
  · have hb : InUse h'.heapbase bs' x b := hbase ▸ (huse x b).2 (.inr ⟨rfl, rfl⟩)
    have hn := le_roundUp n
    have hend := (ht'.placed_le hb.1).2
    refine .inr ⟨bs', x, b, ht', hc', hb, rfl, ?_, ?_⟩
    · rw [ht'.areaSize_eq hb.1]
      omega
    · rw [ht'.areaSize_eq hb.1]
      omega

/-! ## Sizes that wrap -/

/-- A size that becomes 0 by the rounding. -/
theorem mallocInited_of_round (hn : n < 2 ^ 32) (hbig : 2 ^ 32 < n + 8) :
    mallocInited granted n = mallocInited granted 0 := by
  have hsize : add32 n (mblocksize - 1) / mblocksize * mblocksize =
      add32 0 (mblocksize - 1) / mblocksize * mblocksize := by
    rw [add32, add32, mblocksize]
    omega
  unfold mallocInited
  rw [hsize]

/-- **A size that becomes 0 by the header**: `sbrk(0)` gives the top of the heap. -/
theorem wp_mallocInited_of_header (ht : TiledBy 8 h bs) (hwrap : roundUp n + 8 = 2 ^ 32) :
    wp (mallocInited granted n)
      (fun p h' => if granted 2 = true then p = mData h.heaptop ∧ SameHeap h h'
        else p = 0 ∧ h' = h) (fun _ _ => False) h := by
  have hlt := ht.top_lt
  refine wp_mallocInited_of ht (by unfold roundUp at hwrap; omega) (fun x b hb _ hbig => ?_)
    fun amount hamount _ => ?_
  · -- no block is that large
    have hend := (ht.placed_le hb).2
    omega
  obtain rfl : amount = 0 := by
    rw [hamount, add32, mblocksize, hwrap, Nat.mod_self]
  by_cases hg : granted 2 = true
  · rw [if_pos ⟨hg, hlt⟩, if_pos hg]
    refine ⟨rfl, rfl, rfl, ht.brk.symm, fun a ha => ?_⟩
    exact Function.update_of_ne (Nat.ne_of_lt ha) _ _
  · rw [if_neg fun h => hg h.1, if_neg hg]
    exact ⟨rfl, rfl⟩

/-- Of a size that wraps around, only `NULL` can be right. -/
theorem honoursSize_iff_null (hwrap : 2 ^ 32 ≤ roundUp n + 8) (hr : malloc granted n h = .ok p h')
    (hsame : p = 0 → SameHeap h₀ h') : HonoursSize granted n h h₀ ↔ p = 0 := by
  refine ⟨fun hh => ?_, fun hp => ⟨p, h', hr, .inl ⟨hp, hsame hp⟩⟩⟩
  obtain ⟨p', h'', hr', hcase⟩ := hh
  obtain ⟨rfl, rfl⟩ := EStateM.Result.ok.inj (hr.symm.trans hr')
  rcases hcase with ⟨hp, -⟩ | ⟨bs, x, b, ht, -, hb, rfl, hn, hend⟩
  · exact hp
  · have hlt := lt_of_area ht hb hn hend
    unfold roundUp at hwrap
    omega

/-- A size that becomes 0 by the rounding is honoured if nothing is to be had. -/
theorem honoursSize_iff_of_round (hset : SetUp granted h h₀) (ht : TiledBy 8 h₀ bs)
    (hc : NoTwoFree bs) (hn : n < 2 ^ 32) (hbig : 2 ^ 32 < n + 8) :
    HonoursSize granted n h h₀ ↔ ¬ Room granted h₀ bs 0 := by
  have hwrap : 2 ^ 32 ≤ roundUp n + 8 := by
    unfold roundUp
    omega
  have hwp : wp (mallocInited granted 0) (fun p h' => Gives 8 granted h₀ bs 0 p h')
      (fun _ _ => False) h₀ :=
    wp_mallocInited ht hc (by omega) (by decide) (by decide)
  obtain ⟨p, h', hr, hg⟩ := exists_ok_of_wp hwp
  rw [← mallocInited_of_round hn hbig, ← hset.malloc_eq] at hr
  rcases hg with ⟨rfl, rfl, hroom⟩ | ⟨hroom, x, b, bs', rfl, -⟩
  · rw [honoursSize_iff_null hwrap hr fun _ => SameHeap.refl _]
    exact iff_of_true rfl hroom
  · rw [honoursSize_iff_null hwrap hr fun h => absurd h (by omega)]
    exact iff_of_false (by omega) (not_not.2 hroom)

/-- A size that becomes 0 by the header is honoured if `sbrk(0)` is refused. -/
theorem honoursSize_iff_of_header (hset : SetUp granted h h₀) (ht : TiledBy 8 h₀ bs)
    (hwrap : roundUp n + 8 = 2 ^ 32) :
    HonoursSize granted n h h₀ ↔ ¬ (granted 2 = true ∧ h₀.heaptop + 8 < 2 ^ 32) := by
  have hlt := ht.top_lt
  have hmod := ht.top_mod
  have hwp : wp (mallocInited granted n)
      (fun p h' => if granted 2 = true then p = mData h₀.heaptop ∧ SameHeap h₀ h'
        else p = 0 ∧ h' = h₀) (fun _ _ => False) h₀ := wp_mallocInited_of_header ht hwrap
  obtain ⟨p, h', hr, hg⟩ := exists_ok_of_wp hwp
  rw [← hset.malloc_eq] at hr
  by_cases hgr : granted 2 = true
  · rw [if_pos hgr] at hg
    rw [honoursSize_iff_null (by omega) hr fun _ => hg.2, hg.1, mData, add32, mblocksize,
      and_iff_right hgr]
    omega
  · rw [if_neg hgr] at hg
    obtain ⟨rfl, rfl⟩ := hg
    rw [honoursSize_iff_null (by omega) hr fun _ => SameHeap.refl _]
    exact iff_of_true rfl fun h => hgr h.1

/-- **`malloc` honours the sizes that do not wrap around**; of the others it honours those
for which it finds nothing. -/
theorem malloc_honours_iff (granted : ℕ → Bool) (n : ℕ) (h h₀ : Heap) (bs : List Block)
    (hn : n < 2 ^ 32) (hset : SetUp granted h h₀) (ht : TiledBy 8 h₀ bs) (hc : NoTwoFree bs) :
    HonoursSize granted n h h₀ ↔ ¬ Wraps granted n h₀ bs := by
  unfold Wraps
  rcases Nat.lt_or_ge (roundUp n + 8) (2 ^ 32) with hw | hw
  · exact iff_of_true (honoursSize_of_lt hset ht hc hw) fun h => absurd h.1 (Nat.not_le.2 hw)
  rw [and_iff_right hw]
  rcases Nat.lt_or_ge (2 ^ 32) (n + 8) with hbig | hsmall
  · rw [honoursSize_iff_of_round hset ht hc hn hbig, and_iff_right hbig]
    unfold Room
    rw [or_comm]
    simp only [Nat.zero_le, and_true, Nat.zero_add]
  · have hwrap : roundUp n + 8 = 2 ^ 32 := by
      unfold roundUp at hw ⊢
      omega
    rw [honoursSize_iff_of_header hset ht hwrap, or_iff_left fun h =>
      absurd h.1 (Nat.not_lt.2 hsmall)]

/-- The heap that `__malloc_init` makes of a break at `0x10000`. -/
def emptyHeap : Heap := ⟨0x10000, 0x10000, 0x10000, fun _ => .deadbeef⟩

theorem setUp_emptyHeap :
    SetUp (fun _ => true) (Program.start 0x10000 fun _ => .deadbeef).heap emptyHeap :=
  .inr ⟨rfl, rfl⟩

theorem tiledBy_emptyHeap : TiledBy 8 emptyHeap [] :=
  ⟨by decide, by decide, trivial, rfl, rfl, by decide⟩

/-- Five bytes, from a program's first call. -/
theorem malloc_honours_five :
    HonoursSize (fun _ => true) 5 (Program.start 0x10000 fun _ => .deadbeef).heap emptyHeap :=
  (malloc_honours_iff _ 5 _ _ [] (by decide) setUp_emptyHeap tiledBy_emptyHeap
    List.isChain_nil).2 fun h => absurd h.1 (by decide)

/-- **`malloc(0xffffffff)` returns an empty block**: the size becomes 0, and `sbrk` grants
the header. -/
theorem malloc_gives_nothing :
    (∃ h', malloc (fun _ => true) 0xffffffff (Program.start 0x10000 fun _ => .deadbeef).heap =
        .ok 0x10008 h' ∧ h'.heaptop = 0x10008) ∧
      ¬ HonoursSize (fun _ => true) 0xffffffff (Program.start 0x10000 fun _ => .deadbeef).heap
        emptyHeap := by
  obtain ⟨p, h', hr, rfl, htop⟩ := exists_ok_of (malloc (fun _ => true) 0xffffffff)
    (Program.start 0x10000 fun _ => .deadbeef).heap
    (fun p h' => p = 0x10008 ∧ h'.heaptop = 0x10008) (by decide +kernel)
  refine ⟨⟨h', hr, htop⟩, fun hh => ?_⟩
  exact absurd ((honoursSize_iff_null (by decide) hr nofun).1 hh) (by decide)

end Libc

end Os161
