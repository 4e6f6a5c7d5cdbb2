import Os161.Libc.MallocSize
/-!
# What `malloc` returns can be freed, or not

`free` refuses a pointer at or above the top of the heap. The data area of a block is
behind its header, so that the pointer to an empty area is where its block ends; and if
the block is the last one of the heap, that is the top. `malloc(0)` makes such blocks. A
size that wraps around with its header makes a pointer past the top, with no block at all.
`free` takes both for foreign pointers (`free_completes_iff`).
-/

namespace Os161

namespace Libc

open Layout Prog

variable {h h' : Heap} {s s' : Program} {n p : ℕ} {granted : ℕ → Bool} {bs bs' : List Block}
  {live : List (ℕ × ℕ)}

/-- **What a live pointer is**: the one to the area of a block in use, which is as large as
was asked for if that can be; or, of a size that has wrapped around, one past the top. -/
def Held (live : List (ℕ × ℕ)) (h : Heap) (bs : List Block) : Prop :=
  ∀ p n, (p, n) ∈ live →
    (∃ x b, p = x + 8 ∧ InUse h.heapbase bs x b ∧
      (roundUp n + 8 < 2 ^ 32 → roundUp n + 8 ≤ b.size)) ∨
    p = h.heaptop + 8 ∧ 2 ^ 32 ≤ roundUp n + 8

/-- **The heap is in order**: not set up yet, or tiled without two free neighbours, and
the live pointers are what they can be. -/
def InOrder (s : Program) : Prop :=
  (s.heap.heapbase = 0 ∧ s.heap.heaptop = 0 ∧ s.live = []) ∨
    ∃ bs, TiledBy 8 s.heap bs ∧ NoTwoFree bs ∧ Held s.live s.heap bs

/-- What a program does that meets the condition: any `malloc`, a `free` of a live pointer
below the top, and a write to an area that it has got whole. -/
def FreesBelow (s : Program) : Event → Prop
  | .malloc n _ => n < 2 ^ 32
  | .free p => p = 0 ∨ (∃ n, (p, n) ∈ s.live) ∧ p < s.heap.heaptop
  | .write a _ => ∃ p n, (p, n) ∈ s.live ∧ roundUp n + 8 < 2 ^ 32 ∧ p ≤ a ∧ a < p + roundUp n

/-! ## The steps -/

/-- The blocks in use stay, and the top does or a block is laid there. -/
theorem Held.mono (hl : Held live h bs) (hbase : h'.heapbase = h.heapbase)
    (htop : h'.heaptop = h.heaptop ∨ ∃ b, InUse h.heapbase bs' h.heaptop b)
    (huse : ∀ y d, InUse h.heapbase bs y d → InUse h.heapbase bs' y d) : Held live h' bs' := by
  intro p n hp
  rw [hbase]
  rcases hl p n hp with ⟨x, b, hx, hb, hle⟩ | ⟨hx, hwrap⟩
  · exact .inl ⟨x, b, hx, huse x b hb, hle⟩
  · rcases htop with htop | ⟨b, hb⟩
    · exact .inr ⟨by rw [htop]; exact hx, hwrap⟩
    · exact .inl ⟨_, b, hx, hb, fun h => absurd hwrap (Nat.not_le.2 h)⟩

theorem Held.cons (hl : Held live h bs)
    (hp : (∃ x b, p = x + 8 ∧ InUse h.heapbase bs x b ∧
      (roundUp n + 8 < 2 ^ 32 → roundUp n + 8 ≤ b.size)) ∨
      p = h.heaptop + 8 ∧ 2 ^ 32 ≤ roundUp n + 8) : Held ((p, n) :: live) h bs := by
  intro q m hq
  rcases List.mem_cons.1 hq with heq | hq
  · obtain ⟨rfl, rfl⟩ := Prod.mk.inj heq
    exact hp
  · exact hl q m hq

/-- One more block is in use. -/
theorem Held.gives {r : ℕ} (hl : Held live h bs) (ht : TiledBy 8 h bs) (hc : NoTwoFree bs)
    (hr : roundUp n + 8 < 2 ^ 32 → r = roundUp n) (hg : Gives 8 granted h bs r p h') :
    InOrder ⟨h', if p = 0 then live else (p, n) :: live⟩ := by
  rcases hg with ⟨rfl, rfl, -⟩ | ⟨-, x, b, bs', rfl, hle, hbase, htop, ht', hc', -, huse⟩
  · exact .inr ⟨bs, ht, hc, hl⟩
  have hb : InUse h.heapbase bs' x b := (huse x b).2 (.inr ⟨rfl, rfl⟩)
  have hstay : Held live h' bs' := by
    refine hl.mono hbase (htop.imp_right fun hx => ⟨b, ?_⟩) fun y d hd => (huse y d).2 (.inl hd)
    rw [← hx]
    exact hb
  rw [if_neg (by omega)]
  refine .inr ⟨bs', ht', hc', hstay.cons (.inl ⟨x, b, rfl, ?_, fun hw => ?_⟩)⟩
  · rw [hbase]
    exact hb
  · rw [← hr hw]
    exact hle

/-- **`malloc` of any size keeps the heap in order.** -/
theorem Held.mallocInited (hl : Held live h bs) (ht : TiledBy 8 h bs) (hc : NoTwoFree bs)
    (hn : n < 2 ^ 32) :
    wp (mallocInited granted n) (fun p h' => InOrder ⟨h', if p = 0 then live else (p, n) :: live⟩)
      (fun _ _ => False) h := by
  rcases Nat.lt_or_ge (roundUp n + 8) (2 ^ 32) with hw | hw
  · exact wp_imp (wp_mallocInited ht hc (by omega) (by omega) hw) fun p h' hg =>
      hl.gives ht hc (fun _ => rfl) hg
  rcases Nat.lt_or_ge (2 ^ 32) (n + 8) with hbig | hsmall
  · rw [mallocInited_of_round hn hbig]
    exact wp_imp (wp_mallocInited ht hc (by omega) (by decide) (by decide)) fun p h' hg =>
      hl.gives ht hc (fun h => absurd hw (Nat.not_le.2 h)) hg
  have hwrap : roundUp n + 8 = 2 ^ 32 := by
    unfold roundUp at hw ⊢
    omega
  refine wp_imp (wp_mallocInited_of_header ht hwrap) fun p h' hg => ?_
  by_cases hgr : granted 2 = true
  · rw [if_pos hgr] at hg
    obtain ⟨rfl, hsame⟩ := hg
    have ht' := ht.congr hsame
    have hl' : Held live h' bs := hl.mono hsame.heapbase (.inl hsame.heaptop) fun _ _ hd => hd
    refine .inr ⟨bs, ht', hc, ?_⟩
    split
    · exact hl'
    · rename_i hne
      refine hl'.cons (.inr ⟨?_, hw⟩)
      have := ht.top_lt
      have := ht.top_mod
      unfold mData add32 mblocksize at hne ⊢
      rw [hsame.heaptop]
      omega
  · rw [if_neg hgr] at hg
    obtain ⟨rfl, rfl⟩ := hg
    exact .inr ⟨bs, ht, hc, hl⟩

/-- **`free` of a live pointer below the top keeps the heap in order.** -/
theorem InOrder.free (hi : InOrder s)
    (hp : p = 0 ∨ (∃ n, (p, n) ∈ s.live) ∧ p < s.heap.heaptop) :
    wp (Libc.free p) (fun _ h' => InOrder ⟨h', s.live.filter fun l => l.1 ≠ p⟩)
      (fun _ _ => False) s.heap := by
  rcases hp with rfl | ⟨⟨n, hp⟩, hin⟩
  · unfold Libc.free
    rw [if_pos rfl, wp_pure]
    refine hi.imp (fun ⟨hbase, htop, hlive⟩ => ⟨hbase, htop, by rw [hlive]; rfl⟩) ?_
    exact fun ⟨bs, ht, hc, hl⟩ => ⟨bs, ht, hc, fun p n hp => hl p n (List.mem_of_mem_filter hp)⟩
  rcases hi with ⟨-, -, hlive⟩ | ⟨bs, ht, hc, hl⟩
  · rw [hlive] at hp
    exact absurd hp List.not_mem_nil
  obtain ⟨x, b, rfl, hb, -⟩ := (hl p n hp).resolve_right fun h => by omega
  refine wp_imp (wp_free ht hc hb hin) fun _ h' hf => ?_
  obtain ⟨hbase, htop, bs', hc', ht', huse⟩ := hf
  refine .inr ⟨bs', ht', hc', fun q m hq => ?_⟩
  obtain ⟨hq, hne⟩ := List.mem_filter.1 hq
  have hne : q ≠ x + 8 := of_decide_eq_true hne
  rw [hbase, htop]
  refine (hl q m hq).imp_left fun ⟨y, d, hy, hd, hle⟩ => ⟨y, d, hy, (huse y d).2 ⟨hd, ?_⟩, hle⟩
  omega

/-- **Every step keeps the heap in order.** -/
theorem InOrder.step {e : Event} (hi : InOrder s) (ha : FreesBelow s e) (hs : s.step e = some s') :
    InOrder s' := by
  cases e with
  | malloc n granted =>
    have hwp : wp (malloc granted n)
        (fun p h' => InOrder ⟨h', if p = 0 then s.live else (p, n) :: s.live⟩)
        (fun _ _ => True) s.heap := by
      unfold malloc
      rw [wp_get_bind, wp_ite]
      rcases hi with ⟨hbase, htop, hlive⟩ | ⟨bs, ht, hc, hl⟩
      · rw [if_pos hbase]
        refine wp_seq (wp_mallocInit 8 hbase htop) (fun _ h₁ ht => ?_) fun _ _ _ => trivial
        refine wp_returns (Held.mallocInited ?_ ht List.isChain_nil ha) fun _ _ h => h
        rw [hlive]
        exact fun p n hp => absurd hp List.not_mem_nil
      · rw [if_neg (Nat.ne_of_gt ht.base_pos)]
        exact wp_returns (hl.mallocInited ht hc ha) fun _ _ h => h
    rcases cases_of_wp hwp with ⟨p, h', hr, hok⟩ | ⟨e, h', hr, -⟩
    · rw [Program.step_malloc_of_ok hr] at hs
      obtain rfl := Option.some.inj hs
      exact hok
    · rw [Program.step_malloc_of_error hr] at hs
      cases hs
  | free p =>
    obtain ⟨u, h', hr, hok⟩ := exists_ok_of_wp (hi.free ha)
    rw [Program.step_free_of_ok hr] at hs
    obtain rfl := Option.some.inj hs
    exact hok
  | write a mh =>
    obtain rfl := Option.some.inj hs
    obtain ⟨p, n, hp, hw, hlo, hhi⟩ := ha
    rcases hi with ⟨-, -, hlive⟩ | ⟨bs, ht, hc, hl⟩
    · rw [hlive] at hp
      exact absurd hp List.not_mem_nil
    · obtain ⟨x, b, rfl, hb, hle⟩ := (hl p n hp).resolve_right fun h => absurd h.2 (Nat.not_le.2 hw)
      have hle := hle hw
      exact .inr ⟨bs, ht.write hb (by omega) (by omega), hc, hl⟩

/-! ## When `free` completes -/

/-- A pointer at or above the top is out of range. -/
theorem free_top (hbase : 0 < h.heapbase) (hle : h.heapbase ≤ h.heaptop) (hp : h.heaptop ≤ p) :
    free p h = .error (.error .outOfRange) h := by
  have hlocal : ¬ (h.heapbase = 0 ∨ h.heaptop = 0 ∨ h.heapbase > h.heaptop) := by omega
  have hrun : wp (free p) (fun _ _ => False)
      (fun e h' => e = .error .outOfRange ∧ h' = h) h := by
    unfold free
    rw [if_neg (by omega), wp_get_bind, wp_bind, wp_failIf, if_neg hlocal, wp_bind, wp_failIf,
      if_pos (.inr hp)]
    exact ⟨rfl, rfl⟩
  rcases cases_of_wp hrun with ⟨_, _, _, hno⟩ | ⟨e, h', hr, rfl, rfl⟩
  · exact hno.elim
  · exact hr

/-- **What `malloc` has returned can be freed exactly if it points below the top of the
heap.** In every run from a heap in order, of calls of `malloc` with any sizes, calls of
`free` that meet the condition, and writes to areas that are there. -/
theorem free_completes_iff (s₀ s : Program) (h₀ : InOrder s₀)
    (hs : Runs.Reachable Program.step FreesBelow s₀ s) (p n : ℕ) (hp : (p, n) ∈ s.live) :
    (∃ h', free p s.heap = .ok () h') ↔ p < s.heap.heaptop := by
  have hi : InOrder s := hs.invariant h₀ fun _ _ _ hi ha hs => hi.step ha hs
  constructor
  · rintro ⟨h', hr⟩
    by_contra hge
    rcases hi with ⟨-, -, hlive⟩ | ⟨bs, ht, -, -⟩
    · rw [hlive] at hp
      exact absurd hp List.not_mem_nil
    · rw [free_top ht.base_pos (ht.top ▸ le_stop) (Nat.not_lt.1 hge)] at hr
      cases hr
  · intro hlt
    obtain ⟨u, h', hr, -⟩ := exists_ok_of_wp (hi.free (.inr ⟨⟨n, hp⟩, hlt⟩))
    exact ⟨h', hr⟩

theorem inOrder_start (brk : ℕ) (mem : ℕ → Mheader) : InOrder (Program.start brk mem) :=
  .inl ⟨rfl, rfl, rfl⟩

/-- A program that takes an empty area and then another one can give both back. -/
theorem free_completes_below :
    ∃ s, Runs.Reachable Program.step FreesBelow (Program.start 0x10000 fun _ => .deadbeef) s ∧
      s.live = [(0x10010, 3), (0x10008, 0)] ∧ ∃ h', free 0x10008 s.heap = .ok () h' := by
  obtain ⟨s, hs, hlive, htop⟩ := Runs.exists_of_exec Program.step
    (Program.start 0x10000 fun _ => .deadbeef)
    [.malloc 0 fun _ => true, .malloc 3 fun _ => true]
    (fun s => s.live = [(0x10010, 3), (0x10008, 0)] ∧ 0x10008 < s.heap.heaptop) (by decide +kernel)
  have hr : Runs.Reachable Program.step FreesBelow
      (Program.start 0x10000 fun _ => .deadbeef) s := by
    refine Runs.Reachable.exec .refl (fun s => ?_) hs
    exact List.forall_mem_cons.2 ⟨show 0 < 2 ^ 32 by decide,
      List.forall_mem_singleton.2 (show 3 < 2 ^ 32 by decide)⟩
  have hmem : (0x10008, 0) ∈ s.live := by rw [hlive]; simp
  exact ⟨s, hr, hlive, (free_completes_iff _ s (inOrder_start _ _) hr 0x10008 0 hmem).2 htop⟩

/-- **`free(malloc(0))` aborts**, when the heap has just been extended for it. -/
theorem free_refuses_empty :
    ∃ s, Runs.Reachable Program.step FreesBelow (Program.start 0x10000 fun _ => .deadbeef) s ∧
      s.live = [(0x10008, 0)] ∧ free 0x10008 s.heap = .error (.error .outOfRange) s.heap := by
  obtain ⟨s, hs, hlive, hbase, htop⟩ := Runs.exists_of_exec Program.step
    (Program.start 0x10000 fun _ => .deadbeef)
    [.malloc 0 fun _ => true] (fun s => s.live = [(0x10008, 0)] ∧ s.heap.heapbase = 0x10000 ∧
      s.heap.heaptop = 0x10008) (by decide +kernel)
  have hr : Runs.Reachable Program.step FreesBelow
      (Program.start 0x10000 fun _ => .deadbeef) s := by
    refine Runs.Reachable.exec .refl (fun s => ?_) hs
    exact List.forall_mem_singleton.2 (show 0 < 2 ^ 32 by decide)
  exact ⟨s, hr, hlive, free_top (h := s.heap) (by omega) (by omega) (by omega)⟩

end Libc

end Os161
