import Os161.Libc.Malloc
/-!
# `malloc` and `free`

What the two do to a heap that is tiled and has no two free neighbours. `malloc`
leaves such a heap as it is and returns `NULL`, or takes one more block into use,
which it found, split off or got from `sbrk`; `free` takes exactly one block out
of use. Both leave a heap that is tiled and has no two free neighbours, and
neither calls `errx`.
-/

namespace Os161

namespace Libc

open Layout Prog Function

variable {h h' : Heap} {least x y n : ℕ} {b c : Block} {bs pre mid post : List Block}
  {granted : ℕ → Bool} {E : Stop Exit → Heap → Prop}

theorem wp_sbrk {g : Bool} {amount : ℕ} {Q : ℕ → Heap → Prop} :
    wp (sbrk g amount) Q E h ↔
      if g = true ∧ h.brk + amount < 2 ^ 32 then Q h.brk { h with brk := h.brk + amount }
      else Q minusOne h := by
  unfold sbrk
  rw [wp_get_bind, wp_ite]
  simp only [wp_bind, wp_set, wp_pure]

/-! ## The first call -/

/-- The exits of `__malloc_init` that are no sign of a corrupt heap: `sbrk`
refuses, or the break is at address 0. -/
def Refused (brk : ℕ) (e : Stop Exit) : Prop :=
  e = .error .initialSbrk ∨ e = .error .alignSbrk ∨ (e = .error .heapAtZero ∧ brk = 0)

/-- **`__malloc_init` sets up an empty heap, or a call of `sbrk` is refused.** -/
theorem wp_mallocInit (least : ℕ) (hbase : h.heapbase = 0) (htop : h.heaptop = 0) :
    wp (mallocInit granted) (fun _ h' => TiledBy least h' []) (fun e _ => Refused h.brk e) h := by
  have hnew : ¬ (h.heapbase ≠ 0 ∨ h.heaptop ≠ 0) := by omega
  unfold mallocInit
  rw [wp_get_bind, wp_bind, wp_failIf, if_neg hnew, wp_bind, wp_sbrk]
  by_cases hg : granted 0 = true ∧ h.brk + 0 < 2 ^ 32
  · rw [if_pos hg, wp_bind, wp_failIf]
    split
    · exact .inl rfl
    rw [wp_bind, wp_failIf]
    split
    · rename_i hzero
      exact .inr (.inr ⟨rfl, hzero⟩)
    rename_i hpos
    rw [wp_bind, wp_modify, wp_ite]
    split
    · rename_i hmod
      rw [wp_bind, wp_sbrk]
      split
      · rename_i hg'
        rw [wp_bind, wp_failIf]
        split
        · exact .inr (.inl rfl)
        rw [wp_bind, wp_failIf]
        rw [if_neg (not_not.2 (Nat.add_zero h.brk)), wp_modify]
        have hlt := hg'.2
        have hadd : add32 h.brk (mblocksize - h.brk % mblocksize) =
            h.brk + (mblocksize - h.brk % mblocksize) := Nat.mod_eq_of_lt hg'.2
        refine ⟨?_, ?_, trivial, rfl, hadd.symm, ?_⟩
        · show 0 < add32 h.brk _
          omega
        · show add32 h.brk _ % 8 = 0
          rw [hadd, mblocksize]
          omega
        · rw [hadd]
          exact hg'.2
      · rw [wp_bind, wp_failIf, if_pos rfl]
        exact .inr (.inl rfl)
    · rename_i hmod
      rw [wp_pure]
      exact ⟨Nat.pos_of_ne_zero hpos, not_not.1 hmod, trivial, rfl, rfl, hg.2⟩
  · rw [if_neg hg, wp_bind, wp_failIf, if_pos rfl]
    exact .inl rfl

/-! ## `malloc` -/

/-- **A block is added at the top.** -/
theorem TiledBy.grow (h₁ : TiledBy least h bs) (hn : n % 8 = 0) (h8 : 8 ≤ n) (hle : least ≤ n)
    (hlt : h.heaptop + n < 2 ^ 32) :
    TiledBy least
      { heapbase := h.heapbase, heaptop := h.heaptop + n, brk := h.heaptop + n,
        mem := update h.mem h.heaptop
          ⟨prevField (bs.getLast?.or none), 0, mmagic, n / 8, 1, mmagic⟩ } (bs ++ [⟨n, true⟩]) where
  base_pos := h₁.base_pos
  base_mod := h₁.base_mod
  laid := by
    rw [laid_append]
    refine ⟨h₁.laid.imp fun a q d _ hend ha => ha.congr (update_of_ne ?_ _ _), ?_, trivial⟩
    · have := ha.pos
      have htop := h₁.top
      omega
    · rw [h₁.top]
      exact .new (update_self ..) hn h8 hle
  top := by
    rw [stop_append, h₁.top, stop_cons, stop_nil]
  brk := rfl
  top_lt := hlt

/-- The part of a block that is taken. -/
theorem splitBlock_eq_cons (hfree : b.used = false) (hle : n ≤ b.size - 8) (h8 : 8 ≤ b.size) :
    ∃ c mid, splitBlock b n = c :: mid ∧ c.used = false ∧ n + 8 ≤ c.size := by
  unfold splitBlock
  split
  · exact ⟨b, [], rfl, hfree, by omega⟩
  · exact ⟨_, _, rfl, rfl, Nat.le_refl _⟩

/-- There are `n` bytes to be had: a free block of that size, or `sbrk` grants them. -/
def Room (granted : ℕ → Bool) (h : Heap) (bs : List Block) (n : ℕ) : Prop :=
  (∃ b ∈ bs, b.used = false ∧ n ≤ b.size - 8) ∨
    granted 2 = true ∧ h.heaptop + (n + 8) < 2 ^ 32

/-- What `malloc` gives for `n` bytes: nothing, or one more block in use. -/
def Gives (least : ℕ) (granted : ℕ → Bool) (h : Heap) (bs : List Block) (n p : ℕ) (h' : Heap) :
    Prop :=
  (p = 0 ∧ h' = h ∧ ¬ Room granted h bs n) ∨
    Room granted h bs n ∧ ∃ x b bs', p = x + 8 ∧ n + 8 ≤ b.size ∧ h'.heapbase = h.heapbase ∧
      (h'.heaptop = h.heaptop ∨ x = h.heaptop) ∧ TiledBy least h' bs' ∧
      NoTwoFree bs' ∧ (∀ d, ¬ InUse h.heapbase bs x d) ∧
      ∀ y d, InUse h.heapbase bs' y d ↔ InUse h.heapbase bs y d ∨ (y = x ∧ d = b)

/-- The block that the search found is taken. -/
theorem wp_take (h₁ : TiledBy least h bs) (h₂ : NoTwoFree bs)
    (hb : Placed Block.size h.heapbase bs x b)
    (hfree : b.used = false) (hmod : n % 8 = 0) (hleast : least ≤ 16) (hpos : least ≤ n + 8)
    (hle : n ≤ b.size - 8) :
    wp (do
        mallocSplit x n
        setHeader x fun c => { c with inuse := 1 }
        pure (mData x))
      (fun p h' => Gives least granted h bs n p h') (fun _ _ => False) h := by
  have hsize : ∀ e ∈ bs, 0 < e.size := fun e he => Nat.lt_of_lt_of_le (by omega) (h₁.size_pos e he)
  have h8 := h₁.size_pos b hb.mem
  have hend := (h₁.placed_le hb).2
  have hlt := h₁.top_lt
  have hroom : Room granted h bs n := .inl ⟨b, hb.mem, hfree, hle⟩
  obtain ⟨pre, post, rfl, hx⟩ := hb
  refine wp_then (wp_mallocSplit h₁ hx hfree hmod hleast hpos hle) fun _ h' hm => ?_
  obtain ⟨⟨mem', rfl⟩, h₃⟩ := hm
  obtain ⟨c, mid, hsplit, hcfree, hcle⟩ := splitBlock_eq_cons hfree hle (by omega)
  have hlist : pre ++ splitBlock b n ++ post = pre ++ c :: (mid ++ post) := by
    rw [hsplit]
    simp
  -- a split leaves what is in use
  have hsame : ∀ y d, InUse h.heapbase (pre ++ c :: (mid ++ post)) y d ↔
      InUse h.heapbase (pre ++ b :: post) y d := by
    intro y d
    have hb : pre ++ b :: post = pre ++ [b] ++ post := by simp
    rw [← hlist, hb]
    refine inUse_replace ?_ fun z e => ?_
    · rw [stop_splitBlock, stop_cons, stop_nil]
    · rw [inUse_splitBlock hfree, inUse_cons_free hfree]
      exact ⟨False.elim, fun h => not_inUse_nil h⟩
  rw [hlist] at h₃
  rw [wp_bind, wp_setHeader, wp_pure]
  have hdata : mData x = x + 8 := by
    rw [mData, add32, mblocksize]
    omega
  refine .inr ⟨hroom, x, { c with used := true }, pre ++ { c with used := true } :: (mid ++ post),
    hdata,
    hcle, rfl, .inl rfl, ?_, h₂.take hfree hsplit, fun d => ?_, fun y d => ?_⟩
  · refine h₃.mark hx true (update_self _ _ _) fun a hax => update_of_ne ?_ _ _
    omega
  · rw [hx]
    exact not_inUse_free hfree hsize
  · rw [inUse_take hcfree, hsame, hx]

theorem roundUp_facts (n : ℕ) : roundUp n % 8 = 0 ∧ n ≤ roundUp n := by
  unfold roundUp
  omega

/-- **`malloc` on a heap that is set up** takes the block that it has found, or asks `sbrk`
for one. -/
theorem wp_mallocInited_of {Q : ℕ → Heap → Prop} (h₁ : TiledBy least h bs) (hn : n + 7 < 2 ^ 32)
    (htake : ∀ x b, Placed Block.size h.heapbase bs x b → b.used = false →
      roundUp n ≤ b.size - 8 →
      wp (do
          mallocSplit x (roundUp n)
          setHeader x fun c => { c with inuse := 1 }
          pure (mData x)) Q E h)
    (hsbrk : ∀ amount, amount = add32 (roundUp n) mblocksize →
      (∀ b ∈ bs, b.used = true ∨ b.size - 8 < roundUp n) →
      if granted 2 = true ∧ h.heaptop + amount < 2 ^ 32 then
        Q (mData h.heaptop)
          { heapbase := h.heapbase, heaptop := h.heaptop + amount, brk := h.heaptop + amount,
            mem := update h.mem h.heaptop
              ⟨prevField (bs.getLast?.or none), 0, mmagic, amount / 8, 1, mmagic⟩ }
      else Q 0 h) :
    wp (mallocInited granted n) Q E h := by
  have hbase := h₁.base_pos
  have hle : h.heapbase ≤ h.heaptop := h₁.top ▸ le_stop
  have hlt := h₁.top_lt
  have hmod := h₁.top_mod
  have hsize : add32 n (mblocksize - 1) / mblocksize * mblocksize = roundUp n := by
    rw [add32, mblocksize, roundUp, Nat.mod_eq_of_lt (by omega)]
  have hlocal : ¬ (h.heapbase = 0 ∨ h.heaptop = 0 ∨ h.heapbase > h.heaptop) := by omega
  unfold mallocInited
  rw [wp_get_bind, wp_bind, wp_failIf, if_neg hlocal]
  simp only [hsize]
  rw [wp_bind]
  refine wp_returns (wp_findFrom h₁.laid h₁.top h₁.top_lt rfl h₁.length_lt) fun r h' hr => ?_
  obtain ⟨rfl, hr⟩ := hr
  rcases r with x | ⟨j, right⟩
  · obtain ⟨b, hb, hfree, hbig⟩ := hr
    exact htake x b hb hfree hbig
  · obtain ⟨rfl, rfl, hsmall⟩ := hr
    have hgives := hsbrk _ rfl hsmall
    generalize add32 (roundUp n) mblocksize = amount at *
    dsimp only
    rw [wp_get_bind, wp_bind, wp_failIf, if_neg (not_not.2 rfl), wp_bind]
    unfold mallocSbrk
    rw [wp_bind, wp_sbrk, h₁.brk]
    by_cases hg : granted 2 = true ∧ h'.heaptop + amount < 2 ^ 32
    · rw [if_pos hg] at hgives ⊢
      rw [wp_ite, if_neg (by rw [minusOne]; omega), wp_get_bind, wp_bind, wp_failIf,
        if_neg (not_not.2 rfl), wp_bind, wp_set, wp_pure, wp_ite, if_neg (by omega), wp_bind,
        wp_setHeader, wp_pure, show add32 h'.heaptop amount = h'.heaptop + amount from
          Nat.mod_eq_of_lt hg.2]
      exact hgives
    · rw [if_neg hg] at hgives ⊢
      rw [wp_ite, if_pos rfl, wp_pure, wp_ite, if_pos rfl, wp_pure]
      exact hgives

/-- What it gives for a size that does not wrap around. -/
theorem wp_mallocInited (h₁ : TiledBy least h bs) (h₂ : NoTwoFree bs)
    (hleast : least ≤ 16) (hn : least ≤ roundUp n + 8) (hw : roundUp n + 8 < 2 ^ 32) :
    wp (mallocInited granted n) (fun p h' => Gives least granted h bs (roundUp n) p h')
      (fun _ _ => False) h := by
  obtain ⟨hmod, hnle⟩ := roundUp_facts n
  refine wp_mallocInited_of h₁ (by unfold roundUp at hw; omega)
    (fun x b hb hfree hbig => wp_take h₁ h₂ hb hfree hmod hleast hn hbig)
    fun amount hamount hsmall => ?_
  have hnone : ¬ ∃ b ∈ bs, b.used = false ∧ roundUp n ≤ b.size - 8 := by
    rintro ⟨b, hb, hfree, hbig⟩
    rcases hsmall b hb with hused | hlt
    · rw [hfree] at hused
      exact Bool.false_ne_true hused
    · omega
  obtain rfl : amount = roundUp n + 8 := by
    rw [hamount, add32, mblocksize, Nat.mod_eq_of_lt hw]
  split
  · rename_i hg
    have hdata : mData h.heaptop = h.heaptop + 8 := by
      rw [mData, add32, mblocksize]
      omega
    refine .inr ⟨.inr hg, h.heaptop, ⟨roundUp n + 8, true⟩, bs ++ [⟨roundUp n + 8, true⟩], hdata,
      Nat.le_refl _, rfl, .inr rfl, h₁.grow (by omega) (by omega) hn hg.2,
      (noTwoFree_append_used rfl).2 ⟨h₂, List.isChain_nil⟩, fun d hd => ?_, fun y d => ?_⟩
    · have hd8 := h₁.size_pos d hd.1.mem
      have hend := (h₁.placed_le hd.1).2
      omega
    · rw [inUse_append, h₁.top, inUse_cons]
      refine or_congr_right ?_
      rw [or_iff_left not_inUse_nil, and_iff_left rfl]
  · rename_i hno
    exact .inl ⟨rfl, rfl, not_or.2 ⟨hnone, hno⟩⟩

/-! ## `free` -/

/-- **The block above is merged in, if it is free.** -/
theorem wp_mergeAbove (h₁ : TiledBy least h (pre ++ b :: post))
    (hx : x = stop Block.size h.heapbase pre)
    (hfree : b.used = false) (h₂ : NoTwoFree post) :
    wp (mergeAbove x)
      (fun _ h' => (∃ mem', h' = { h with mem := mem' }) ∧ ∃ d post', d.used = false ∧
        NoTwoFree (d :: post') ∧ TiledBy least h' (pre ++ d :: post') ∧
        ∀ y e, InUse h.heapbase (pre ++ d :: post') y e ↔ InUse h.heapbase (pre ++ b :: post) y e)
      (fun _ _ => False) h := by
  unfold mergeAbove
  rw [wp_get_bind, h₁.next_eq hx]
  cases post with
  | nil =>
    rw [if_neg (not_not.2 ((h₁.end_eq_top_iff hx).2 rfl)), wp_pure]
    exact ⟨⟨h.mem, rfl⟩, b, [], hfree, List.isChain_singleton b, h₁, fun _ _ => Iff.rfl⟩
  | cons c post =>
    rw [if_pos fun hend => List.cons_ne_nil _ _ ((h₁.end_eq_top_iff hx).1 hend)]
    refine wp_imp (wp_mallocTrymerge h₁ hx rfl) fun _ h' hm => ⟨hm.1, ?_⟩
    obtain ⟨d, post', hd, hdfree, hchain⟩ := h₂.mergeAbove hfree
    have hlist : pre ++ mergeBlocks b c ++ post = pre ++ d :: post' := by
      rw [List.append_assoc, hd]
    refine ⟨d, post', hdfree, hchain, hlist ▸ hm.2, fun y e => ?_⟩
    rw [← hlist, inUse_mergeBlocks]

/-- **The block below is merged in, if it is free.** -/
theorem wp_mergeBelow (h₁ : TiledBy least h (pre ++ b :: post))
    (hx : x = stop Block.size h.heapbase pre)
    (hfree : b.used = false) (hpre : NoTwoFree pre) (h₂ : NoTwoFree (b :: post)) :
    wp (mergeBelow x)
      (fun _ h' => (∃ mem', h' = { h with mem := mem' }) ∧ ∃ bs', NoTwoFree bs' ∧
        TiledBy least h' bs' ∧
        ∀ y e, InUse h.heapbase bs' y e ↔ InUse h.heapbase (pre ++ b :: post) y e)
      (fun _ _ => False) h := by
  unfold mergeBelow
  rw [wp_get_bind]
  rcases List.eq_nil_or_concat pre with rfl | ⟨pre, a, rfl⟩
  · rw [stop_nil] at hx
    rw [if_neg (not_not.2 hx), wp_pure]
    exact ⟨⟨h.mem, rfl⟩, b :: post, h₂, h₁, fun _ _ => Iff.rfl⟩
  · rw [List.concat_eq_append] at *
    have hlist : pre ++ [a] ++ b :: post = pre ++ a :: b :: post := by simp
    have ha8 := h₁.size_pos a (by simp)
    have hamod := h₁.mod a (by simp)
    have hle := (h₁.split_le hx).2
    have hlt := h₁.top_lt
    -- where the block below begins
    obtain ⟨z, hz⟩ : ∃ z, z = stop Block.size h.heapbase pre := ⟨_, rfl⟩
    have hxz : x = z + a.size := by
      rw [hx, stop_append, ← hz, stop_cons, stop_nil]
    have hbase : h.heapbase ≤ z := hz ▸ le_stop
    have hprev : h.prev x = z := by
      have hfield : (h.mem x).prevblock = a.size / 8 := by
        rw [(h₁.at_split hx).prev, List.getLast?_append]
        rfl
      rw [Heap.prev, Mheader.prevOff, hfield, mblocksize, sub32]
      omega
    rw [if_pos (by omega), hprev]
    rw [hlist] at h₁ ⊢
    refine wp_imp (wp_mallocTrymerge h₁ hz hxz) fun _ h' hm => ⟨hm.1, ?_⟩
    exact ⟨_, hpre.mergeBelow h₂ hfree, hm.2, fun y e => inUse_mergeBlocks⟩

/-- **`free` gives back exactly the block it is called for**, unless that is empty and ends
the heap. -/
theorem wp_free (h₁ : TiledBy least h bs) (h₂ : NoTwoFree bs) (hb : InUse h.heapbase bs x b)
    (hin : x + 8 < h.heaptop) :
    wp (free (x + 8))
      (fun _ h' => h'.heapbase = h.heapbase ∧ h'.heaptop = h.heaptop ∧ ∃ bs', NoTwoFree bs' ∧
        TiledBy least h' bs' ∧ ∀ y d, InUse h.heapbase bs' y d ↔ InUse h.heapbase bs y d ∧ y ≠ x)
      (fun _ _ => False) h := by
  have hsize : ∀ e ∈ bs, 0 < e.size := fun e he => Nat.lt_of_lt_of_le (by omega) (h₁.size_pos e he)
  have h8 := h₁.size_pos b hb.1.mem
  obtain ⟨hlow, hend⟩ := h₁.placed_le hb.1
  have hlt := h₁.top_lt
  have hbase := h₁.base_pos
  have hused := hb.2
  obtain ⟨pre, post, rfl, hx⟩ := hb.1
  have ha := h₁.at_split hx
  have hmh : sub32 (x + 8) mblocksize = x := by
    rw [sub32, mblocksize]
    omega
  have hdata : mData x = x + 8 := by
    rw [mData, add32, mblocksize]
    omega
  unfold free
  rw [if_neg (by omega), wp_get_bind, wp_bind, wp_failIf, if_neg (by omega), wp_bind, wp_failIf,
    if_neg (by omega)]
  generalize hm : sub32 (x + 8) mblocksize = m
  obtain rfl : x = m := hmh.symm.trans hm
  rw [wp_bind, wp_failIf, if_neg (not_not.2 ha.ok), wp_bind, wp_failIf,
    if_neg (ha.inuse_ne_zero.2 hused), wp_bind, wp_setHeader, wp_bind, wp_mallocDeadbeef, wp_bind,
    h₁.size_eq hx, hdata]
  -- marked and wiped
  have h₃ : TiledBy least { h with
      mem := fun a => if x + 8 ≤ a ∧ a < x + 8 + (b.size - 8) then Mheader.deadbeef
        else update h.mem x { h.mem x with inuse := 0 } a }
      (pre ++ { b with used := false } :: post) := by
    refine h₁.mark hx false ?_ fun a hax => ?_
    · rw [if_neg (by omega), update_self]
      rfl
    · rw [if_neg (by omega), update_of_ne (by omega)]
  obtain ⟨hpre, hpost⟩ := (noTwoFree_append_used hused).1 h₂
  refine wp_imp (wp_mergeAbove h₃ hx rfl hpost) fun _ h' hm => ?_
  obtain ⟨⟨mem', rfl⟩, d, post', hdfree, hchain, h₄, hsame⟩ := hm
  refine wp_imp (wp_mergeBelow h₄ hx hdfree hpre hchain) fun _ h' hm => ?_
  obtain ⟨⟨mem'', rfl⟩, bs', hchain', h₅, hsame'⟩ := hm
  refine ⟨rfl, rfl, bs', hchain', h₅, fun y e => ?_⟩
  rw [hx, ← inUse_drop hsize]
  exact (hsame' y e).trans (hsame y e)

end Libc

end Os161
