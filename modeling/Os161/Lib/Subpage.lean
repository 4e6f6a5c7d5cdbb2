import Os161.Lib.PagerefLists
import Mathlib.Data.List.Perm.Subperm
import Mathlib.Tactic.IntervalCases
/-!
# The pages of the subpage allocator

`PageOk` says that the free list of a page is a list of blocks of the page, as
many as the pageref counts. `doalloc` takes the first of them off, and a new
page has all of its blocks on the list.
-/

namespace Os161

namespace Kheap

open Prog Pageref Function List

variable {h h' : Heap} {pr pr' : Pageref} {mem mem' : ℕ → ℕ} {fl l : List ℕ} {a b n q i : ℕ}
  {E : Stop Empty → Heap → Prop}

/-! ## Block sizes -/

theorem sizeOf_facts (hb : b < nsizes) :
    16 ≤ sizeOf b ∧ pageSize / sizeOf b * sizeOf b = pageSize ∧ 2 ≤ pageSize / sizeOf b := by
  unfold nsizes at hb
  interval_cases b <;> decide

/-! ## Blocks of a page -/

/-- The blocks of a page. -/
def Pageref.blocks (pr : Pageref) : List ℕ :=
  (range (pageSize / sizeOf pr.blocktype)).map fun i => pr.pageaddr + i * sizeOf pr.blocktype

theorem Pageref.mem_blocks : a ∈ pr.blocks ↔
    ∃ i < pageSize / sizeOf pr.blocktype, pr.pageaddr + i * sizeOf pr.blocktype = a := by
  unfold blocks
  rw [mem_map]
  exact exists_congr fun i => and_congr_left fun _ => mem_range

/-- A block lies in its page. -/
theorem Pageref.block_le (hb : pr.blocktype < nsizes) (ha : a ∈ pr.blocks) :
    pr.pageaddr ≤ a ∧ a + sizeOf pr.blocktype ≤ pr.pageaddr + pageSize := by
  obtain ⟨i, hi, rfl⟩ := mem_blocks.1 ha
  have hmul : (i + 1) * sizeOf pr.blocktype ≤ pageSize := by
    rw [← (sizeOf_facts hb).2.1]
    exact Nat.mul_le_mul_right _ hi
  rw [Nat.succ_mul] at hmul
  omega

/-- Two blocks of a page do not overlap. -/
theorem Pageref.block_apart (ha : a ∈ pr.blocks) (hb : b ∈ pr.blocks) (hne : a ≠ b) :
    Apart a (sizeOf pr.blocktype) b (sizeOf pr.blocktype) := by
  obtain ⟨i, -, rfl⟩ := mem_blocks.1 ha
  obtain ⟨j, -, rfl⟩ := mem_blocks.1 hb
  rcases Nat.lt_trichotomy i j with hij | rfl | hij
  · have hmul := Nat.mul_le_mul_right (sizeOf pr.blocktype) hij
    rw [Nat.succ_mul] at hmul
    exact .inl (by omega)
  · exact absurd rfl hne
  · have hmul := Nat.mul_le_mul_right (sizeOf pr.blocktype) hij
    rw [Nat.succ_mul] at hmul
    exact .inr (by omega)

/-! ## The free list of a page -/

/-- A pointer that is stored in a word. -/
def ofWord (w : ℕ) : Option ℕ := if w = 0 then none else some w

@[simp] theorem ofWord_zero : ofWord 0 = none := rfl

theorem ofWord_of_ne {w : ℕ} (hw : w ≠ 0) : ofWord w = some w := if_neg hw

/-- Where the free list of a page begins. -/
def Pageref.freelist (pr : Pageref) : Option ℕ :=
  if pr.freelistOffset = invalidOffset then none else some (pr.pageaddr + pr.freelistOffset)

/-- **The free list of a page is `fl`.** It runs through blocks of the page, and
has as many as the pageref counts; it ends, so it is acyclic. -/
structure PageOk (pr : Pageref) (mem : ℕ → ℕ) (fl : List ℕ) : Prop where
  type_lt : pr.blocktype < nsizes
  chain : Chain (fun a => ofWord (mem a)) pr.freelist fl
  block : ∀ a ∈ fl, a ∈ pr.blocks
  nfree : pr.nfree = fl.length

section

variable (hc : pr'.core = pr.core)

include hc

theorem Pageref.eq_of_core :
    pr'.pageaddrAndBlocktype = pr.pageaddrAndBlocktype ∧ pr'.freelistOffset = pr.freelistOffset ∧
      pr'.nfree = pr.nfree := by
  obtain ⟨h1, h2⟩ := Prod.mk.inj hc
  exact ⟨h1, Prod.mk.inj h2⟩

theorem Pageref.pageaddr_of_core : pr'.pageaddr = pr.pageaddr := by
  rw [pageaddr, (eq_of_core hc).1, pageaddr]

theorem Pageref.blocktype_of_core : pr'.blocktype = pr.blocktype := by
  rw [blocktype, (eq_of_core hc).1, blocktype]

theorem Pageref.blocks_of_core : pr'.blocks = pr.blocks := by
  rw [blocks, blocktype_of_core hc, pageaddr_of_core hc, blocks]

end

namespace PageOk

section

variable (hp : PageOk pr mem fl)

include hp

/-- Neither the links of the pageref nor memory elsewhere matter. -/
theorem congr (hc : pr'.core = pr.core) (hm : ∀ a ∈ fl, mem' a = mem a) :
    PageOk pr' mem' fl := by
  obtain ⟨h1, h2, h3, h4⟩ := hp
  have hfree : pr'.freelist = pr.freelist := by
    unfold freelist
    rw [(eq_of_core hc).2.1, pageaddr_of_core hc]
  refine ⟨?_, ?_, ?_, (eq_of_core hc).2.2.trans h4⟩
  · rw [blocktype_of_core hc]
    exact h1
  · rw [hfree]
    refine h2.congr fun a ha => ?_
    rw [hm a ha]
  · rw [blocks_of_core hc]
    exact h3

theorem subperm : fl.Subperm pr.blocks :=
  hp.chain.nodup.subperm hp.block

/-- There are no more free blocks than blocks. -/
theorem length_le : fl.length ≤ pageSize / sizeOf pr.blocktype := by
  have hle := hp.subperm.length_le
  rwa [blocks, length_map, length_range] at hle

/-- **If the pageref counts all blocks, all of them are free.** -/
theorem mem_of_full (hfull : fl.length = pageSize / sizeOf pr.blocktype)
    (ha : a ∈ pr.blocks) : a ∈ fl := by
  refine (hp.subperm.perm_of_length_le ?_).mem_iff.2 ha
  rw [blocks, length_map, length_range, hfull]

end

end PageOk

/-! ## Taking a block -/

theorem wp_setPageref {f : Pageref → Pageref} {Q : Unit → Heap → Prop} :
    wp (setPageref q f) Q E h ↔
      Q () { h with pagerefs := update h.pagerefs q (f (h.pagerefs q)) } := wp_modify

theorem wp_setNext {w : ℕ} {Q : Unit → Heap → Prop} :
    wp (setNext a w) Q E h ↔ Q () { h with mem := update h.mem a w } := wp_modify

/-- The pageref with another free list. -/
def Pageref.setFree (pr : Pageref) (off n : ℕ) : Pageref :=
  { pr with freelistOffset := off, nfree := n }

/-- The first free block of a page. -/
theorem PageOk.head (hp : PageOk pr mem (a :: l)) :
    pr.freelistOffset < pageSize ∧ pr.pageaddr + pr.freelistOffset = a := by
  have hfree := hp.chain.1
  unfold freelist at hfree
  split at hfree
  · exact absurd hfree (Option.some_ne_none a).symm
  · have ha := Option.some.inj hfree
    have hle := (block_le hp.type_lt (hp.block a mem_cons_self)).2
    have h16 := (sizeOf_facts hp.type_lt).1
    exact ⟨by omega, ha⟩

/-- A free list that is not empty begins in its page. -/
theorem PageOk.offset_lt (hp : PageOk pr mem fl) (hoff : pr.freelistOffset ≠ invalidOffset) :
    pr.freelistOffset < pageSize := by
  have hchain := hp.chain
  unfold freelist at hchain
  rw [if_neg hoff] at hchain
  obtain ⟨l, rfl, -⟩ := hchain.exists_cons
  exact hp.head.1

/-- The free list without its first block. -/
theorem PageOk.tail (hp : PageOk pr mem (a :: l)) {off : ℕ}
    (hoff : if mem a = 0 then off = invalidOffset else off = mem a - pr.pageaddr) :
    PageOk (pr.setFree off l.length) mem l := by
  have hrest := forall_mem_cons.1 hp.block
  refine ⟨hp.type_lt, ?_, hrest.2, rfl⟩
  have hchain : Chain (fun b => ofWord (mem b)) (ofWord (mem a)) l := hp.chain.2
  suffices hfree : (pr.setFree off l.length).freelist = ofWord (mem a) by
    rw [hfree]
    exact hchain
  show (if off = invalidOffset then none else some (pr.pageaddr + off)) = ofWord (mem a)
  by_cases hzero : mem a = 0
  · rw [if_pos hzero] at hoff
    rw [if_pos hoff, hzero, ofWord_zero]
  · rw [if_neg hzero] at hoff
    rw [ofWord_of_ne hzero] at hchain ⊢
    obtain ⟨l', rfl, -⟩ := hchain.exists_cons
    have hin := block_le hp.type_lt (hrest.2 _ mem_cons_self)
    have h16 := (sizeOf_facts hp.type_lt).1
    have hne : off ≠ invalidOffset := by
      rw [invalidOffset]
      rw [pageSize] at hin
      omega
    rw [if_neg hne]
    congr 1
    omega

/-- **`doalloc` takes the first block off the free list.** -/
theorem wp_doalloc (hp : PageOk (h.pagerefs q) h.mem (a :: l))
    (hlt : (h.pagerefs q).pageaddr + pageSize < 2 ^ 32) :
    wp (doalloc q)
      (fun r h' => r = a ∧ ∃ off,
        PageOk ((h.pagerefs q).setFree off l.length) h.mem l ∧
        h' = { h with pagerefs :=
          Function.update h.pagerefs q ((h.pagerefs q).setFree off l.length) }) E h := by
  obtain ⟨hoff, ha⟩ := hp.head
  have hnfree : (h.pagerefs q).nfree - 1 = l.length := by
    rw [hp.nfree]
    rfl
  have hfla : add32 (h.pagerefs q).pageaddr (h.pagerefs q).freelistOffset = a := by
    rw [add32_of_lt (by omega), ha]
  unfold doalloc
  rw [wp_get_bind, wp_assert_bind hoff]
  dsimp only
  generalize hfla' : add32 (h.pagerefs q).pageaddr (h.pagerefs q).freelistOffset = fla
  generalize hnfree' : (h.pagerefs q).nfree - 1 = nfree
  obtain rfl : a = fla := hfla.symm.trans hfla'
  obtain rfl : l.length = nfree := hnfree.symm.trans hnfree'
  rw [wp_bind, wp_setPageref, wp_ite]
  have hchain : Chain (fun b => ofWord (h.mem b)) (ofWord (h.mem a)) l := hp.chain.2
  split
  · rename_i hne
    rw [ofWord_of_ne hne] at hchain
    obtain ⟨l', hl, -⟩ := hchain.exists_cons
    have hin := block_le hp.type_lt (hp.block (h.mem a) (by rw [hl]; simp))
    have h16 := (sizeOf_facts hp.type_lt).1
    have hsub : sub32 (h.mem a) (h.pagerefs q).pageaddr = h.mem a - (h.pagerefs q).pageaddr :=
      sub32_of_le hin.1 (by omega)
    have hpage : h.mem a - (h.pagerefs q).pageaddr < pageSize := by omega
    have hmod : (h.mem a - (h.pagerefs q).pageaddr) % 2 ^ 16 =
        h.mem a - (h.pagerefs q).pageaddr := by
      rw [pageSize] at hpage
      omega
    have hsome : l.length > 0 := by
      rw [hl]
      exact Nat.succ_pos _
    rw [wp_assert_bind hsome, wp_assert_bind (hsub ▸ hpage), wp_bind,
      wp_setPageref, hsub, hmod, wp_pure]
    refine ⟨rfl, h.mem a - (h.pagerefs q).pageaddr, hp.tail (by rw [if_neg hne]), ?_⟩
    dsimp only
    rw [update_self, update_idem]
    rfl
  · rename_i hzero
    have hzero := not_not.1 hzero
    rw [hzero, ofWord_zero] at hchain
    obtain rfl := hchain.eq_nil
    rw [wp_assert_bind length_nil, wp_bind, wp_setPageref, wp_pure]
    refine ⟨rfl, invalidOffset, hp.tail (by rw [if_pos hzero]), ?_⟩
    dsimp only
    rw [update_self, update_idem]
    rfl

/-- **A block is put in front of the free list.** -/
theorem PageOk.push (hp : PageOk pr mem fl) (ha : a ∈ pr.blocks) (hmem : ∀ b ∈ fl, mem' b = mem b)
    (hnext : ofWord (mem' a) = pr.freelist) :
    PageOk (pr.setFree (a - pr.pageaddr) (fl.length + 1)) mem' (a :: fl) := by
  have hin := block_le hp.type_lt ha
  have h16 := (sizeOf_facts hp.type_lt).1
  refine ⟨hp.type_lt, ⟨?_, ?_⟩, ?_, rfl⟩
  · show (if a - pr.pageaddr = invalidOffset then none
      else some (pr.pageaddr + (a - pr.pageaddr))) = some a
    have hne : a - pr.pageaddr ≠ invalidOffset := by
      rw [invalidOffset]
      rw [pageSize] at hin
      omega
    rw [if_neg hne]
    congr 1
    omega
  · show Chain (fun b => ofWord (mem' b)) (ofWord (mem' a)) fl
    rw [hnext]
    refine hp.chain.congr fun b hb => ?_
    rw [hmem b hb]
  · exact forall_mem_cons.2 ⟨ha, hp.block⟩

/-! ## A new page -/

variable {page : ℕ}

/-- The list of the first `n + 1` blocks, the last one first. -/
theorem chain_carved {size : ℕ} (hpos : 0 < page) (hzero : mem page = 0)
    (hmem : ∀ i < n, mem (page + (i + 1) * size) = page + i * size) :
    Chain (fun a => ofWord (mem a)) (some (page + n * size))
      ((range (n + 1)).reverse.map fun i => page + i * size) := by
  induction n with
  | zero =>
    refine ⟨rfl, ?_⟩
    show ofWord (mem (page + 0 * size)) = none
    rw [Nat.zero_mul, Nat.add_zero, hzero, ofWord_zero]
  | succ n ih =>
    rw [range_succ, reverse_append, reverse_singleton, singleton_append,
      map_cons]
    refine ⟨rfl, ?_⟩
    show Chain _ (ofWord (mem (page + (n + 1) * size))) _
    rw [hmem n (Nat.lt_succ_self n), ofWord_of_ne (by omega)]
    exact ih fun i hi => hmem i (by omega)

/-- The loop that links the blocks of a new page. -/
theorem wp_carve {size : ℕ} (hsize : 0 < size) (hi : 1 ≤ i)
    (hlt : page + (i + n) * size < 2 ^ 32) :
    wp (carve page size n i)
      (fun _ h' => ∃ mem', h' = { h with mem := mem' } ∧
        (∀ j, i ≤ j → j < i + n → mem' (page + j * size) = page + (j - 1) * size) ∧
        ∀ a, (∀ j, i ≤ j → j < i + n → a ≠ page + j * size) → mem' a = h.mem a) E h := by
  induction n generalizing i h with
  | zero =>
    exact wp_pure.2 ⟨h.mem, rfl, fun j h1 h2 => by omega, fun a _ => rfl⟩
  | succ n ih =>
    -- the products that are compared
    have hstep : (i - 1) * size + size = i * size := by
      rw [← Nat.succ_mul]
      congr 1
      omega
    have hrest : (i + 1 + n) * size = (i + (n + 1)) * size := by
      congr 1
      omega
    have hmul : i * size ≤ (i + (n + 1)) * size := Nat.mul_le_mul_right _ (by omega)
    have hfl : add32 page (i * size) = page + i * size := add32_of_lt (by omega)
    have hnext : add32 page ((i - 1) * size) = page + (i - 1) * size := add32_of_lt (by omega)
    unfold carve
    rw [hfl, hnext, wp_bind, wp_setNext, wp_assert_bind (by omega)]
    refine wp_imp (ih (by omega) (by rw [hrest]; exact hlt)) fun _ h' hr => ?_
    obtain ⟨mem', rfl, hin, hout⟩ := hr
    have hne : ∀ j, i + 1 ≤ j → page + i * size ≠ page + j * size := by
      intro j hj
      have hjm := Nat.mul_le_mul_right size hj
      rw [Nat.succ_mul] at hjm
      omega
    refine ⟨mem', rfl, fun j h1 h2 => ?_, fun a ha => ?_⟩
    · rcases Nat.lt_or_ge i j with hij | hij
      · exact hin j hij (by omega)
      · obtain rfl : j = i := by omega
        rw [hout _ fun j' h1 _ => hne j' h1]
        exact update_self _ _ _
    · rw [hout a fun j h1 h2 => ha j (by omega) (by omega)]
      exact update_of_ne (ha i (Nat.le_refl i) (by omega)) _ _

theorem mkpab_facts (hmod : page % pageSize = 0) (hb : b < nsizes) :
    mkpab page b / pageSize * pageSize = page ∧ mkpab page b % pageSize = b := by
  rw [nsizes] at hb
  simp only [mkpab, pageSize] at hmod ⊢
  omega

/-- **A new page has all its blocks on its free list**, and its pageref is in
front of its two lists. -/
theorem wp_newPage (hb : b < nsizes) (hpos : 0 < page) (hmod : page % pageSize = 0)
    (hlt : page + pageSize < 2 ^ 32) :
    wp (newPage q page b)
      (fun _ h' => ∃ mem' pr', (∀ a, a < page ∨ page + pageSize ≤ a → mem' a = h.mem a) ∧
        pr'.nextSamesize = h.sizebases b ∧ pr'.nextAll = h.allbase ∧ pr'.pageaddr = page ∧
        pr'.blocktype = b ∧ PageOk pr' mem' pr'.blocks.reverse ∧
        h' = { h with
          pagerefs := update h.pagerefs q pr'
          mem := mem'
          sizebases := update h.sizebases b (some q)
          allbase := some q }) E h := by
  obtain ⟨h16, hfull, h2⟩ := sizeOf_facts hb
  obtain ⟨n, hn⟩ : ∃ n, pageSize / sizeOf b = n + 1 := ⟨pageSize / sizeOf b - 1, by omega⟩
  have hmul : (n + 1) * sizeOf b = pageSize := by rw [← hn, hfull]
  have hsucc : (n + 1) * sizeOf b = n * sizeOf b + sizeOf b := Nat.succ_mul _ _
  have hlast : sub32 (add32 page (n * sizeOf b)) page % 2 ^ 16 = n * sizeOf b := by
    rw [add32_of_lt (by omega), sub32_of_le (by omega) (by omega)]
    rw [pageSize] at hmul
    omega
  obtain ⟨haddr, htype⟩ := mkpab_facts hmod hb
  unfold newPage
  dsimp only
  rw [hn, Nat.add_sub_cancel, wp_bind, wp_setPageref, wp_bind, wp_setNext]
  refine wp_then (wp_carve (by omega) (Nat.le_refl 1) ?_) fun _ h' hr => ?_
  · rw [Nat.add_comm 1 n, hmul]
    exact hlt
  obtain ⟨mem', rfl, hin, hout⟩ := hr
  rw [hlast, wp_bind, wp_setPageref, wp_assert_bind rfl, wp_get_bind, wp_bind,
    wp_setPageref, wp_modify]
  dsimp only
  rw [update_self, update_idem, update_self, update_idem]
  obtain ⟨pr', hpr'⟩ : ∃ pr' : Pageref,
      pr' = ⟨h.sizebases b, h.allbase, mkpab page b, n * sizeOf b, n + 1⟩ := ⟨_, rfl⟩
  rw [← hpr']
  have haddr' : pr'.pageaddr = page := by rw [hpr', pageaddr, haddr]
  have htype' : pr'.blocktype = b := by rw [hpr', Pageref.blocktype, htype]
  have hblocks : pr'.blocks = (range (n + 1)).map fun i => page + i * sizeOf b := by
    rw [blocks, haddr', htype', hn]
  refine ⟨mem', pr', fun a ha => ?_, by rw [hpr'], by rw [hpr'], haddr', htype',
    ⟨htype' ▸ hb, ?_, fun a ha => mem_reverse.1 ha, ?_⟩, rfl⟩
  · have hne : ∀ j, 1 ≤ j → j < 1 + n → a ≠ page + j * sizeOf b := by
      intro j _ hj
      have hjm := Nat.mul_le_mul_right (sizeOf b) (Nat.le_of_lt_succ (Nat.add_comm 1 n ▸ hj))
      omega
    rw [hout a hne]
    exact update_of_ne (by omega) _ _
  · have hfree : pr'.freelist = some (page + n * sizeOf b) := by
      rw [freelist, haddr', hpr', if_neg]
      show n * sizeOf b ≠ invalidOffset
      rw [invalidOffset]
      rw [pageSize] at hmul
      omega
    rw [hblocks, ← map_reverse, hfree]
    refine chain_carved hpos ?_ fun j hj => hin (j + 1) (by omega) (by omega)
    have hne : ∀ j, 1 ≤ j → j < 1 + n → page ≠ page + j * sizeOf b := by
      intro j hj _
      have hjm := Nat.mul_le_mul_right (sizeOf b) hj
      omega
    rw [hout page hne]
    exact update_self _ _ _
  · rw [hblocks, length_reverse, length_map, length_range, hpr']

/-! ## The searches -/

/-- The search of `subpage_kmalloc` finds a page with a free block, or comes to
the end of its list. -/
theorem wp_findPage {fuel : ℕ} {x : Option ℕ}
    (hc : Chain (fun q => (h.pagerefs q).nextSamesize) x l)
    (ht : ∀ q ∈ l, (h.pagerefs q).blocktype = b) (hfuel : l.length < fuel) :
    wp (findPage b fuel x)
      (fun r h' => h' = h ∧ ∀ q, r = some q → q ∈ l ∧ 0 < (h.pagerefs q).nfree) E h := by
  induction l generalizing fuel x with
  | nil =>
    obtain ⟨fuel, rfl⟩ : ∃ m, fuel = m + 1 := ⟨fuel - 1, by simp at hfuel; omega⟩
    rw [hc]
    exact wp_pure.2 ⟨rfl, fun q hq => absurd hq (Option.some_ne_none q).symm⟩
  | cons q l ih =>
    rw [length_cons] at hfuel
    obtain ⟨fuel, rfl⟩ : ∃ m, fuel = m + 1 := ⟨fuel - 1, by omega⟩
    obtain ⟨hq, hl⟩ := forall_mem_cons.1 ht
    rw [hc.1]
    unfold findPage
    rw [wp_get_bind, wp_assert_bind hq, wp_ite]
    split
    · rename_i hpos
      refine wp_pure.2 ⟨rfl, fun q' hq' => ?_⟩
      obtain rfl := Option.some.inj hq'
      exact ⟨mem_cons_self, hpos⟩
    · refine wp_imp (ih hc.2 hl (by omega)) fun r h' hr => ⟨hr.1, fun q' hq' => ?_⟩
      obtain ⟨h1, h2⟩ := hr.2 q' hq'
      exact ⟨mem_cons_of_mem _ h1, h2⟩

/-- An address is in a page. -/
def Pageref.Has (pr : Pageref) (a : ℕ) : Prop := pr.pageaddr ≤ a ∧ a < pr.pageaddr + pageSize

/-- The search of `subpage_kfree` finds the page that an address is in, if there
is one. -/
theorem wp_findOwner {fuel : ℕ} {x : Option ℕ}
    (hc : Chain (fun q => (h.pagerefs q).nextAll) x l)
    (ht : ∀ q ∈ l, (h.pagerefs q).blocktype < nsizes)
    (hlt : ∀ q ∈ l, (h.pagerefs q).pageaddr + pageSize < 2 ^ 32) (hfuel : l.length < fuel) :
    wp (findOwner a fuel x)
      (fun r h' => h' = h ∧ match r with
        | none => ∀ q ∈ l, ¬ (h.pagerefs q).Has a
        | some q => q ∈ l ∧ (h.pagerefs q).Has a) E h := by
  induction l generalizing fuel x with
  | nil =>
    obtain ⟨fuel, rfl⟩ : ∃ m, fuel = m + 1 := ⟨fuel - 1, by simp at hfuel; omega⟩
    rw [hc]
    exact wp_pure.2 ⟨rfl, fun q hq => absurd hq not_mem_nil⟩
  | cons q l ih =>
    rw [length_cons] at hfuel
    obtain ⟨fuel, rfl⟩ : ∃ m, fuel = m + 1 := ⟨fuel - 1, by omega⟩
    obtain ⟨hq, hl⟩ := forall_mem_cons.1 ht
    obtain ⟨hq32, hl32⟩ := forall_mem_cons.1 hlt
    have hend : add32 (h.pagerefs q).pageaddr pageSize = (h.pagerefs q).pageaddr + pageSize :=
      add32_of_lt hq32
    rw [hc.1]
    unfold findOwner
    rw [wp_get_bind, wp_assert_bind hq, wp_ite]
    split
    · rename_i hin
      rw [hend] at hin
      exact wp_pure.2 ⟨rfl, mem_cons_self, hin⟩
    · rename_i hout
      rw [hend] at hout
      refine wp_imp (ih hc.2 hl hl32 (by omega)) fun r h' hr => ⟨hr.1, ?_⟩
      cases r with
      | none => exact forall_mem_cons.2 ⟨hout, hr.2⟩
      | some q' => exact ⟨mem_cons_of_mem _ hr.2.1, hr.2.2⟩

end Kheap

end Os161
