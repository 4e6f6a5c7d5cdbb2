import Os161.Lib.Subpage
import Mathlib.Data.List.Pairwise
/-!
# The pages of the kernel heap

`Pages` is the representation invariant of the subpage allocator: a pageref is
on `allbase`, on the list of its block size and marked in use together, its page
is one that `alloc_kpages` handed out, and the free list of the page is a list
of its blocks. `RunsApart` is what is known of the pages handed out. A change of
one page, a new page and the removal of a page keep both.
-/

namespace Os161

namespace Kheap

open Function Pageref List

variable {h h' : Heap} {pr pr' : Pageref} {mem mem' : ℕ → ℕ} {fl all : List ℕ}
  {free : ℕ → List ℕ} {a b n p q q' off page : ℕ} {ks : List (ℕ × ℕ)}

/-- The pages handed out are aligned and do not overlap. -/
structure RunsApart (ks : List (ℕ × ℕ)) : Prop where
  each : ∀ r ∈ ks, 0 < r.1 ∧ r.1 % pageSize = 0 ∧ 1 ≤ r.2 ∧ r.1 + r.2 * pageSize < 2 ^ 32
  apart : ks.Pairwise fun r r' => Apart r.1 (r.2 * pageSize) r'.1 (r'.2 * pageSize)

/-- Whether a pageref is on a list. -/
def Which.has (k : Which) (pr : Pageref) : Bool :=
  match k with
  | .samesize b => pr.blocktype = b
  | .all => true

/-- **The subpage allocator's pages are in order.** -/
structure Pages (h : Heap) (all : List ℕ) (free : ℕ → List ℕ) : Prop where
  lists : Lists h fun k => all.filter fun q => k.has (h.pagerefs q)
  lt : ∀ q ∈ all, q < npagerefs
  inuse : ∀ q < npagerefs, h.bit q = true ↔ q ∈ all
  page : ∀ q ∈ all, PageOk (h.pagerefs q) h.mem (free q)
  run : ∀ q ∈ all, ((h.pagerefs q).pageaddr, 1) ∈ h.kpages
  distinct : ∀ q ∈ all, ∀ q' ∈ all, (h.pagerefs q).pageaddr = (h.pagerefs q').pageaddr → q = q'

namespace RunsApart

/-- Two runs are one, or they do not overlap. -/
theorem apart_of_ne (hk : RunsApart ks) {r r' : ℕ × ℕ} (hr : r ∈ ks) (hr' : r' ∈ ks)
    (hne : r ≠ r') :
    Apart r.1 (r.2 * pageSize) r'.1 (r'.2 * pageSize) := by
  have hsymm : Std.Symm fun r r' : ℕ × ℕ =>
      Apart r.1 (r.2 * pageSize) r'.1 (r'.2 * pageSize) := ⟨fun _ _ h => h.symm⟩
  exact hk.apart.forall hr hr' hne

/-- `alloc_kpages` hands out fresh pages. -/
theorem cons (hk : RunsApart ks) (hfresh : FreshPages ks page n) (hn : 1 ≤ n) :
    RunsApart ((page, n) :: ks) where
  each := forall_mem_cons.2 ⟨⟨hfresh.1, hfresh.2.1, hn, hfresh.2.2.1⟩, hk.each⟩
  apart := pairwise_cons.2 ⟨hfresh.2.2.2, hk.apart⟩

/-- `free_kpages` is called. -/
theorem filter (hk : RunsApart ks) (f : ℕ × ℕ → Bool) : RunsApart (ks.filter f) where
  each := fun r hr => hk.each r (mem_of_mem_filter hr)
  apart := hk.apart.filter f

end RunsApart

namespace Pages

section

variable (hp : Pages h all free)

include hp

theorem all_chain : Chain (fun q => (h.pagerefs q).nextAll) h.allbase all := by
  have hall : Chain (fun q => (h.pagerefs q).nextAll) h.allbase
      (all.filter fun q => Which.has .all (h.pagerefs q)) := hp.lists .all
  have hfilter : all.filter (fun q => Which.has .all (h.pagerefs q)) = all :=
    filter_eq_self.2 fun _ _ => rfl
  rwa [hfilter] at hall

theorem nodup : all.Nodup := hp.all_chain.nodup

theorem length_le : all.length ≤ npagerefs := by
  have hsub := (hp.nodup.subperm fun q hq => mem_range.2 (hp.lt q hq)).length_le
  rwa [length_range] at hsub

/-- Where a page can be. -/
theorem bounds (hk : RunsApart h.kpages) (hq : q ∈ all) :
    0 < (h.pagerefs q).pageaddr ∧ (h.pagerefs q).pageaddr % pageSize = 0 ∧
      (h.pagerefs q).pageaddr + pageSize < 2 ^ 32 := by
  obtain ⟨h1, h2, -, h4⟩ := hk.each _ (hp.run q hq)
  rw [Nat.one_mul] at h4
  exact ⟨h1, h2, h4⟩

/-- A block is in its page. -/
theorem has_block (hq : q ∈ all) (ha : a ∈ (h.pagerefs q).blocks) :
    (h.pagerefs q).Has a := by
  have hle := block_le (hp.page q hq).type_lt ha
  have h16 := (sizeOf_facts (hp.page q hq).type_lt).1
  exact ⟨hle.1, by omega⟩

/-- **An address is in one page at most.** -/
theorem eq_of_has (hk : RunsApart h.kpages) (hq : q ∈ all) (hq' : q' ∈ all)
    (ha : (h.pagerefs q).Has a) (ha' : (h.pagerefs q').Has a) : q = q' := by
  by_contra hne
  have hdiff : ((h.pagerefs q).pageaddr, 1) ≠ ((h.pagerefs q').pageaddr, 1) := fun heq =>
    hne (hp.distinct q hq q' hq' (Prod.mk.inj heq).1)
  have hapart := hk.apart_of_ne (hp.run q hq) (hp.run q' hq') hdiff
  obtain ⟨h1, h2⟩ := ha
  obtain ⟨h3, h4⟩ := ha'
  rcases hapart with hle | hle
  · omega
  · omega

/-- A page and another run that was handed out do not overlap. -/
theorem apart_run (hk : RunsApart h.kpages) (hq : q ∈ all) {m : ℕ}
    (hr : (p, m) ∈ h.kpages) (hne : (h.pagerefs q).pageaddr ≠ p) :
    Apart (h.pagerefs q).pageaddr pageSize p (m * pageSize) := by
  have hapart := hk.apart_of_ne (hp.run q hq) hr fun heq => hne (Prod.mk.inj heq).1
  simp only [Nat.one_mul] at hapart
  exact hapart

/-- The bits matter only as a set. -/
theorem congr_bits {inuse' : ℕ → BitVec 32}
    (hbits : ∀ q, Heap.bit { h with inuse := inuse' } q = h.bit q) :
    Pages { h with inuse := inuse' } all free where
  lists := hp.lists
  lt := hp.lt
  inuse := fun q hq => by rw [hbits q, hp.inuse q hq]
  page := hp.page
  run := hp.run
  distinct := hp.distinct

/-- More pages may be handed out. -/
theorem congr_kpages
    (hks : ∀ q ∈ all, ((h.pagerefs q).pageaddr, 1) ∈ ks) :
    Pages { h with kpages := ks } all free where
  lists := hp.lists
  lt := hp.lt
  inuse := hp.inuse
  page := hp.page
  run := hks
  distinct := hp.distinct

/-- Memory outside of the free blocks does not matter. -/
theorem congr_mem (hm : ∀ q ∈ all, ∀ a ∈ free q, mem' a = h.mem a) :
    Pages { h with mem := mem' } all free where
  lists := hp.lists
  lt := hp.lt
  inuse := hp.inuse
  page := fun q hq => (hp.page q hq).congr rfl (hm q hq)
  run := hp.run
  distinct := hp.distinct

end

end Pages

/-! ## One page changes -/

theorem update_setFree (x : ℕ) :
    (∀ k, (update h.pagerefs q ((h.pagerefs q).setFree off n) x).next k =
      (h.pagerefs x).next k) ∧
    (update h.pagerefs q ((h.pagerefs q).setFree off n) x).pageaddrAndBlocktype =
      (h.pagerefs x).pageaddrAndBlocktype := by
  by_cases hx : x = q
  · subst hx
    rw [update_self]
    exact ⟨fun k => by cases k <;> rfl, rfl⟩
  · rw [update_of_ne hx]
    exact ⟨fun _ => rfl, rfl⟩

theorem Pageref.eq_of_pab (hpab : pr'.pageaddrAndBlocktype = pr.pageaddrAndBlocktype) :
    pr'.pageaddr = pr.pageaddr ∧ pr'.blocktype = pr.blocktype ∧ pr'.blocks = pr.blocks := by
  have h1 : pr'.pageaddr = pr.pageaddr := by rw [pageaddr, hpab, pageaddr]
  have h2 : pr'.blocktype = pr.blocktype := by rw [blocktype, hpab, blocktype]
  exact ⟨h1, h2, by rw [blocks, h1, h2, blocks]⟩

theorem Which.has_congr (k : Which) (hb : pr'.blocktype = pr.blocktype) : k.has pr' = k.has pr := by
  cases k with
  | samesize b =>
    show decide (pr'.blocktype = b) = decide (pr.blocktype = b)
    rw [hb]
  | all => rfl

/-- **The free list of one page changes**, and memory in that page. -/
theorem Pages.setFree (hp : Pages h all free) (hk : RunsApart h.kpages) (hq : q ∈ all)
    (hpage : PageOk ((h.pagerefs q).setFree off n) mem' fl)
    (hmem : ∀ a, ¬ (h.pagerefs q).Has a → mem' a = h.mem a) :
    Pages { h with
      pagerefs := update h.pagerefs q ((h.pagerefs q).setFree off n)
      mem := mem' } all (update free q fl) := by
  have hpab : ∀ x, (update h.pagerefs q ((h.pagerefs q).setFree off n) x).pageaddr =
        (h.pagerefs x).pageaddr ∧
      (update h.pagerefs q ((h.pagerefs q).setFree off n) x).blocktype =
        (h.pagerefs x).blocktype :=
    fun x => ⟨(eq_of_pab (update_setFree x).2).1, (eq_of_pab (update_setFree x).2).2.1⟩
  refine ⟨fun k => ?_, hp.lt, hp.inuse, fun x hx => ?_, fun x hx => ?_, fun x hx y hy hxy => ?_⟩
  · have hfilter : all.filter (fun x => k.has
        (update h.pagerefs q ((h.pagerefs q).setFree off n) x)) =
        all.filter fun x => k.has (h.pagerefs x) :=
      filter_congr fun x _ => k.has_congr (hpab x).2
    dsimp only
    rw [hfilter]
    exact (hp.lists k).congr fun x _ => (update_setFree x).1 k
  · dsimp only
    by_cases hxq : x = q
    · subst hxq
      rw [update_self, update_self]
      exact hpage
    · rw [update_of_ne hxq, update_of_ne hxq]
      refine (hp.page x hx).congr rfl fun a ha => hmem a fun hhas => hxq ?_
      exact hp.eq_of_has hk hx hq (hp.has_block hx ((hp.page x hx).block a ha)) hhas
  · rw [(hpab x).1]
    exact hp.run x hx
  · rw [(hpab x).1, (hpab y).1] at hxy
    exact hp.distinct x hx y hy hxy

/-! ## A page more, a page less -/

/-- **A new page.** Its pageref, which was not in use, goes in front of both its
lists. -/
theorem Pages.add (hp : Pages h all free) (hq : q < npagerefs)
    (hnew : q ∉ all) (hbits : ∀ x, h'.bit x = (h.bit x || decide (x = q)))
    (hks : h'.kpages = (page, 1) :: h.kpages) (hfresh : FreshPages h.kpages page 1)
    (hmem : ∀ a, a < page ∨ page + pageSize ≤ a → h'.mem a = h.mem a)
    (hprs : h'.pagerefs = update h.pagerefs q pr')
    (hsame : pr'.nextSamesize = h.sizebases b) (hall : pr'.nextAll = h.allbase)
    (haddr : pr'.pageaddr = page) (htype : pr'.blocktype = b) (hpage : PageOk pr' h'.mem fl)
    (hbase : h'.sizebases = update h.sizebases b (some q)) (hallb : h'.allbase = some q) :
    Pages h' (q :: all) (update free q fl) := by
  have hself : h'.pagerefs q = pr' := by rw [hprs, update_self]
  have hother : ∀ x ∈ all, h'.pagerefs x = h.pagerefs x := by
    intro x hx
    rw [hprs, update_of_ne (ne_of_mem_of_not_mem hx hnew)]
  -- no old page is at the address of the new one
  have hdiff : ∀ x ∈ all, Apart page pageSize (h.pagerefs x).pageaddr pageSize := by
    intro x hx
    have hapart := hfresh.2.2.2 _ (hp.run x hx)
    simp only [Nat.one_mul] at hapart
    exact hapart
  have hne : ∀ x ∈ all, (h.pagerefs x).pageaddr ≠ page := by
    intro x hx heq
    have hapart := hdiff x hx
    rw [heq, pageSize] at hapart
    rcases hapart with hle | hle <;> omega
  refine ⟨fun k => ?_, ?_, fun x hx => ?_, ?_, ?_, ?_⟩
  · have hold : all.filter (fun x => k.has (h'.pagerefs x)) =
        all.filter fun x => k.has (h.pagerefs x) :=
      filter_congr fun x hx => by rw [hother x hx]
    have hnotin : q ∉ all.filter fun x => k.has (h.pagerefs x) := fun hmem =>
      hnew (mem_of_mem_filter hmem)
    have hnext : ∀ x ∈ all.filter (fun x => k.has (h.pagerefs x)),
        (h'.pagerefs x).next k = (h.pagerefs x).next k :=
      fun x hx => by rw [hother x (mem_of_mem_filter hx)]
    have hlist := (hp.lists k).congr hnext
    dsimp only
    cases hhas : k.has pr' with
    | true =>
      rw [filter_cons_of_pos (by rw [hself, hhas]), hold]
      -- it is pushed
      cases k with
      | samesize c =>
        obtain rfl : b = c := htype.symm.trans (of_decide_eq_true hhas)
        refine ⟨?_, ?_⟩
        · show h'.sizebases b = some q
          rw [hbase, update_self]
        · show Chain _ (h'.pagerefs q).nextSamesize _
          rw [hself, hsame]
          exact hlist
      | all =>
        refine ⟨hallb, ?_⟩
        show Chain _ (h'.pagerefs q).nextAll _
        rw [hself, hall]
        exact hlist
    | false =>
      rw [filter_cons_of_neg (by rw [hself, hhas]; exact Bool.false_ne_true), hold]
      -- it is on another list
      cases k with
      | samesize c =>
        have hbc : c ≠ b := fun hc => of_decide_eq_false hhas (htype.trans hc.symm)
        have hhead : h'.head (.samesize c) = h.head (.samesize c) := by
          show h'.sizebases c = h.sizebases c
          rw [hbase, update_of_ne hbc]
        rw [hhead]
        exact hlist
      | all => cases hhas
  · exact forall_mem_cons.2 ⟨hq, hp.lt⟩
  · rw [hbits, Bool.or_eq_true, hp.inuse x hx, decide_eq_true_iff, mem_cons]
    exact or_comm
  · refine forall_mem_cons.2 ⟨?_, fun x hx => ?_⟩
    · rw [hself, update_self]
      exact hpage
    · rw [hother x hx, update_of_ne (ne_of_mem_of_not_mem hx hnew)]
      refine (hp.page x hx).congr rfl fun a ha => hmem a ?_
      have hhas := hp.has_block hx ((hp.page x hx).block a ha)
      obtain ⟨h1, h2⟩ := hhas
      rcases hdiff x hx with hle | hle
      · exact .inr (by omega)
      · exact .inl (by omega)
  · rw [hks]
    refine forall_mem_cons.2 ⟨?_, fun x hx => ?_⟩
    · rw [hself, haddr]
      exact mem_cons_self
    · rw [hother x hx]
      exact mem_cons_of_mem _ (hp.run x hx)
  · intro x hx y hy hxy
    rcases mem_cons.1 hx with hxq | hx' <;> rcases mem_cons.1 hy with hyq | hy'
    · rw [hxq, hyq]
    · rw [hxq, hself, hother y hy', haddr] at hxy
      exact absurd hxy.symm (hne y hy')
    · rw [hyq, hself, hother x hx', haddr] at hxy
      exact absurd hxy (hne x hx')
    · rw [hother x hx', hother y hy'] at hxy
      exact hp.distinct x hx' y hy' hxy

/-- **A page is given back.** Its pageref has come off both lists. -/
theorem Pages.remove {h₁ : Heap} (hp : Pages h all free) (hq : q ∈ all) (hsame : SameCore h h₁)
    (hlists : Lists h₁ fun k => (all.filter fun x => k.has (h.pagerefs x)).filter fun x => x ≠ q)
    (hbits : ∀ x, h'.bit x = (h.bit x && decide (x ≠ q)))
    (hks : h'.kpages = h.kpages.filter fun r => r.1 ≠ (h.pagerefs q).pageaddr)
    (hmem : h'.mem = h₁.mem) (hprs : h'.pagerefs = h₁.pagerefs)
    (hbase : h'.sizebases = h₁.sizebases) (hallb : h'.allbase = h₁.allbase) :
    Pages h' (all.filter fun x => x ≠ q) free := by
  have hcore : ∀ x, (h'.pagerefs x).core = (h.pagerefs x).core := by
    intro x
    rw [hprs]
    exact hsame.core x
  have hin : ∀ x ∈ all.filter (fun x => x ≠ q), x ∈ all ∧ x ≠ q := by
    intro x hx
    obtain ⟨h1, h2⟩ := mem_filter.1 hx
    exact ⟨h1, of_decide_eq_true h2⟩
  refine ⟨fun k => ?_, fun x hx => hp.lt x (hin x hx).1, fun x hx => ?_, fun x hx => ?_,
    fun x hx => ?_, fun x hx y hy hxy => ?_⟩
  · have hfilter : (all.filter fun x => x ≠ q).filter (fun x => k.has (h'.pagerefs x)) =
        (all.filter fun x => k.has (h.pagerefs x)).filter fun x => x ≠ q := by
      rw [filter_filter, filter_filter]
      refine filter_congr fun x _ => ?_
      rw [k.has_congr (blocktype_of_core (hcore x)), Bool.and_comm]
    have hhead : h'.head k = h₁.head k := by
      cases k with
      | samesize b =>
        show h'.sizebases b = h₁.sizebases b
        rw [hbase]
      | all => exact hallb
    dsimp only
    rw [hfilter, hhead, hprs]
    exact hlists k
  · rw [hbits, Bool.and_eq_true, hp.inuse x hx, mem_filter]
  · rw [hmem, hsame.mem]
    exact (hp.page x (hin x hx).1).congr (hcore x) fun _ _ => rfl
  · rw [pageaddr_of_core (hcore x), hks]
    refine mem_filter.2 ⟨hp.run x (hin x hx).1, decide_eq_true fun heq => ?_⟩
    exact (hin x hx).2 (hp.distinct x (hin x hx).1 q hq heq)
  · rw [pageaddr_of_core (hcore x), pageaddr_of_core (hcore y)] at hxy
    exact hp.distinct x (hin x hx).1 y (hin y hy).1 hxy

end Kheap

end Os161
