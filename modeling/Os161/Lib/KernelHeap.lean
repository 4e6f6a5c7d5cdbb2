import Os161.Lib.KernelPages
/-!
# The kernel heap

The kernel calls `kmalloc` and `kfree` as it likes, on pointers it has, and
writes to its blocks and to memory that is not of the heap. `Intact` is what
holds between its calls: the pages are in order (`Pages`), and every block of a
page is on the free list of its page or live, and not both (`Owned`). Each call
keeps it and returns, so that in every run (`kernel_heap_intact`) no assertion
fails and no two blocks overlap.
-/

namespace Os161

namespace Kheap

open Prog Function Pageref Heap Kernel List

variable {h h' : Heap} {all fl l : List ℕ} {free : ℕ → List ℕ} {live : List (ℕ × ℕ)}
  {a p q m sz page : ℕ} {s s' : Kernel} {E : Stop Empty → Heap → Prop}

/-! ## Sizes -/

/-- The block size for a small request. -/
theorem exists_blocktype (hsz : sz < largestSubpageSize) :
    ∃ b < nsizes, (sizes.findIdx? fun s => sz ≤ s) = some b ∧ sizeOf b = blockLen sz ∧
      sz ≤ sizeOf b := by
  have hlast : ∃ s ∈ sizes, decide (sz ≤ s) = true := by
    refine ⟨2048, by decide, decide_eq_true ?_⟩
    rw [largestSubpageSize] at hsz
    omega
  have hlt := findIdx_lt_length_of_exists hlast
  have hlen : sizeOf (sizes.findIdx fun s => sz ≤ s) = blockLen sz := by
    rw [blockLen, if_neg (Nat.not_le.2 hsz), find?_eq_getElem?_findIdx]
    exact getD_eq_getElem?_getD
  refine ⟨_, hlt, findIdx?_eq_some_iff_findIdx_eq.2 ⟨hlt, rfl⟩, hlen, ?_⟩
  rw [sizeOf, getD_eq_getElem?_getD, getElem?_eq_getElem hlt, Option.getD_some]
  exact of_decide_eq_true (findIdx_getElem (w := hlt))

section

variable (hw : sz + (pageSize - 1) < 2 ^ 32)

include hw

theorem npages_of_lt : npages sz = (sz + (pageSize - 1)) / pageSize := by
  rw [npages, add32_of_lt hw]

/-- A block has room for what was asked for. -/
theorem le_blockLen : sz ≤ blockLen sz := by
  by_cases hsz : sz < largestSubpageSize
  · obtain ⟨b, -, -, hlen, hle⟩ := exists_blocktype hsz
    rwa [← hlen]
  · rw [blockLen, if_pos (Nat.le_of_not_lt hsz), npages_of_lt hw, pageSize]
    omega

theorem one_le_pagesFor : 1 ≤ pagesFor sz := by
  unfold pagesFor
  split
  · rename_i hsz
    rw [largestSubpageSize] at hsz
    rw [npages_of_lt hw, pageSize]
    omega
  · exact Nat.le_refl 1

end

/-! ## What is live -/

/-- **A block of a page is free or live**, and a large allocation has pages of
its own. -/
structure Owned (h : Heap) (all : List ℕ) (free : ℕ → List ℕ) (live : List (ℕ × ℕ)) : Prop where
  small : ∀ p sz, (p, sz) ∈ live → sz < largestSubpageSize → ∃ q ∈ all,
    sizeOf (h.pagerefs q).blocktype = blockLen sz ∧ p ∈ (h.pagerefs q).blocks ∧ p ∉ free q
  large : ∀ p sz, (p, sz) ∈ live → largestSubpageSize ≤ sz →
    (p, npages sz) ∈ h.kpages ∧ ∀ q ∈ all, (h.pagerefs q).pageaddr ≠ p
  used : ∀ q ∈ all, ∀ a ∈ (h.pagerefs q).blocks, a ∉ free q → ∃ sz, (a, sz) ∈ live
  nodup : (live.map Prod.fst).Nodup

/-- **The kernel heap is intact.** -/
def Intact (s : Kernel) : Prop :=
  ∃ all free, Pages s.heap all free ∧ RunsApart s.heap.kpages ∧ Owned s.heap all free s.live

/-- A pointer that is live is in a page, or at the start of a run of its own. -/
theorem Owned.cases (ho : Owned h all free live) (hp : Pages h all free) (hl : (p, sz) ∈ live) :
    (sz < largestSubpageSize ∧ ∃ q ∈ all, sizeOf (h.pagerefs q).blocktype = blockLen sz ∧
      p ∈ (h.pagerefs q).blocks ∧ p ∉ free q ∧ (h.pagerefs q).Has p) ∨
    (largestSubpageSize ≤ sz ∧ (p, npages sz) ∈ h.kpages ∧
      ∀ q ∈ all, (h.pagerefs q).pageaddr ≠ p) := by
  rcases Nat.lt_or_ge sz largestSubpageSize with hsz | hsz
  · obtain ⟨q, hq, h1, h2, h3⟩ := ho.small p sz hl hsz
    exact .inl ⟨hsz, q, hq, h1, h2, h3, hp.has_block hq h2⟩
  · exact .inr ⟨hsz, ho.large p sz hl hsz⟩

/-- A run that was handed out is not in a page. -/
theorem Pages.not_has_run (hp : Pages h all free) (hk : RunsApart h.kpages) (hq : q ∈ all)
    (hr : (p, m) ∈ h.kpages) (hne : (h.pagerefs q).pageaddr ≠ p) : ¬ (h.pagerefs q).Has p := by
  rintro ⟨h1, h2⟩
  have hm : 1 ≤ m := (hk.each _ hr).2.2.1
  rcases hp.apart_run hk hq hr hne with hle | hle
  · omega
  · omega

section

variable (ho : Owned h all free live)

include ho

/-- A free block is not live. -/
theorem Owned.not_live_of_free (hp : Pages h all free)
    (hk : RunsApart h.kpages) (hq : q ∈ all) (ha : a ∈ free q) (m : ℕ) : (a, m) ∉ live := by
  intro hl
  have hhas := hp.has_block hq ((hp.page q hq).block a ha)
  rcases ho.cases hp hl with ⟨-, q', hq', -, -, hnot, hhas'⟩ | ⟨-, hr, hne⟩
  · obtain rfl := hp.eq_of_has hk hq hq' hhas hhas'
    exact hnot ha
  · exact hp.not_has_run hk hq hr (hne q hq) hhas

theorem Owned.pos (hp : Pages h all free) (hk : RunsApart h.kpages)
    (hl : (p, sz) ∈ live) : 0 < p := by
  rcases ho.cases hp hl with ⟨-, q, hq, -, -, -, hhas⟩ | ⟨-, hr, -⟩
  · exact Nat.lt_of_lt_of_le (hp.bounds hk hq).1 hhas.1
  · exact (hk.each _ hr).1

/-- Only the pages of the pagerefs count. No run of a large allocation may be lost,
and no page but one whose blocks are all free. -/
theorem Owned.restrict {all' : List ℕ}
    (hpab : ∀ x ∈ all, (h'.pagerefs x).pageaddrAndBlocktype = (h.pagerefs x).pageaddrAndBlocktype)
    (hks : ∀ r ∈ h.kpages, (∀ q ∈ all, (h.pagerefs q).pageaddr ≠ r.1) → r ∈ h'.kpages)
    (hsub : ∀ q ∈ all', q ∈ all)
    (hfl : ∀ q ∈ all, q ∉ all' → ∀ a ∈ (h.pagerefs q).blocks, a ∈ free q) :
    Owned h' all' free live := by
  refine ⟨fun p sz hl hsz => ?_, fun p sz hl hsz => ?_, fun q hq a ha hf => ?_, ho.nodup⟩
  · obtain ⟨q, hq, h1, h2, h3⟩ := ho.small p sz hl hsz
    obtain ⟨-, htype, hblocks⟩ := eq_of_pab (hpab q hq)
    refine ⟨q, by_contra fun hq' => h3 (hfl q hq hq' p h2), ?_, ?_, h3⟩
    · rw [htype]
      exact h1
    · rw [hblocks]
      exact h2
  · obtain ⟨hr, hne⟩ := ho.large p sz hl hsz
    refine ⟨hks _ hr hne, fun q hq => ?_⟩
    rw [(eq_of_pab (hpab q (hsub q hq))).1]
    exact hne q (hsub q hq)
  · rw [(eq_of_pab (hpab q (hsub q hq))).2.2] at ha
    exact ho.used q (hsub q hq) a ha hf

theorem Owned.congr
    (hpab : ∀ x ∈ all, (h'.pagerefs x).pageaddrAndBlocktype = (h.pagerefs x).pageaddrAndBlocktype)
    (hks : ∀ r ∈ h.kpages, r ∈ h'.kpages) : Owned h' all free live :=
  ho.restrict hpab (fun r hr _ => hks r hr) (fun _ hq => hq) fun _ hq hn => absurd hq hn

end

/-- The pointer that is new. -/
theorem nodup_cons_live (hnodup : (live.map Prod.fst).Nodup) (hnew : ∀ m, (p, m) ∉ live) :
    (((p, sz) :: live).map Prod.fst).Nodup := by
  rw [map_cons, nodup_cons]
  refine ⟨fun hmem => ?_, hnodup⟩
  obtain ⟨⟨p', m⟩, hpm, rfl⟩ := mem_map.1 hmem
  exact hnew m hpm

/-- What is live after a pointer has been freed. -/
theorem mem_freed {p' : ℕ} (h : (p', sz) ∈ live.filter fun e => e.1 ≠ p) :
    (p', sz) ∈ live ∧ p' ≠ p :=
  ⟨mem_of_mem_filter h, of_decide_eq_true (mem_filter.1 h).2⟩

section

variable (ho : Owned h all free live)

include ho

/-- **A free block is taken.** -/
theorem Owned.take (hq : q ∈ all) (hfree : free q = a :: l)
    (hal : a ∉ l) (hblock : a ∈ (h.pagerefs q).blocks) (hnew : ∀ m, (a, m) ∉ live)
    (hsz : sz < largestSubpageSize) (hlen : sizeOf (h.pagerefs q).blocktype = blockLen sz) :
    Owned h all (update free q l) ((a, sz) :: live) := by
  have hsub : ∀ x b, b ∈ update free q l x → b ∈ free x := by
    intro x b hb
    by_cases hxq : x = q
    · rw [hxq, update_self] at hb
      rw [hxq, hfree]
      exact mem_cons_of_mem _ hb
    · rwa [update_of_ne hxq] at hb
  refine ⟨fun p' sz' hl hsz' => ?_, fun p' sz' hl hsz' => ?_, fun x hx b hb hbf => ?_,
    nodup_cons_live ho.nodup hnew⟩
  · rcases mem_cons.1 hl with heq | hl
    · obtain ⟨rfl, rfl⟩ := Prod.mk.inj heq
      refine ⟨q, hq, hlen, hblock, ?_⟩
      rw [update_self]
      exact hal
    · obtain ⟨x, hx, h1, h2, h3⟩ := ho.small p' sz' hl hsz'
      exact ⟨x, hx, h1, h2, fun hmem => h3 (hsub x p' hmem)⟩
  · rcases mem_cons.1 hl with heq | hl
    · obtain ⟨-, rfl⟩ := Prod.mk.inj heq
      exact absurd hsz (Nat.not_lt.2 hsz')
    · exact ho.large p' sz' hl hsz'
  · by_cases hba : b = a
    · exact ⟨sz, hba ▸ mem_cons_self⟩
    · have hbold : b ∉ free x := by
        by_cases hxq : x = q
        · rw [hxq, update_self] at hbf
          rw [hxq, hfree]
          exact fun hmem => (mem_cons.1 hmem).elim hba hbf
        · rwa [update_of_ne hxq] at hbf
      obtain ⟨sz', hl⟩ := ho.used x hx b hb hbold
      exact ⟨sz', mem_cons_of_mem _ hl⟩

/-- **A block is given back.** -/
theorem Owned.give (hown : ∀ x ∈ all, p ∈ (h.pagerefs x).blocks → x = q) :
    Owned h all (update free q (p :: free q)) (live.filter fun e => e.1 ≠ p) := by
  refine ⟨fun p' sz' hl hsz' => ?_, fun p' sz' hl hsz' => ho.large p' sz' (mem_freed hl).1 hsz',
    fun x hx b hb hbf => ?_, ho.nodup.sublist (filter_sublist.map _)⟩
  · obtain ⟨hl, hne⟩ := mem_freed hl
    obtain ⟨x, hx, h1, h2, h3⟩ := ho.small p' sz' hl hsz'
    refine ⟨x, hx, h1, h2, fun hmem => ?_⟩
    by_cases hxq : x = q
    · rw [hxq, update_self] at hmem
      rw [hxq] at h3
      exact (mem_cons.1 hmem).elim hne h3
    · rw [update_of_ne hxq] at hmem
      exact h3 hmem
  · have hold : b ∉ free x ∧ (x = q → b ≠ p) := by
      by_cases hxq : x = q
      · rw [hxq, update_self] at hbf
        rw [hxq]
        exact ⟨fun hmem => hbf (mem_cons_of_mem _ hmem),
          fun _ hbp => hbf (hbp ▸ mem_cons_self)⟩
      · rw [update_of_ne hxq] at hbf
        exact ⟨hbf, fun h => absurd h hxq⟩
    obtain ⟨sz', hl⟩ := ho.used x hx b hb hold.1
    refine ⟨sz', mem_filter.2 ⟨hl, decide_eq_true fun hbp => ?_⟩⟩
    exact hold.2 (hown x hx (hbp ▸ hb)) hbp

/-- A new page has no live block. -/
theorem Owned.addPage (hnew : q ∉ all)
    (hpab : ∀ x ∈ all, (h'.pagerefs x).pageaddrAndBlocktype = (h.pagerefs x).pageaddrAndBlocktype)
    (hks : ∀ r ∈ h.kpages, r ∈ h'.kpages) (hfl : ∀ a ∈ (h'.pagerefs q).blocks, a ∈ fl)
    (hpage : ∀ r ∈ h.kpages, r.1 ≠ (h'.pagerefs q).pageaddr) :
    Owned h' (q :: all) (update free q fl) live := by
  have ho' := ho.congr hpab hks
  have hold : ∀ x ∈ all, update free q fl x = free x := fun x hx =>
    update_of_ne (ne_of_mem_of_not_mem hx hnew) _ _
  refine ⟨fun p sz hl hsz => ?_, fun p sz hl hsz => ?_, fun x hx a ha hf => ?_, ho.nodup⟩
  · obtain ⟨x, hx, h1, h2, h3⟩ := ho'.small p sz hl hsz
    exact ⟨x, mem_cons_of_mem _ hx, h1, h2, by rwa [hold x hx]⟩
  · obtain ⟨hr, hne⟩ := ho'.large p sz hl hsz
    refine ⟨hr, forall_mem_cons.2 ⟨fun heq => ?_, hne⟩⟩
    exact hpage _ (ho.large p sz hl hsz).1 heq.symm
  · rcases mem_cons.1 hx with rfl | hx
    · rw [update_self] at hf
      exact absurd (hfl a ha) hf
    · rw [hold x hx] at hf
      exact ho'.used x hx a ha hf

end

/-! ## `kmalloc` -/

/-- What a call of `kmalloc` leaves. -/
def Gives (live : List (ℕ × ℕ)) (sz p : ℕ) (h' : Heap) : Prop :=
  Intact ⟨h', if p = 0 then live else (p, sz) :: live⟩ ∧ (p ≠ 0 → ∀ m, (p, m) ∉ live)

/-- The pages of the heap after `alloc_kpages(n)` may have been called for it. -/
def Extended (ks : List (ℕ × ℕ)) (page n : ℕ) (ks' : List (ℕ × ℕ)) : Prop :=
  ks' = ks ∨ page ≠ 0 ∧ ks' = (page, n) :: ks

/-- **A block of a page is taken.** -/
theorem Intact.doalloc (hp : Pages h all free) (hk : RunsApart h.kpages)
    (ho : Owned h all free live) (hq : q ∈ all) (hfree : free q ≠ [])
    (hsz : sz < largestSubpageSize) (hlen : sizeOf (h.pagerefs q).blocktype = blockLen sz) :
    wp (doalloc q) (fun p h' => Gives live sz p h' ∧ h'.kpages = h.kpages) E h := by
  obtain ⟨a, l, hal⟩ := exists_cons_of_ne_nil hfree
  have hpage := hp.page q hq
  rw [hal] at hpage
  have ha : a ∈ free q := by
    rw [hal]
    exact mem_cons_self
  have hblock := hpage.block a mem_cons_self
  have hapos : a ≠ 0 := Nat.ne_of_gt
    (Nat.lt_of_lt_of_le (hp.bounds hk hq).1 (hp.has_block hq hblock).1)
  have hnew := ho.not_live_of_free hp hk hq ha
  have hnodup := nodup_cons.1 hpage.chain.nodup
  refine wp_imp (wp_doalloc hpage (hp.bounds hk hq).2.2) fun r h' hr => ?_
  obtain ⟨rfl, off, hpage', rfl⟩ := hr
  refine ⟨⟨?_, fun _ => hnew⟩, rfl⟩
  rw [if_neg hapos]
  refine ⟨all, update free q l, hp.setFree hk hq hpage' fun _ _ => rfl, hk, ?_⟩
  refine (ho.take hq hal hnodup.1 hblock hnew hsz hlen).congr ?_ fun _ hr => hr
  exact fun x _ => (update_setFree x).2

theorem wp_allocKpages {n : ℕ} {Q : ℕ → Heap → Prop} :
    wp (allocKpages page n) Q E h ↔
      if page = 0 then Q 0 h else Q page { h with kpages := (page, n) :: h.kpages } := by
  unfold allocKpages
  rw [wp_ite, wp_pure, wp_bind, wp_modify, wp_pure]

theorem wp_blocktype {b : ℕ} {Q : ℕ → Heap → Prop}
    (hb : (sizes.findIdx? fun s => sz ≤ s) = some b) : wp (blocktype sz) Q E h ↔ Q b h := by
  unfold blocktype
  rw [hb]
  exact wp_pure

/-- **`subpage_kmalloc`** takes a block of a page, or makes a page for it. -/
theorem Intact.subpageKmalloc (hi : Intact ⟨h, live⟩) (hsz : sz < largestSubpageSize)
    (hpage : page = 0 ∨ FreshPages h.kpages page 1) :
    wp (Kheap.subpageKmalloc page sz)
      (fun p h' => Gives live sz p h' ∧ Extended h.kpages page 1 h'.kpages) E h := by
  obtain ⟨all, free, hp, hk, ho⟩ := hi
  obtain ⟨b, hb, hfind, hlen, -⟩ := exists_blocktype hsz
  have hnull : ∀ h₁, Intact ⟨h₁, live⟩ → Gives live sz 0 h₁ := fun h₁ hi₁ =>
    ⟨by rw [if_pos rfl]; exact hi₁, fun h => absurd rfl h⟩
  unfold Kheap.subpageKmalloc
  rw [wp_bind, wp_blocktype hfind, wp_get_bind, wp_bind]
  have hlist : Chain (fun q => (h.pagerefs q).nextSamesize) (h.sizebases b)
      (all.filter fun q => Which.has (.samesize b) (h.pagerefs q)) := hp.lists (.samesize b)
  have hof : ∀ q ∈ all.filter (fun q => Which.has (.samesize b) (h.pagerefs q)),
      q ∈ all ∧ (h.pagerefs q).blocktype = b := by
    intro q hq
    obtain ⟨h1, h2⟩ := mem_filter.1 hq
    exact ⟨h1, of_decide_eq_true h2⟩
  refine wp_imp (wp_findPage hlist (fun q hq => (hof q hq).2)
    (Nat.lt_succ_of_le (Nat.le_trans (length_filter_le _ _) hp.length_le)))
    fun r h' hr => ?_
  obtain ⟨rfl, hr⟩ := hr
  cases r with
  | some q =>
    obtain ⟨hq, hnfree⟩ := hr q rfl
    obtain ⟨hq, htype⟩ := hof q hq
    refine wp_imp (Intact.doalloc hp hk ho hq (fun hnil => ?_) hsz (by rw [htype, hlen]))
      fun p h₁ hg => ⟨hg.1, .inl hg.2⟩
    rw [(hp.page q hq).nfree, hnil] at hnfree
    exact Nat.lt_irrefl 0 hnfree
  | none =>
    refine wp_then wp_allocpageref fun r h₁ hr => ?_
    rcases hr with ⟨rfl, rfl⟩ | ⟨q, hq, rfl, hbit, rfl⟩
    · exact wp_pure.2 ⟨hnull _ ⟨all, free, hp, hk, ho⟩, .inl rfl⟩
    · have hnew : q ∉ all := fun hmem => by
        rw [(hp.inuse q hq).2 hmem] at hbit
        exact Bool.false_ne_true hbit.symm
      rw [wp_bind, wp_allocKpages]
      rcases hpage with rfl | hfresh
      · have hmarked : (h'.mark q).bit q = true := by
          rw [bit_mark, decide_eq_true rfl, Bool.or_true]
        rw [if_pos rfl, wp_ite, if_pos rfl, wp_bind, wp_freepageref hq hmarked, wp_pure]
        refine ⟨hnull _ ⟨all, free, hp.congr_bits fun x => ?_, hk,
          ho.congr (fun _ _ => rfl) fun _ h => h⟩, .inl rfl⟩
        show ((h'.mark q).unmark q).bit x = h'.bit x
        rw [bit_unmark, bit_mark]
        by_cases hx : x = q
        · rw [hx, hbit]
          simp
        · simp [hx]
      · have hne : page ≠ 0 := Nat.ne_of_gt hfresh.1
        rw [if_neg hne, wp_ite, if_neg hne, wp_bind]
        have hlt := hfresh.2.2.1
        refine wp_imp (wp_newPage hb hfresh.1 hfresh.2.1 hlt) fun _ h₃ hr => ?_
        obtain ⟨mem', pr', hmem, hsame, hall, haddr, htype, hpageok, hh₃⟩ := hr
        have hprs : h₃.pagerefs = update h'.pagerefs q pr' := by rw [hh₃]; rfl
        have hself : h₃.pagerefs q = pr' := by rw [hprs, update_self]
        have hks : h₃.kpages = (page, 1) :: h'.kpages := by rw [hh₃]; rfl
        have hmem₃ : h₃.mem = mem' := by rw [hh₃]
        have hp₃ : Pages h₃ (q :: all) (update free q pr'.blocks.reverse) :=
          hp.add hq hnew (fun x => by rw [hh₃]; exact bit_mark) hks hfresh
            (by rw [hmem₃]; exact hmem) hprs hsame hall haddr htype (by rw [hmem₃]; exact hpageok)
            (by rw [hh₃]; rfl) (by rw [hh₃])
        have hk₃ : RunsApart h₃.kpages := by
          rw [hks]
          exact hk.cons hfresh (Nat.le_refl 1)
        have ho₃ : Owned h₃ (q :: all) (update free q pr'.blocks.reverse) live := by
          refine ho.addPage hnew (fun x hx => ?_) (fun r hr => ?_) (fun a ha => ?_)
            fun r hr heq => ?_
          · rw [hprs, update_of_ne (ne_of_mem_of_not_mem hx hnew)]
          · rw [hks]
            exact mem_cons_of_mem _ hr
          · rw [hself] at ha
            exact mem_reverse.2 ha
          · rw [hself, haddr] at heq
            have hapart := hfresh.2.2.2 r hr
            have hr2 := (hk.each r hr).2.2.1
            have hmul : 1 * pageSize ≤ r.2 * pageSize := Nat.mul_le_mul_right _ hr2
            rw [pageSize] at hapart hmul
            rcases hapart with hle | hle <;> omega
        refine wp_imp (Intact.doalloc hp₃ hk₃ ho₃ mem_cons_self ?_ hsz
          (by rw [hself, htype, hlen])) fun p h₄ hg => ⟨hg.1, .inr ⟨hne, hg.2.trans hks⟩⟩
        rw [update_self]
        intro hnil
        have hlen0 := congrArg length hnil
        rw [length_reverse, blocks, length_map, length_range, htype,
          length_nil] at hlen0
        have h2 := (sizeOf_facts hb).2.2
        omega

/-- **`kmalloc` keeps the heap intact and gives a block that was not live**, or
`NULL`; it takes the pages it asks for, or none. -/
theorem Intact.kmalloc (hi : Intact ⟨h, live⟩) (hw : sz + (pageSize - 1) < 2 ^ 32)
    (hpage : page = 0 ∨ FreshPages h.kpages page (pagesFor sz)) :
    wp (Kheap.kmalloc page sz)
      (fun p h' => Gives live sz p h' ∧ Extended h.kpages page (pagesFor sz) h'.kpages) E h := by
  have hn := one_le_pagesFor hw
  unfold Kheap.kmalloc
  unfold pagesFor at hpage hn ⊢
  by_cases hsz : sz ≥ largestSubpageSize
  · rw [if_pos hsz] at hpage hn ⊢
    rw [wp_allocKpages, if_pos hsz]
    obtain ⟨all, free, hp, hk, ho⟩ := hi
    rcases hpage with rfl | hfresh
    · exact ⟨⟨by rw [if_pos rfl]; exact ⟨all, free, hp, hk, ho⟩, fun h => absurd rfl h⟩, .inl rfl⟩
    have hne : page ≠ 0 := Nat.ne_of_gt hfresh.1
    have hmul : 1 * pageSize ≤ npages sz * pageSize := Nat.mul_le_mul_right _ hn
    -- the pages are no one else's
    have hnot : ∀ r ∈ h.kpages, ¬ (r.1 ≤ page ∧ page < r.1 + r.2 * pageSize) := by
      intro r hr hin
      rcases hfresh.2.2.2 r hr with hle | hle <;> simp only [pageSize] at hle hin <;> omega
    have hpages : ∀ q ∈ all, (h.pagerefs q).pageaddr ≠ page := by
      intro q hq heq
      refine hnot _ (hp.run q hq) ⟨Nat.le_of_eq heq, ?_⟩
      simp only [Nat.one_mul, pageSize]
      omega
    have hnew : ∀ m, (page, m) ∉ live := by
      intro m hl
      rcases ho.cases hp hl with ⟨-, q, hq, -, -, -, hhas⟩ | ⟨-, hr, -⟩
      · refine hnot _ (hp.run q hq) ⟨hhas.1, ?_⟩
        simp only [Nat.one_mul]
        exact hhas.2
      · refine hnot _ hr ⟨Nat.le_refl _, ?_⟩
        have hr2 : 1 ≤ npages m := (hk.each _ hr).2.2.1
        have hmul' : 1 * pageSize ≤ npages m * pageSize := Nat.mul_le_mul_right _ hr2
        simp only [pageSize] at hmul' ⊢
        omega
    rw [if_neg hne]
    refine ⟨⟨?_, fun _ => hnew⟩, .inr ⟨hne, rfl⟩⟩
    rw [if_neg hne]
    refine ⟨all, free, hp.congr_kpages fun q hq => mem_cons_of_mem _ (hp.run q hq),
      hk.cons hfresh hn, ?_⟩
    have ho' : Owned { h with kpages := (page, npages sz) :: h.kpages } all free live :=
      ho.congr (fun _ _ => rfl) fun r hr => mem_cons_of_mem _ hr
    refine ⟨fun p' sz' hl hsz' => ?_, fun p' sz' hl hsz' => ?_, fun q hq a ha hf => ?_,
      nodup_cons_live ho.nodup hnew⟩
    · rcases mem_cons.1 hl with heq | hl
      · obtain ⟨-, rfl⟩ := Prod.mk.inj heq
        exact absurd hsz' (Nat.not_lt.2 hsz)
      · exact ho'.small p' sz' hl hsz'
    · rcases mem_cons.1 hl with heq | hl
      · obtain ⟨rfl, rfl⟩ := Prod.mk.inj heq
        exact ⟨mem_cons_self, hpages⟩
      · exact ho'.large p' sz' hl hsz'
    · obtain ⟨sz', hl⟩ := ho'.used q hq a ha hf
      exact ⟨sz', mem_cons_of_mem _ hl⟩
  · rw [if_neg hsz] at hpage ⊢
    rw [if_neg hsz]
    exact hi.subpageKmalloc (Nat.lt_of_not_le hsz) hpage

/-! ## `kfree` -/

theorem wp_freeKpages {Q : Unit → Heap → Prop} :
    wp (freeKpages a) Q E h ↔ Q () { h with kpages := h.kpages.filter fun r => r.1 ≠ a } :=
      wp_modify

theorem wp_fillDeadbeef {len : ℕ} {Q : Unit → Heap → Prop} :
    wp (fillDeadbeef p len) Q E h ↔ Q () { h with
      mem := fun a => if p ≤ a ∧ a < p + len then 0xdeadbeef else h.mem a } := wp_modify

/-- The heap with block `p` at the head of the free list of page `q`. -/
def Heap.freed (h : Heap) (q p n : ℕ) (mem' : ℕ → ℕ) : Heap :=
  { h with
    pagerefs := update h.pagerefs q ((h.pagerefs q).setFree (p - (h.pagerefs q).pageaddr) n)
    mem := mem' }

section

variable (hp : Pages h all free)

include hp

section

variable (hk : RunsApart h.kpages)

include hk

/-- A large allocation is given back. -/
theorem Intact.freeRun (ho : Owned h all free live) (hne : ∀ q ∈ all, (h.pagerefs q).pageaddr ≠ p)
    (hblock : ∀ q ∈ all, p ∉ (h.pagerefs q).blocks) :
    Intact ⟨{ h with kpages := h.kpages.filter fun r => r.1 ≠ p },
      live.filter fun e => e.1 ≠ p⟩ := by
  refine ⟨all, free, hp.congr_kpages fun q hq => ?_, hk.filter _, fun p' sz' hl hsz => ?_,
    fun p' sz' hl hsz => ?_, fun q hq a ha hf => ?_, ho.nodup.sublist (filter_sublist.map _)⟩
  · exact mem_filter.2 ⟨hp.run q hq, decide_eq_true (hne q hq)⟩
  · exact ho.small p' sz' (mem_freed hl).1 hsz
  · obtain ⟨hl, hp'⟩ := mem_freed hl
    obtain ⟨hr, hne'⟩ := ho.large p' sz' hl hsz
    exact ⟨mem_filter.2 ⟨hr, decide_eq_true hp'⟩, hne'⟩
  · obtain ⟨sz', hl⟩ := ho.used q hq a ha hf
    refine ⟨sz', mem_filter.2 ⟨hl, decide_eq_true fun hap => ?_⟩⟩
    exact hblock q hq (hap ▸ ha)

/-- The page with one more free block. -/
theorem Pages.pushFree (hq : q ∈ all)
    (hblock : p ∈ (h.pagerefs q).blocks) (hnot : p ∉ free q) {mem' : ℕ → ℕ}
    (hnext : ofWord (mem' p) = (h.pagerefs q).freelist)
    (hout : ∀ a, a < p ∨ p + sizeOf (h.pagerefs q).blocktype ≤ a → mem' a = h.mem a) :
    PageOk ((h.pagerefs q).setFree (p - (h.pagerefs q).pageaddr) ((free q).length + 1)) mem'
        (p :: free q) ∧
      Pages (h.freed q p ((free q).length + 1) mem') all (update free q (p :: free q)) := by
  have hpage := hp.page q hq
  have h16 := (sizeOf_facts hpage.type_lt).1
  have hle := block_le hpage.type_lt hblock
  have hpush := hpage.push hblock (fun b hb => ?_) hnext
  · refine ⟨hpush, hp.setFree hk hq hpush fun a ha => hout a ?_⟩
    by_contra hin
    exact ha ⟨by omega, by omega⟩
  · refine hout b ?_
    rcases block_apart hblock (hpage.block b hb) (ne_of_mem_of_not_mem hb hnot).symm with
      hle | hle
    · exact .inr hle
    · exact .inl (by omega)

/-- **A page whose blocks are all free is given back.** -/
theorem Intact.dropPage {b page : ℕ}
    (ho : Owned h all free live) (hq : q ∈ all) (haddr : (h.pagerefs q).pageaddr = page)
    (htype : (h.pagerefs q).blocktype = b) (hfl : ∀ a ∈ (h.pagerefs q).blocks, a ∈ free q) :
    wp (do
        removeLists q b
        freeKpages page
        freepageref q
        pure true)
      (fun r h' => r = true ∧ Intact ⟨h', live⟩ ∧ h'.kpages ⊆ h.kpages) E h := by
  have hb : b < nsizes := htype ▸ (hp.page q hq).type_lt
  have hof : ∀ c x, x ∈ all.filter (fun x => Which.has (.samesize c) (h.pagerefs x)) →
      (h.pagerefs x).blocktype = c := fun c x hx => of_decide_eq_true (mem_filter.1 hx).2
  refine wp_then (wp_removeLists hp.lists hb (fun c c' hne x hx hx' => ?_) (fun c hne hx => ?_)
    fun k => ?_) fun _ h₁ hr => ?_
  · exact hne ((hof c x hx).symm.trans (hof c' x hx'))
  · exact hne ((hof c q hx).symm.trans htype)
  · exact Nat.le_trans (length_filter_le _ _) hp.length_le
  obtain ⟨hsame, hlists⟩ := hr
  have hbit : bit { h₁ with kpages := h₁.kpages.filter fun r => r.1 ≠ page } q = true := by
    rw [hsame.inuse]
    exact (hp.inuse q (hp.lt q hq)).2 hq
  rw [wp_bind, wp_freeKpages, wp_bind, wp_freepageref (hp.lt q hq) hbit, wp_pure]
  refine ⟨rfl, ⟨all.filter fun x => x ≠ q, free, ?_, ?_, ?_⟩, fun r hr =>
    hsame.kpages ▸ mem_of_mem_filter hr⟩
  · refine hp.remove hq hsame hlists (fun x => ?_) ?_ rfl rfl rfl rfl
    · rw [bit_unmark]
      congr 1
      rw [hsame.inuse]
      rfl
    · show h₁.kpages.filter _ = _
      rw [hsame.kpages, haddr]
  · rw [hsame.kpages]
    exact hk.filter _
  · refine ho.restrict (fun x _ => (eq_of_core (hsame.core x)).1) (fun r hr hne => ?_)
      (fun x hx => mem_of_mem_filter hx) fun x hx hx' => ?_
    · rw [hsame.kpages, ← haddr]
      exact mem_filter.2 ⟨hr, decide_eq_true (hne q hq).symm⟩
    · obtain rfl : x = q := by_contra fun hne => hx' (mem_filter.2 ⟨hx, decide_eq_true hne⟩)
      exact hfl

/-- **`subpage_kfree`** puts a live block on the free list of its page, and gives
the page back if it is the last one. -/
theorem Intact.subpageKfree (ho : Owned h all free live) (hl : (p, sz) ∈ live) :
    wp (Kheap.subpageKfree p)
      (fun r h' => if r = true then
          Intact ⟨h', live.filter fun e => e.1 ≠ p⟩ ∧ h'.kpages ⊆ h.kpages
        else h' = h ∧ ∀ q ∈ all, ¬ (h.pagerefs q).Has p) E h := by
  unfold Kheap.subpageKfree
  rw [wp_get_bind]
  refine wp_then (wp_findOwner hp.all_chain (fun q hq => (hp.page q hq).type_lt)
    (fun q hq => (hp.bounds hk hq).2.2) (Nat.lt_succ_of_le hp.length_le)) fun r h' hr => ?_
  obtain ⟨rfl, hr⟩ := hr
  cases r with
  | none =>
    refine wp_pure.2 ?_
    exact ⟨rfl, hr⟩
  | some q =>
    obtain ⟨hq, hhas⟩ := hr
    -- it is a block of that page
    obtain ⟨hblock, hnot⟩ : p ∈ (h'.pagerefs q).blocks ∧ p ∉ free q := by
      rcases ho.cases hp hl with ⟨-, q', hq', -, h1, h2, hhas'⟩ | ⟨-, hrun, hne⟩
      · obtain rfl := hp.eq_of_has hk hq hq' hhas hhas'
        exact ⟨h1, h2⟩
      · exact absurd hhas (hp.not_has_run hk hq hrun (hne q hq))
    have hpage := hp.page q hq
    have hb := hpage.type_lt
    obtain ⟨h16, hfull, -⟩ := sizeOf_facts hb
    obtain ⟨hpos, -, hlt⟩ := hp.bounds hk hq
    have hle := block_le hb hblock
    have hoff : sub32 p (h'.pagerefs q).pageaddr = p - (h'.pagerefs q).pageaddr :=
      sub32_of_le hle.1 (by omega)
    have hsmall : p - (h'.pagerefs q).pageaddr < pageSize := by omega
    have hmul : (p - (h'.pagerefs q).pageaddr) % sizeOf (h'.pagerefs q).blocktype = 0 := by
      obtain ⟨i, -, hi⟩ := mem_blocks.1 hblock
      have hsub : p - (h'.pagerefs q).pageaddr = i * sizeOf (h'.pagerefs q).blocktype := by omega
      rw [hsub, Nat.mul_mod_left]
    have hmod : (p - (h'.pagerefs q).pageaddr) % 2 ^ 16 = p - (h'.pagerefs q).pageaddr := by
      rw [pageSize] at hsmall
      omega
    have hfla : add32 (h'.pagerefs q).pageaddr (p - (h'.pagerefs q).pageaddr) = p := by
      rw [add32_of_lt (by omega)]
      omega
    dsimp only
    rw [hoff, wp_assert_bind (by rw [hmul]; omega), wp_bind, wp_fillDeadbeef, wp_bind,
      wp_setNext, wp_bind, wp_setPageref, hfla, hmod, hpage.nfree]
    -- memory and the pageref with the block on the free list
    obtain ⟨w, hw⟩ : ∃ w, (if (h'.pagerefs q).freelistOffset = invalidOffset then 0
        else add32 (h'.pagerefs q).pageaddr (h'.pagerefs q).freelistOffset) = w := ⟨_, rfl⟩
    have hword : ofWord w = (h'.pagerefs q).freelist := by
      rw [← hw]
      unfold freelist
      by_cases hinv : (h'.pagerefs q).freelistOffset = invalidOffset
      · rw [if_pos hinv, if_pos hinv, ofWord_zero]
      · have := hpage.offset_lt hinv
        rw [if_neg hinv, if_neg hinv, add32_of_lt (by omega), ofWord_of_ne (by omega)]
    rw [hw]
    obtain ⟨mem', hmem'⟩ : ∃ mem' : ℕ → ℕ, update
        (fun a => if p ≤ a ∧ a < p + sizeOf (h'.pagerefs q).blocktype then 0xdeadbeef else h'.mem a)
        p w = mem' := ⟨_, rfl⟩
    rw [hmem']
    have hnext : ofWord (mem' p) = (h'.pagerefs q).freelist := by
      rw [← hmem', update_self, hword]
    have hout : ∀ a, a < p ∨ p + sizeOf (h'.pagerefs q).blocktype ≤ a → mem' a = h'.mem a := by
      intro a ha
      rw [← hmem', update_of_ne (by omega), if_neg (by omega)]
    obtain ⟨hpush, hp₂⟩ := hp.pushFree hk hq hblock hnot hnext hout
    have ho₂ : Owned (h'.freed q p ((free q).length + 1) mem') all (update free q (p :: free q))
        (live.filter fun e => e.1 ≠ p) := by
      refine (ho.give fun x hx hxp => ?_).congr (fun x _ => (update_setFree x).2) fun r hr => hr
      exact hp.eq_of_has hk hx hq (hp.has_block hx hxp) hhas
    show wp _ _ E (h'.freed q p ((free q).length + 1) mem')
    have hcap : (free q).length + 1 ≤ pageSize / sizeOf (h'.pagerefs q).blocktype := hpush.length_le
    rw [wp_assert_bind hcap, wp_ite]
    split
    · rename_i hall
      have hself : (h'.freed q p ((free q).length + 1) mem').pagerefs q =
          (h'.pagerefs q).setFree (p - (h'.pagerefs q).pageaddr) ((free q).length + 1) :=
        update_self _ _ _
      refine wp_imp (Intact.dropPage hp₂ hk ho₂ hq (by rw [hself]; rfl) (by rw [hself]; rfl)
        fun a ha => ?_) fun r h₃ hr => ?_
      · rw [update_self]
        rw [hself] at ha
        exact hpush.mem_of_full hall ha
      · obtain ⟨rfl, hi⟩ := hr
        exact hi
    · exact wp_pure.2 ⟨⟨all, _, hp₂, hk, ho₂⟩, fun _ hr => hr⟩

end

end

/-- **`kfree` keeps the heap intact**, gives back exactly the block it is called for
and takes no pages. -/
theorem Intact.kfree (hi : Intact ⟨h, live⟩) (hp : p = 0 ∨ ∃ sz, (p, sz) ∈ live) :
    wp (Kheap.kfree p)
      (fun _ h' => Intact ⟨h', live.filter fun e => e.1 ≠ p⟩ ∧ h'.kpages ⊆ h.kpages) E h := by
  obtain ⟨all, free, hpages, hk, ho⟩ := hi
  unfold Kheap.kfree
  rcases hp with rfl | ⟨sz, hl⟩
  · have hall : live.filter (fun e => e.1 ≠ 0) = live :=
      filter_eq_self.2 fun e he => decide_eq_true (Nat.ne_of_gt (ho.pos hpages hk he))
    rw [if_pos rfl, wp_pure, hall]
    exact ⟨⟨all, free, hpages, hk, ho⟩, fun _ hr => hr⟩
  · rw [if_neg (Nat.ne_of_gt (ho.pos hpages hk hl))]
    refine wp_then (Intact.subpageKfree hpages hk ho hl) fun r h' hr => ?_
    cases r with
    | true =>
      exact wp_pure.2 hr
    | false =>
      rw [if_neg Bool.false_ne_true] at hr ⊢
      obtain ⟨rfl, hnot⟩ := hr
      rcases ho.cases hpages hl with ⟨-, q, hq, -, -, -, hhas⟩ | ⟨-, hrun, hne⟩
      · exact absurd hhas (hnot q hq)
      · rw [wp_assert_bind (hk.each _ hrun).2.1, wp_freeKpages]
        exact ⟨Intact.freeRun hpages hk ho hne fun q hq hb => hnot q hq (hpages.has_block hq hb),
          fun _ hr => mem_of_mem_filter hr⟩

/-! ## Blocks do not overlap -/

/-- A part of a page and a run of pages that is not that page. -/
theorem Pages.apart_block_run (hp : Pages h all free) (hk : RunsApart h.kpages) (hq : q ∈ all)
    (ha : a ∈ (h.pagerefs q).blocks) (hr : (p, m) ∈ h.kpages) (hne : (h.pagerefs q).pageaddr ≠ p) :
    Apart a (sizeOf (h.pagerefs q).blocktype) p (m * pageSize) := by
  have hle := block_le (hp.page q hq).type_lt ha
  rcases hp.apart_run hk hq hr hne with h1 | h1
  · exact .inl (by omega)
  · exact .inr (by omega)

/-- Two blocks of pages. -/
theorem Pages.apart_blocks {b q' : ℕ} (hp : Pages h all free) (hk : RunsApart h.kpages)
    (hq : q ∈ all)
    (hq' : q' ∈ all) (ha : a ∈ (h.pagerefs q).blocks) (hb : b ∈ (h.pagerefs q').blocks)
    (hne : a ≠ b) :
    Apart a (sizeOf (h.pagerefs q).blocktype) b (sizeOf (h.pagerefs q').blocktype) := by
  by_cases hqq : q = q'
  · subst hqq
    exact block_apart ha hb hne
  · have hpage : (h.pagerefs q).pageaddr ≠ (h.pagerefs q').pageaddr := fun heq =>
      hqq (hp.distinct q hq q' hq' heq)
    have hle := block_le (hp.page q' hq').type_lt hb
    rcases hp.apart_block_run hk hq ha (hp.run q' hq') hpage with h1 | h1
    · exact .inl (by omega)
    · exact .inr (by omega)

/-- **A live block and a free block do not overlap.** -/
theorem Owned.apart_free (ho : Owned h all free live) (hp : Pages h all free)
    (hk : RunsApart h.kpages) (hl : (p, sz) ∈ live) (hq : q ∈ all) (ha : a ∈ free q) :
    Apart p (blockLen sz) a (sizeOf (h.pagerefs q).blocktype) := by
  have hblock := (hp.page q hq).block a ha
  rcases ho.cases hp hl with ⟨-, q', hq', hlen, hb, hnot, -⟩ | ⟨hsz, hr, hne⟩
  · rw [← hlen]
    refine hp.apart_blocks hk hq' hq hb hblock fun heq => ?_
    subst heq
    exact ho.not_live_of_free hp hk hq ha sz hl
  · rw [blockLen, if_pos hsz]
    exact (hp.apart_block_run hk hq hblock hr (hne q hq)).symm

/-- **Two live blocks do not overlap.** -/
theorem Owned.apart_live (ho : Owned h all free live) (hp : Pages h all free)
    (hk : RunsApart h.kpages) :
    live.Pairwise fun e e' => Apart e.1 (blockLen e.2) e'.1 (blockLen e'.2) := by
  have hdiff : live.Pairwise fun e e' => e.1 ≠ e'.1 := pairwise_map.1 ho.nodup
  refine hdiff.imp_of_mem fun {e e'} he he' hne => ?_
  rcases ho.cases hp he with ⟨-, q, hq, hlen, hb, -⟩ | ⟨hsz, hr, hrun⟩ <;>
    rcases ho.cases hp he' with ⟨-, q', hq', hlen', hb', -⟩ | ⟨hsz', hr', hrun'⟩
  · rw [← hlen, ← hlen']
    exact hp.apart_blocks hk hq hq' hb hb' hne
  · rw [← hlen, blockLen, if_pos hsz']
    exact hp.apart_block_run hk hq hb hr' (hrun' q hq)
  · rw [← hlen', blockLen, if_pos hsz]
    exact (hp.apart_block_run hk hq' hb' hr (hrun q' hq')).symm
  · have hlen : blockLen e.2 = npages e.2 * pageSize := if_pos hsz
    have hlen' : blockLen e'.2 = npages e'.2 * pageSize := if_pos hsz'
    rw [hlen, hlen']
    have hapart := hk.apart_of_ne hr hr' fun heq => hne (Prod.mk.inj heq).1
    exact hapart

/-! ## Runs -/

/-- What the kernel writes does not touch a free list. -/
theorem Intact.write {w : ℕ} (hi : Intact s) (ha : Allowed s (.write a w)) :
    Intact { s with heap := { s.heap with mem := update s.heap.mem a w } } := by
  obtain ⟨all, free, hp, hk, ho⟩ := hi
  refine ⟨all, free, hp.congr_mem fun q hq b hb => update_of_ne (fun hba => ?_) _ _, hk,
    ho.congr (fun _ _ => rfl) fun _ h => h⟩
  have h16 := (sizeOf_facts (hp.page q hq).type_lt).1
  rcases ha with ⟨p, sz, hl, hlo, hhi⟩ | hout
  · rcases ho.apart_free hp hk hl hq hb with hle | hle <;> omega
  · have hhas := hp.has_block hq ((hp.page q hq).block b hb)
    have hrun := hout _ (hp.run q hq)
    obtain ⟨h1, h2⟩ := hhas
    omega

theorem Kernel.step_kmalloc_of_ok (hr : kmalloc page sz s.heap = .ok p h') :
    s.step (.kmalloc sz page) = some ⟨h', if p = 0 then s.live else (p, sz) :: s.live⟩ := by
  rw [step, hr]

theorem Kernel.step_kfree_of_ok {u : Unit} (hr : kfree p s.heap = .ok u h') :
    s.step (.kfree p) = some ⟨h', s.live.filter fun e => e.1 ≠ p⟩ := by
  rw [step, hr]

/-- `kmalloc` returns. -/
theorem Intact.step_kmalloc (hi : Intact s) (ha : Allowed s (.kmalloc sz page)) :
    ∃ p h', Gives s.live sz p h' ∧
      s.step (.kmalloc sz page) = some ⟨h', if p = 0 then s.live else (p, sz) :: s.live⟩ := by
  obtain ⟨p, h', hr, hg, -⟩ := exists_ok_of_wp (hi.kmalloc ha.1 ha.2)
  exact ⟨p, h', hg, step_kmalloc_of_ok hr⟩

/-- `kfree` returns. -/
theorem Intact.step_kfree (hi : Intact s) (ha : Allowed s (.kfree p)) :
    ∃ h', Intact ⟨h', s.live.filter fun e => e.1 ≠ p⟩ ∧ h'.kpages ⊆ s.heap.kpages ∧
      s.step (.kfree p) = some ⟨h', s.live.filter fun e => e.1 ≠ p⟩ := by
  obtain ⟨u, h', hr, hi', hsub⟩ := exists_ok_of_wp (hi.kfree ha)
  exact ⟨h', hi', hsub, step_kfree_of_ok hr⟩

/-- **Every step keeps the heap intact**, and the blocks large enough. -/
theorem Intact.step {e : Event} (hi : Intact s) (hsize : ∀ e ∈ s.live, e.2 ≤ blockLen e.2)
    (ha : Allowed s e) (hs : s.step e = some s') :
    Intact s' ∧ ∀ e ∈ s'.live, e.2 ≤ blockLen e.2 := by
  cases e with
  | kmalloc sz page =>
    obtain ⟨p, h', hg, hstep⟩ := hi.step_kmalloc ha
    obtain rfl := Option.some.inj (hstep.symm.trans hs)
    refine ⟨hg.1, ?_⟩
    split
    · exact hsize
    · exact forall_mem_cons.2 ⟨le_blockLen ha.1, hsize⟩
  | kfree p =>
    obtain ⟨h', hi', -, hstep⟩ := hi.step_kfree ha
    obtain rfl := Option.some.inj (hstep.symm.trans hs)
    exact ⟨hi', fun e he => hsize e (mem_of_mem_filter he)⟩
  | write a w =>
    obtain rfl := Option.some.inj hs
    exact ⟨hi.write ha, hsize⟩

theorem intact_start (mem : ℕ → ℕ) : Intact (start mem) := by
  refine ⟨[], fun _ => [], ⟨fun k => ?_, by simp, fun q hq => ?_, by simp, by simp, by simp⟩,
    ⟨by simp [start], List.Pairwise.nil⟩, ⟨by simp [start], by simp [start],
      by simp, nodup_nil⟩⟩
  · cases k <;> rfl
  · have hzero : (start mem).heap.bit q = false := BitVec.getLsbD_zero
    rw [hzero]
    simp

/-- **The kernel heap stays intact.** In every run of a kernel that frees and
writes only what it has, with `alloc_kpages` handing out fresh pages: a pageref
is on the list of its block size, on `allbase` and marked in use together; the
free list of its page is acyclic, runs through blocks of the page and has
`nfree` entries; a block of a page is on the free list or live, and not both.
Live blocks have the size that was asked for, and overlap neither one another
nor a free block. Every `kmalloc` returns, `NULL` or a block that was not live,
and every `kfree` returns and gives back exactly its block: no assertion fails
and nothing panics. -/
theorem kernel_heap_intact (mem : ℕ → ℕ) (s : Kernel)
    (hs : Runs.Reachable Kernel.step Allowed (Kernel.start mem) s) :
    (∃ all free, Pages s.heap all free ∧ RunsApart s.heap.kpages ∧ Owned s.heap all free s.live ∧
      ∀ p sz, (p, sz) ∈ s.live → ∀ q ∈ all, ∀ a ∈ free q,
        Apart p (blockLen sz) a (sizeOf (s.heap.pagerefs q).blocktype)) ∧
    (s.live.Pairwise fun e e' => Apart e.1 (blockLen e.2) e'.1 (blockLen e'.2)) ∧
    (∀ e ∈ s.live, e.2 ≤ blockLen e.2) ∧
    (∀ sz page, Allowed s (.kmalloc sz page) →
      ∃ s', s.step (.kmalloc sz page) = some s' ∧ Intact s' ∧
        (s'.live = s.live ∨ ∃ p, p ≠ 0 ∧ (∀ m, (p, m) ∉ s.live) ∧ s'.live = (p, sz) :: s.live)) ∧
    ∀ p, Allowed s (.kfree p) →
      ∃ s', s.step (.kfree p) = some s' ∧ Intact s' ∧ s'.live = s.live.filter fun e => e.1 ≠ p := by
  obtain ⟨hi, hsize⟩ : Intact s ∧ ∀ e ∈ s.live, e.2 ≤ blockLen e.2 :=
    hs.invariant (I := fun s => Intact s ∧ ∀ e ∈ s.live, e.2 ≤ blockLen e.2)
      ⟨intact_start mem, by simp [start]⟩ fun _ _ _ hi ha hs => hi.1.step hi.2 ha hs
  have hi' := hi
  obtain ⟨all, free, hp, hk, ho⟩ := hi'
  refine ⟨⟨all, free, hp, hk, ho, fun p sz hl q hq a ha => ho.apart_free hp hk hl hq ha⟩,
    ho.apart_live hp hk, hsize, fun sz page ha => ?_, fun p ha => ?_⟩
  · obtain ⟨p, h', hg, hstep⟩ := hi.step_kmalloc ha
    refine ⟨_, hstep, hg.1, ?_⟩
    by_cases hzero : p = 0
    · exact .inl (if_pos hzero)
    · exact .inr ⟨p, hzero, hg.2 hzero, if_neg hzero⟩
  · obtain ⟨h', hi', -, hstep⟩ := hi.step_kfree ha
    exact ⟨_, hstep, hi', rfl⟩

/-- Two small blocks of one size, a large one and another small one are taken,
and the first two are given back: the page of the first two goes back. -/
theorem kernel_heap_intact_release :
    ∃ s, Runs.Reachable Kernel.step Allowed (Kernel.start fun _ => 0xdeadbeef) s ∧
      s.live = [(0x80007fe0, 20), (0x80005000, 5000)] ∧
      s.heap.kpages = [(0x80007000, 1), (0x80005000, 2)] ∧
      (∃ all free, Pages s.heap all free ∧ RunsApart s.heap.kpages ∧
        Owned s.heap all free s.live) ∧
      ∃ s', s.step (.kfree 0x80005000) = some s' ∧ Intact s' ∧ s'.live = [(0x80007fe0, 20)] := by
  obtain ⟨s, hs, hlive, hks⟩ := Runs.exists_of_exec (Runs.guarded step Allowed)
    (start fun _ => 0xdeadbeef)
    [.kmalloc 1500 0x80001000, .kmalloc 2000 0x80002000, .kmalloc 5000 0x80005000,
      .write 0x80001800 7, .kmalloc 20 0x80007000, .kfree 0x80001800, .kfree 0x80001000]
    (fun s => s.live = [(0x80007fe0, 20), (0x80005000, 5000)] ∧
      s.heap.kpages = [(0x80007000, 1), (0x80005000, 2)]) (by decide +kernel)
  obtain ⟨hr, -⟩ := Runs.reachable_of_exec_guarded hs
  obtain ⟨⟨all, free, hp, hk, ho, -⟩, -, -, -, hkfree⟩ :=
    kernel_heap_intact (fun _ => 0xdeadbeef) s hr
  obtain ⟨s', hs', hi', hlive'⟩ := hkfree 0x80005000 (.inr ⟨5000, by rw [hlive]; simp⟩)
  refine ⟨s, hr, hlive, hks, ⟨all, free, hp, hk, ho⟩, s', hs', hi', ?_⟩
  rw [hlive', hlive]
  decide

end Kheap

end Os161
