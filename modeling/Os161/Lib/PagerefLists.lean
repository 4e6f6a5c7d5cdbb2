import Os161.Common.Chain
import Os161.Lib.Pageref
/-!
# The lists of pagerefs

A pageref is on `allbase` and on the list of its block size. `Lists` says what
is on each list, and each loop of `remove_lists` takes a pageref off one of
them, by one assignment to a pointer, and leaves the others alone.
-/

namespace Os161

namespace Kheap

open Prog Function Heap List Option

variable {h h' : Heap} {l : List ℕ} {b p q : ℕ} {k : Which} {E : Stop Empty → Heap → Prop}

/-- The fields of a pageref apart from its links. -/
def Pageref.core (pr : Pageref) : ℕ × ℕ × ℕ :=
  (pr.pageaddrAndBlocktype, pr.freelistOffset, pr.nfree)

/-- **What is on each list.** -/
def Lists (h : Heap) (L : Which → List ℕ) : Prop :=
  ∀ k, Chain (fun q => (h.pagerefs q).next k) (h.head k) (L k)

/-- Only links differ. -/
structure SameCore (h h' : Heap) : Prop where
  inuse : h'.inuse = h.inuse
  mem : h'.mem = h.mem
  kpages : h'.kpages = h.kpages
  core : ∀ q, (h'.pagerefs q).core = (h.pagerefs q).core

theorem SameCore.refl (h : Heap) : SameCore h h := ⟨rfl, rfl, rfl, fun _ => rfl⟩

theorem SameCore.trans {h'' : Heap} (h₁ : SameCore h h') (h₂ : SameCore h' h'') : SameCore h h'' :=
  ⟨h₂.inuse.trans h₁.inuse, h₂.mem.trans h₁.mem, h₂.kpages.trans h₁.kpages,
    fun q => (h₂.core q).trans (h₁.core q)⟩

theorem Pageref.core_setNext (pr : Pageref) (q : Option ℕ) (k : Which) :
    (pr.setNext q k).core = pr.core := by
  cases k <;> rfl

@[simp] theorem Pageref.next_setNext (pr : Pageref) (q : Option ℕ) (k : Which) :
    (pr.setNext q k).next k = q := by
  cases k <;> rfl

namespace Heap

variable {g g' x : Option ℕ}

theorem sameCore_assign : SameCore h (h.assign k x g) := by
  cases g with
  | none => cases k <;> exact ⟨rfl, rfl, rfl, fun _ => rfl⟩
  | some r =>
    refine ⟨rfl, rfl, rfl, fun q => ?_⟩
    show (update h.pagerefs r _ q).core = _
    by_cases hq : q = r
    · rw [hq, update_self, Pageref.core_setNext]
    · rw [update_of_ne hq]

/-- The links after `*guy = x`. -/
theorem next_assign (k' : Which) (q : ℕ) (hq : g = some q → k' ≠ k → k' = .all ∨ k = .all) :
    ((h.assign k x g).pagerefs q).next k' =
      if g = some q ∧ k' = k then x else (h.pagerefs q).next k' := by
  cases g with
  | none =>
    cases k <;> rfl
  | some r =>
    show (update h.pagerefs r _ q).next k' = _
    by_cases hqr : q = r
    · subst hqr
      rw [update_self]
      by_cases hk : k' = k
      · rw [if_pos ⟨rfl, hk⟩, hk, Pageref.next_setNext]
      · rw [if_neg fun h => hk h.2]
        rcases hq rfl hk with rfl | rfl
        · cases k with
          | samesize b => rfl
          | all => exact absurd rfl hk
        · cases k' with
          | samesize b => rfl
          | all => exact absurd rfl hk
    · rw [update_of_ne hqr, if_neg fun h => hqr (some.inj h.1).symm]

theorem head_assign (k' : Which) :
    (h.assign k x g).head k' = if g = none ∧ k' = k then x else h.head k' := by
  cases g with
  | some r =>
    rfl
  | none =>
    by_cases hk : k' = k
    · rw [if_pos ⟨rfl, hk⟩, hk]
      cases k with
      | samesize b => exact update_self _ _ _
      | all => rfl
    · rw [if_neg fun h => hk h.2]
      cases k with
      | samesize b =>
        cases k' with
        | samesize b' =>
          exact update_of_ne (fun hb => hk (by rw [hb])) _ _
        | all => rfl
      | all =>
        cases k' with
        | samesize b' => rfl
        | all => exact absurd rfl hk

/-- The pointers of one list after `*guy = x`. -/
theorem deref_assign : (h.assign k x g).deref k g' = if g' = g then x else h.deref k g' := by
  cases g' with
  | none =>
    show (h.assign k x g).head k = _
    rw [head_assign]
    by_cases hg : g = none
    · rw [if_pos ⟨hg, rfl⟩, if_pos hg.symm]
    · rw [if_neg fun h => hg h.1, if_neg fun h => hg h.symm]
      rfl
  | some q =>
    show ((h.assign k x g).pagerefs q).next k = _
    rw [next_assign k q fun _ hk => absurd rfl hk]
    by_cases hg : g = some q
    · rw [if_pos ⟨hg, rfl⟩, if_pos hg.symm]
    · rw [if_neg fun h => hg h.1, if_neg fun h => hg h.symm]
      rfl

end Heap

/-- **A loop of `remove_lists`** takes a pageref off the rest of a list: it makes
one assignment, to the pointer that `guy` begins with or to a link of the list. -/
theorem wp_removeFrom {fuel : ℕ} {g : Option ℕ}
    (hc : Chain (fun q => h.deref k (some q)) (h.deref k g) l) (hg : ∀ x ∈ l, g ≠ some x)
    (hfuel : l.length < fuel) :
    wp (removeFrom k p fuel g)
      (fun _ h' => (h' = h ∧ p ∉ l) ∨ ∃ g', (g' = g ∨ ∃ x ∈ l, g' = some x) ∧
        h' = h.assign k ((h.pagerefs p).next k) g' ∧
        Chain (fun q => h'.deref k (some q)) (h'.deref k g) (l.filter fun q => q ≠ p)) E h := by
  induction l generalizing fuel g with
  | nil =>
    obtain ⟨fuel, rfl⟩ : ∃ m, fuel = m + 1 := ⟨fuel - 1, by simp at hfuel; omega⟩
    unfold removeFrom
    rw [wp_get_bind, hc, wp_pure]
    exact .inl ⟨rfl, not_mem_nil⟩
  | cons q l ih =>
    rw [length_cons] at hfuel
    obtain ⟨fuel, rfl⟩ : ∃ m, fuel = m + 1 := ⟨fuel - 1, by omega⟩
    obtain ⟨hq, hnodup⟩ := nodup_cons.1 hc.nodup
    obtain ⟨hd, hl⟩ := hc
    obtain ⟨hgq, hgl⟩ := forall_mem_cons.1 hg
    unfold removeFrom
    rw [wp_get_bind, hd]
    simp only
    rw [wp_ite]
    split
    · rename_i hqp
      subst hqp
      rw [wp_set]
      refine .inr ⟨g, .inl rfl, rfl, ?_⟩
      have hfilter : (q :: l).filter (fun x => x ≠ q) = l := by
        rw [filter_cons_of_neg (by simp), filter_eq_self]
        exact fun x hx => decide_eq_true (ne_of_mem_of_not_mem hx hq)
      rw [hfilter, deref_assign, if_pos rfl]
      refine hl.congr fun x hx => ?_
      rw [deref_assign, if_neg fun h => hgl x hx h.symm]
    · rename_i hqp
      refine wp_imp (ih hl (fun x hx hqx => hq (some.inj hqx ▸ hx)) (by omega))
        fun _ h' hr => ?_
      rcases hr with ⟨rfl, hp⟩ | ⟨g', hg', hh', hchain⟩
      · refine .inl ⟨rfl, fun hmem => ?_⟩
        rcases mem_cons.1 hmem with rfl | hmem
        · exact hqp rfl
        · exact hp hmem
      · have hin : ∃ x ∈ q :: l, g' = some x := by
          rcases hg' with rfl | ⟨x, hx, rfl⟩
          · exact ⟨q, mem_cons_self, rfl⟩
          · exact ⟨x, mem_cons_of_mem _ hx, rfl⟩
        refine .inr ⟨g', .inr hin, hh', ?_⟩
        have hne : g ≠ g' := by
          obtain ⟨x, hx, rfl⟩ := hin
          exact hg x hx
        have hkeep : (q :: l).filter (fun x => x ≠ p) = q :: l.filter fun x => x ≠ p :=
          filter_cons_of_pos (by simpa using hqp)
        rw [hkeep]
        refine ⟨?_, hchain⟩
        rw [hh', deref_assign, if_neg hne, hd]

/-- **A pageref is taken off one list**, and the other lists stay. -/
theorem Lists.remove {L : Which → List ℕ} (hl : Lists h L)
    (hd : ∀ b b', b ≠ b' → ∀ x ∈ L (.samesize b), x ∉ L (.samesize b')) {fuel : ℕ}
    (hfuel : (L k).length < fuel) :
    wp (removeFrom k p fuel none)
      (fun _ h' => SameCore h h' ∧
        Lists h' (update L k ((L k).filter fun q => q ≠ p))) E h := by
  refine wp_imp (wp_removeFrom (hl k) (fun x _ => (some_ne_none x).symm) hfuel)
    fun _ h' hr => ?_
  rcases hr with ⟨rfl, hp⟩ | ⟨g, hg, rfl, hchain⟩
  · have hfilter : (L k).filter (fun q => q ≠ p) = L k := by
      rw [filter_eq_self]
      exact fun x hx => decide_eq_true (ne_of_mem_of_not_mem hx hp)
    rw [hfilter, update_eq_self]
    exact ⟨SameCore.refl h', hl⟩
  · refine ⟨sameCore_assign, fun k' => ?_⟩
    by_cases hk : k' = k
    · subst hk
      rw [update_self]
      exact hchain
    · rw [update_of_ne hk, head_assign, if_neg fun h => hk h.2]
      refine (hl k').congr fun x hx => ?_
      rw [next_assign k' x, if_neg fun h => hk h.2]
      intro hgx _
      rcases hg with rfl | ⟨y, hy, rfl⟩
      · exact absurd hgx (some_ne_none x).symm
      · obtain rfl := some.inj hgx
        cases k' with
        | all => exact .inl rfl
        | samesize b' =>
          cases k with
          | all => exact .inr rfl
          | samesize b => exact absurd hx (hd b b' (fun hb => hk (by rw [hb])) y hy)

/-- **`remove_lists`** takes a pageref off the two lists it is on. -/
theorem wp_removeLists {L : Which → List ℕ} (hl : Lists h L) (hb : b < nsizes)
    (hd : ∀ b b', b ≠ b' → ∀ x ∈ L (.samesize b), x ∉ L (.samesize b'))
    (hp : ∀ c, c ≠ b → p ∉ L (.samesize c)) (hlen : ∀ k, (L k).length ≤ npagerefs) :
    wp (removeLists p b)
      (fun _ h' => SameCore h h' ∧ Lists h' fun k => (L k).filter fun q => q ≠ p) E h := by
  unfold removeLists
  rw [wp_assert_bind hb]
  refine wp_then (hl.remove hd (Nat.lt_succ_of_le (hlen _))) fun _ h₁ hr => ?_
  obtain ⟨hsame, hl₁⟩ := hr
  obtain ⟨L₁, hL₁⟩ : ∃ L₁, update L (.samesize b)
      ((L (.samesize b)).filter fun q => q ≠ p) = L₁ := ⟨_, rfl⟩
  rw [hL₁] at hl₁
  have hself : L₁ (.samesize b) = (L (.samesize b)).filter fun q => q ≠ p := by
    rw [← hL₁, update_self]
  have hother : ∀ k, k ≠ .samesize b → L₁ k = L k := by
    intro k hk
    rw [← hL₁, update_of_ne hk]
  have hsub : ∀ c x, x ∈ L₁ (.samesize c) → x ∈ L (.samesize c) := by
    intro c x hx
    by_cases hc : Which.samesize c = .samesize b
    · rw [hc, hself] at hx
      rw [hc]
      exact mem_of_mem_filter hx
    · rwa [hother _ hc] at hx
  have hall : L₁ .all = L .all := hother .all (by simp)
  refine wp_imp (hl₁.remove (fun c c' hne x hx hx' => hd c c' hne x (hsub c x hx) (hsub c' x hx'))
    (by rw [hall]; exact Nat.lt_succ_of_le (hlen _))) fun _ h₂ hr => ?_
  obtain ⟨hsame₂, hl₂⟩ := hr
  refine ⟨hsame.trans hsame₂, fun k => ?_⟩
  have hk := hl₂ k
  cases k with
  | all =>
    rw [update_self, hall] at hk
    exact hk
  | samesize c =>
    rw [update_of_ne (by simp)] at hk
    by_cases hc : c = b
    · rw [hc, hself] at hk
      rw [hc]
      exact hk
    · rw [hother _ (by simpa using hc)] at hk
      have hkeep : (L (.samesize c)).filter (fun q => q ≠ p) = L (.samesize c) := by
        rw [filter_eq_self]
        exact fun x hx => decide_eq_true (ne_of_mem_of_not_mem hx (hp c hc))
      simp only [hkeep]
      exact hk

end Kheap

end Os161
