import Mathlib.Data.Set.Basic
import Mathlib.Tactic.Common
/-!
# A unit that is passed on

Each key posts one unit, once. A worker may take the unit of a key, and a
worker that holds it may strike the key off. While a key is not struck off, its
unit is in one place: not posted yet, in the count, or with one worker.

Nothing here is about any one program: the keys, the workers and what the
functions are read off are the user's.
-/

namespace Os161

variable {K W : Type} {dom : Set K} {posted : Set K} {count : K → ℕ} {holds : W → Option K}
  {present : Set K}

/-- **Where the unit of each key is.** -/
structure OneUnit (dom posted : Set K) (count : K → ℕ) (holds : W → Option K)
    (present : Set K) : Prop where
  unposted : ∀ k ∈ dom, k ∉ posted → count k = 0 ∧ k ∈ present
  counted : ∀ k ∈ dom, count k ≠ 0 →
    count k = 1 ∧ k ∈ posted ∧ k ∈ present ∧ ∀ w, holds w ≠ some k
  held : ∀ w k, holds w = some k →
    k ∈ posted ∧ count k = 0 ∧ k ∈ present ∧ ∀ u, holds u = some k → u = w
  kept : ∀ k ∈ dom, k ∈ posted → k ∈ present → (∀ w, holds w ≠ some k) → count k = 1
  mem_dom : ∀ w k, holds w = some k → k ∈ dom

namespace OneUnit

variable {dom' posted' : Set K} {count' : K → ℕ} {holds' : W → Option K} {present' : Set K}

theorem congr (h : OneUnit dom posted count holds present) (hposted : ∀ k, k ∈ posted' ↔ k ∈ posted)
    (hcount : ∀ k, count' k = count k) (hholds : ∀ w, holds' w = holds w)
    (hpresent : ∀ k, k ∈ present' ↔ k ∈ present) : OneUnit dom posted' count' holds' present' := by
  rw [Set.ext hposted, funext hcount, funext hholds, Set.ext hpresent]
  exact h

/-- A key that has not posted has no worker. -/
theorem not_held (h : OneUnit dom posted count holds present) {k : K} (hk : k ∉ posted) (w : W) :
    holds w ≠ some k :=
  fun hw => hk (h.held w k hw).1

variable [DecidableEq K]

/-- **A new key** has not posted yet. -/
theorem new (h : OneUnit dom posted count holds present) {k : K} (hk : k ∉ posted)
    (hdom : ∀ x, x ∈ dom' ↔ x ∈ dom ∨ x = k) (hposted : ∀ x, x ∈ posted' ↔ x ∈ posted)
    (hcount : ∀ x, count' x = if x = k then 0 else count x) (hholds : ∀ w, holds' w = holds w)
    (hpresent : ∀ x ∈ dom', x ∈ present' ↔ x ∈ present ∨ x = k) :
    OneUnit dom' posted' count' holds' present' := by
  rw [Set.ext hposted, funext hholds]
  have hold : ∀ x ∈ dom', x ≠ k → x ∈ dom := fun x hx hne => ((hdom x).1 hx).resolve_right hne
  constructor
  · intro x hx hx'
    rw [hcount, hpresent x hx]
    split
    · next heq => exact ⟨rfl, .inr heq⟩
    · next hne =>
      obtain ⟨h0, hp⟩ := h.unposted x (hold x hx hne) hx'
      exact ⟨h0, .inl hp⟩
  · intro x hx hx'
    rw [hcount] at hx' ⊢
    rw [hpresent x hx]
    split at hx'
    · exact absurd rfl hx'
    · next hne =>
      rw [if_neg hne]
      obtain ⟨h1, h2, h3, h4⟩ := h.counted x (hold x hx hne) hx'
      exact ⟨h1, h2, .inl h3, h4⟩
  · intro w x hw
    obtain ⟨h1, h2, h3, h4⟩ := h.held w x hw
    have hne : x ≠ k := fun hxk => hk (hxk ▸ h1)
    rw [hcount, if_neg hne, hpresent x ((hdom x).2 (.inl (h.mem_dom w x hw)))]
    exact ⟨h1, h2, .inl h3, h4⟩
  · intro x hx hx' hp hw
    have hne : x ≠ k := fun hxk => hk (hxk ▸ hx')
    rw [hcount, if_neg hne]
    exact h.kept x (hold x hx hne) hx' (((hpresent x hx).1 hp).resolve_right hne) hw
  · intro w x hw
    exact (hdom x).2 (.inl (h.mem_dom w x hw))

/-- **A key posts** its unit. -/
theorem post (h : OneUnit dom posted count holds present) {k : K} (hk : k ∈ dom) (hk' : k ∉ posted)
    (hposted : ∀ x, x ∈ posted' ↔ x ∈ posted ∨ x = k)
    (hcount : ∀ x, count' x = if x = k then count k + 1 else count x)
    (hholds : ∀ w, holds' w = holds w) (hpresent : ∀ x, x ∈ present' ↔ x ∈ present) :
    OneUnit dom posted' count' holds' present' := by
  rw [Set.ext hpresent, funext hholds]
  have hnone := h.not_held hk'
  obtain ⟨hzero, hthere⟩ := h.unposted k hk hk'
  constructor
  · intro x hx hx'
    rw [hposted, not_or] at hx'
    rw [hcount, if_neg hx'.2]
    exact h.unposted x hx hx'.1
  · intro x hx hx'
    rw [hcount] at hx' ⊢
    rw [hposted]
    split
    · next heq =>
      rw [heq, hzero]
      exact ⟨rfl, .inr rfl, hthere, hnone⟩
    · next hne =>
      rw [if_neg hne] at hx'
      obtain ⟨h1, h2, h3, h4⟩ := h.counted x hx hx'
      exact ⟨h1, .inl h2, h3, h4⟩
  · intro w x hw
    obtain ⟨h1, h2, h3, h4⟩ := h.held w x hw
    have hne : x ≠ k := fun hxk => hk' (hxk ▸ h1)
    rw [hcount, if_neg hne, hposted]
    exact ⟨.inl h1, h2, h3, h4⟩
  · intro x hx hx' hp hw
    rw [hcount]
    split
    · rw [hzero]
    · next hne => exact h.kept x hx (((hposted x).1 hx').resolve_right hne) hp hw
  · exact h.mem_dom

variable [DecidableEq W]

/-- **A worker takes** the unit of a key out of the count. -/
theorem take (h : OneUnit dom posted count holds present) {k : K} {v : W} (hk : k ∈ dom)
    (hne : count k ≠ 0) (hv : holds v = none) (hposted : ∀ x, x ∈ posted' ↔ x ∈ posted)
    (hcount : ∀ x, count' x = if x = k then count k - 1 else count x)
    (hholds : ∀ w, holds' w = if w = v then some k else holds w)
    (hpresent : ∀ x, x ∈ present' ↔ x ∈ present) :
    OneUnit dom posted' count' holds' present' := by
  rw [Set.ext hposted, Set.ext hpresent]
  obtain ⟨hone, hpost, hthere, hnone⟩ := h.counted k hk hne
  -- no other key's unit moves, and `v` held none
  have hother : ∀ w x, x ≠ k → (holds' w = some x ↔ holds w = some x) := by
    intro w x hx
    rw [hholds]
    split
    · next hw => simp [hw, hv, Ne.symm hx]
    · exact Iff.rfl
  have hself : ∀ w, holds' w = some k → w = v := by
    intro w hw
    rw [hholds] at hw
    split at hw
    · next heq => exact heq
    · exact absurd hw (hnone w)
  constructor
  · intro x hx hx'
    have hxk : x ≠ k := fun heq => hx' (heq ▸ hpost)
    rw [hcount, if_neg hxk]
    exact h.unposted x hx hx'
  · intro x hx hx'
    have hxk : x ≠ k := by
      rintro rfl
      rw [hcount, if_pos rfl, hone] at hx'
      exact hx' rfl
    rw [hcount, if_neg hxk] at hx' ⊢
    obtain ⟨h1, h2, h3, h4⟩ := h.counted x hx hx'
    exact ⟨h1, h2, h3, fun w hw => h4 w ((hother w x hxk).1 hw)⟩
  · intro w x hw
    by_cases hxk : x = k
    · obtain rfl := hxk
      rw [hcount, if_pos rfl, hone, hself w hw]
      exact ⟨hpost, rfl, hthere, hself⟩
    · obtain ⟨h1, h2, h3, h4⟩ := h.held w x ((hother w x hxk).1 hw)
      rw [hcount, if_neg hxk]
      exact ⟨h1, h2, h3, fun u hu => h4 u ((hother u x hxk).1 hu)⟩
  · intro x hx hx' hp hw
    have hxk : x ≠ k := by
      rintro rfl
      exact hw v (by rw [hholds, if_pos rfl])
    rw [hcount, if_neg hxk]
    exact h.kept x hx hx' hp fun w hw' => hw w ((hother w x hxk).2 hw')
  · intro w x hw
    by_cases hxk : x = k
    · exact hxk ▸ hk
    · exact h.mem_dom w x ((hother w x hxk).1 hw)

omit [DecidableEq K] in
/-- **A worker strikes the key off** whose unit it holds. -/
theorem strike (h : OneUnit dom posted count holds present) {k : K} {v : W}
    (hv : holds v = some k) (hposted : ∀ x, x ∈ posted' ↔ x ∈ posted)
    (hcount : ∀ x, count' x = count x) (hholds : ∀ w, holds' w = if w = v then none else holds w)
    (hpresent : ∀ x ∈ dom, x ∈ present' ↔ x ∈ present ∧ x ≠ k) :
    OneUnit dom posted' count' holds' present' := by
  rw [Set.ext hposted, funext hcount]
  obtain ⟨hpost, hzero, hthere, huniq⟩ := h.held v k hv
  have hsub : ∀ w x, holds' w = some x → holds w = some x ∧ x ≠ k := by
    intro w x hw
    rw [hholds] at hw
    split at hw
    · cases hw
    · next hne =>
      refine ⟨hw, ?_⟩
      rintro rfl
      exact hne (huniq w hw)
  constructor
  · intro x hx hx'
    obtain ⟨h1, h2⟩ := h.unposted x hx hx'
    exact ⟨h1, (hpresent x hx).2 ⟨h2, fun hxk => hx' (hxk ▸ hpost)⟩⟩
  · intro x hx hx'
    obtain ⟨h1, h2, h3, h4⟩ := h.counted x hx hx'
    refine ⟨h1, h2, (hpresent x hx).2 ⟨h3, ?_⟩, fun w hw => h4 w (hsub w x hw).1⟩
    rintro rfl
    exact hx' hzero
  · intro w x hw
    obtain ⟨hw', hxk⟩ := hsub w x hw
    obtain ⟨h1, h2, h3, h4⟩ := h.held w x hw'
    exact ⟨h1, h2, (hpresent x (h.mem_dom w x hw')).2 ⟨h3, hxk⟩, fun u hu => h4 u (hsub u x hu).1⟩
  · intro x hx hx' hp hw
    obtain ⟨hp', hxk⟩ := (hpresent x hx).1 hp
    refine h.kept x hx hx' hp' fun w hw' => ?_
    refine hw w ?_
    rw [hholds, if_neg, hw']
    rintro rfl
    rw [hv] at hw'
    exact hxk (Option.some.inj hw').symm
  · intro w x hw
    exact h.mem_dom w x (hsub w x hw).1

end OneUnit

end Os161
