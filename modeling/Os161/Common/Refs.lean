import Mathlib.Logic.Basic
/-!
# Exact accounts of references

A storage manager has marks for the blocks that are in use, and references to
blocks from places of any kind. `Exact at marked fixed` says that the marks are
the references and nothing more: no block is referenced from two places, none
of the `fixed` blocks is referenced at all, and a block is marked if and only
if it is fixed or some place references it.

The rules say what keeps the accounts exact: a reference to a block without a
mark, which gets one (`set`), and references that go together with the marks
of their blocks (`prune`).
-/

namespace Os161

namespace Refs

variable {R B : Type} {ref ref' : R → Option B} {marked marked' fixed : B → Prop} {r : R} {b : B}

/-- **The marks are the references.** -/
structure Exact (ref : R → Option B) (marked fixed : B → Prop) : Prop where
  once : ∀ r r' b, ref r = some b → ref r' = some b → r = r'
  apart : ∀ r b, ref r = some b → ¬ fixed b
  marked_iff : ∀ b, marked b ↔ fixed b ∨ ∃ r, ref r = some b

namespace Exact

section

variable (h : Exact ref marked fixed)

include h

/-- What is referenced is marked. -/
theorem marked_of_ref (hr : ref r = some b) : marked b :=
  (h.marked_iff b).2 (.inr ⟨r, hr⟩)

/-- A block without a mark is nowhere. -/
theorem ref_ne (hb : ¬ marked b) (r : R) : ref r ≠ some b :=
  fun hr => hb (h.marked_of_ref hr)

theorem not_fixed (hb : ¬ marked b) : ¬ fixed b :=
  fun hf => hb ((h.marked_iff b).2 (.inl hf))

/-- The same references and the same marks. -/
theorem congr (href : ∀ r, ref' r = ref r)
    (hmarked : ∀ b, marked' b ↔ marked b) : Exact ref' marked' fixed where
  once r r' b := by
    rw [href, href]
    exact h.once r r' b
  apart r b := by
    rw [href]
    exact h.apart r b
  marked_iff b := by
    rw [hmarked, h.marked_iff]
    simp only [href]

/-- **A new reference**, to a block that had no mark. -/
theorem set (hb : ¬ marked b) (hr : ref r = none)
    (hself : ref' r = some b) (hother : ∀ r' ≠ r, ref' r' = ref r')
    (hmarked : ∀ c, marked' c ↔ marked c ∨ c = b) : Exact ref' marked' fixed where
  once r₁ r₂ c h₁ h₂ := by
    by_cases e₁ : r₁ = r <;> by_cases e₂ : r₂ = r
    · rw [e₁, e₂]
    · subst e₁
      rw [hother r₂ e₂] at h₂
      rw [hself] at h₁
      cases h₁
      exact absurd h₂ (h.ref_ne hb r₂)
    · subst e₂
      rw [hother r₁ e₁] at h₁
      rw [hself] at h₂
      cases h₂
      exact absurd h₁ (h.ref_ne hb r₁)
    · rw [hother r₁ e₁] at h₁
      rw [hother r₂ e₂] at h₂
      exact h.once r₁ r₂ c h₁ h₂
  apart r' c hc := by
    by_cases e : r' = r
    · subst e
      rw [hself] at hc
      cases hc
      exact h.not_fixed hb
    · rw [hother r' e] at hc
      exact h.apart r' c hc
  marked_iff c := by
    rw [hmarked, h.marked_iff]
    constructor
    · rintro ((hf | ⟨r', hr'⟩) | rfl)
      · exact .inl hf
      · refine .inr ⟨r', ?_⟩
        rwa [hother r' fun e => by rw [e, hr] at hr'; cases hr']
      · exact .inr ⟨r, hself⟩
    · rintro (hf | ⟨r', hr'⟩)
      · exact .inl (.inl hf)
      · by_cases e : r' = r
        · subst e
          rw [hself] at hr'
          exact .inr (Option.some.inj hr').symm
        · rw [hother r' e] at hr'
          exact .inl (.inr ⟨r', hr'⟩)

/-- **References go**, and the marks of their blocks with them. -/
theorem prune (hsub : ∀ r, ref' r = ref r ∨ ref' r = none)
    (hmarked : ∀ c, marked' c ↔ marked c ∧ ∀ r, ref r = some c → ref' r = some c) :
    Exact ref' marked' fixed := by
  have hold : ∀ r c, ref' r = some c → ref r = some c := by
    intro r c hc
    rcases hsub r with e | e
    · exact e.symm.trans hc
    · rw [e] at hc
      cases hc
  refine ⟨fun r₁ r₂ c h₁ h₂ => ?_, fun r c hc => h.apart r c (hold r c hc), fun c => ?_⟩
  · exact h.once r₁ r₂ c (hold r₁ c h₁) (hold r₂ c h₂)
  · rw [hmarked, h.marked_iff]
    constructor
    · rintro ⟨hf | ⟨r, hr⟩, hkept⟩
      · exact .inl hf
      · exact .inr ⟨r, hkept r hr⟩
    · rintro (hf | ⟨r', hr'⟩)
      · exact ⟨.inl hf, fun r hr => absurd hf (h.apart r c hr)⟩
      · refine ⟨.inr ⟨r', hold r' c hr'⟩, fun r hr => ?_⟩
        rwa [h.once r r' c hr (hold r' c hr')]

/-- **A reference goes**, and the mark of its block with it. -/
theorem clear (hr : ref r = some b) (hself : ref' r = none)
    (hother : ∀ r' ≠ r, ref' r' = ref r') (hmarked : ∀ c, marked' c ↔ marked c ∧ c ≠ b) :
    Exact ref' marked' fixed := by
  refine h.prune (fun r' => ?_) fun c => ?_
  · by_cases e : r' = r
    · exact .inr (e ▸ hself)
    · exact .inl (hother r' e)
  · rw [hmarked]
    refine and_congr_right fun _ => ⟨fun hne r' hr' => ?_, fun hkept e => ?_⟩
    · have e : r' ≠ r := fun e => hne (Option.some.inj (hr'.symm.trans (e ▸ hr)))
      rw [hother r' e, hr']
    · have hr' := hkept r (e ▸ hr)
      rw [hself] at hr'
      cases hr'

end

end Exact

end Refs

end Os161
