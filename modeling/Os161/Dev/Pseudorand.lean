import Mathlib.Data.Nat.Prime.Basic
/-!
# `kern/dev/generic/pseudorand.c`

The generator multiplies its seed by 16807, modulo `2 ^ 31 - 1`, in 32-bit
arithmetic: the product is taken apart at `K1`, so that no value on the way leaves
the range of an `int32_t`. An overflow would end the computation (`none`).
-/

namespace Os161

namespace Dev

/-- `MULTIPLIER`. -/
def multiplier : ℤ := 16807

/-- `MODULUS`. -/
def modulus : ℤ := 0x7fffffff

/-- `K1` and `K2`: `MODULUS / MULTIPLIER` and `MODULUS % MULTIPLIER`. -/
def k1 : UInt32 := 127773

@[inherit_doc k1] def k2 : ℤ := 2836

/-- The value of an expression of type `int32_t`. -/
def int32 (x : ℤ) : Option ℤ := if -2 ^ 31 ≤ x ∧ x < 2 ^ 31 then some x else none

/-- `pseudorand_random`: the seed that it leaves, and the value that it returns. -/
def pseudorandRandom (seed : UInt32) : Option (UInt32 × UInt32) := do
  let hi ← int32 (seed / k1).toNat
  let lo ← int32 (seed % k1).toNat
  let fore ← int32 (multiplier * lo)
  let back ← int32 (k2 * hi)
  let tmp ← int32 (fore - back)
  let tmp ← if tmp ≤ 0 then int32 (tmp + modulus) else pure tmp
  let seed := UInt32.ofNat tmp.toNat
  pure (seed, seed - 1)

/-- `pseudorand_randmax`. -/
def pseudorandRandmax : UInt32 := UInt32.ofNat (modulus - 2).toNat

/-- A run of calls, with the values that they return. -/
def draws : ℕ → UInt32 → Option (UInt32 × List UInt32)
  | 0, seed => some (seed, [])
  | n + 1, seed => do
    let (seed, value) ← pseudorandRandom seed
    let (seed, values) ← draws n seed
    pure (seed, value :: values)

/-- The seeds that the generator is made for. -/
def SeedOk (seed : UInt32) : Prop := 1 ≤ seed.toNat ∧ seed.toNat ≤ 2 ^ 31 - 2

variable {seed : UInt32}

theorem int32_bind {α : Type} {x : ℤ} {f : ℤ → Option α} (h : -2 ^ 31 ≤ x) (h' : x < 2 ^ 31) :
    (int32 x >>= f) = f x := by
  unfold int32
  rw [if_pos ⟨h, h'⟩]
  rfl

/-- The product is no multiple of the modulus, since the seed is none. -/
theorem mul_mod_pos (h : SeedOk seed) : 0 < 16807 * seed.toNat % (2 ^ 31 - 1) := by
  refine Nat.pos_of_ne_zero fun h0 => ?_
  have hdvd : 2 ^ 31 - 1 ∣ seed.toNat :=
    Nat.Coprime.dvd_of_dvd_mul_left (by decide) (Nat.dvd_of_mod_eq_zero h0)
  have := Nat.le_of_dvd h.1 hdvd
  have := h.2
  omega

/-- **One call is one Lehmer step**, and no value on the way overflows. -/
theorem pseudorandRandom_eq (h : SeedOk seed) : ∃ next, SeedOk next ∧
    next.toNat = 16807 * seed.toNat % (2 ^ 31 - 1) ∧
    pseudorandRandom seed = some (next, next - 1) := by
  have hpos := mul_mod_pos h
  have hle := h.2
  have hk : k1.toNat = 127773 := rfl
  obtain ⟨p, hp⟩ : ∃ p, 16807 * seed.toNat % (2 ^ 31 - 1) = p := ⟨_, rfl⟩
  have hlt : p < 2 ^ 31 - 1 := by
    rw [← hp]
    exact Nat.mod_lt _ (by omega)
  have hnext : (UInt32.ofNat p).toNat = p :=
    UInt32.toNat_ofNat_of_lt' (by unfold UInt32.size; omega)
  rw [hp] at hpos ⊢
  refine ⟨UInt32.ofNat p, ⟨by omega, by omega⟩, hnext, ?_⟩
  -- `MODULUS = MULTIPLIER * K1 + K2`, so that the difference is the product modulo that
  obtain ⟨tmp, htmp⟩ : ∃ tmp, (16807 * (seed.toNat % 127773 : ℕ) : ℤ) -
    2836 * (seed.toNat / 127773 : ℕ) = tmp := ⟨_, rfl⟩
  have hcases : tmp = p ∨ tmp + 0x7fffffff = p := by omega
  unfold pseudorandRandom multiplier k2 modulus
  rw [UInt32.toNat_div, UInt32.toNat_mod, hk, int32_bind (by omega) (by omega),
    int32_bind (by omega) (by omega), int32_bind (by omega) (by omega),
    int32_bind (by omega) (by omega), htmp, int32_bind (by omega) (by omega)]
  rcases hcases with rfl | hcase
  · rw [if_neg (by omega)]
    rfl
  · rw [if_pos (by omega), hcase, int32_bind (by omega) (by omega)]
    rfl

/-- The value that is returned with a seed. -/
theorem le_randmax (h : SeedOk seed) : seed - 1 ≤ pseudorandRandmax := by
  have := h.2
  have h1 : 1 ≤ seed := UInt32.le_iff_toNat_le.2 h.1
  rw [UInt32.le_iff_toNat_le, UInt32.toNat_sub_of_le _ _ h1]
  show seed.toNat - 1 ≤ 2 ^ 31 - 3
  omega

/-- A run of calls stays among the seeds that the generator is made for. -/
theorem draws_ok (h : SeedOk seed) (n : ℕ) : ∃ next values, draws n seed = some (next, values) ∧
    SeedOk next ∧ ∀ v ∈ values, v ≤ pseudorandRandmax := by
  induction n generalizing seed with
  | zero => exact ⟨seed, [], rfl, h, nofun⟩
  | succ n ih =>
    obtain ⟨mid, hmid, -, hrun⟩ := pseudorandRandom_eq h
    obtain ⟨next, values, hdraws, hnext, hmax⟩ := ih hmid
    refine ⟨next, (mid - 1) :: values, ?_, hnext, List.forall_mem_cons.2 ⟨le_randmax hmid, hmax⟩⟩
    simp [draws, hrun, hdraws]

/-- **The generator computes the Lehmer step without overflow**, and so does every
call of a run of any length. -/
theorem pseudorand_lehmer (h : SeedOk seed) :
    (∃ next, SeedOk next ∧ next.toNat = 16807 * seed.toNat % (2 ^ 31 - 1) ∧
      pseudorandRandom seed = some (next, next - 1)) ∧
    ∀ n, ∃ next values, draws n seed = some (next, values) ∧ SeedOk next ∧
      ∀ v ∈ values, v ≤ pseudorandRandmax :=
  ⟨pseudorandRandom_eq h, draws_ok h⟩

/-- From the seed that `pseudoattach_pseudorand` sets. -/
theorem pseudorand_lehmer_attached : SeedOk 305824 ∧ ∀ n, ∃ next values,
    draws n 305824 = some (next, values) ∧ SeedOk next ∧ ∀ v ∈ values, v ≤ pseudorandRandmax :=
  have h : SeedOk 305824 := ⟨by decide, by decide⟩
  ⟨h, (pseudorand_lehmer h).2⟩

end Dev

end Os161
