import Os161.Fs.Io
/-!
# What `uiomove` leaves to be moved

The loop of `uiomove` goes on while something is left to transfer, but what it takes in
one round is bounded by the buffer and the request only. So a request for more than
`uio_resid` takes more, if the buffer is larger than that: `uio_resid` wraps around, and
where the buffer ends the next round panics. For all other requests one round is all
there is (`uiomove_within`), and two of them in a row are one.
-/

namespace Os161

namespace Fs

open Prog List

variable {σ : Type} {fs : σ} {u : Uio} {ptr : List UInt8} {n k : ℕ}

namespace Uio

/-- A `uio` of machine words, with a buffer that holds what is left to transfer. -/
structure Fits (u : Uio) : Prop where
  offset : off32 u.offset = u.offset
  resid : u.resid ≤ u.base.length
  len : u.base.length < 2 ^ 32

/-- A request that is not for more than what is left, or that the buffer stops in time. -/
def Within (u : Uio) (n : ℕ) : Prop := n ≤ u.resid ∨ u.resid = 0 ∨ u.base.length = u.resid

/-- The `uio` with a buffer of which `m` bytes can be reached, if it is a user's. -/
def reaching (u : Uio) (m : ℕ) : Uio := { u with user := u.user.map fun _ => m }

/-- The `uio` after a transfer of `n` bytes. -/
def after (u : Uio) (ptr : List UInt8) (n : ℕ) : Uio := u.advance (u.taken ptr n)

theorem length_taken (hptr : n ≤ ptr.length) (hn : n ≤ u.base.length) :
    (u.taken ptr n).length = n := by
  unfold taken
  split <;> rw [length_take] <;> omega

/-- What a transfer leaves. -/
theorem Fits.after (h : u.Fits) (ptr : List UInt8) (n : ℕ) (hptr : n ≤ ptr.length)
    (hn : n ≤ u.resid) :
    (u.after ptr n).Fits ∧ (u.after ptr n).resid = u.resid - n ∧
      (u.after ptr n).base.length = u.base.length - n := by
  have hresid := h.resid
  have hlen := h.len
  have htaken := length_taken (u := u) hptr (by omega)
  have hleft : (u.after ptr n).resid = u.resid - n := by
    show word32 _ = _
    rw [htaken]
    unfold word32
    omega
  have hbase : (u.after ptr n).base.length = u.base.length - n := by
    show (u.base.drop _).length = _
    rw [length_drop, htaken]
  refine ⟨⟨?_, by omega, by omega⟩, hleft, hbase⟩
  show off32 (off32 _) = off32 _
  unfold off32
  omega

/-- A copy faults in its first part, or in the rest. -/
theorem faults_add (ptr : List UInt8) (hptr : n ≤ ptr.length) (hn : n ≤ u.base.length) :
    u.Faults (n + k) ↔ u.Faults n ∨ (u.after ptr n).Faults k := by
  unfold Faults
  show _ ↔ _ ∨ ∃ m ∈ u.user.map (· - (u.taken ptr n).length), _
  rw [length_taken hptr hn]
  cases u.user with
  | none => simp
  | some m =>
    simp only [Option.mem_def, Option.some.injEq, exists_eq_left', Option.map_some]
    omega

end Uio

/-! ## Rounds -/

theorem uiomoveLoop_idle (fuel : ℕ) (h : n = 0 ∨ u.resid = 0) :
    uiomoveLoop fuel ptr n ⟨fs, u⟩ = .ok [] ⟨fs, u⟩ := by
  cases fuel with
  | zero => rfl
  | succ fuel => rw [uiomoveLoop, get_bind_apply, if_neg (by dsimp only; omega), pure_apply]

theorem uiomoveLoop_panics {fuel : ℕ} (hn : 0 < n) (hr : 0 < u.resid) (hempty : u.base.length = 0) :
    uiomoveLoop (fuel + 1) ptr n ⟨fs, u⟩ = .error .halt ⟨fs, u⟩ := by
  rw [uiomoveLoop, get_bind_apply, if_pos ⟨hn, hr⟩]
  exact bind_of_error (assert_of_not (by simp [hempty]))

/-- One round, of as much as the request and the buffer allow. -/
theorem uiomove_round (hn : 0 < n) (hr : 0 < u.resid) (hk : min u.base.length n = k)
    (hpos : 0 < k) :
    uiomove ptr n ⟨fs, u⟩ =
      if u.Faults k then .error (.error .EFAULT) ⟨fs, u⟩
      else (do
        let rest ← uiomoveLoop (n - 1) (ptr.drop k) (n - k)
        pure (u.taken ptr k ++ rest) : Prog (Io σ) Errno _) ⟨fs, u.after ptr k⟩ := by
  obtain ⟨n, rfl⟩ : ∃ k, n = k + 1 := ⟨n - 1, by omega⟩
  rw [uiomove, uiomoveLoop, get_bind_apply, if_pos ⟨hn, hr⟩]
  dsimp only
  rw [hk, bind_of_ok (assert_of (by omega))]
  by_cases hf : u.Faults k
  · rw [if_pos hf, bind_of_error (failIf_of _ hf)]
  · rw [if_neg hf, bind_of_ok (failIf_of_not _ hf)]
    rfl

/-- **A request within what is left** is one transfer. -/
theorem uiomove_within (hu : u.Fits) (hw : u.Within n) (hptr : n ≤ ptr.length)
    (hk : min n u.resid = k) :
    uiomove ptr n ⟨fs, u⟩ =
      if u.Faults k then .error (.error .EFAULT) ⟨fs, u⟩
      else .ok (u.taken ptr k) ⟨fs, u.after ptr k⟩ := by
  have hresid := hu.resid
  by_cases hidle : n = 0 ∨ u.resid = 0
  · obtain rfl : k = 0 := by omega
    have hfaults : ¬ u.Faults 0 := by
      rintro ⟨m, -, hm⟩
      omega
    have htaken : u.taken ptr 0 = [] := by
      unfold Uio.taken
      split <;> rfl
    rw [uiomove, uiomoveLoop_idle _ hidle, if_neg hfaults, Uio.after, htaken,
      Uio.advance_nil_of hu.offset (lt_of_le_of_lt hresid hu.len)]
  · unfold Uio.Within at hw
    have hleft := (hu.after ptr k (by omega) (by omega)).2.1
    rw [uiomove_round (k := k) (by omega) (by omega) (by omega) (by omega),
      bind_of_ok (uiomoveLoop_idle _ (by omega)), pure_apply, append_nil]

/-! ## The residual -/

/-- **`uiomove` respects `uio_resid`** for a request of `n` bytes. It comes back, and if it
returns 0, it has moved as many bytes as were asked for and left, in order, and
`uio_resid` is smaller by as much. Two calls for the parts of the request have the effect
of one. -/
structure Respects (ptr : List UInt8) (n : ℕ) (r : Io σ) : Prop where
  exact : Back (uiomove ptr n) (fun res r' => match res with
    | .ok bytes => bytes = r.uio.taken ptr (min n r.uio.resid) ∧
        bytes.length = min n r.uio.resid ∧ r' = { r with uio := r.uio.advance bytes } ∧
        r'.uio.resid + bytes.length = r.uio.resid
    | .error _ => r' = r) r
  split : ∀ k ≤ n, ∀ bytes r', uiomove ptr n r = .ok bytes r' ↔
    ∃ b₁ b₂ r₁, uiomove (ptr.take k) k r = .ok b₁ r₁ ∧
      uiomove (ptr.drop k) (n - k) r₁ = .ok b₂ r' ∧ bytes = b₁ ++ b₂

/-- The bytes of two transfers in a row. -/
theorem Uio.taken_add (ptr : List UInt8) {a b : ℕ} (ha : a ≤ k) (hend : a = k ∨ b = 0)
    (hbase : a ≤ u.base.length) :
    u.taken (ptr.take k) a ++ (u.after (ptr.take k) a).taken (ptr.drop k) b =
      u.taken ptr (a + b) := by
  unfold Uio.taken
  rw [show (u.after (ptr.take k) a).rw = u.rw from rfl]
  unfold Uio.after Uio.taken
  cases u.rw with
  | read =>
    show (ptr.take k).take a ++ (ptr.drop k).take b = ptr.take (a + b)
    rw [take_take, Nat.min_eq_left ha]
    rcases hend with rfl | rfl
    · exact take_add.symm
    · rw [take_zero, append_nil, Nat.add_zero]
  | write =>
    show u.base.take a ++ (u.base.drop _).take b = u.base.take (a + b)
    rw [length_take_of_le hbase, take_add]

/-- **A request within what is left is in order.** -/
theorem Respects.of_within (hu : u.Fits) (hw : u.Within n) (hptr : n ≤ ptr.length) :
    Respects ptr n (⟨fs, u⟩ : Io σ) := by
  have hresid := hu.resid
  constructor
  · have hrun : uiomove ptr n ⟨fs, u⟩ = _ := uiomove_within hu hw hptr rfl
    split at hrun
    · exact (wp_of_error hrun).2 ⟨_, rfl, rfl⟩
    · have hlen : (u.taken ptr (min n u.resid)).length = min n u.resid :=
        Uio.length_taken (by omega) (by omega)
      have hleft := (hu.after ptr (min n u.resid) (by omega) (by omega)).2.1
      exact (wp_of_ok hrun).2 ⟨rfl, hlen, rfl, by dsimp only; omega⟩
  intro k hk bytes r'
  -- the first call moves `a` bytes, and the second one `b`
  obtain ⟨a, ha⟩ : ∃ a, min k u.resid = a := ⟨_, rfl⟩
  obtain ⟨b, hb⟩ : ∃ b, min (n - k) (u.resid - a) = b := ⟨_, rfl⟩
  have htake : (ptr.take k).length = k := length_take_of_le (by omega)
  obtain ⟨hu₁, hleft, hbase⟩ := hu.after (ptr.take k) a (by omega) (by omega)
  have hfaults := Uio.faults_add (u := u) (n := a) (k := b) (ptr.take k) (by omega)
    (by omega)
  have htaken := Uio.taken_add (u := u) (k := k) (a := a) (b := b) ptr (by omega) (by omega)
    (by omega)
  have hafter : (u.after (ptr.take k) a).after (ptr.drop k) b = u.after ptr (a + b) := by
    rw [Uio.after, Uio.after.eq_def u, Uio.advance_advance]
    exact congrArg u.advance htaken
  unfold Uio.Within at hw
  have hsecond : uiomove (ptr.drop k) (n - k) ⟨fs, _⟩ = _ := uiomove_within (k := b) hu₁
    (by unfold Uio.Within; omega) (by rw [length_drop]; omega) (by omega)
  rw [hafter] at hsecond
  rw [uiomove_within hu hw hptr (k := a + b) (by omega),
    uiomove_within hu (by unfold Uio.Within; omega) htake.ge ha, ← htaken]
  by_cases hf₁ : u.Faults a
  · rw [if_pos (hfaults.2 (.inl hf₁)), if_pos hf₁]
    simp
  rw [if_neg hf₁]
  by_cases hf₂ : (u.after (ptr.take k) a).Faults b
  · rw [if_pos hf₂] at hsecond
    rw [if_pos (hfaults.2 (.inr hf₂))]
    refine ⟨nofun, ?_⟩
    rintro ⟨b₁, b₂, r₁, h₁, h₂, -⟩
    cases h₁
    cases hsecond.symm.trans h₂
  · rw [if_neg hf₂] at hsecond
    rw [if_neg fun hf => (hfaults.1 hf).elim hf₁ hf₂]
    constructor
    · intro h
      cases h
      exact ⟨_, _, _, rfl, hsecond, rfl⟩
    · rintro ⟨b₁, b₂, r₁, h₁, h₂, rfl⟩
      cases h₁
      cases hsecond.symm.trans h₂
      rfl

/-- **A request for more than is left** from a larger buffer. -/
theorem not_respects (hu : u.Fits) (hw : ¬ u.Within n) (hreach : ∀ k ≤ u.base.length, ¬ u.Faults k)
    (hptr : n ≤ ptr.length) : ¬ Respects ptr n (⟨fs, u⟩ : Io σ) := by
  have hresid := hu.resid
  have hlen := hu.len
  unfold Uio.Within at hw
  intro h
  have hround : uiomove ptr n ⟨fs, u⟩ = _ := uiomove_round (by omega) (by omega) rfl (by omega)
  rw [if_neg (hreach _ (min_le_left _ _))] at hround
  by_cases hn : n ≤ u.base.length
  · rw [Nat.min_eq_right hn, Nat.sub_self, bind_of_ok (uiomoveLoop_idle _ (.inl rfl)),
      pure_apply, append_nil] at hround
    have hmoved : (u.taken ptr n).length = min n u.resid := ((wp_of_ok hround).1 h.exact).2.1
    rw [Uio.length_taken hptr hn] at hmoved
    omega
  · -- the buffer is used up, and `uio_resid` has wrapped around
    obtain ⟨fuel, hfuel⟩ : ∃ fuel, n - 1 = fuel + 1 := ⟨n - 2, by omega⟩
    have htaken : (u.taken ptr u.base.length).length = u.base.length :=
      Uio.length_taken (by omega) le_rfl
    have hleft : 0 < (u.after ptr u.base.length).resid := by
      show 0 < word32 _
      rw [htaken]
      unfold word32
      omega
    have hempty : (u.after ptr u.base.length).base.length = 0 := by
      show (u.base.drop _).length = 0
      rw [length_drop, htaken, Nat.sub_self]
    rw [Nat.min_eq_left (by omega), hfuel,
      bind_of_error (uiomoveLoop_panics (by omega) hleft hempty)] at hround
    obtain ⟨err, he, -⟩ := (wp_of_error hround).1 h.exact
    cases he

/-- **When `uiomove` respects `uio_resid`**, whatever part of a user's buffer can be
reached. -/
theorem uiomove_respects_iff (fs : σ) (u : Uio) (hu : u.Fits) (ptr : List UInt8) (n : ℕ)
    (hptr : n ≤ ptr.length) :
    (∀ m, Respects ptr n (⟨fs, u.reaching m⟩ : Io σ)) ↔
      n ≤ u.resid ∨ u.resid = 0 ∨ u.base.length = u.resid := by
  have hfits : ∀ m, (u.reaching m).Fits := fun _ => ⟨hu.offset, hu.resid, hu.len⟩
  refine ⟨fun h => ?_, fun h m => .of_within (hfits m) h hptr⟩
  by_contra hw
  refine not_respects (hfits u.base.length) hw (fun k hk => ?_) hptr (h _)
  rintro ⟨m, hm, hlt⟩
  obtain ⟨-, -, rfl⟩ := Option.map_eq_some_iff.1 hm
  exact absurd hlt (Nat.not_lt.2 hk)

/-- A `uio` of the kernel with eight bytes to go to, `n` of which are left. -/
def eightBytes (n : ℕ) : Uio := ⟨[], replicate 8 0, none, 0, n, .read⟩

theorem uiomove_respects_two :
    (eightBytes 4).resid = 4 ∧
      ∀ m, Respects [1, 2] 2 (⟨(), (eightBytes 4).reaching m⟩ : Io Unit) :=
  ⟨rfl, (uiomove_respects_iff () (eightBytes 4) ⟨by decide, by decide, by decide⟩ [1, 2] 2
    (by decide)).2 (.inl (by decide))⟩

/-- **A request for eight bytes where four are left.** -/
theorem residual_wraps : ∃ bytes r', uiomove (replicate 8 1) 8
      (⟨(), eightBytes 4⟩ : Io Unit) = .ok bytes r' ∧
    bytes.length = 8 ∧ r'.uio.resid = 2 ^ 32 - 4 :=
  ⟨_, _, rfl, rfl, by decide⟩

end Fs

end Os161
