import Os161.Libc.Model.Memmove
import Os161.Vm.AddrSpace
/-!
# Copies that overlap

`Vm.memmove` is what a copy is for: every byte of the destination at once. A copy of one
word or one byte is such a move, and two moves that lie side by side are one, if the first
of them does not overwrite what the second reads: `move_forwards` for the lower part
first, `move_backwards` for the upper part first. So each of the four loops is one move.
-/

namespace Os161

namespace Libc

open UInt32

open Vm (Memory)

variable {mem : Memory} {d s x y w k : UInt32} {copy : Memory → ℕ → Memory} {n : ℕ}

/-! ## One move in two parts -/

theorem move_at : Vm.memmove mem d s x (d + k) = if k < x then mem (s + k) else mem (d + k) := by
  have hself : d + k - d = k := by grind
  rw [Vm.memmove, hself]

theorem move_at_above : Vm.memmove mem (d + x) (s + x) y (d + k) =
    if k - x < y then mem (s + k) else mem (d + k) := by
  have hself : d + k - (d + x) = k - x := by grind
  have hsrc : s + x + (k - x) = s + k := by grind
  rw [Vm.memmove, hself, hsrc]

/-- **From the bottom up** towards lower addresses. -/
theorem move_forwards (hlt : d < s) (hfit : s.toNat + x.toNat + y.toNat ≤ 2 ^ 32) :
    Vm.memmove (Vm.memmove mem d s x) (d + x) (s + x) y = Vm.memmove mem d s (x + y) := by
  funext a
  obtain ⟨k, rfl⟩ : ∃ k, a = d + k := ⟨a - d, by grind⟩
  rw [move_at_above, move_at, move_at]
  -- what the upper part reads lies above the lower part
  have hread : k < x + y → ¬ k < x → Vm.memmove mem d s x (s + k) = mem (s + k) := by
    intro hk hx
    refine if_neg ?_
    simp only [UInt32.lt_iff_toNat_lt, UInt32.toNat_sub, UInt32.toNat_add] at *
    omega
  simp only [UInt32.lt_iff_toNat_lt, UInt32.toNat_sub, UInt32.toNat_add] at *
  have := k.toNat_lt
  split_ifs <;> first | rfl | omega | exact hread (by omega) (by omega)

/-- **From the top down** towards higher addresses. -/
theorem move_backwards (hle : s ≤ d) (hfit : d.toNat + x.toNat + y.toNat ≤ 2 ^ 32)
    (hlen : x.toNat + y.toNat < 2 ^ 32) :
    Vm.memmove (Vm.memmove mem (d + x) (s + x) y) d s x = Vm.memmove mem d s (x + y) := by
  funext a
  obtain ⟨k, rfl⟩ : ∃ k, a = d + k := ⟨a - d, by grind⟩
  rw [move_at, move_at, move_at_above]
  -- what the lower part reads lies below the upper part
  have hread : k < x → Vm.memmove mem (d + x) (s + x) y (s + k) = mem (s + k) := by
    intro hk
    refine if_neg ?_
    simp only [UInt32.lt_iff_toNat_lt, UInt32.le_iff_toNat_le, UInt32.toNat_sub,
      UInt32.toNat_add] at *
    omega
  simp only [UInt32.lt_iff_toNat_lt, UInt32.toNat_sub, UInt32.toNat_add] at *
  have := k.toNat_lt
  split_ifs <;> first | rfl | omega | exact hread (by omega)

theorem move_zero : Vm.memmove mem d s 0 = mem := by
  funext a
  exact if_neg (by simp)

/-! ## The loops -/

theorem copyChar_eq (i : ℕ) : copyChar d s mem i =
    Vm.memmove mem (d + ofNat i * 1) (s + ofNat i * 1) 1 := by
  rw [mul_one, copyChar]
  funext a
  obtain ⟨k, rfl⟩ : ∃ k, a = d + ofNat i + k := ⟨a - (d + ofNat i), by grind⟩
  rw [move_at, Function.update_apply]
  have hone : k < 1 ↔ k = 0 := by
    rw [UInt32.lt_iff_toNat_lt, ← UInt32.toNat_inj]
    exact Nat.lt_one_iff
  rcases eq_or_ne k 0 with rfl | hk
  · simp
  · simp [hone, hk]

theorem copyLong_eq (i : ℕ) : copyLong d s mem i =
    Vm.memmove mem (d + ofNat i * 4) (s + ofNat i * 4) 4 := by
  funext a
  simp [copyLong, storeLong, loadLong, Vm.memmove, lt_iff_toNat_lt, sizeofLong]

theorem toNat_ofNat_mul (h : n * w.toNat < 2 ^ 32) : (UInt32.ofNat n * w).toNat = n * w.toNat := by
  rw [UInt32.toNat_mul, UInt32.toNat_ofNat', Nat.mod_mul_mod, Nat.mod_eq_of_lt h]

theorem ofNat_succ_mul : ofNat (n + 1) * w = ofNat n * w + w := by
  have hsucc : ofNat (n + 1) = ofNat n + 1 := by simp
  rw [hsucc]
  grind

section

variable (hcopy : ∀ mem i, copy mem i = Vm.memmove mem (d + ofNat i * w) (s + ofNat i * w) w)

include hcopy

/-- **Copying upwards** moves everything at once, to lower addresses. -/
theorem forwards_eq (hlt : d < s) (hfit : s.toNat + n * w.toNat ≤ 2 ^ 32) :
    forwards copy n mem = Vm.memmove mem d s (ofNat n * w) := by
  induction n with
  | zero => simp [forwards, move_zero]
  | succ n ih =>
    rw [Nat.succ_mul] at hfit
    have hpos := lt_iff_toNat_lt.1 hlt
    have hmul : (ofNat n * w).toNat = n * w.toNat := toNat_ofNat_mul (by omega)
    rw [forwards, ih (by omega), hcopy, move_forwards hlt (by omega), ofNat_succ_mul]

/-- **Copying downwards** moves everything at once, to higher addresses. -/
theorem backwards_eq (hle : s ≤ d) (hfit : d.toNat + n * w.toNat ≤ 2 ^ 32)
    (hlen : n * w.toNat < 2 ^ 32) : backwards copy n mem = Vm.memmove mem d s (ofNat n * w) := by
  induction n generalizing mem with
  | zero => simp [backwards, move_zero]
  | succ n ih =>
    rw [Nat.succ_mul] at hfit hlen
    have hmul : (ofNat n * w).toNat = n * w.toNat := toNat_ofNat_mul (by omega)
    rw [backwards, ih (by omega) (by omega), hcopy,
      move_backwards hle (by omega) (by omega), ofNat_succ_mul]

end

/-- The whole words of an aligned copy. -/
theorem Aligned.len {dst src len : UInt32} (h : Aligned dst src len) :
    (len / sizeofLong).toNat * (4 : UInt32).toNat = len.toNat ∧
      ofNat (len / sizeofLong).toNat * 4 = len := by
  have hmod : len.toNat % 4 = 0 := congrArg toNat h.2.2
  have hdiv : (len / sizeofLong).toNat * (4 : UInt32).toNat = len.toNat :=
    Nat.div_mul_cancel (Nat.dvd_of_mod_eq_zero hmod)
  refine ⟨hdiv, UInt32.toNat_inj.1 ?_⟩
  rw [toNat_ofNat_mul (hdiv ▸ len.toNat_lt), hdiv]

/-- **`memmove` moves everything at once.** -/
theorem memmove_eq {dst src len : UInt32} (hd : dst.toNat + len.toNat ≤ 2 ^ 32)
    (hs : src.toNat + len.toNat ≤ 2 ^ 32) :
    memmove mem dst src len = (dst, Vm.memmove mem dst src len) := by
  have hlen := len.toNat_lt
  unfold memmove memcpy
  split_ifs with hlt ha ha
  · obtain ⟨hn, hw⟩ := ha.len
    rw [forwards_eq (fun _ => copyLong_eq) hlt (by omega), hw]
  · rw [forwards_eq (fun _ => copyChar_eq) hlt (by simpa using hs)]
    simp
  · obtain ⟨hn, hw⟩ := ha.len
    rw [backwards_eq (fun _ => copyLong_eq) (UInt32.not_lt.1 hlt) (by omega) (by omega), hw]
  · rw [backwards_eq (fun _ => copyChar_eq) (UInt32.not_lt.1 hlt) (by simpa using hd)
      (by simpa using hlen)]
    simp

/-- **`memmove` is safe for every overlap**: it returns `dst`, the destination holds what
the source held, and no other byte changes. -/
theorem memmove_overlap_safe (mem : Memory) (dst src len : UInt32)
    (hd : dst.toNat + len.toNat ≤ 2 ^ 32) (hs : src.toNat + len.toNat ≤ 2 ^ 32) :
    ∃ mem', memmove mem dst src len = (dst, mem') ∧
      (∀ i < len, mem' (dst + i) = mem (src + i)) ∧
      ∀ a, a.toNat < dst.toNat ∨ dst.toNat + len.toNat ≤ a.toNat → mem' a = mem a := by
  refine ⟨_, memmove_eq hd hs, fun i hi => ?_, fun a ha => ?_⟩
  · rw [move_at, if_pos hi]
  · exact Vm.memmove_of_not_mem mem hd ha

theorem memmove_two_up : ∃ mem', memmove (fun a => a.toUInt8) 0x1002 0x1000 8 = (0x1002, mem') ∧
    mem' 0x1009 = 7 ∧ mem' 0x1001 = 1 := by
  obtain ⟨mem', hrun, hin, hout⟩ := memmove_overlap_safe (fun a => a.toUInt8) 0x1002 0x1000 8
    (by decide) (by decide)
  exact ⟨mem', hrun, hin 7 (by decide), hout 0x1001 (by decide)⟩

end Libc

end Os161
