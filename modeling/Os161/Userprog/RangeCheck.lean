import Os161.Userprog.UserPtr
/-!
# The check of a range

`copycheck` takes the last byte of a range to be `bot + len - 1`. For a range that is
not empty its comparisons say what they should. The empty range has no last byte: its
`top` is the byte before it, so that the range seems to have wrapped around, and at
address 0 it seems to be the whole address space (`copycheck_exact_iff`).
-/

namespace Os161

namespace Userprog

open Vm Prog

variable {env : Env} {m : Machine} {p len stop : UInt32}

/-- `copycheck` passes the range if it begins in user space and does not go round, with
the part of it that lies in user space. -/
def ChecksExactly (p len : UInt32) : Prop :=
  ((∃ stop, copycheck p len = .ok stop) ↔ p < userTop ∧ p.toNat + len.toNat ≤ 2 ^ 32) ∧
    ∀ stop, copycheck p len = .ok stop → stop.toNat = min len.toNat (userTop.toNat - p.toNat)

/-- A copy has touched nothing at or above `USERTOP`. -/
def TouchesUser {α : Type} (x : Kernel α) (m : Machine) : Prop :=
  ∀ a ∈ (endState x m).accesses, a ∈ m.accesses ∨ a.addr < userTop

/-- **The law of the range check**: `copycheck` is exact, and `copyin` and `copyout` make
the copy of exactly the ranges in user space, and never touch anything above it. -/
structure RangeLaw (env : Env) (m : Machine) (p len : UInt32) : Prop where
  check : ChecksExactly p len
  copyin : copyin env p len m =
    if InUser p len then protect (do
      let bytes ← loadBytes env len.toNat p
      pure (.ok bytes)) m
    else .error (.error .EFAULT) m
  copyout : ∀ src, src.length = len.toNat → copyout env src p m =
    if InUser p len then protect (do
      storeBytes env src p
      pure (.ok ())) m
    else .error (.error .EFAULT) m
  copyin_touches : TouchesUser (Userprog.copyin env p len) m
  copyout_touches : ∀ src, src.length = len.toNat → TouchesUser (Userprog.copyout env src p) m

/-! ## The comparisons -/

/-- **`copycheck` is exact**, but for the empty range. -/
theorem checksExactly_iff : ChecksExactly p len ↔ ¬ (len = 0 ∧ p < userTop) := by
  have hp := p.toNat_lt
  by_cases hlen : len = 0
  · subst hlen
    rw [and_iff_right rfl]
    unfold ChecksExactly
    rw [copycheck_of_empty]
    by_cases hzero : p = 0
    · subst hzero
      refine ⟨fun h => absurd (h.2 userTop rfl) (by decide), fun h => absurd ?_ h⟩
      decide
    · rw [if_neg hzero]
      have hnone : ¬ ∃ stop : UInt32, (Except.error .EFAULT : Except Errno UInt32) = .ok stop :=
        nofun
      refine ⟨fun h hlt => hnone (h.1.2 ⟨hlt, ?_⟩), fun h => ⟨?_, nofun⟩⟩
      · rw [UInt32.toNat_zero]
        omega
      · exact ⟨fun hs => absurd hs hnone, fun hs => absurd hs.1 h⟩
  · have hpos : 0 < len.toNat := Nat.pos_of_ne_zero fun h => hlen (UInt32.toNat_inj.1 h)
    refine ⟨fun _ h => hlen h.1, fun _ => ?_⟩
    unfold ChecksExactly
    rw [copycheck_of_pos hpos]
    by_cases hpasses : p < userTop ∧ p.toNat + len.toNat ≤ 2 ^ 32
    · rw [if_pos hpasses]
      refine ⟨⟨fun _ => hpasses, fun _ => ⟨_, rfl⟩⟩, fun stop hstop => ?_⟩
      have hlt := UInt32.lt_iff_toNat_lt.1 hpasses.1
      rw [← Except.ok.inj hstop]
      by_cases hin : InUser p len
      · have hle := hin.2
        rw [if_pos hin]
        omega
      · have hgt : ¬ p.toNat + len.toNat ≤ userTop.toNat := fun h => hin ⟨hpasses.1, h⟩
        rw [if_neg hin, UInt32.toNat_sub_of_le _ _ (UInt32.le_of_lt hpasses.1)]
        omega
    · rw [if_neg hpasses]
      exact ⟨⟨nofun, fun h => absurd h hpasses⟩, nofun⟩

/-! ## The copies -/

theorem copyin_eq : copyin env p len m = if InUser p len ∧ len ≠ 0 then protect (do
      let bytes ← loadBytes env len.toNat p
      pure (.ok bytes)) m
    else .error (.error .EFAULT) m :=
  checked_eq _ m

theorem copyout_eq {src : List UInt8} (hsrc : src.length = len.toNat) :
    copyout env src p m = if InUser p len ∧ len ≠ 0 then protect (do
      storeBytes env src p
      pure (.ok ())) m
    else .error (.error .EFAULT) m := by
  have hlen : UInt32.ofNat src.length = len := by rw [hsrc, UInt32.ofNat_toNat]
  rw [← hlen]
  exact checked_eq _ m

/-- What `copyin` and `copyout` may touch, from `m` on. -/
def UserOnly (m m' : Machine) : Prop := ∀ a ∈ m'.accesses, a ∈ m.accesses ∨ a.addr < userTop

theorem core_userOnly (env : Env) (m : Machine) : Core env (UserOnly m) where
  badfaultfunc _ _ h := h
  tick _ h := h
  tlb _ _ _ _ _ h _ := h
  ram _ _ h := h

theorem guarded_userOnly (m : Machine) : Guarded (UserOnly m) := fun va hlt m' h _ a ha => by
  rcases List.mem_cons.1 ha with rfl | ha
  · exact .inr hlt
  · exact h a ha

/-- **A checked copy touches user space alone**, whatever `pcb_badfaultfunc` was before: a
copy that is made sets it first. -/
theorem touchesUser_of_holds {α : Type} {x : Kernel α} {copy : Kernel (Except Errno α)}
    (hx : ∀ m, x m = if InUser p len ∧ len ≠ 0 then protect copy m else .error (.error .EFAULT) m)
    (hholds : ∀ m, Holds (UserOnly m) false x fun _ => True) : TouchesUser x m := by
  by_cases hin : InUser p len ∧ len ≠ 0
  · have hset : x m = x { m with badfaultfunc := false } := by
      rw [hx m, hx, if_pos hin, if_pos hin]
      rfl
    have hend : endState x m = endState x { m with badfaultfunc := false } := by
      unfold endState
      rw [hset]
    unfold TouchesUser
    rw [hend]
    exact (hholds m).endState (m := { m with badfaultfunc := false }) (fun a ha => .inl ha) rfl
  · have hend : endState x m = m := by
      unfold endState
      rw [hx m, if_neg hin]
    intro a ha
    rw [hend] at ha
    exact .inl ha

/-- **The range check is exact but for the empty range**, which it refuses wherever it lies
in user space. -/
theorem copycheck_exact_iff (env : Env) (m : Machine) (p len : UInt32) :
    RangeLaw env m p len ↔ ¬ (len = 0 ∧ p < userTop) := by
  refine ⟨fun h => checksExactly_iff.1 h.check, fun h => ?_⟩
  have hiff : InUser p len ∧ len ≠ 0 ↔ InUser p len :=
    ⟨And.left, fun hin => ⟨hin, fun hlen => h ⟨hlen, hin.1⟩⟩⟩
  refine ⟨checksExactly_iff.2 h, ?_, fun src hsrc => ?_, ?_, fun src hsrc => ?_⟩
  · rw [copyin_eq]
    simp only [hiff]
  · rw [copyout_eq hsrc]
    simp only [hiff]
  · exact touchesUser_of_holds (fun _ => copyin_eq) fun m =>
      (core_userOnly env m).holds_copyin (guarded_userOnly m) p len
  · have hlen : src.length < 2 ^ 32 := hsrc ▸ len.toNat_lt
    exact touchesUser_of_holds (fun _ => copyout_eq hsrc) fun m =>
      (core_userOnly env m).holds_copyout (fun _ _ h => h) (guarded_userOnly m) p hlen

/-- The empty range at address 1 is refused: its last byte would be the byte before it. -/
theorem copycheck_refuses_empty : copycheck 1 0 = .error .EFAULT ∧ InUser 1 0 := by
  decide

end Userprog

end Os161
