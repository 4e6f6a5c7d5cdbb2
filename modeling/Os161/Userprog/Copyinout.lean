import Os161.Userprog.Model.Copyinout
import Os161.Vm.AddrSpace
/-!
# Following a pointer

`Holds K b x Q` says that a piece of kernel code keeps the property `K` of the
machine, however it ends, if it is entered with `pcb_badfaultfunc` as `b` says,
and that what it returns meets `Q`. `Core` says which properties are proof
against everything that an access does besides being recorded and changing
memory; every function that follows a pointer then has one lemma, which asks
only that the accesses it makes may be recorded.
-/

namespace Os161

namespace Userprog

open Vm Prog UInt32

variable {env : Env} {K : Machine → Prop} {b : Bool} {α β : Type} {va : UInt32} {ty : FaultType}

/-- **`K` holds throughout**, in code that finds `pcb_badfaultfunc` as `b`
says and leaves it so. -/
def Holds (K : Machine → Prop) (b : Bool) (x : Kernel α) (Q : α → Prop) : Prop :=
  Prog.Keeps (fun m => K m ∧ m.badfaultfunc = b) K x Q

/-- What `K` must not depend on where memory is accessed. -/
structure Touching (env : Env) (K : Machine → Prop) : Prop where
  badfaultfunc : ∀ m b, K m → K { m with badfaultfunc := b }
  tick : ∀ m, K m → K (m.tick env)
  tlb : ∀ m ty va f tlb, K m → m.heap.touch m.vmspace m.tlb ty va = .loaded f tlb →
    K { m with tlb := tlb }

/-- What `K` must not depend on where memory is also allocated. -/
structure Core (env : Env) (K : Machine → Prop) : Prop extends Touching env K where
  ram : ∀ m r, K m → K { m with ram := r }

/-- An access to `va` may be recorded. -/
def Records (K : Machine → Prop) (b : Bool) (va : UInt32) : Prop :=
  ∀ m, K m → m.badfaultfunc = b → K (m.record va)

/-- The accesses of a protected copy may be recorded. -/
def Guarded (K : Machine → Prop) : Prop := ∀ va, va < userTop → Records K true va

/-- Memory may change. -/
def Writable (K : Machine → Prop) : Prop := ∀ m mem, K m → K { m with mem := mem }

/-- The TLB or `vm_fault` has led from `va` to `pa`. -/
def Reaches (K : Machine → Prop) (va pa : UInt32) : Prop :=
  ∃ m ty f tlb, K m ∧ m.heap.touch m.vmspace m.tlb ty va = .loaded f tlb ∧ pa = f + pageOffset va

namespace Holds

variable {x : Kernel α} {f : α → Kernel β} {Q R : α → Prop} {Q' : β → Prop}

theorem bind (hx : Holds K b x R) (hf : ∀ a, R a → Holds K b (f a) Q') :
    Holds K b (x >>= f) Q' :=
  Prog.Triple.bind hx hf

theorem pure {a : α} (ha : Q a) : Holds K b (pure a) Q := Prog.Keeps.pure ha

theorem mono (hx : Holds K b x Q) (hQ : ∀ a, Q a → R a) : Holds K b x R := Prog.Keeps.mono hx hQ

theorem fail (e : Errno) : Holds K b (fail e : Kernel α) Q := Prog.Keeps.fail e fun _ h => h.1

theorem halt : Holds K b (halt : Kernel α) Q := Prog.Keeps.halt fun _ h => h.1

theorem failIf (c : Prop) [Decidable c] (e : Errno) :
    Holds K b (failIf c e) (fun _ => ¬ c) :=
  Prog.Keeps.failIf e fun _ h => h.1

theorem assert (c : Prop) [Decidable c] : Holds K b (assert c) (fun _ => c) :=
  Prog.Keeps.assert fun _ h => h.1

theorem ofExcept (r : Except Errno α) : Holds K b (ofExcept r) (fun a => r = .ok a) :=
  Prog.Keeps.ofExcept r fun _ h => h.1

theorem ite {c : Prop} [Decidable c] {y : Kernel α} (hx : c → Holds K b x Q)
    (hy : ¬ c → Holds K b y Q) : Holds K b (if c then x else y) Q :=
  Prog.Keeps.ite hx hy

theorem get : Holds K b (get : Kernel Machine) (fun m => K m ∧ m.badfaultfunc = b) :=
  Prog.Keeps.get

theorem set {m : Machine} (hK : K m) (hb : m.badfaultfunc = b) :
    Holds K b (set m : Kernel PUnit) (fun _ => True) :=
  Prog.Keeps.set ⟨hK, hb⟩

theorem modify {g : Machine → Machine} (hK : ∀ m, K m → m.badfaultfunc = b → K (g m))
    (hb : ∀ m, (g m).badfaultfunc = m.badfaultfunc) :
    Holds K b (modify g : Kernel PUnit) (fun _ => True) :=
  Prog.Keeps.modify fun m h => ⟨hK m h.1 h.2, (hb m).trans h.2⟩

theorem mapError (g : Errno → Errno) (hx : Holds K b x Q) : Holds K b (mapError g x) Q :=
  Prog.Keeps.mapError g hx

/-- What holds of a run that returns. -/
theorem ok {m m' : Machine} {a : α} (hx : Holds K b x Q) (hK : K m) (hb : m.badfaultfunc = b)
    (hr : x m = .ok a m') : K m' ∧ m'.badfaultfunc = b ∧ Q a :=
  have h := Prog.Triple.ok hx ⟨hK, hb⟩ hr
  ⟨h.1.1, h.1.2, h.2⟩

/-- What holds of a run that ends otherwise. -/
theorem error {m m' : Machine} {e : Stop Errno} (hx : Holds K b x Q) (hK : K m)
    (hb : m.badfaultfunc = b) (hr : x m = .error e m') : K m' :=
  Prog.Triple.error hx ⟨hK, hb⟩ hr

end Holds

theorem holds_fatalFault {Q : α → Prop} : Holds K b fatalFault Q := by
  refine .bind .get fun m _ => .ite (fun _ => ?_) fun _ => .halt
  exact Prog.Keeps.longjmp fun _ h => h.1

/-- `copycheck` passes a range in user space that has not wrapped around. -/
theorem copycheck_ok {userptr len stoplen : UInt32} (h : copycheck userptr len = .ok stoplen) :
    userptr < userTop ∧ userptr.toNat + stoplen.toNat ≤ userTop.toNat := by
  have hp := userptr.toNat_lt
  have hl := len.toNat_lt
  unfold copycheck at h
  simp only at h
  split at h
  · cases h
  next hwrap =>
  split at h
  · cases h
  next hbot =>
  rw [ge_iff_le, UInt32.not_le] at hbot
  refine ⟨hbot, ?_⟩
  rw [lt_iff_toNat_lt] at hbot
  split at h
  · obtain rfl := Except.ok.inj h
    rw [UInt32.toNat_sub]
    omega
  next htopl =>
  obtain rfl := Except.ok.inj h
  rw [UInt32.lt_iff_toNat_lt, UInt32.toNat_sub, UInt32.toNat_add, UInt32.toNat_one] at hwrap
  rw [ge_iff_le, UInt32.le_iff_toNat_le, UInt32.toNat_sub, UInt32.toNat_add,
    toNat_one] at htopl
  omega

theorem toNat_succ_le (va : UInt32) : (va + 1).toNat ≤ va.toNat + 1 := by
  rw [UInt32.toNat_add, UInt32.toNat_one]
  omega

theorem Core.holds_kmalloc (h : Core env K) (sz : UInt32) :
    Holds K b (kmalloc env sz) (fun _ => True) :=
  .bind (.modify (fun m hK _ => h.tick m hK) fun _ => rfl) fun _ _ => .bind .get fun m hm =>
    .bind (.set (h.ram m _ hm.1) hm.2) fun _ _ => .pure trivial

namespace Touching

section

variable (h : Touching env K)

include h

/-- A user address, or one in `kseg2`, is translated; `kseg0` and `kseg1` are
not. -/
theorem holds_physicalAddress :
    Holds K b (physicalAddress ty va) (fun pa => va < userTop → Reaches K va pa) := by
  refine .ite (fun hseg => .pure fun hlt => ?_) fun _ => .ite (fun hseg => .pure fun hlt => ?_)
    fun _ => .bind .get fun m hm => ?_
  · exact absurd hseg.1 (UInt32.not_le.2 hlt)
  · exact absurd hseg.1 (UInt32.not_le.2 (UInt32.lt_trans hlt (by decide)))
  · cases ht : m.heap.touch m.vmspace m.tlb ty va with
    | loaded f tlb =>
      refine .bind (.set (h.tlb m ty va f tlb hm.1 ht) hm.2) fun _ _ => .pure fun _ => ?_
      exact ⟨m, ty, f, tlb, hm.1, ht, rfl⟩
    | fails e => exact holds_fatalFault
    | panics => exact .halt

theorem holds_access (hr : Records K b va) :
    Holds K b (access env ty va) (fun pa => va < userTop → Reaches K va pa) := by
  refine .bind (.modify (fun m hK _ => h.tick m hK) fun _ => rfl) fun _ _ =>
    .bind (.modify hr fun _ => rfl) fun _ _ =>
    .bind h.holds_physicalAddress fun pa hpa => .bind .get fun _ _ =>
    .bind (.assert _) fun _ _ => .pure hpa

theorem holds_loadByte (hr : Records K b va) :
    Holds K b (loadByte env va) (fun c => va < userTop →
      ∃ pa m, Reaches K va pa ∧ K m ∧ c = m.mem pa) :=
  .bind (h.holds_access hr) fun pa hpa => .bind .get fun m hm =>
    .pure fun hlt => ⟨pa, m, hpa hlt, hm.1, rfl⟩

theorem holds_storeByte (hw : Writable K) (hr : Records K b va) (c : UInt8) :
    Holds K b (storeByte env va c) (fun _ => True) :=
  .bind (h.holds_access hr) fun _ _ => .modify (fun m hK _ => hw m _ hK) fun _ => rfl

theorem holds_loadWord (hr : va % 4 = 0 → Records K b va) :
    Holds K b (loadWord env va) (fun w => va % 4 = 0 ∧ (va < userTop →
      ∃ pa m, Reaches K va pa ∧ K m ∧ w = m.word pa)) :=
  .ite (fun _ => holds_fatalFault) fun hal =>
    have hal := not_not.1 hal
    .bind (h.holds_access (hr hal)) fun pa hpa => .bind .get fun m hm =>
      .pure ⟨hal, fun hlt => ⟨pa, m, hpa hlt, hm.1, rfl⟩⟩

theorem holds_storeWord (hw : Writable K) (hr : Records K b va) (w : UInt32) :
    Holds K b (storeWord env va w) (fun _ => True) :=
  .ite (fun _ => holds_fatalFault) fun _ => .bind (h.holds_access hr) fun _ _ =>
    .modify (fun m hK _ => hw m _ hK) fun _ => rfl

end

/-! ## The protected copies -/

section

variable (h : Touching env K)

include h

/-- **Between the lines of the protocol `pcb_badfaultfunc` is set**, and
behind them it is not. -/
theorem holds_protect {copy : Kernel (Except Errno α)} {Q : α → Prop}
    (hc : Holds K true copy (fun r => ∀ a, r = .ok a → Q a)) : Holds K false (protect copy) Q := by
  refine Prog.Triple.bind (R := fun _ => True)
    (Prog.Triple.modify fun m hm => ⟨h.badfaultfunc m true hm.1, rfl⟩) fun _ _ =>
    Prog.Triple.setjmp (Prog.Triple.bind hc fun r hr => ?_) ?_
  · refine Prog.Triple.bind (R := fun _ => True) (J := fun m => K m ∧ m.badfaultfunc = false)
      (Prog.Triple.modify fun m hm => ⟨h.badfaultfunc m false hm.1, rfl⟩) fun _ _ => ?_
    exact (Holds.ofExcept r).mono hr
  · refine Prog.Triple.bind (R := fun _ => True) (J := fun m => K m ∧ m.badfaultfunc = false)
      (Prog.Triple.modify fun m hm => ⟨h.badfaultfunc m false hm, rfl⟩) fun _ _ => ?_
    exact Prog.Triple.fail Errno.EFAULT fun _ hm => hm.1

theorem holds_loadBytes {n : ℕ} (hr : Guarded K)
    (hn : va.toNat + n ≤ userTop.toNat) : Holds K true (loadBytes env n va) (fun _ => True) := by
  induction n generalizing va with
  | zero => exact .pure trivial
  | succ n ih =>
    have hlt : va < userTop := lt_iff_toNat_lt.2 (by omega)
    refine .bind (h.holds_loadByte (hr va hlt)) fun _ _ => .bind (ih ?_) fun _ _ => .pure trivial
    exact (Nat.add_le_add_right (toNat_succ_le va) n).trans (by omega)

theorem holds_storeBytes (hw : Writable K) (hr : Guarded K) {bs : List UInt8}
    (hn : va.toNat + bs.length ≤ userTop.toNat) :
    Holds K true (storeBytes env bs va) (fun _ => True) := by
  induction bs generalizing va with
  | nil => exact .pure trivial
  | cons c bs ih =>
    rw [List.length_cons] at hn
    have hlt : va < userTop := lt_iff_toNat_lt.2 (by omega)
    refine .bind (h.holds_storeByte hw (hr va hlt) c) fun _ _ => ih ?_
    exact (Nat.add_le_add_right (toNat_succ_le va) bs.length).trans (by omega)

theorem holds_copyin (hr : Guarded K) (usersrc len : UInt32) :
    Holds K false (copyin env usersrc len) (fun _ => True) := by
  refine .bind (.ofExcept _) fun stoplen hstop => .bind (.failIf _ _) fun _ hlen =>
    h.holds_protect (.bind (h.holds_loadBytes hr ?_) fun _ _ => .pure fun _ _ => trivial)
  rw [← not_not.1 hlen]
  exact (copycheck_ok hstop).2

theorem holds_copyout (hw : Writable K) (hr : Guarded K) {src : List UInt8}
    (userdest : UInt32) (hlen : src.length < 2 ^ 32) :
    Holds K false (copyout env src userdest) (fun _ => True) := by
  refine .bind (.ofExcept _) fun stoplen hstop => .bind (.failIf _ _) fun _ heq =>
    h.holds_protect (.bind (h.holds_storeBytes hw hr ?_) fun _ _ => .pure fun _ _ => trivial)
  have hend := (copycheck_ok hstop).2
  rw [not_not.1 heq, toNat_ofNat_of_lt' hlen] at hend
  exact hend

end

theorem holds_copystrFrom {src : UInt32 → Kernel UInt8} {dest : UInt32 → UInt8 → Kernel Unit}
    {e : Errno} {n : ℕ} {i : UInt32} (hn : i.toNat + n < 2 ^ 32)
    (hsrc : ∀ j, j.toNat < i.toNat + n → Holds K b (src j) (fun _ => True))
    (hdest : ∀ j c, j.toNat < i.toNat + n → Holds K b (dest j c) (fun _ => True)) :
    Holds K b (copystrFrom src dest e n i) (fun _ => True) := by
  induction n generalizing i with
  | zero => exact .pure trivial
  | succ n ih =>
    have hi : (i + 1).toNat = i.toNat + 1 := Prog.toNat_succ (by omega)
    refine .bind (hsrc i (by omega)) fun c _ => .bind (hdest i c (by omega)) fun _ _ =>
      .bind (hsrc i (by omega)) fun _ _ => .ite (fun _ => .pure trivial) fun _ => ?_
    exact .bind (ih (by omega) (fun j hj => hsrc j (by omega)) fun j c hj => hdest j c (by omega))
      fun _ _ => .pure trivial

/-- The addresses of a `copystr` are those that `copycheck` has passed. -/
theorem lt_userTop_of_copycheck {userptr len stoplen : UInt32}
    (hstop : copycheck userptr len = .ok stoplen) {j : UInt32}
    (hj : j.toNat < (0 : UInt32).toNat + min len.toNat stoplen.toNat) :
    (userptr + j).toNat = userptr.toNat + j.toNat ∧ userptr + j < userTop := by
  have hend := (copycheck_ok hstop).2
  have htop : userTop.toNat = 2 ^ 31 := rfl
  have hadd : (userptr + j).toNat = userptr.toNat + j.toNat := by
    rw [UInt32.toNat_add]
    rw [UInt32.toNat_zero] at hj
    omega
  refine ⟨hadd, lt_iff_toNat_lt.2 ?_⟩
  rw [UInt32.toNat_zero] at hj
  omega

theorem holds_copyinstr (h : Touching env K) (hr : Guarded K) (usersrc len : UInt32) :
    Holds K false (copyinstr env usersrc len) (fun _ => True) := by
  refine .bind (.ofExcept _) fun stoplen hstop => h.holds_protect ?_
  have hlen := len.toNat_lt
  refine (holds_copystrFrom (by rw [UInt32.toNat_zero]; omega) (fun j hj => ?_) fun _ _ _ =>
    .pure trivial).mono fun _ _ _ _ => trivial
  exact (h.holds_loadByte (hr _ (lt_userTop_of_copycheck hstop hj).2)).mono fun _ _ => trivial

theorem holds_copyoutstr (h : Touching env K) (hw : Writable K) (hr : Guarded K) (src : List UInt8)
    (userdest len : UInt32) :
    Holds K false (copyoutstr env src userdest len) (fun _ => True) := by
  refine .bind (.ofExcept _) fun stoplen hstop => h.holds_protect ?_
  have hlen := len.toNat_lt
  refine (holds_copystrFrom (by rw [UInt32.toNat_zero]; omega)
    (fun _ _ => .pure trivial) fun j c hj => ?_).mono fun _ _ _ _ => trivial
  exact h.holds_storeByte hw (hr _ (lt_userTop_of_copycheck hstop hj).2) c

end Touching

/-! ## The check of a range -/

section RangeCheck

variable {p len : UInt32}

/-- A range that lies in user space. -/
def InUser (p len : UInt32) : Prop := p < userTop ∧ p.toNat + len.toNat ≤ userTop.toNat

instance (p len : UInt32) : Decidable (InUser p len) := inferInstanceAs (Decidable (_ ∧ _))

/-- **`copycheck` of a range that is not empty**, in numbers. -/
theorem copycheck_of_pos (hlen : 0 < len.toNat) :
    copycheck p len = if p < userTop ∧ p.toNat + len.toNat ≤ 2 ^ 32 then
      .ok (if InUser p len then len else userTop - p) else .error .EFAULT := by
  have hp := p.toNat_lt
  have hl := len.toNat_lt
  have hlast : (p + len - 1).toNat = (p.toNat + len.toNat - 1) % 2 ^ 32 := by
    rw [UInt32.toNat_sub, UInt32.toNat_add, UInt32.toNat_one]
    omega
  have hwrap : p + len - 1 < p ↔ 2 ^ 32 < p.toNat + len.toNat := by
    rw [lt_iff_toNat_lt, hlast]
    omega
  unfold copycheck
  simp only [hwrap, ge_iff_le]
  by_cases hround : 2 ^ 32 < p.toNat + len.toNat
  · rw [if_pos hround, if_neg fun h => absurd h.2 (by omega)]
  rw [if_neg hround]
  by_cases hbot : userTop ≤ p
  · rw [if_pos hbot, if_neg fun h => absurd h.1 (UInt32.not_lt.2 hbot)]
  have hpasses : p < userTop ∧ p.toNat + len.toNat ≤ 2 ^ 32 := ⟨UInt32.not_le.1 hbot, by omega⟩
  have hend : userTop ≤ p + len - 1 ↔ ¬ InUser p len := by
    rw [le_iff_toNat_le, hlast]
    unfold InUser
    rw [and_iff_right hpasses.1]
    omega
  rw [if_neg hbot, if_pos hpasses]
  by_cases hin : InUser p len
  · rw [if_neg fun h => hend.1 h hin, if_pos hin]
  · rw [if_pos (hend.2 hin), if_neg hin]

/-- `copycheck` of an empty range: it never passes with its own length. -/
theorem copycheck_of_empty :
    copycheck p 0 = if p = 0 then .ok userTop else .error .EFAULT := by
  by_cases hp : p = 0
  · subst hp
    rfl
  · rw [if_neg hp]
    have hpos : 0 < p.toNat := Nat.pos_of_ne_zero fun h => hp (UInt32.toNat_inj.1 h)
    have hlt := p.toNat_lt
    refine if_pos (lt_iff_toNat_lt.2 ?_)
    rw [UInt32.toNat_sub, UInt32.toNat_add, UInt32.toNat_one, UInt32.toNat_zero]
    omega

/-- **The two tests of `copyin` and `copyout`** pass the ranges in user space that are not
empty. -/
theorem copycheck_eq_self : copycheck p len = .ok len ↔ InUser p len ∧ len ≠ 0 := by
  by_cases hlen : len = 0
  · subst hlen
    rw [copycheck_of_empty]
    refine ⟨fun h => ?_, fun h => absurd rfl h.2⟩
    split at h
    · exact absurd (Except.ok.inj h) (by decide)
    · cases h
  · have hpos : 0 < len.toNat := Nat.pos_of_ne_zero fun h => hlen (UInt32.toNat_inj.1 h)
    rw [copycheck_of_pos hpos, and_iff_left hlen]
    have htop : userTop.toNat = 2 ^ 31 := rfl
    by_cases hin : InUser p len
    · have hle := hin.2
      rw [if_pos ⟨hin.1, by omega⟩, if_pos hin]
      exact ⟨fun _ => hin, fun _ => rfl⟩
    · refine ⟨fun h => absurd h ?_, fun h => absurd h hin⟩
      split
      · rename_i hpasses
        intro heq
        have hsub : (userTop - p).toNat = userTop.toNat - p.toNat := by
          rw [UInt32.toNat_sub_of_le _ _ (UInt32.le_of_lt hpasses.1)]
        rw [Except.ok.inj heq] at hsub
        refine hin ⟨hpasses.1, ?_⟩
        have := lt_iff_toNat_lt.1 hpasses.1
        omega
      · nofun

/-- The one error of `copycheck`. -/
theorem copycheck_error {e : Errno} (h : copycheck p len = .error e) : e = .EFAULT := by
  unfold copycheck at h
  simp only at h
  split at h
  · exact (Except.error.inj h).symm
  · split at h
    · exact (Except.error.inj h).symm
    · split at h
      · cases h
      · cases h

/-- What `copyin` and `copyout` share: the range is tested, and then the copy is made. -/
theorem checked_eq {α : Type} (copy : Kernel α) (m : Machine) :
    (do
      let stoplen ← ofExcept (copycheck p len)
      failIf (stoplen ≠ len) .EFAULT
      copy : Kernel α) m =
        if InUser p len ∧ len ≠ 0 then copy m else .error (.error .EFAULT) m := by
  cases hc : copycheck p len with
  | error e =>
    have hne : ¬ copycheck p len = .ok len := by rw [hc]; nofun
    rw [if_neg fun h => hne (copycheck_eq_self.2 h)]
    obtain rfl := copycheck_error hc
    rfl
  | ok stop =>
    have hself : InUser p len ∧ len ≠ 0 ↔ stop = len := by
      rw [← copycheck_eq_self, hc]
      exact ⟨Except.ok.inj, congrArg Except.ok⟩
    have hcheck : (Prog.ofExcept (.ok stop) : Kernel UInt32) m = .ok stop m := rfl
    rw [bind_of_ok hcheck]
    by_cases heq : stop = len
    · rw [if_pos (hself.2 heq)]
      exact bind_of_ok (failIf_of_not Errno.EFAULT (not_not.2 heq))
    · rw [if_neg fun h => heq (hself.1 h)]
      exact bind_of_error (failIf_of Errno.EFAULT heq)

end RangeCheck

end Userprog

end Os161
