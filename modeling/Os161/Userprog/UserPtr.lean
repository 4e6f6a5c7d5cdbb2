import Os161.Userprog.Execv
/-!
# Pointers from user mode

`sys_waitpid` stores through its `status`, and `sys_execv` reads through
`program`, `args` and every `args[i]`, before or without a `copyin`. The test
they make first compares a pointer with three constants. This module says for
which pointers the calls are safe all the same (`pointers_safe_iff`): those
that lie in user memory as they should, and those that the three constants
catch.
-/

namespace Os161

namespace Userprog

open Vm Prog UInt32

variable {env : Env} {m₀ m m' : Machine} {as : AddrSpace} {K : Machine → Prop} {b : Bool}
  {α : Type} {va program args : UInt32} {s s' : List UInt8}

/-! ## Safe pointers -/

/-- An access below `USERTOP` to a mapped address, or one that `copyfail`
would catch. -/
def Access.Safe (a : Access) : Prop := a.addr < userTop ∧ (a.mapped = true ∨ a.guarded = true)

/-- Every access so far was safe. -/
def LogSafe (m : Machine) : Prop := ∀ a ∈ m.accesses, a.Safe

/-- The state in which a program ends, however it ends. -/
def endState (x : Kernel α) (m : Machine) : Machine :=
  match x m with
  | .ok _ m' => m'
  | .error _ m' => m'

/-- **A system call that follows pointers is safe**: it touches nothing at or
above `USERTOP` and nothing unmapped without protection, and a pointer that is
not valid gets `EFAULT` and leaves memory unchanged. -/
structure PointerSafe (valid : Prop) (x : Kernel α) (m : Machine) : Prop where
  accesses : LogSafe (endState x m)
  efault : ¬ valid → ∃ m', x m = .error (.error .EFAULT) m' ∧ m'.mem = m.mem

/-- The word at a user address, as `vm_fault` translates it. -/
def Machine.userWord (m : Machine) (va : UInt32) : Option UInt32 :=
  if va % 4 = 0 then (m.heap.space m.vmspace).bind fun as => (as.translate va).map m.word
  else none

/-- A pointer to an `int` of the user. -/
def UserInt (m : Machine) (p : UInt32) : Prop := p < userTop ∧ (m.userWord p).isSome

/-- A pointer to a string of the user. -/
def UserString (m : Machine) (p : UInt32) : Prop :=
  ∃ n : UInt32, p.toNat + n.toNat < userTop.toNat ∧ m.userByte (p + n) = some 0 ∧
    ∀ j, j < n → ∃ c, c ≠ 0 ∧ m.userByte (p + j) = some c

/-- A pointer to an array of `argc` pointers of the user and a null pointer. -/
def UserArray (m : Machine) (args argc : UInt32) : Prop :=
  (∀ i, i ≤ argc → args + 4 * i < userTop) ∧ m.userWord (args + 4 * argc) = some 0 ∧
    ∀ i, i < argc → ∃ w, w ≠ 0 ∧ m.userWord (args + 4 * i) = some w

/-- The pointers of a `sys_execv` are all valid. -/
def UserArgs (m : Machine) (program args : UInt32) : Prop :=
  UserString m program ∧ ∃ argc, UserArray m args argc ∧
    ∀ i, i < argc → ∀ w, m.userWord (args + 4 * i) = some w → UserString m w

/-- The machine when a system call begins: the caller has an address space,
the TLB belongs to it, and no copy is going on. -/
structure Caller (m : Machine) : Prop where
  space : ∃ as, m.heap.space m.vmspace = some as ∧ Coherent as m.tlb
  badfaultfunc : m.badfaultfunc = false
  accesses : m.accesses = []

/-! ## Strings -/

/-- **A string of the user**, with its end. -/
inductive StringAt (m : Machine) : UInt32 → List UInt8 → Prop where
  | last {va : UInt32} : va < userTop → m.userByte va = some 0 → StringAt m va [0]
  | more {va : UInt32} {c : UInt8} {s : List UInt8} : va < userTop → m.userByte va = some c →
      c ≠ 0 → StringAt m (va + 1) s → StringAt m va (c :: s)

namespace StringAt

theorem unique (h : StringAt m va s) (h' : StringAt m va s') : s' = s := by
  induction h generalizing s' with
  | last _ hzero =>
    cases h' with
    | last => rfl
    | more _ hc hne => exact absurd (Option.some.inj (hc.symm.trans hzero)) hne
  | more _ hc hne _ ih =>
    cases h' with
    | last _ hzero => exact absurd (Option.some.inj (hc.symm.trans hzero)) hne
    | more _ hc' _ hrest =>
      obtain rfl := Option.some.inj (hc.symm.trans hc')
      rw [ih hrest]

/-- A string lies below `USERTOP`. -/
theorem le_userTop (h : StringAt m va s) : va.toNat + s.length ≤ 2 ^ 31 := by
  have htop : userTop.toNat = 2 ^ 31 := rfl
  induction h with
  | last hlt =>
    rw [lt_iff_toNat_lt] at hlt
    show _ + 1 ≤ _
    omega
  | more hlt _ _ _ ih =>
    rw [lt_iff_toNat_lt] at hlt
    rw [UInt32.toNat_add, UInt32.toNat_one] at ih
    rw [List.length_cons]
    omega

/-- Its bytes, of which the last one is zero. -/
theorem byte (h : StringAt m va s) {k : ℕ} (hk : k + 1 ≤ s.length) :
    va + ofNat k < userTop ∧
      ∃ c, m.userByte (va + ofNat k) = some c ∧ (c = 0 ↔ k + 1 = s.length) := by
  induction h generalizing k with
  | last hlt hzero =>
    obtain rfl : k = 0 := by simpa using hk
    rw [show ofNat 0 = 0 from rfl, UInt32.add_zero]
    exact ⟨hlt, 0, hzero, by simp⟩
  | @more va c s hlt hc hne hrest ih =>
    rw [List.length_cons] at hk ⊢
    cases k with
    | zero =>
      have hpos : s ≠ [] := by
        rintro rfl
        cases hrest
      rw [show ofNat 0 = 0 from rfl, UInt32.add_zero]
      exact ⟨hlt, c, hc, by simp [hne, hpos]⟩
    | succ k =>
      have hnext : va + ofNat (k + 1) = va + 1 + ofNat k := by
        rw [Nat.add_comm, ofNat_add, UInt32.add_assoc]
        rfl
      rw [hnext]
      simpa using ih (k := k) (by omega)

/-- A pointer to it. -/
theorem userString (h : StringAt m va s) : UserString m va := by
  have htop : userTop.toNat = 2 ^ 31 := rfl
  have hle := h.le_userTop
  have hpos : 0 < s.length := by cases h <;> simp
  have hlast : (ofNat (s.length - 1)).toNat = s.length - 1 :=
    toNat_ofNat_of_lt' (show _ < 2 ^ 32 by omega)
  refine ⟨ofNat (s.length - 1), by omega, ?_, fun j hj => ?_⟩
  · obtain ⟨-, c, hc, hzero⟩ := h.byte (k := s.length - 1) (by omega)
    rwa [hzero.2 (by omega)] at hc
  · rw [lt_iff_toNat_lt, hlast] at hj
    obtain ⟨-, c, hc, hzero⟩ := h.byte (k := j.toNat) (by omega)
    rw [UInt32.ofNat_toNat] at hc
    exact ⟨c, mt hzero.1 (by omega), hc⟩

end StringAt

/-! ## What a load finds -/

/-- Memory as it was at the beginning, and a TLB that belongs to the caller's
address space. -/
def Following (m₀ : Machine) (as : AddrSpace) (m : Machine) : Prop :=
  SameMemory m₀ m ∧ Coherent as m.tlb

theorem coherent_nil : Coherent as [] := fun _ he => by cases he

theorem core_following (env : Env) (has : m₀.heap.space m₀.vmspace = some as) :
    Core env (Following m₀ as) where
  badfaultfunc _ _ h := h
  tick m h := by
    refine ⟨h.1, ?_⟩
    simp only [Machine.tick]
    split
    · exact coherent_nil
    · exact h.2
  tlb m ty va f tlb h ht := by
    refine ⟨h.1, (Heap.touch_loaded ?_ h.2 ht).2⟩
    rw [h.1.1, h.1.2.1]
    exact has
  ram _ _ h := h

/-- `strlen` has not seen the end of a string before its byte `n`. What it
reads at or above `USERTOP` is anybody's. -/
def NoEndBefore (m : Machine) (p n : UInt32) : Prop :=
  ∀ j, j < n → ∃ c, c ≠ 0 ∧ (p + j < userTop → m.userByte (p + j) = some c)

/-- What `strlen` has seen of a string of length `n`. -/
def StringRead (m : Machine) (p n : UInt32) : Prop :=
  (p + n < userTop → m.userByte (p + n) = some 0) ∧ NoEndBefore m p n

/-- What `strlen` reads of a string may be recorded. -/
def RecordsString (K : Machine → Prop) (m : Machine) (p : UInt32) : Prop :=
  ∀ j, NoEndBefore m p j → Records K false (p + j)

/-- The loop that counts the arguments has not seen a null pointer before the
argument `n`. -/
def NoNullBefore (m : Machine) (args n : UInt32) : Prop :=
  ∀ i, i < n → ∃ w, w ≠ 0 ∧ (args + 4 * i < userTop → m.userWord (args + 4 * i) = some w)

/-- What that loop has seen of an array of `argc` arguments. -/
def ArrayRead (m : Machine) (args argc : UInt32) : Prop :=
  (args + 4 * argc < userTop → m.userWord (args + 4 * argc) = some 0) ∧ NoNullBefore m args argc

section Following

variable (has : m₀.heap.space m₀.vmspace = some as) (hK : ∀ m, K m → Following m₀ as m)

include has hK

/-- **A user address leads to where `vm_fault` translates it.** -/
theorem translate_of_reaches {pa : UInt32} (h : Reaches K va pa) : as.translate va = some pa := by
  obtain ⟨m, ty, f, tlb, hm, ht, rfl⟩ := h
  obtain ⟨⟨hheap, hvm, -⟩, hc⟩ := hK m hm
  rw [hheap, hvm] at ht
  exact (Heap.touch_loaded has hc ht).1

theorem holds_loadByte (h : Touching env K) (hr : Records K b va) :
    Holds K b (loadByte env va) (fun c => va < userTop → m₀.userByte va = some c) := by
  refine (h.holds_loadByte hr).mono fun c hc hlt => ?_
  obtain ⟨pa, m, hpa, hm, rfl⟩ := hc hlt
  rw [Machine.userByte, has, Option.bind_some, translate_of_reaches has hK hpa, Option.map_some,
    (hK m hm).1.2.2]

variable {i : UInt32}

/-- **`copystr` finds the string of the user**, where it reads user memory. -/
theorem holds_copystrFrom_string {tooLong : Errno} {p : UInt32} {n : ℕ} (h : Touching env K)
    (hg : Guarded K) (hi : i.toNat + n < 2 ^ 32)
    (hlt : ∀ j : UInt32, j.toNat < i.toNat + n → p + j < userTop) :
    Holds K true (copystrFrom (fun i => loadByte env (p + i)) (fun _ _ => pure ()) tooLong n i)
      (fun r => ∀ s, r = .ok s → StringAt m₀ (p + i) s) := by
  induction n generalizing i with
  | zero => exact .pure (by nofun)
  | succ n ih =>
    have hsucc : (i + 1).toNat = i.toNat + 1 := Prog.toNat_succ (by omega)
    have hi' := hlt i (by omega)
    have hload := holds_loadByte has hK h (hg _ hi')
    refine .bind hload fun c hc => .bind (.pure (Q := fun _ => True) trivial) fun _ _ =>
      .bind hload fun c' hc' => ?_
    obtain rfl := Option.some.inj ((hc hi').symm.trans (hc' hi'))
    refine .ite (fun hz => .pure fun s hs => ?_) fun hne => ?_
    · obtain rfl := Except.ok.inj hs
      rw [hz] at hc ⊢
      exact .last hi' (hc hi')
    · refine .bind (ih (by omega) fun j hj => hlt j (by omega)) fun r hr => .pure fun s hs => ?_
      cases r with
      | error e => cases hs
      | ok s' =>
        obtain rfl := Except.ok.inj hs
        have hrest := hr s' rfl
        rw [← UInt32.add_assoc] at hrest
        exact .more hi' (hc hi') hne hrest

/-- **`copyinstr` returns the string of the user.** -/
theorem holds_copyinstr (h : Touching env K) (hg : Guarded K) (p len : UInt32) :
    Holds K false (copyinstr env p len) (StringAt m₀ p) := by
  refine .bind (.ofExcept _) fun stoplen hstop => h.holds_protect ?_
  have hlen := len.toNat_lt
  refine (holds_copystrFrom_string has hK h hg (by rw [UInt32.toNat_zero]; omega) fun j hj =>
    (Touching.lt_userTop_of_copycheck hstop hj).2).mono fun _ hs s he => ?_
  have := hs s he
  rwa [UInt32.add_zero] at this

theorem holds_argAt (h : Touching env K) (hr : Records K b (args + 4 * i)) :
    Holds K b (argAt env args i) (fun w => args + 4 * i < userTop →
      m₀.userWord (args + 4 * i) = some w) := by
  refine (h.holds_loadWord fun _ => hr).mono fun w hw hlt => ?_
  obtain ⟨pa, m, hpa, hm, rfl⟩ := hw.2 hlt
  rw [Machine.userWord, if_pos hw.1, has, Option.bind_some, translate_of_reaches has hK hpa,
    Option.map_some, Machine.word, Machine.word, (hK m hm).1.2.2]

theorem holds_strlen {p : UInt32} (h : Touching env K) (hr : RecordsString K m₀ p) :
    Holds K false (strlen env p) (StringRead m₀ p) :=
  holds_scanZero (by decide) fun j hprev => holds_loadByte has hK h (hr j hprev)

theorem holds_countArgs (h : Touching env K)
    (hr : ∀ i, NoNullBefore m₀ args i → Records K false (args + 4 * i)) :
    Holds K false (countArgs env args) (ArrayRead m₀ args) :=
  .bind (.failIf _ _) fun _ _ => .bind (.failIf _ _) fun _ _ => .bind (.failIf _ _)
    fun _ _ => holds_scanZero (by decide) fun i hprev => holds_argAt has hK h (hr i hprev)

section

variable (h : Core env K)

include h

/-- **A string that is copied in is a string of the user.** -/
theorem holds_copyString {n : UInt32} {str : Kernel UInt32} {Q : UInt32 → Prop}
    (hg : Guarded K) (hstr : Holds K false str Q) :
    Holds K false (copyString env n str) (fun _ => ∃ p, Q p ∧ UserString m₀ p) :=
  .bind (h.holds_kmalloc _) fun _ _ => .bind (.failIf _ _) fun _ _ => .bind hstr fun p hp =>
    ((holds_copyinstr has hK h.toTouching hg p (n + 1)).mapError _).mono fun _ hs =>
      ⟨p, hp, hs.userString⟩

/-- **The path.** -/
theorem holds_copyPath (hg : Guarded K) (hr : RecordsString K m₀ program) :
    Holds K false (copyPath env program) (fun _ => UserString m₀ program) := by
  refine .bind (.failIf _ _) fun _ _ => .bind (.failIf _ _) fun _ _ => .bind (.failIf _ _)
    fun _ _ => .bind (holds_strlen has hK h.toTouching hr) fun _ _ => .bind (.failIf _ _)
    fun _ _ => (holds_copyString has hK h hg (.pure (Q := fun p => p = program) rfl)).mono ?_
  rintro _ ⟨p, rfl, hp⟩
  exact hp

/-- **One argument**, which is read four times. -/
theorem holds_copyArg (hg : Guarded K) (hr : Records K false (args + 4 * i))
    (hrs : ∀ w, (args + 4 * i < userTop → m₀.userWord (args + 4 * i) = some w) →
      RecordsString K m₀ w) :
    Holds K false (copyArg env args i) (fun _ => args + 4 * i < userTop →
      ∃ w, m₀.userWord (args + 4 * i) = some w ∧ UserString m₀ w) := by
  have harg := holds_argAt has hK h.toTouching hr
  refine .bind harg fun _ _ => .bind (.failIf _ _) fun _ _ => .bind harg fun _ _ =>
    .bind (.failIf _ _) fun _ _ => .bind harg fun w hw =>
    .bind (holds_strlen has hK h.toTouching (hrs w hw)) fun _ _ =>
    (holds_copyString has hK h hg harg).mono ?_
  rintro _ ⟨p, hp, hs⟩ hlt
  exact ⟨p, hp hlt, hs⟩

theorem holds_copyArgsFrom {n : ℕ} (hg : Guarded K) (hi : i.toNat + n < 2 ^ 32)
    (hr : ∀ j : UInt32, j.toNat < i.toNat + n → Records K false (args + 4 * j))
    (hrs : ∀ j : UInt32, j.toNat < i.toNat + n → ∀ w, (args + 4 * j < userTop →
      m₀.userWord (args + 4 * j) = some w) → RecordsString K m₀ w) :
    Holds K false (copyArgsFrom env args n i) (fun _ => ∀ j : UInt32, i ≤ j →
      j.toNat < i.toNat + n → args + 4 * j < userTop →
        ∃ w, m₀.userWord (args + 4 * j) = some w ∧ UserString m₀ w) := by
  induction n generalizing i with
  | zero =>
    refine .pure fun j hij hj => ?_
    rw [le_iff_toNat_le] at hij
    omega
  | succ n ih =>
    have hsucc : (i + 1).toNat = i.toNat + 1 := by
      rw [UInt32.toNat_add, UInt32.toNat_one]
      omega
    refine .bind (holds_copyArg has hK h hg (hr i (by omega)) (hrs i (by omega))) fun _ harg =>
      .bind (ih (by omega) (fun j hj => hr j (by omega)) fun j hj => hrs j (by omega))
        fun _ hrest => .pure fun j hij hj hlt => ?_
    by_cases he : j = i
    · rw [he] at hlt ⊢
      exact harg hlt
    · refine hrest j ?_ (by omega) hlt
      rw [le_iff_toNat_le] at hij ⊢
      have : j.toNat ≠ i.toNat := fun h' => he (UInt32.toNat_inj.1 h')
      omega

end

end Following

/-! ## The log -/

/-- `va` has been touched. -/
def Touched (va : UInt32) (m : Machine) : Prop := ∃ a ∈ m.accesses, a.addr = va

theorem imageCore_touched (env : Env) (va : UInt32) : ImageCore env (Touched va) where
  badfaultfunc _ _ h := h
  tick _ h := h
  tlb _ _ _ _ _ h _ := h
  ram _ _ h := h
  writable _ _ h := h
  guarded _ _ _ h _ := let ⟨a, ha, he⟩ := h; ⟨a, List.mem_cons_of_mem _ ha, he⟩
  noSpace _ h := h
  activate _ h := h
  create _ _ _ h _ := h
  store _ _ _ h := h

theorem records_touched (b : Bool) (va va' : UInt32) : Records (Touched va) b va' :=
  fun _ h _ => let ⟨a, ha, he⟩ := h; ⟨a, List.mem_cons_of_mem _ ha, he⟩

theorem LogSafe.not_touched (h : LogSafe m) (hva : userTop ≤ va) : ¬ Touched va m := by
  rintro ⟨a, ha, rfl⟩
  exact absurd (h a ha).1 (UInt32.not_lt.2 hva)

/-- An access that has returned has been recorded. -/
theorem touched_of_access {ty : FaultType} {pa : UInt32} (h : access env ty va m = .ok pa m') :
    Touched va m' := by
  have hcore := (imageCore_touched env va).toCore
  have hacc : Prog.Triple (fun _ => True) (access env ty va) (fun _ => True)
      (Touched va) (fun _ => True) := by
    refine Prog.Triple.bind (Prog.Triple.modify (J := fun _ => True) fun _ _ => trivial)
      fun _ _ => Prog.Triple.bind (Prog.Triple.modify (J := Touched va)
        fun m _ => ⟨_, List.mem_cons_self, rfl⟩) fun _ _ => ?_
    intro m₁ hm₁
    have hrest : Holds (Touched va) m₁.badfaultfunc (do
        let pa ← physicalAddress ty va
        let m ← get
        assert (pa < m.ram.lastpaddr)
        pure pa) (fun _ => True) :=
      .bind hcore.holds_physicalAddress fun _ _ => .bind .get fun _ _ => .bind (.assert _)
        fun _ _ => .pure trivial
    have := hrest m₁ ⟨hm₁, rfl⟩
    revert this
    split
    · exact fun h => ⟨h.1.1, trivial⟩
    · exact fun _ => trivial
  exact (hacc.ok trivial h).1

/-- **A string is read to its end.** -/
theorem touched_of_strlen {p n j : UInt32} (h : strlen env p m = .ok n m') (hj : j ≤ n) :
    Touched (p + j) m' := by
  refine (scanFrom_leaves (M := fun i m => Touched (p + i) m) (fun i m c m' h => ?_)
    (fun i m c m' j h hj => ?_) (by decide) h).2 j (le_iff_toNat_le.2 (Nat.zero_le _)) hj
  · obtain ⟨pa, m₁, h1, h2⟩ := bind_eq_ok.1 h
    cases h2
    exact touched_of_access h1
  · exact ((imageCore_touched env (p + j)).toCore.holds_loadByte
      (records_touched _ _ _)).ok hj rfl h |>.1

/-- Memory and TLB as in `Following`, and a log that is safe so far. -/
def Quiet (m₀ : Machine) (as : AddrSpace) (m : Machine) : Prop := Following m₀ as m ∧ LogSafe m

theorem core_quiet (env : Env) (has : m₀.heap.space m₀.vmspace = some as) :
    Core env (Quiet m₀ as) :=
  have h := core_following env has
  { badfaultfunc := fun m b hm => ⟨h.badfaultfunc m b hm.1, hm.2⟩
    tick := fun m hm => ⟨h.tick m hm.1, hm.2⟩
    tlb := fun m ty va f tlb hm ht => ⟨h.tlb m ty va f tlb hm.1 ht, hm.2⟩
    ram := fun m r hm => ⟨h.ram m r hm.1, hm.2⟩ }

theorem guarded_quiet : Guarded (Quiet m₀ as) := fun _ hlt _ hm hb =>
  ⟨hm.1, List.forall_mem_cons.2 ⟨⟨hlt, .inr hb⟩, hm.2⟩⟩

/-- An access to a mapped address of the user is safe. -/
theorem records_quiet (hlt : va < userTop) (hmap : (m₀.userByte va).isSome) :
    Records (Quiet m₀ as) b va := by
  intro m hm _
  refine ⟨hm.1, List.forall_mem_cons.2 ⟨⟨hlt, .inl ?_⟩, hm.2⟩⟩
  rw [hm.1.1.userByte va]
  exact hmap

/-- Whether an address is mapped does not depend on what memory holds. -/
theorem isSome_userByte (m : Machine) (va : UInt32) : (m.userByte va).isSome =
    ((m.heap.space m.vmspace).bind fun as => as.translate va).isSome := by
  unfold Machine.userByte
  cases m.heap.space m.vmspace with
  | none => rfl
  | some as => exact Option.isSome_map

theorem isSome_userByte_of_userWord (h : (m.userWord va).isSome) : (m.userByte va).isSome := by
  unfold Machine.userWord at h
  split at h
  · rw [isSome_userByte, ← h]
    cases m.heap.space m.vmspace with
    | none => rfl
    | some as => exact Option.isSome_map.symm
  · cases h

/-- `strlen` does not go beyond the end of a string of the user. -/
theorem recordsString_quiet {p : UInt32} (h : UserString m₀ p) :
    RecordsString (Quiet m₀ as) m₀ p := by
  obtain ⟨n, hn, hend, hbefore⟩ := h
  have hadd : ∀ j, j ≤ n → (p + j).toNat = p.toNat + j.toNat := by
    intro j hj
    rw [le_iff_toNat_le] at hj
    have htop : userTop.toNat = 2 ^ 31 := rfl
    rw [UInt32.toNat_add]
    omega
  have hlt : ∀ j, j ≤ n → p + j < userTop := by
    intro j hj
    rw [lt_iff_toNat_lt, hadd j hj]
    rw [le_iff_toNat_le] at hj
    omega
  intro j hj
  have hjn : j ≤ n := by
    refine UInt32.not_lt.1 fun hnj => ?_
    obtain ⟨c, hc, hS⟩ := hj n hnj
    exact hc (Option.some.inj ((hS (hlt n (UInt32.le_refl n))).symm.trans hend))
  refine records_quiet (hlt j hjn) ?_
  by_cases hje : j = n
  · rw [hje, hend]
    rfl
  · have hjlt : j < n := UInt32.lt_of_le_of_ne hjn hje
    obtain ⟨c, -, hc⟩ := hbefore j hjlt
    rw [hc]
    rfl

namespace UserArray

variable {argc i : UInt32} (h : UserArray m₀ args argc)

include h

/-- The loop that counts the arguments does not go beyond the null pointer. -/
theorem le (hi : NoNullBefore m₀ args i) : i ≤ argc := by
  refine UInt32.not_lt.1 fun hlt => ?_
  obtain ⟨w, hw, hS⟩ := hi argc hlt
  exact hw (Option.some.inj ((hS (h.1 argc (UInt32.le_refl argc))).symm.trans h.2.1))

theorem eq_of_arrayRead (hr : ArrayRead m₀ args i) : i = argc := by
  by_contra hne
  have hlt : i < argc := UInt32.lt_of_le_of_ne (h.le hr.2) hne
  obtain ⟨w, hw, hi⟩ := h.2.2 i hlt
  exact hw (Option.some.inj (hi.symm.trans (hr.1 (h.1 i (UInt32.le_of_lt hlt)))))

theorem records (hi : i ≤ argc) : Records (Quiet m₀ as) b (args + 4 * i) := by
  refine records_quiet (h.1 i hi) (isSome_userByte_of_userWord ?_)
  by_cases he : i = argc
  · rw [he, h.2.1]
    rfl
  · obtain ⟨w, -, hw⟩ := h.2.2 i (UInt32.lt_of_le_of_ne hi he)
    rw [hw]
    rfl

end UserArray

/-! ## The errors of the tests -/

section Errors

open Prog

variable {p : Errno → Prop}

theorem errorsIn_fatalFault : ErrorsIn p (fatalFault : Kernel α) :=
  .bind .get fun _ => .ite (fun _ => .longjmp) fun _ => .halt

theorem errorsIn_access (ty : FaultType) (va : UInt32) : ErrorsIn p (access env ty va) := by
  have hphys : ErrorsIn p (physicalAddress ty va) := by
    refine .ite (fun _ => .pure _) fun _ => .ite (fun _ => .pure _) fun _ => .bind .get fun m => ?_
    cases m.heap.touch m.vmspace m.tlb ty va with
    | loaded f tlb => exact .bind (.set _) fun _ => .pure _
    | fails e => exact errorsIn_fatalFault
    | panics => exact .halt
  exact .bind (.modify _) fun _ => .bind (.modify _) fun _ => .bind hphys fun _ => .bind .get
    fun _ => .bind .assert fun _ => .pure _

theorem errorsIn_storeWord (va w : UInt32) : ErrorsIn p (storeWord env va w) :=
  .ite (fun _ => errorsIn_fatalFault) fun _ => .bind (errorsIn_access _ _) fun _ => .modify _

theorem errorsIn_strlen (str : UInt32) : ErrorsIn p (strlen env str) :=
  .scanFrom (fun _ => .bind (errorsIn_access _ _) fun _ => .bind .get fun _ => .pure _) _ _

theorem errorsIn_copyString (len : UInt32) {str : Kernel UInt32} (hp : p .ENOMEM)
    (hstr : ErrorsIn p str) : ErrorsIn p (copyString env len str) :=
  have hkmalloc : ErrorsIn p (kmalloc env (len + 1)) :=
    .bind (.modify _) fun _ => .bind .get fun _ => .bind (.set _) fun _ => .pure _
  .bind hkmalloc fun _ => .bind (.failIf fun _ => hp) fun _ => .bind hstr fun _ =>
    .mapError fun _ => hp

/-- **`EFAULT` comes from a test.** -/
theorem errorsIn_copyPath (program : UInt32) :
    ErrorsIn (fun e => e = .EFAULT → Tested program) (copyPath env program) :=
  .bind (.failIf fun h _ => .inl h) fun _ => .bind (.failIf fun h _ => .inr (.inl h)) fun _ =>
    .bind (.failIf fun h _ => .inr (.inr h)) fun _ => .bind (errorsIn_strlen _) fun _ =>
    .bind (.failIf fun _ he => by cases he) fun _ =>
    errorsIn_copyString _ (fun he => by cases he) (.pure _)

theorem copyPath_of_tested (h : Tested program) :
    copyPath env program m = .error (.error .EFAULT) m := by
  rcases h with rfl | rfl | rfl <;> rfl

end Errors

/-! ## The two system calls -/

theorem Holds.endState {x : Kernel α} {Q : α → Prop} (h : Holds K b x Q) (hK : K m)
    (hb : m.badfaultfunc = b) : K (endState x m) := by
  unfold Userprog.endState
  cases hr : x m with
  | ok a m' => exact (h.ok hK hb hr).1
  | error e m' => exact h.error hK hb hr

theorem endState_of_ok {β : Type} {x : Kernel α} {f : α → Kernel β} {a : α} (h : x m = .ok a m') :
    endState (x >>= f) m = endState (f a) m' := by
  rw [endState, endState, bind_of_ok h]

theorem endState_of_error {x : Kernel α} {e : Stop Errno} (h : x m = .error e m') :
    endState x m = m' := by
  rw [endState, h]

theorem imageCore_logSafe (env : Env) : ImageCore env LogSafe where
  badfaultfunc _ _ h := h
  tick _ h := h
  tlb _ _ _ _ _ h _ := h
  ram _ _ h := h
  writable _ _ h := h
  guarded _ hlt _ h hb := List.forall_mem_cons.2 ⟨⟨hlt, .inr hb⟩, h⟩
  noSpace _ h := h
  activate _ h := h
  create _ _ _ h _ := h
  store _ _ _ h := h

/-- The caller has nothing on record. -/
theorem Caller.quiet (h : Caller m) (hc : Coherent as m.tlb) : Quiet m as m :=
  ⟨⟨⟨rfl, rfl, rfl⟩, hc⟩, fun a ha => by rw [h.accesses] at ha; cases ha⟩

/-- **A call of `sys_execv` with valid pointers is safe.** -/
theorem logSafe_of_userArgs (hm : Caller m) (hv : UserArgs m program args) :
    LogSafe (endState (sysExecv env program args) m) := by
  obtain ⟨as, has, hc⟩ := hm.space
  obtain ⟨hprog, argc, harr, hstr⟩ := hv
  have hcore := core_quiet env has
  have hK : ∀ m', Quiet m as m' → Following m as m' := fun _ h => h.1
  have hcin : Holds (Quiet m as) false (copyInArgs env program args) (fun _ => True) := by
    refine .bind (holds_copyPath has hK hcore guarded_quiet (recordsString_quiet hprog))
      fun _ _ => .bind (holds_countArgs has hK hcore.toTouching fun i hi =>
        harr.records (harr.le hi)) fun n hn => ?_
    obtain rfl := harr.eq_of_arrayRead hn
    have hlt : ∀ j : UInt32, j.toNat < (0 : UInt32).toNat + n.toNat → j < n := fun j hj =>
      UInt32.lt_iff_toNat_lt.2 (by rw [UInt32.toNat_zero] at hj; omega)
    refine .bind (holds_copyArgsFrom has hK hcore guarded_quiet ?_
      (fun j hj => harr.records (UInt32.le_of_lt (hlt j hj))) fun j hj w hw => ?_)
      fun _ _ => .pure trivial
    · rw [UInt32.toNat_zero, Nat.zero_add]
      exact n.toNat_lt
    · exact recordsString_quiet (hstr j (hlt j hj) w (hw (harr.1 j (UInt32.le_of_lt (hlt j hj)))))
  have himg : ∀ r : List UInt8 × List (List UInt8),
      Holds LogSafe false (do asDestroyCur; execImage env r.1 r.2) (fun _ => True) :=
    fun r => .bind (.modify (fun _ h _ => h) fun _ => rfl) fun _ _ =>
      (imageCore_logSafe env).holds_execImage r.1 r.2
  cases hr : copyInArgs env program args m with
  | error e m₁ =>
    rw [sysExecv, endState, bind_of_error hr]
    exact (hcin.error (hm.quiet hc) hm.badfaultfunc hr).2
  | ok r m₁ =>
    obtain ⟨⟨-, hlog⟩, hb, -⟩ := hcin.ok (hm.quiet hc) hm.badfaultfunc hr
    have := (himg r).endState hlog hb
    rw [sysExecv, endState, bind_of_ok hr]
    exact this

/-! ### A kernel without memory -/

/-- The kernel has no small block left. -/
def noMemory : Env where
  switches := fun _ => false
  subpageKmalloc := fun _ r => (0, r)
  vfsOpen := fun _ => .error .ENOENT

/-- The machine with another amount of memory left. -/
def Machine.withFree (m : Machine) (firstpaddr : UInt32) : Machine :=
  { m with ram := { m.ram with firstpaddr } }

theorem Caller.withFree (h : Caller m) (firstpaddr : UInt32) : Caller (m.withFree firstpaddr) :=
  ⟨h.space, h.badfaultfunc, h.accesses⟩

/-- An access takes no memory. -/
theorem touching_ram (env : Env) (r : Ram) : Touching env (fun m => m.ram = r) where
  badfaultfunc _ _ h := h
  tick _ h := h
  tlb _ _ _ _ _ h _ := h

/-- With nothing left, `kmalloc` gives memory only where the number of bytes overflows. -/
theorem le_of_kmalloc_noMemory {sz block : UInt32} (hfull : m.ram.firstpaddr = m.ram.lastpaddr)
    (hlast : m.ram.lastpaddr.toNat ≤ 508 * 1024 * 1024)
    (h : kmalloc noMemory sz m = .ok block m') (hne : block ≠ 0) : 2 ^ 31 < sz.toNat := by
  obtain ⟨r, hr⟩ : ∃ r, m.ram = r := ⟨_, rfl⟩
  have hblock : block = (if sz ≥ largestSubpageSize then allocKpages r (kmallocNpages sz)
      else (0, r)).1 := by
    rw [← hr]
    cases h
    rfl
  rw [hr] at hfull hlast
  split at hblock
  swap
  · exact absurd hblock hne
  by_contra hle
  have hrefused : r.firstpaddr + kmallocNpages sz * pageSize > r.lastpaddr := by
    rename_i hge
    have hge : 2048 ≤ sz.toNat := hge
    have hpage : pageSize.toNat = 4096 := rfl
    rw [hfull, gt_iff_lt, UInt32.lt_iff_toNat_lt, kmallocNpages, UInt32.toNat_add,
      UInt32.toNat_mul, UInt32.toNat_div, UInt32.toNat_sub, UInt32.toNat_add, UInt32.toNat_one,
      hpage]
    omega
  refine hne (hblock.trans ?_)
  unfold allocKpages getppages ramStealmem
  rw [if_pos hrefused]
  rfl

/-- **Without memory no path is copied in** that lies below `USERTOP`. -/
theorem touched_of_copyPath_noMemory {path : List UInt8} (hb : m.badfaultfunc = false)
    (hfull : m.ram.firstpaddr = m.ram.lastpaddr)
    (hlast : m.ram.lastpaddr.toNat ≤ 508 * 1024 * 1024)
    (h : copyPath noMemory program m = .ok path m') : ∃ va, userTop ≤ va ∧ Touched va m' := by
  obtain ⟨n, m₁, hlen, -, hstr⟩ := copyPath_eq_ok h
  obtain ⟨hram, hb₁, -⟩ := ((touching_ram noMemory m.ram).holds_strlen
    (fun _ _ _ h _ => h) program).ok rfl hb hlen
  have hlong : 2 ^ 31 < (n + 1).toNat := by
    obtain ⟨block, m₂, hblock, hrest⟩ := bind_eq_ok.1 hstr
    obtain ⟨_, m₃, hfail, -⟩ := bind_eq_ok.1 hrest
    exact le_of_kmalloc_noMemory (by rw [hram]; exact hfull) (by rw [hram]; exact hlast) hblock
      (failIf_eq_ok.1 hfail).1
  -- so long a string does not end below `USERTOP`
  obtain ⟨j, hj, hva⟩ : ∃ j ≤ n, userTop ≤ program + j := by
    have htop : userTop.toNat = 2 ^ 31 := rfl
    have hsucc := toNat_succ_le n
    by_cases hlow : program < userTop
    · rw [lt_iff_toNat_lt] at hlow
      have hsub : (userTop - program).toNat = userTop.toNat - program.toNat :=
        UInt32.toNat_sub_of_le _ _ (le_iff_toNat_le.2 hlow.le)
      refine ⟨userTop - program, le_iff_toNat_le.2 (by omega), le_iff_toNat_le.2 ?_⟩
      rw [UInt32.toNat_add, hsub]
      omega
    · refine ⟨0, le_iff_toNat_le.2 (Nat.zero_le _), ?_⟩
      rw [UInt32.add_zero]
      exact UInt32.not_lt.1 hlow
  refine ⟨program + j, hva, ?_⟩
  exact (((imageCore_touched noMemory (program + j)).toCore.holds_copyString
    (fun b va => records_touched b _ va) n (.pure trivial)).ok
      (touched_of_strlen hlen hj) hb₁ hstr).1

/-- **`sys_execv`.** -/
theorem execv_safe_iff (program args : UInt32) (hm : Caller m)
    (hlast : m.ram.lastpaddr.toNat ≤ 508 * 1024 * 1024) :
    (∀ env firstpaddr, firstpaddr ≤ m.ram.lastpaddr → PointerSafe (UserArgs m program args)
      (sysExecv env program args) (m.withFree firstpaddr)) ↔
      UserArgs m program args ∨ Tested program := by
  constructor
  · intro hsafe
    by_cases hv : UserArgs m program args
    · exact .inl hv
    right
    have hs := hsafe noMemory m.ram.lastpaddr (UInt32.le_refl _)
    obtain ⟨m', hrun, -⟩ := hs.efault hv
    cases hpath : copyPath noMemory program (m.withFree m.ram.lastpaddr) with
    | error e m₁ =>
      rw [sysExecv, copyInArgs, bind_of_error (bind_of_error hpath)] at hrun
      cases hrun
      exact errorsIn_copyPath program _ _ m' hpath rfl
    | ok path m₁ =>
      -- the path was read at or above `USERTOP`, and that stays on record
      obtain ⟨va, hva, htouched⟩ :=
        touched_of_copyPath_noMemory (m := m.withFree m.ram.lastpaddr) hm.badfaultfunc rfl hlast
          hpath
      have hcore := imageCore_touched noMemory va
      have hrec := fun b va' => records_touched b va va'
      have hb₁ := (((core_sameMemory noMemory m).holds_copyPath (fun _ _ _ h _ => h) program).ok
        (m := m.withFree m.ram.lastpaddr) ⟨rfl, rfl, rfl⟩ hm.badfaultfunc hpath).2.1
      have hlog := hs.accesses
      rw [sysExecv, copyInArgs, bind_assoc, endState_of_ok hpath] at hlog
      refine (hlog.not_touched hva (Holds.endState (Q := fun _ => True) ?_ htouched hb₁)).elim
      exact .bind (R := fun _ => True) (.bind (hcore.toCore.holds_countArgs hrec args) fun _ _ =>
        .bind (hcore.toCore.holds_copyArgsFrom hrec args _ _) fun _ _ => .pure trivial)
        fun r _ => .bind (.modify (fun _ h _ => h) fun _ => rfl) fun _ _ =>
          hcore.holds_execImage r.1 r.2
  · rintro (hv | ht) env firstpaddr -
    · exact ⟨logSafe_of_userArgs (hm.withFree firstpaddr) hv, fun hnv => absurd hv hnv⟩
    · have hrun : sysExecv env program args (m.withFree firstpaddr) =
          .error (.error .EFAULT) (m.withFree firstpaddr) := by
        rw [sysExecv, copyInArgs, bind_of_error (bind_of_error (copyPath_of_tested ht))]
      refine ⟨?_, fun _ => ⟨_, hrun, rfl⟩⟩
      rw [endState_of_error hrun]
      intro a ha
      rw [(hm.withFree firstpaddr).accesses] at ha
      cases ha

/-- **`sys_waitpid`.** -/
theorem waitpid_safe_iff (env : Env) (waiting : Waiting) (pid : Int32) (status : UInt32)
    (options : Int32) (hm : Caller m) :
    PointerSafe (UserInt m status) (sysWaitpid env waiting pid status options) m ↔
      UserInt m status ∨ ¬ RefusedPid pid ∧ Tested status := by
  have hlog₀ : LogSafe m := fun a ha => by rw [hm.accesses] at ha; cases ha
  constructor
  · intro hs
    by_cases hv : UserInt m status
    · exact .inl hv
    right
    obtain ⟨m', hrun, -⟩ := hs.efault hv
    -- the only `EFAULT` of `sys_waitpid` is the one of the test
    rcases bind_eq_error.1 hrun with hpid | ⟨_, m₁, hpid, hrun⟩
    · exact absurd (Prog.ErrorsIn.failIf (p := fun e => e = .EINVAL) (fun _ => rfl) m _ m' hpid)
        (by decide)
    have hnot : ¬ RefusedPid pid := fun hp => by
      rw [failIf_of _ hp] at hpid
      cases hpid
    refine ⟨hnot, ?_⟩
    by_contra hst
    rcases bind_eq_error.1 hrun with hstat | ⟨_, m₂, -, hrun⟩
    · exact hst (Prog.ErrorsIn.failIf (p := fun _ => Tested status) (fun h => h) m₁ _ m' hstat)
    have hrest : Prog.ErrorsIn (fun e => e = .EINVAL) (do
        failIf (options ≠ 0) .EINVAL
        failIf (pid = waiting.self) .EINVAL
        waitFor env waiting pid status) := by
      refine .bind (.failIf fun _ => rfl) fun _ => .bind (.failIf fun _ => rfl) fun _ => ?_
      refine .ite (fun _ => .bind (errorsIn_storeWord _ _) fun _ => .pure _) fun _ =>
        .ite (fun _ => ?_) fun _ => .fail rfl
      cases waiting.woken with
      | none => exact .halt
      | some plist => exact .bind (errorsIn_storeWord _ _) fun _ => .pure _
    exact absurd (hrest m₂ _ m' hrun) (by decide)
  · rintro (hv | ⟨hpid, hst⟩)
    · refine ⟨?_, fun hnv => absurd hv hnv⟩
      let K : Machine → Prop := fun m' =>
        (m'.heap = m.heap ∧ m'.vmspace = m.vmspace) ∧ LogSafe m'
      have hcore : Core env K := ⟨⟨fun _ _ h => h, fun _ h => h, fun _ _ _ _ _ h _ => h⟩,
        fun _ _ h => h⟩
      have hrec : Records K false status := by
        intro m' hK _
        refine ⟨hK.1, List.forall_mem_cons.2 ⟨⟨hv.1, .inl ?_⟩, hK.2⟩⟩
        have hmap := isSome_userByte_of_userWord hv.2
        rwa [isSome_userByte, ← hK.1.1, ← hK.1.2, ← isSome_userByte] at hmap
      have hstore : ∀ w, Holds K false (storeWord env status w) (fun _ => True) :=
        hcore.holds_storeWord (fun _ _ h => h) hrec
      have hcall : Holds K false (sysWaitpid env waiting pid status options) (fun _ => True) := by
        refine .bind (.failIf _ _) fun _ _ => .bind (.failIf _ _) fun _ _ => .bind (.failIf _ _)
          fun _ _ => .bind (.failIf _ _) fun _ _ => ?_
        refine .ite (fun _ => .bind (hstore _) fun _ _ => .pure trivial) fun _ =>
          .ite (fun _ => ?_) fun _ => .fail _
        cases waiting.woken with
        | none => exact .halt
        | some plist => exact .bind (hstore _) fun _ _ => .pure trivial
      exact (hcall.endState ⟨⟨rfl, rfl⟩, hlog₀⟩ hm.badfaultfunc).2
    · have hrun : sysWaitpid env waiting pid status options m = .error (.error .EFAULT) m := by
        rw [sysWaitpid, bind_of_ok (failIf_of_not _ hpid),
          bind_of_error (failIf_of _ hst)]
      refine ⟨?_, fun _ => ⟨m, hrun, rfl⟩⟩
      rw [endState_of_error hrun]
      exact hlog₀

theorem caller_oneProgram : Caller oneProgram where
  space := ⟨oneSpace, by decide +kernel, coherent_nil⟩
  badfaultfunc := rfl
  accesses := rfl

/-- The string and the array at the beginning of the first region. -/
theorem userArgs_oneProgram : UserArgs oneProgram 0x400000 0x400004 := by
  have hzero : ∀ i : UInt32, ¬ i < 0 := fun i => by
    rw [lt_iff_toNat_lt, UInt32.toNat_zero]
    exact Nat.not_lt_zero _
  refine ⟨⟨1, by decide, by decide +kernel, fun j hj => ⟨0x78, by decide, ?_⟩⟩, 0,
    ⟨fun i hi => ?_, by decide +kernel, fun i hi => absurd hi (hzero i)⟩,
    fun i hi => absurd hi (hzero i)⟩
  · obtain rfl : j = 0 := by
      rw [lt_iff_toNat_lt, UInt32.toNat_one] at hj
      exact UInt32.toNat_inj.1 (by rw [UInt32.toNat_zero]; omega)
    decide +kernel
  · obtain rfl : i = 0 := UInt32.le_antisymm hi (le_iff_toNat_le.2 (Nat.zero_le _))
    decide

end Userprog

end Os161
