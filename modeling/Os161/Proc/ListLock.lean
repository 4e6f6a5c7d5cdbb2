import Os161.Proc.Inv
import Mathlib.Algebra.BigOperators.Group.Finset.Piecewise
/-!
# The semaphore of the process list

`sys_waitpid` takes `lock` and gives it back, while every `thread_exit` gives a
unit that it never took. So the count and the number of threads inside add up
to the number of exits (`count_add_inside`), and `lock` is a mutex until the
second exit.
-/

namespace Os161

namespace Proc

open Thread Function ProcSys

variable {s s' : ProcSys} {t : ℕ} {e : Event}

/-! ## Counting places -/

/-- How many of the first `n` values of `f` satisfy `p`. -/
def tally {α : Type} (p : α → Bool) (f : ℕ → α) (n : ℕ) : ℕ :=
  ((Finset.range n).filter fun t => p (f t)).card

theorem tally_eq_sum {α : Type} (p : α → Bool) (f : ℕ → α) (n : ℕ) :
    tally p f n = ∑ t ∈ Finset.range n, (p (f t)).toNat := by
  rw [tally, Finset.card_filter]
  refine Finset.sum_congr rfl fun t _ => ?_
  cases p (f t) <;> rfl

/-- Changing one value changes the tally by that value. -/
theorem tally_update {α : Type} (p : α → Bool) (f : ℕ → α) {n t : ℕ} (ht : t < n) (x : α) :
    tally p (update f t x) n + (p (f t)).toNat = tally p f n + (p x).toNat := by
  have hmem : t ∈ Finset.range n := Finset.mem_range.2 ht
  have hrest : ∑ u ∈ (Finset.range n).erase t, (p (update f t x u)).toNat =
      ∑ u ∈ (Finset.range n).erase t, (p (f u)).toNat := by
    refine Finset.sum_congr rfl fun u hu => ?_
    rw [update_of_ne (Finset.ne_of_mem_erase hu)]
  rw [tally_eq_sum, tally_eq_sum, ← Finset.add_sum_erase _ _ hmem, ← Finset.add_sum_erase _ _ hmem,
    hrest, update_self]
  omega

/-- One more value is counted. -/
theorem tally_succ {α : Type} (p : α → Bool) (f : ℕ → α) (n : ℕ) (x : α) :
    tally p (update f n x) (n + 1) = tally p f n + (p x).toNat := by
  rw [tally_eq_sum, tally_eq_sum, Finset.sum_range_succ, update_self]
  congr 1
  refine Finset.sum_congr rfl fun t ht => ?_
  rw [update_of_ne (Nat.ne_of_lt (Finset.mem_range.1 ht))]

/-! ## Inside -/

/-- Between `P(lock)` and the matching `V(lock)` of `sys_waitpid`. -/
def Pc.inside : Pc → Bool
  | test _ | readExited _ | unlockExited _ _ | find _ | unlockRunning _ _ | unlockMissing => true
  | _ => false

/-- The number of threads inside. -/
def ProcSys.inside (s : ProcSys) : ℕ := tally Pc.inside s.pc s.sys.created

theorem update_wait_lock (count : Sem → ℕ) (q : Tid) (n : ℕ) :
    update count (.wait q) n .lock = count .lock :=
  update_of_ne (by simp) n count

/-- Thread `t` goes from one place to another, and the count and the exits
change by as much. -/
theorem sum_goto {old pc : Pc} (hsum : s.count .lock + s.inside = s.exits)
    (ht : t < s.sys.created) (hpc : s.pc t = old) (hpc' : s'.pc = update s.pc t pc)
    (hsys : s'.sys.created = s.sys.created)
    (hlock : s'.count .lock + pc.inside.toNat + s.exits =
      s.count .lock + old.inside.toNat + s'.exits) :
    s'.count .lock + s'.inside = s'.exits := by
  have htally := tally_update Pc.inside s.pc ht pc
  rw [hpc] at htally
  unfold inside at hsum ⊢
  rw [hpc', hsys]
  omega

/-- Nothing happens at the lock. -/
theorem sum_goto_same {old pc : Pc} (hsum : s.count .lock + s.inside = s.exits)
    (ht : t < s.sys.created) (hpc : s.pc t = old) (hpc' : s'.pc = update s.pc t pc)
    (hinside : pc.inside = old.inside) (hsys : s'.sys.created = s.sys.created)
    (hcount : s'.count .lock = s.count .lock) (hexits : s'.exits = s.exits) :
    s'.count .lock + s'.inside = s'.exits :=
  sum_goto hsum ht hpc hpc' hsys (by rw [hinside, hcount, hexits])

/-- **What a move does to the sum.** -/
theorem sum_of_moves (hinv : Inv s) (h : Moves s e s')
    (hsum : s.count .lock + s.inside = s.exits) : s'.count .lock + s'.inside = s'.exits := by
  cases h with
  | timer hoff hstop hz | sleep hcur hpc hcount hstop hz | leave hcur hpc hstop hz =>
    show _ + tally _ _ _ = _
    rw [hstop.created]
    exact hsum
  | switchTo hs =>
    show _ + tally _ _ _ = _
    rw [created_switchTo hs]
    exact hsum
  | fork hcur hpc hmax hf =>
    simp only [inside]
    rw [created_threadFork hf, tally_succ, update_wait_lock]
    exact hsum
  | refuse hcur hpc | begin hcur hpc | exit hcur hpc | finish hcur hpc | readExited hcur hpc
  | find hcur hpc | loadWait hcur hpc | readWoken hcur hpc | reap hcur hpc | markExited hcur hpc =>
    exact sum_goto_same hsum (hinv.lt_created hcur) hpc rfl rfl rfl rfl rfl
  | takeLock hcur hpc hcount hsame =>
    refine sum_goto hsum (hinv.lt_created hcur) hpc rfl hsame.created ?_
    show s.count .lock - 1 + 1 + s.exits = s.count .lock + 0 + s.exits
    omega
  | test hcur hpc =>
    rcases s.afterTest_cases _ with ⟨-, heq⟩ | ⟨-, heq⟩ | heq <;> rw [heq] <;>
      exact sum_goto_same hsum (hinv.lt_created hcur) hpc rfl rfl rfl rfl rfl
  | unlock hcur hpc hnext hsame =>
    rcases hnext with ⟨pid, st, rfl, rfl⟩ | ⟨pid, q, rfl, rfl⟩ | ⟨rfl, rfl⟩ <;>
      refine sum_goto hsum (hinv.lt_created hcur) hpc rfl hsame.created ?_ <;>
      exact rfl
  | wake hcur hpc hcount hsame | postWait hcur hpc hsame =>
    refine sum_goto_same hsum (hinv.lt_created hcur) hpc rfl rfl hsame.created ?_ rfl
    simp only [goto, update_wait_lock]
  | postLock hcur hpc hsame =>
    refine sum_goto hsum (hinv.lt_created hcur) hpc rfl hsame.created ?_
    show s.count .lock + 1 + 0 + s.exits = s.count .lock + 0 + (s.exits + 1)
    omega

/-- **The count and the threads inside add up to the exits.** -/
theorem count_add_inside {G : ProcSys → Event → Prop}
    (h : Runs.Reachable step G boot s) : s.count .lock + s.inside = s.exits := by
  have hboth := h.invariant (I := fun s => Inv s ∧ s.count .lock + s.inside = s.exits)
    ⟨inv_boot, by decide +kernel⟩ fun s e s' hI _ hstep =>
      ⟨hI.1.moves (moves_of_step hstep), sum_of_moves hI.1 (moves_of_step hstep) hI.2⟩
  exact hboth.2

/-- **When `lock` is a mutex.** In every state reached from the boot, the count
of `lock` and the number of threads inside the section of `sys_waitpid` add up
to at most one if at most one thread has come through the `V(lock)` of
`thread_exit` so far, and only then. -/
theorem lock_mutex_iff (s : ProcSys)
    (h : Runs.Reachable ProcSys.step (Runs.Free ProcSys Event) boot s) :
    s.count .lock + s.inside ≤ 1 ↔ s.exits ≤ 1 := by
  rw [count_add_inside h]

/-- The first child of the boot thread exits, and the second calls `waitpid`
for the boot thread and is inside. -/
def oneExit : List Event :=
  [.fork, .fork, .timer, .switchTo] ++ exitCall 0 ++ [.switchTo] ++ waitCall 1 1

theorem lock_mutex_oneExit :
    ∃ s, Runs.exec ProcSys.step boot oneExit = some s ∧ s.inside = 1 ∧
      s.count .lock + s.inside ≤ 1 := by
  obtain ⟨s, hs, hp⟩ := Runs.exists_of_exec step boot oneExit
    (fun s => s.inside = 1 ∧ s.exits = 1) (by decide +kernel)
  refine ⟨s, hs, hp.1, (lock_mutex_iff s (Runs.reachable_of_exec hs)).2 ?_⟩
  rw [hp.2]

/-- Two of the four children of the boot thread exit. Then the other two call
`waitpid` for the boot thread, and a timer interrupt comes between. -/
def twoExits : List Event :=
  [.fork, .fork, .fork, .fork, .timer, .switchTo] ++ exitCall 0 ++ [.switchTo] ++ exitCall 0 ++
    [.switchTo] ++ waitCall 1 1 ++ next ++ waitCall 1 1

/-- **After two exits `lock` lets two threads in.** -/
theorem lock_not_mutex :
    ∃ s, Runs.exec ProcSys.step boot twoExits = some s ∧ s.pc 3 = .test 1 ∧ s.pc 4 = .test 1 ∧
      s.inside = 2 := by
  obtain ⟨s, hs, hp⟩ := Runs.exists_of_exec step boot twoExits
    (fun s => s.pc 3 = .test 1 ∧ s.pc 4 = .test 1 ∧ s.inside = 2) (by decide +kernel)
  exact ⟨s, hs, hp.1, hp.2.1, hp.2.2⟩

end Proc

end Os161
