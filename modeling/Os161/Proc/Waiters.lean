import Os161.Proc.Lifetime
import Os161.Proc.Status
import Mathlib.Logic.Relation
/-!
# Waiters

An exit posts one unit, so of two waiters that have both seen a process running
only one is woken (`waiter_stranded`). With at most one such waiter for each
process, and no timer interrupt before it has found the semaphore, none is stranded
(`none_stranded`).

Nothing keeps two processes from waiting for each other (`waiting_cycle`). If
every process waits only for processes that are younger than itself, as its
children are, the processes that wait never form a cycle (`waiting_acyclic`).
-/

namespace Os161

namespace Proc

open Thread ProcSys Runs

variable {s s' : ProcSys} {t u q : ℕ} {e : Event} {pid : Int32}

/-! ## Waiting and having waited -/

/-- The pid that a thread has seen running and waits for. -/
def Pc.waitsFor : Pc → Option Int32
  | find pid | unlockRunning pid _ | loadWait pid _ | waitExit pid _ => some pid
  | _ => none

theorem Pc.holds_of_waitsFor {pc : Pc} (h : pc.waitsFor = some pid) : pc.holds = none := by
  cases pc <;> first | rfl | cases h

/-- **A unit is held by who held it or by who has just been woken.** -/
theorem holds_of_moves (h : Moves s e s') (hu : (s'.pc u).holds = some q) :
    (s.pc u).holds = some q ∨
      s.sys.curthread = some u ∧ ∃ pid, s.pc u = .waitExit pid q := by
  rcases pc_of_moves h u with heq | ⟨-, heq⟩ | ⟨p, p', hcur, hp, heq, hnext⟩ <;> rw [heq] at hu
  · exact .inl hu
  · cases hu
  · rw [hp]
    cases hnext with
    | wake =>
      cases hu
      exact .inr ⟨hcur, _, rfl⟩
    | readWoken => exact .inl hu
    | _ => cases hu

/-- **A thread waits that waited before or has just seen the process running.** -/
theorem waitsFor_of_moves (h : Moves s e s') (hu : (s'.pc u).waitsFor = some pid) :
    (s.pc u).waitsFor = some pid ∨
      e = .run ∧ s.sys.curthread = some u ∧ s.pc u = .test pid ∧
        getExited (Plist.nodes s.plist) pid = 0 := by
  rcases pc_of_moves h u with heq | ⟨-, heq⟩ | ⟨p, p', hcur, hp, heq, hnext⟩ <;> rw [heq] at hu
  · exact .inl hu
  · cases hu
  · rw [hp]
    cases hnext with
    | running h0 =>
      cases hu
      exact .inr ⟨rfl, hcur, rfl, h0⟩
    | unlockRunning | find | loadWait => exact .inl hu
    | _ => cases hu

/-! ## One waiter for each process -/

/-- The condition on a step: who sees a process running is the only one to wait
for it. -/
def waitsAlone (s : ProcSys) : Event → Bool
  | .run =>
    match s.sys.curthread.map s.pc with
    | some (.test pid) =>
      getExited (Plist.nodes s.plist) pid != 0 ||
        (List.range s.sys.created).all fun u => (s.pc u).waitsFor != some pid
    | _ => true
  | _ => true

/-- A process has at most one waiter, and nobody has been woken by its exit
while it has one. -/
structure Sole (s : ProcSys) : Prop where
  unique : ∀ t u pid, (s.pc t).waitsFor = some pid → (s.pc u).waitsFor = some pid → t = u
  unserved : ∀ t pid, (s.pc t).waitsFor = some pid →
    ∃ q < s.sys.created, s.pid q = pid ∧ q ∈ s.present ∧ ∀ u, (s.pc u).holds ≠ some q

theorem alone_of_guard (hinv : Inv s) (hg : waitsAlone s .run = true)
    (hcur : s.sys.curthread = some t) (hpc : s.pc t = .test pid)
    (h0 : getExited (Plist.nodes s.plist) pid = 0) (u : ℕ) : (s.pc u).waitsFor ≠ some pid := by
  intro hu
  have hlt : u < s.sys.created := by
    by_contra hge
    rw [(hinv.core.fresh u (Nat.le_of_not_lt hge)).1] at hu
    cases hu
  simp only [waitsAlone, hcur, Option.map_some, hpc, h0, bne_self_eq_false, Bool.false_or,
    List.all_eq_true, List.mem_range, bne_iff_ne] at hg
  exact hg u hlt hu

/-- **Every move keeps the waiters alone**, if the step meets the condition. -/
theorem sole_of_moves (hinv : Inv s) (h : Sole s) (hm : Moves s e s')
    (hg : waitsAlone s e = true) : Sole s' := by
  have hgrow := grows_of_moves hinv hm
  constructor
  · intro t u pid ht hu
    rcases waitsFor_of_moves hm ht with ht | ⟨rfl, hcur, hpc, h0⟩
    · rcases waitsFor_of_moves hm hu with hu | ⟨rfl, hcur, hpc, h0⟩
      · exact h.unique t u pid ht hu
      · exact absurd ht (alone_of_guard hinv hg hcur hpc h0 t)
    · rcases waitsFor_of_moves hm hu with hu | ⟨-, hcur', -, -⟩
      · exact absurd hu (alone_of_guard hinv hg hcur hpc h0 u)
      · exact Option.some.inj (hcur.symm.trans hcur')
  · intro t pid ht
    -- the process, and why neither a reaper nor another waiter gets at it
    have hold : ∃ q < s.sys.created, s.pid q = pid ∧ q ∈ s.present ∧
        (∀ u, (s.pc u).holds ≠ some q) ∧
        ∀ u pid', s.sys.curthread = some u → s.pc u = .waitExit pid' q → u = t := by
      rcases waitsFor_of_moves hm ht with hw | ⟨rfl, hcur, hpc, h0⟩
      · obtain ⟨q, hq, hpid, hp, hno⟩ := h.unserved t pid hw
        refine ⟨q, hq, hpid, hp, hno, fun u pid' _ hu => ?_⟩
        have hpid' := (hinv.core.target u pid' q (by rw [hu]; rfl)).2
        exact h.unique u t pid (by rw [hu, ← hpid, hpid']; rfl) hw
      · obtain ⟨q, hq, hpid, hp, hcode⟩ := hinv.core.running_of_getExited h0
        refine ⟨q, hq, hpid, hp, hinv.core.unit.not_held (hinv.core.not_posted_of_running hcode),
          fun u pid' hu _ => Option.some.inj (hu.symm.trans hcur)⟩
    obtain ⟨q, hq, hpid, hp, hno, hwaker⟩ := hold
    refine ⟨q, lt_of_lt_of_le hq hgrow.created, (hgrow.pid q hq).trans hpid, ?_, fun u hu => ?_⟩
    · rcases present_of_moves hinv hm hq hp with hp' | ⟨-, v, pid', st, -, hv⟩
      · exact hp'
      · exact absurd (by rw [hv]; rfl) (hno v)
    · rcases holds_of_moves hm hu with hu' | ⟨hcur, pid', hpc⟩
      · exact hno u hu'
      · -- the thread that was woken is `t` itself, which does not wait any more
        obtain rfl := hwaker u pid' hcur hpc
        rw [Pc.holds_of_waitsFor ht] at hu
        cases hu

theorem sole_boot : Sole boot where
  unique := fun _ _ _ ht => by cases ht
  unserved := fun _ _ ht => by cases ht

/-- Thread `t` is asleep on the `wait` of thread `q`, or about to sleep on it,
and `q` has posted its one unit already and it is gone. -/
def Stranded (s : ProcSys) (t q : Tid) : Prop :=
  (∃ pid, s.pc t = .waitExit pid q ∨ s.pc t = .loadWait pid (some q) ∨
    s.pc t = .unlockRunning pid (some q)) ∧ (s.pc q).posted ∧ s.count (.wait q) = 0

/-- **No waiter is stranded**, in every run in which a thread that sees a process
running is the only one to wait for it, and no timer interrupt comes in before it has
loaded `pid_thread->wait`, or inside a function on the process list. -/
theorem none_stranded (s : ProcSys)
    (h : Runs.Reachable ProcSys.turn
      (Turn.Meets True fun s e => waitsAlone s e = true ∧ sparesWindow s e = true) boot s)
    (t q : Tid) : ¬ Stranded s t q := by
  rw [reachable_untorn_iff fun _ _ hg => hg.2] at h
  have hboth := h.invariant (I := fun s => Inv s ∧ Sole s)
    ⟨inv_boot, sole_boot⟩ fun s e s' hI hg hstep => ⟨hI.1.moves (moves_of_step hstep),
      sole_of_moves hI.1 hI.2 (moves_of_step hstep) hg.1⟩
  obtain ⟨hinv, hsole⟩ := hboth
  rintro ⟨⟨pid, hpc⟩, hpost, hzero⟩
  have hwaits : (s.pc t).waitsFor = some pid ∧ (s.pc t).target = some (pid, q) := by
    rcases hpc with hpc | hpc | hpc <;> rw [hpc] <;> exact ⟨rfl, rfl⟩
  obtain ⟨hq, hpid⟩ := hinv.core.target t pid q hwaits.2
  obtain ⟨q', hq', hpid', hp, hno⟩ := hsole.unserved t pid hwaits.1
  obtain rfl := hinv.core.pid_inj hq hq' (hpid.trans hpid'.symm)
  have hone := hinv.core.unit.kept q hq hpost hp hno
  rw [hzero] at hone
  cases hone

/-- Thread 1 waits for thread 3, which exits; thread 1 is woken. -/
theorem none_stranded_first_exit :
    ∃ s, Runs.exec ProcSys.step boot
        (family ++ waitCall 4 6 ++ [.switchTo] ++ next ++ exitCall 7) = some s ∧
      s.pc 1 = .waitExit 4 3 ∧ (s.pc 3).posted ∧ ¬ Stranded s 1 3 := by
  obtain ⟨s, hs, hp⟩ := exists_of_exec
    (guarded step fun s e => waitsAlone s e = true ∧ sparesWindow s e = true) boot
    (family ++ waitCall 4 6 ++ [.switchTo] ++ next ++ exitCall 7)
    (fun s => s.pc 1 = .waitExit 4 3 ∧ (s.pc 3).posted) (by decide +kernel)
  obtain ⟨hr, hs'⟩ := reachable_of_exec_guarded hs
  exact ⟨s, hs', hp.1, hp.2,
    none_stranded s ((reachable_untorn_iff fun _ _ hg => hg.2).2 hr) 1 3⟩

/-- Threads 1 and 2 both wait for thread 3, which exits. Thread 1 takes the
unit, and thread 2 goes back to sleep. -/
def twoWaiters : List Event :=
  family ++ waitCall 4 6 ++ [.switchTo] ++ waitCall 4 6 ++ [.switchTo] ++ exitCall 7 ++
    [.switchTo] ++ next ++ [.run] ++ next ++ [.run]

/-- **The second waiter is stranded.** It is asleep, and the process it waits
for is gone. -/
theorem waiter_stranded :
    ∃ s, Runs.exec ProcSys.step boot twoWaiters = some s ∧ Stranded s 2 3 ∧
      2 ∈ s.sys.sleepers.toList ∧ s.sys.sleepaddr 2 = some (.wait 3) ∧ 3 ∉ s.sys.live := by
  obtain ⟨s, hs, hpc, hpost, hzero, hsleep, haddr, hgone⟩ := exists_of_exec step boot twoWaiters
    (fun s => s.pc 2 = .waitExit 4 3 ∧ (s.pc 3).posted ∧ s.count (.wait 3) = 0 ∧
      2 ∈ s.sys.sleepers.toList ∧ s.sys.sleepaddr 2 = some (.wait 3) ∧
      3 ∉ s.sys.live) (by decide +kernel)
  exact ⟨s, hs, ⟨⟨4, .inl hpc⟩, hpost, hzero⟩, hsleep, haddr, hgone⟩

/-! ## Cycles -/

/-- The pid that a thread in `sys_waitpid` was called with. -/
def Pc.arg : Pc → Option Int32
  | takeLock pid | test pid | readExited pid | unlockExited pid _ | find pid => some pid
  | unlockRunning pid _ | loadWait pid _ | waitExit pid _ => some pid
  | readWoken pid _ | reap pid _ _ => some pid
  | _ => none

/-- Thread `p` is blocked in `sys_waitpid` on thread `q`: it sleeps on the
`wait` of `q`. -/
def BlockedOn (s : ProcSys) (p q : Tid) : Prop :=
  (∃ pid, s.pc p = .waitExit pid q) ∧ p ∈ s.sys.sleepers.toList ∧
    s.sys.sleepaddr p = some (.wait q)

/-- The condition on a step: `waitpid` is called for a process that is younger
than the caller. -/
def waitsForYounger (s : ProcSys) : Event → Bool
  | .waitpid pid _ _ => s.sys.curthread.all fun t => decide (s.pid t < pid)
  | _ => true

/-- A thread is in a call for a pid that it was called with. -/
theorem arg_of_moves (h : Moves s e s') (hu : (s'.pc u).arg = some pid) :
    (s.pc u).arg = some pid ∨
      s.sys.curthread = some u ∧ ∃ status options, e = .waitpid pid status options := by
  rcases pc_of_moves h u with heq | ⟨-, heq⟩ | ⟨p, p', hcur, hp, heq, hnext⟩ <;> rw [heq] at hu
  · exact .inl hu
  · cases hu
  · rw [hp]
    cases hnext with
    | begin =>
      cases hu
      exact .inr ⟨hcur, _, _, rfl⟩
    | _ => first | exact .inl hu | cases hu

/-- **Every call is for a younger process**, if the calls were made so. -/
theorem younger_of_moves (hinv : Inv s)
    (h : ∀ t pid, (s.pc t).arg = some pid → (s.pid t).toInt < pid.toInt) (hm : Moves s e s')
    (hg : waitsForYounger s e = true) (t : ℕ) (pid : Int32) (ht : (s'.pc t).arg = some pid) :
    (s'.pid t).toInt < pid.toInt := by
  rcases arg_of_moves hm ht with hold | ⟨hcur, status, options, rfl⟩
  · have hlt : t < s.sys.created := by
      by_contra hge
      rw [(hinv.core.fresh t (Nat.le_of_not_lt hge)).1] at hold
      cases hold
    rw [(grows_of_moves hinv hm).pid t hlt]
    exact h t pid hold
  · rw [(grows_of_moves hinv hm).pid t (hinv.lt_created hcur)]
    rw [waitsForYounger, hcur, Option.all_some, decide_eq_true_eq] at hg
    exact Int32.lt_iff_toInt_lt.1 hg

/-- **Waiting never forms a cycle**, in every run in which `waitpid` is only
called for processes that are younger than the caller. -/
theorem waiting_acyclic (s : ProcSys)
    (h : Runs.Reachable ProcSys.step (fun s e => waitsForYounger s e = true) boot s) (p : Tid) :
    ¬ Relation.TransGen (BlockedOn s) p p := by
  have hboth := h.invariant
    (I := fun s => Inv s ∧ ∀ t pid, (s.pc t).arg = some pid → (s.pid t).toInt < pid.toInt)
    ⟨inv_boot, fun _ _ ht => by cases ht⟩ fun s e s' hI hg hstep =>
      ⟨hI.1.moves (moves_of_step hstep), younger_of_moves hI.1 hI.2 (moves_of_step hstep) hg⟩
  obtain ⟨hinv, hyounger⟩ := hboth
  -- along the relation the pids increase
  have hstep : ∀ p q, BlockedOn s p q → (s.pid p).toInt < (s.pid q).toInt := by
    rintro p q ⟨⟨pid, hpc⟩, -, -⟩
    rw [(hinv.core.target p pid q (by rw [hpc]; rfl)).2]
    exact hyounger p pid (by rw [hpc]; rfl)
  have htrans : ∀ q, Relation.TransGen (BlockedOn s) p q → (s.pid p).toInt < (s.pid q).toInt := by
    intro q hpq
    induction hpq with
    | single hq => exact hstep _ _ hq
    | tail _ hq ih => exact lt_trans ih (hstep _ _ hq)
  exact fun hcycle => lt_irrefl _ (htrans p hcycle)

/-- Thread 1 waits for thread 3, which is younger. -/
theorem waiting_acyclic_one_waiter :
    ∃ s, Runs.exec ProcSys.step boot (family ++ waitCall 4 6) = some s ∧ BlockedOn s 1 3 ∧
      ¬ Relation.TransGen (BlockedOn s) 1 1 := by
  obtain ⟨s, hs, hp⟩ := exists_of_exec
    (guarded step fun s e => waitsForYounger s e = true) boot (family ++ waitCall 4 6)
    (fun s => s.pc 1 = .waitExit 4 3 ∧ 1 ∈ s.sys.sleepers.toList ∧
      s.sys.sleepaddr 1 = some (.wait 3)) (by decide +kernel)
  obtain ⟨hr, hs'⟩ := reachable_of_exec_guarded hs
  exact ⟨s, hs', ⟨⟨4, hp.1⟩, hp.2.1, hp.2.2⟩, waiting_acyclic s hr 1⟩

/-- **Two processes can wait for each other**: thread 1 for thread 2, and thread
2 for thread 1. -/
theorem waiting_cycle :
    ∃ s, Runs.exec ProcSys.step boot (family ++ waitCall 3 6 ++ [.switchTo] ++ waitCall 2 6) =
        some s ∧ BlockedOn s 1 2 ∧ BlockedOn s 2 1 := by
  obtain ⟨s, hs, h1, h2, h3, h4, h5, h6⟩ := exists_of_exec step boot
    (family ++ waitCall 3 6 ++ [.switchTo] ++ waitCall 2 6)
    (fun s => s.pc 1 = .waitExit 3 2 ∧ 1 ∈ s.sys.sleepers.toList ∧
      s.sys.sleepaddr 1 = some (.wait 2) ∧ s.pc 2 = .waitExit 2 1 ∧
      2 ∈ s.sys.sleepers.toList ∧ s.sys.sleepaddr 2 = some (.wait 1))
    (by decide +kernel)
  exact ⟨s, hs, ⟨⟨3, h1⟩, h2, h3⟩, ⟨⟨2, h4⟩, h5, h6⟩⟩

end Proc

end Os161
