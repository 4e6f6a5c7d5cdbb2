import Os161.Proc.Status
/-!
# Reaping

A `sys_waitpid` that returns 0 has found the process exited, or has slept until
it did. The first way leaves the node in the list and the second deletes it, so
how often a process can be waited for depends on who came first
(`reaping_differs`). Where no call finds its process exited, the exit is consumed
by one call, and every later one returns `EINVAL` (`reaped_once`).
-/

namespace Os161

namespace Proc

open Thread Runs ProcSys Plist Option

variable {s s' : ProcSys} {t : Tid} {e : Event} {pid : Int32}

/-! ## Counting the calls that return 0 -/

/-- A call of `sys_waitpid` for this pid returns 0 in the step. -/
def ProcSys.returnsZero (s : ProcSys) : Turn → Option Int32
  | .whole .run => s.sys.curthread.bind fun t =>
    match s.pc t with
    | .unlockExited pid _ | .reap pid _ _ => some pid
    | _ => none
  | _ => none

/-- The system with a history: how many calls for each pid have returned 0. -/
structure Counted where
  sys : ProcSys
  waits : Int32 → ℕ

namespace Counted

def step (c : Counted) (e : Turn) : Option Counted :=
  (c.sys.turn e).map fun sys =>
    { sys, waits := fun pid => c.waits pid + if c.sys.returnsZero e = some pid then 1 else 0 }

def boot : Counted where
  sys := Proc.boot
  waits := fun _ => 0

end Counted

/-! ## No call finds its process exited -/

/-- The condition on a step: `get_exited` does not give 1 to `sys_waitpid`. -/
def findsRunning (s : ProcSys) : Event → Bool
  | .run =>
    match s.sys.curthread.map s.pc with
    | some (.test pid) => getExited (Plist.nodes s.plist) pid != 1
    | _ => true
  | _ => true

/-- In `sys_waitpid`, behind `get_exited(pid) == 1`. -/
def Pc.foundExited : Pc → Bool
  | readExited _ | unlockExited _ _ => true
  | _ => false

theorem foundExited_of_moves (h : Moves s e s') (hg : findsRunning s e = true)
    (hno : ∀ u, (s.pc u).foundExited = false) (u : ℕ) : (s'.pc u).foundExited = false := by
  rcases pc_of_moves h u with heq | ⟨-, heq⟩ | ⟨p, p', hcur, hp, heq, hnext⟩ <;> rw [heq]
  · exact hno u
  · rfl
  · have hold : p.foundExited = false := hp ▸ hno u
    cases hnext with
    | exited h1 =>
      rw [findsRunning, hcur, map_some, hp] at hg
      simp only [h1, bne_self_eq_false, Bool.false_eq_true] at hg
    | readExited => cases hold
    | _ => rfl

/-- The list gets no other pid than the next one. -/
theorem mem_pids_of_moves (h : Moves s e s') (hpid : pid ∈ pids s'.plist) :
    pid ∈ pids s.plist ∨ pid = s.maxPid := by
  cases h with
  | fork hcur hpc hmax hf =>
    have hmem : pid ∈ pids (insertToPlist s.plist s.sys.created s.maxPid) := hpid
    rw [pids_insertToPlist] at hmem
    exact (List.mem_append.1 hmem).imp_right List.mem_singleton.1
  | @exit t last code off hcur hpc =>
    have hmem : pid ∈ pids (setExcode s.plist (s.pid t) code) := hpid
    rw [pids_setExcode] at hmem
    exact .inl hmem
  | @markExited t hcur hpc =>
    have hmem : pid ∈ pids (setExited s.plist (s.pid t)) := hpid
    rw [pids_setExited] at hmem
    exact .inl hmem
  | @reap t pid' q st hcur hpc =>
    have hmem : pid ∈ pids (delete s.plist pid') := hpid
    rw [pids_delete] at hmem
    exact .inl (List.mem_of_mem_erase hmem)
  | _ => exact .inl hpid

/-- **The invariant**: a process that has been waited for is not in the list any more. -/
structure Reaped (c : Counted) : Prop where
  inv : Inv c.sys
  running : ∀ t, (c.sys.pc t).foundExited = false
  once : ∀ pid, c.waits pid ≤ 1
  gone : ∀ pid, c.waits pid ≠ 0 →
    pid ∉ pids c.sys.plist ∧ ∃ q < c.sys.sys.created, c.sys.pid q = pid

/-- A process that is gone does not come back. -/
theorem gone_of_moves (hinv : Inv s) (h : Moves s e s')
    (hgone : pid ∉ pids s.plist ∧ ∃ q < s.sys.created, s.pid q = pid) :
    pid ∉ pids s'.plist ∧ ∃ q < s'.sys.created, s'.pid q = pid := by
  obtain ⟨hout, q, hq, hpid⟩ := hgone
  have hgrow := grows_of_moves hinv h
  refine ⟨fun hin => ?_, q, lt_of_lt_of_le hq hgrow.created, (hgrow.pid q hq).trans hpid⟩
  rcases mem_pids_of_moves h hin with hin | hnext
  · exact hout hin
  · have h1 := hinv.core.pid q hq
    have h2 := hinv.core.maxPid
    rw [hpid, hnext] at h1
    omega

/-- A call that returns 0 has slept, and is about to delete the node. -/
theorem Reaped.reaps {c : Counted} (h : Reaped c)
    (hret : c.sys.returnsZero (.whole e) = some pid) :
    e = .run ∧ ∃ t q st, c.sys.sys.curthread = some t ∧ c.sys.pc t = .reap pid q st := by
  cases e with
  | run =>
    obtain ⟨t, hcur, hat⟩ := bind_eq_some_iff.1 hret
    refine ⟨rfl, t, ?_⟩
    split at hat
    · rename_i pid' st hpc
      have hno := h.running t
      rw [hpc] at hno
      cases hno
    · rename_i pid' q st hpc
      cases hat
      exact ⟨q, st, hcur, hpc⟩
    · cases hat
  | _ => cases hret

/-- **It is the first call to return 0**, and takes the process off the list. -/
theorem Reaped.first {c : Counted} (h : Reaped c) (hs : c.sys.step e = some s')
    (hret : c.sys.returnsZero (.whole e) = some pid) :
    c.waits pid = 0 ∧ pid ∉ pids s'.plist ∧ ∃ q < s'.sys.created, s'.pid q = pid := by
  obtain ⟨rfl, t, q, st, hcur, hpc⟩ := h.reaps hret
  obtain ⟨hq, hpid⟩ := h.inv.core.target t pid q (by rw [hpc]; rfl)
  obtain ⟨-, -, hp, -⟩ := h.inv.core.unit.held t q (by rw [hpc]; rfl)
  rw [mem_present, hpid, find_isSome_iff] at hp
  have hzero : c.waits pid = 0 := by
    by_contra hne
    exact (h.gone pid hne).1 hp
  rw [ProcSys.step, hcur, bind_some, hpc] at hs
  obtain rfl := some.inj hs
  refine ⟨hzero, ?_, q, hq, hpid⟩
  rw [goto_plist, ← find_eq_none_iff]
  exact find_delete_self h.inv.core.nodup

/-- **Every step keeps the invariant**, if it meets the condition. -/
theorem reaped_of_step {c c' : Counted} {e : Turn} (h : Reaped c)
    (hg : Turn.Meets False (fun s e => findsRunning s e = true) c.sys e)
    (hstep : c.step e = some c') : Reaped c' := by
  obtain ⟨s', hs', rfl⟩ := map_eq_some_iff.1 hstep
  cases e with
  | torn _ | stray _ => exact hg.elim
  | whole e =>
    have hm := moves_of_step hs'
    refine ⟨h.inv.moves hm, foundExited_of_moves hm hg h.running, fun pid => ?_, fun pid hne => ?_⟩
    · show c.waits pid + (if _ then 1 else 0) ≤ 1
      split
      · next hret => rw [(h.first hs' hret).1]
      · exact h.once pid
    · by_cases hret : c.sys.returnsZero (.whole e) = some pid
      · exact (h.first hs' hret).2
      · simp only [if_neg hret, Nat.add_zero] at hne
        exact gone_of_moves h.inv hm (h.gone pid hne)

theorem reaped_boot : Reaped Counted.boot where
  inv := inv_boot
  running := fun _ => rfl
  once := fun _ => Nat.zero_le 1
  gone := fun _ hne => absurd rfl hne

instance (strays : Prop) [Decidable strays] (G : ProcSys → Event → Prop)
    [∀ s, DecidablePred (G s)] (s : ProcSys) : DecidablePred (Turn.Meets strays G s)
  | .whole e => inferInstanceAs (Decidable (G s e))
  | .torn _ => .isFalse id
  | .stray _ => inferInstanceAs (Decidable strays)

/-- **When reaping does not depend on timing.** In every run in which no call of
`sys_waitpid` finds its process exited, and nothing is torn and nothing strays, at most one
call for a pid has returned 0; once one has, the pid is not in the list, and whoever
calls `sys_waitpid` for it again gets `EINVAL`. -/
theorem reaped_once (c : Counted)
    (h : Runs.Reachable Counted.step
      (fun c => Turn.Meets False (fun s e => findsRunning s e = true) c.sys) Counted.boot c)
    (pid : Int32) :
    c.waits pid ≤ 1 ∧ (c.waits pid = 1 →
      pid ∉ Plist.pids c.sys.plist ∧ c.sys.afterTest pid = .unlockMissing) := by
  have hreaped := h.invariant reaped_boot fun c e c' hI hg hs => reaped_of_step hI hg hs
  refine ⟨hreaped.once pid, fun hone => ?_⟩
  have hout : pid ∉ pids c.sys.plist := (hreaped.gone pid (by omega)).1
  refine ⟨hout, ?_⟩
  rw [afterTest, getExited_nodes, find_eq_none_iff.2 hout]
  rfl

/-- Thread 1 waits for thread 3, which then exits with 7. -/
def waitThenExit : List Event :=
  family ++ waitCall 4 6 ++ [.switchTo] ++ next ++ exitCall 7 ++ [.switchTo] ++ next ++ next ++
    [.run, .run, .run]

theorem reaped_once_waitThenExit :
    ∃ c, Runs.exec Counted.step Counted.boot (waitThenExit.map .whole) = some c ∧
      c.waits 4 = 1 ∧ 4 ∉ Plist.pids c.sys.plist ∧ c.sys.afterTest 4 = .unlockMissing := by
  obtain ⟨c, hc, hone⟩ := exists_of_exec (guarded Counted.step
    fun c => Turn.Meets False (fun s e => findsRunning s e = true) c.sys) Counted.boot
    (waitThenExit.map .whole) (fun c => c.waits 4 = 1) (by decide +kernel)
  obtain ⟨hr, hc'⟩ := reachable_of_exec_guarded hc
  exact ⟨c, hc', hone, (reaped_once c hr 4).2 hone⟩

/-- Thread 3 exits with 7 and then thread 1 waits for it. -/
def exitThenWait : List Event :=
  family ++ next ++ next ++ exitCall 7 ++ [.switchTo] ++ next ++ waitCall 4 4

/-- **Who comes first decides how often a process can be waited for.** Thread 1
waits twice for thread 3, which exits with 7. If it exits before the first
call, both calls return 0, and so will any other; if it exits during the first call,
the second returns `EINVAL`. -/
theorem reaping_differs :
    (∃ c, Runs.exec Counted.step Counted.boot
        ((exitThenWait ++ waitCall 4 4).map .whole) = some c ∧
      c.waits 4 = 2 ∧ c.sys.pc 1 = .user (some (.ok (4, 7))) ∧ 4 ∈ Plist.pids c.sys.plist) ∧
    ∃ c, Runs.exec Counted.step Counted.boot
        ((waitThenExit ++ waitCall 4 3).map .whole) = some c ∧
      c.waits 4 = 1 ∧ c.sys.pc 1 = .user (some (.error .EINVAL)) ∧
      4 ∉ Plist.pids c.sys.plist := by
  constructor
  · obtain ⟨c, hc, hp⟩ := exists_of_exec Counted.step Counted.boot
      ((exitThenWait ++ waitCall 4 4).map .whole)
      (fun c => c.waits 4 = 2 ∧ c.sys.pc 1 = .user (some (.ok (4, 7))) ∧
        4 ∈ Plist.pids c.sys.plist) (by decide +kernel)
    exact ⟨c, hc, hp⟩
  · obtain ⟨c, hc, hp⟩ := exists_of_exec Counted.step Counted.boot
      ((waitThenExit ++ waitCall 4 3).map .whole)
      (fun c => c.waits 4 = 1 ∧ c.sys.pc 1 = .user (some (.error .EINVAL)) ∧
        4 ∉ Plist.pids c.sys.plist) (by decide +kernel)
    exact ⟨c, hc, hp⟩

end Proc

end Os161
