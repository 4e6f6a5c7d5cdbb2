import Os161.Proc.Inv
/-!
# The exit status that `waitpid` reports

A process that has exited keeps its exit code, and its node has it for as long
as it is in the list. A waiter that slept finds the node, since it is the one
that deletes it. A waiter that found the process exited may come too late: if
the node is deleted between its `get_exited` and its `get_excode`, it reports
-1 (`status_lost`). In the runs in which that does not happen every status is
true (`status_true`).
-/

namespace Os161

namespace Proc

open Thread Function ProcSys Plist Option

variable {s s' : ProcSys} {t q : ℕ} {e : Event} {pid st code : Int32}

/-! ## What has been said stays said -/

/-- The process with this pid has exited with this code. -/
def ProcSys.ExitedWith (s : ProcSys) (pid code : Int32) : Prop :=
  ∃ q < s.sys.created, s.pid q = pid ∧ s.exitcode q = some code

/-- No thread is forgotten, and those that have exited have exited with the same
code. -/
structure Grows (s s' : ProcSys) : Prop where
  created : s.sys.created ≤ s'.sys.created
  pid : ∀ q < s.sys.created, s'.pid q = s.pid q
  code : ∀ q < s.sys.created, ∀ c, s.exitcode q = some c → s'.exitcode q = some c

theorem Grows.exitedWith (h : Grows s s') (hw : s.ExitedWith pid code) :
    s'.ExitedWith pid code := by
  obtain ⟨q, hq, h1, h2⟩ := hw
  exact ⟨q, lt_of_lt_of_le hq h.created, (h.pid q hq).trans h1, h.code q hq code h2⟩

/-- Only a new thread, `sys__exit` and `set_exited` make a difference. -/
theorem grows_of_same (hcreated : s'.sys.created = s.sys.created) (hpid : s'.pid = s.pid)
    (hcode : s'.exitcode = s.exitcode) : Grows s s' :=
  ⟨hcreated.ge, fun q _ => congrFun hpid q, fun q _ _ hc => (congrFun hcode q).trans hc⟩

theorem grows_of_moves (hinv : Inv s) (h : Moves s e s') : Grows s s' := by
  cases h with
  | timer hoff hstop hz | sleep hcur hpc hcount hstop hz | leave hcur hpc hstop hz =>
    exact grows_of_same hstop.created rfl rfl
  | switchTo hs => exact grows_of_same (created_switchTo hs) rfl rfl
  | fork hcur hpc hmax hf =>
    refine ⟨?_, fun q hq => ?_, fun q _ c hc => hc⟩
    · exact (Nat.le_succ _).trans (created_threadFork hf).ge
    · exact update_of_ne (Nat.ne_of_lt hq) _ _
  | refuse hcur hpc | begin hcur hpc | finish hcur hpc | test hcur hpc | readExited hcur hpc
  | find hcur hpc | loadWait hcur hpc | readWoken hcur hpc | reap hcur hpc =>
    exact grows_of_same rfl rfl rfl
  | @exit t last code off hcur hpc =>
    -- the thread that exits had not exited before
    have hnone : s.exitcode t = none := hinv.core.exitcode_eq_none (by rw [hpc]; rfl)
    refine ⟨le_rfl, fun _ _ => rfl, fun q _ c hc => ?_⟩
    have hne : q ≠ t := by
      rintro rfl
      rw [hnone] at hc
      cases hc
    exact (update_of_ne hne _ _).trans hc
  | takeLock hcur hpc hcount hsame | unlock hcur hpc hnext hsame | wake hcur hpc hcount hsame
  | postWait hcur hpc hsame | postLock hcur hpc hsame => exact grows_of_same hsame.created rfl rfl
  | @markExited t hcur hpc =>
    refine ⟨le_rfl, fun _ _ => rfl, fun q _ c hc => ?_⟩
    show update s.exitcode t _ q = some c
    rw [update_apply]
    split
    · next hqt => rw [← hqt, hc, getD_some]
    · exact hc

/-- **Only its own reaping takes a node off the list.** -/
theorem present_of_moves (hinv : Inv s) (h : Moves s e s') (hq : q < s.sys.created)
    (hp : q ∈ s.present) :
    q ∈ s'.present ∨
      e = .run ∧ ∃ t pid st, s.sys.curthread = some t ∧ s.pc t = .reap pid q st := by
  cases h with
  | fork hcur hpc hmax hf =>
    left
    rw [mem_present, find_isSome_iff] at hp ⊢
    show update s.pid _ _ q ∈ pids (insertToPlist _ _ _)
    rw [update_of_ne (Nat.ne_of_lt hq), pids_insertToPlist]
    exact List.mem_append_left _ hp
  | exit hcur hpc =>
    left
    rw [mem_present, find_isSome_iff] at hp ⊢
    show s.pid q ∈ pids (setExcode _ _ _)
    rw [pids_setExcode]
    exact hp
  | markExited hcur hpc =>
    left
    rw [mem_present, find_isSome_iff] at hp ⊢
    show s.pid q ∈ pids (setExited _ _)
    rw [pids_setExited]
    exact hp
  | @reap t pid q' st hcur hpc =>
    obtain ⟨hq', hpid⟩ : q' < s.sys.created ∧ s.pid q' = pid :=
      hinv.core.target t pid q' (by rw [hpc]; rfl)
    by_cases hqq : q = q'
    · exact .inr ⟨rfl, t, pid, st, hcur, hqq ▸ hpc⟩
    · left
      have hne : s.pid q ≠ pid := fun h => hqq (hinv.core.pid_inj hq hq' (h.trans hpid.symm))
      show (find (delete s.plist pid) (s.pid q)).isSome
      rw [find_delete_of_ne _ hne]
      exact hp
  | _ => exact .inl hp

/-! ## What a place says -/

/-- The pid and the status that a thread has read or has returned. -/
def Pc.told : Pc → Option (Int32 × Int32)
  | user (some (.ok r)) => some r
  | unlockExited pid st | reap pid _ st => some (pid, st)
  | _ => none

/-- A thread has found this process exited and is about to read its code. -/
def Pc.about : Pc → Option Int32
  | readExited pid => some pid
  | _ => none

/-- The process with this pid has exited, and its node is in the list. -/
def ProcSys.Readable (s : ProcSys) (pid : Int32) : Prop :=
  ∃ q < s.sys.created, s.pid q = pid ∧ q ∈ s.present ∧ (s.exitcode q).isSome

/-- The places of all threads say what is true: a status that was read is the
process's own, and a code that is about to be read is there. -/
structure Truthful (s : ProcSys) : Prop where
  told : ∀ t pid st, (s.pc t).told = some (pid, st) → s.ExitedWith pid st
  about : ∀ t pid, (s.pc t).about = some pid → s.Readable pid

/-- The condition on a step: a node is not deleted while a thread that has found
the process exited has not read its code yet. -/
def deletesUnwatched (s : ProcSys) : Event → Bool
  | .run =>
    match s.sys.curthread.map s.pc with
    | some (.reap pid _ _) => (List.range s.sys.created).all fun u => (s.pc u).about != some pid
    | _ => true
  | _ => true

/-- A process can be read that could be before and has its node. -/
theorem Grows.readable (hgrow : Grows s s') (hq : q < s.sys.created) (hpid : s.pid q = pid)
    (hp : q ∈ s'.present) (hcode : (s.exitcode q).isSome) : s'.Readable pid := by
  obtain ⟨c, hc⟩ := isSome_iff_exists.1 hcode
  refine ⟨q, lt_of_lt_of_le hq hgrow.created, (hgrow.pid q hq).trans hpid, hp, ?_⟩
  rw [hgrow.code q hq c hc]
  rfl

/-- What a thread is about to read is still there after a step. -/
theorem readable_of_moves (hinv : Inv s) (h : Truthful s) (hm : Moves s e s')
    (hg : deletesUnwatched s e = true) {u : ℕ} (hu : (s.pc u).about = some pid) :
    s'.Readable pid := by
  obtain ⟨q, hq, hpid, hp, hcode⟩ := h.about u pid hu
  have hgrow := grows_of_moves hinv hm
  rcases present_of_moves hinv hm hq hp with hp' | ⟨rfl, t, pid', st, hcur, hpc⟩
  · exact hgrow.readable hq hpid hp' hcode
  · -- the node goes, and thread `u` is watching it
    have hpid' : pid' = pid := (hinv.core.target t pid' q (by rw [hpc]; rfl)).2.symm.trans hpid
    have hlt : u < s.sys.created := by
      by_contra hge
      rw [(hinv.core.fresh u (Nat.le_of_not_lt hge)).1] at hu
      cases hu
    simp only [deletesUnwatched, hcur, map_some, hpc, List.all_eq_true, List.mem_range,
      bne_iff_ne] at hg
    exact absurd (hpid' ▸ hu) (hg u hlt)

/-- A code that is read from a node in the list is the true one. -/
theorem exitedWith_getExcode (h : s.Readable pid) (hinv : Inv s) :
    s.ExitedWith pid (getExcode (nodes s.plist) pid) := by
  obtain ⟨q, hq, rfl, hp, hcode⟩ := h
  obtain ⟨c, hc⟩ := isSome_iff_exists.1 hcode
  rw [hinv.core.getExcode_eq hq hp, hc]
  exact ⟨q, hq, rfl, hc⟩

/-- A waiter that has slept finds the node. -/
theorem readable_of_readWoken (hinv : Inv s) (hpc : s.pc t = .readWoken pid q) :
    s.Readable pid := by
  obtain ⟨hq, hpid⟩ := hinv.core.target t pid q (by rw [hpc]; rfl)
  obtain ⟨hpost, -, hp, -⟩ := hinv.core.unit.held t q (by rw [hpc]; rfl)
  exact ⟨q, hq, hpid, hp, hinv.core.marked q (Pc.marked_of_posted hpost)⟩

/-- **Every move keeps the places truthful**, if it deletes no node that is
being watched. -/
theorem truthful_of_moves (hinv : Inv s) (h : Truthful s) (hm : Moves s e s')
    (hg : deletesUnwatched s e = true) : Truthful s' := by
  have hgrow := grows_of_moves hinv hm
  have htold : ∀ u pid st, (s.pc u).told = some (pid, st) → s'.ExitedWith pid st :=
    fun u pid st hu => hgrow.exitedWith (h.told u pid st hu)
  have habout : ∀ u pid, (s.pc u).about = some pid → s'.Readable pid :=
    fun u pid hu => readable_of_moves hinv h hm hg hu
  refine ⟨fun u pid st hu => ?_, fun u pid hu => ?_⟩ <;>
    rcases pc_of_moves hm u with heq | ⟨-, heq⟩ | ⟨p, p', hcur, hp, heq, hnext⟩ <;> rw [heq] at hu
  · exact htold u pid st hu
  · cases hu
  · cases hnext with
    | readExited =>
      cases hu
      exact hgrow.exitedWith (exitedWith_getExcode (h.about u _ (by rw [hp]; rfl)) hinv)
    | readWoken =>
      cases hu
      exact hgrow.exitedWith (exitedWith_getExcode (readable_of_readWoken hinv hp) hinv)
    | unlockExited | reap => exact htold u pid st (by rw [hp]; exact hu)
    | _ => cases hu
  · exact habout u pid hu
  · cases hu
  · cases hnext with
    | exited h1 =>
      -- it is about to read a code, since `get_exited` has given 1
      cases hu
      obtain ⟨q, hq, hpid, hin, hcode⟩ := hinv.core.exited_of_getExited h1
      rcases present_of_moves hinv hm hq hin with hin' | ⟨-, t, pid', st, hcur', hpc⟩
      · exact hgrow.readable hq hpid hin' hcode
      · obtain rfl := some.inj (hcur.symm.trans hcur')
        cases hp.symm.trans hpc
    | _ => cases hu

theorem truthful_boot : Truthful boot where
  told := fun _ _ _ h => by cases h
  about := fun _ _ h => by cases h

/-- **`waitpid` reports the true exit status**, in every run in which no node is
deleted between another waiter's `get_exited` and its `get_excode`, and nothing is
torn: when `sys_waitpid(pid)` has returned 0 with a status, the one process with this
pid has exited, and with that status. -/
theorem status_true (s : ProcSys)
    (h : Runs.Reachable ProcSys.turn
      (Turn.Meets False fun s e => deletesUnwatched s e = true) boot s) (t : Tid) (pid st : Int32)
        (hret : s.pc t = .user (some (.ok (pid, st)))) :
    ∃ q < s.sys.created, s.pid q = pid ∧ (s.pc q).exiting ∧ s.exitcode q = some st ∧
      ∀ q' < s.sys.created, s.pid q' = pid → q' = q := by
  rw [reachable_whole_iff] at h
  have hboth := h.invariant (I := fun s => Inv s ∧ Truthful s) ⟨inv_boot, truthful_boot⟩
    fun s e s' hI hg hstep => ⟨hI.1.moves (moves_of_step hstep),
      truthful_of_moves hI.1 hI.2 (moves_of_step hstep) hg⟩
  obtain ⟨hinv, htrue⟩ := hboth
  obtain ⟨q, hq, hpid, hcode⟩ := htrue.told t pid st (by rw [hret]; rfl)
  refine ⟨q, hq, hpid, hinv.core.exiting q (by rw [hcode]; rfl), hcode, fun q' hq' hpid' => ?_⟩
  exact hinv.core.pid_inj hq' hq (hpid'.trans hpid.symm)

/-- Thread 1 waits for thread 3, which exits with 7. -/
def waitedFor : List Event :=
  family ++ waitCall 4 6 ++ [.switchTo] ++ next ++ exitCall 7 ++ [.switchTo] ++ next ++ next ++
    [.run, .run, .run]

theorem status_true_waitedFor :
    ∃ s, Runs.exec ProcSys.step boot waitedFor = some s ∧
      s.pc 1 = .user (some (.ok (4, 7))) ∧
      ∃ q < s.sys.created, s.pid q = 4 ∧ (s.pc q).exiting ∧ s.exitcode q = some 7 ∧
        ∀ q' < s.sys.created, s.pid q' = 4 → q' = q := by
  obtain ⟨s, hs, hpc⟩ := Runs.exists_of_exec
    (Runs.guarded step fun s e => deletesUnwatched s e = true) boot waitedFor
    (fun s => s.pc 1 = .user (some (.ok (4, 7)))) (by decide +kernel)
  obtain ⟨hr, hs'⟩ := Runs.reachable_of_exec_guarded hs
  exact ⟨s, hs', hpc, status_true s (reachable_whole_iff.2 hr) 1 4 7 hpc⟩

/-- Thread 1 waits for thread 3, which exits with 7. Before thread 1 runs
again, thread 2 waits for thread 3 too, finds it exited, and is interrupted.
Thread 1 reads the code and deletes the node, and thread 2 goes on. -/
def overtaken : List Event :=
  family ++ waitCall 4 6 ++ [.switchTo] ++ next ++ exitCall 7 ++ [.switchTo] ++ next ++
    waitCall 4 2 ++ next ++ [.run, .run, .run] ++ next ++ next ++ [.run, .run]

/-- **A status can be lost.** Both calls return 0 for the process that exited
with 7, and the second reports -1. -/
theorem status_lost :
    ∃ s, Runs.exec ProcSys.step boot overtaken = some s ∧ s.pid 3 = 4 ∧ s.exitcode 3 = some 7 ∧
      s.pc 1 = .user (some (.ok (4, 7))) ∧ s.pc 2 = .user (some (.ok (4, -1))) := by
  obtain ⟨s, hs, hpid, hcode, h1, h2⟩ := Runs.exists_of_exec step boot overtaken
    (fun s => s.pid 3 = 4 ∧ s.exitcode 3 = some 7 ∧ s.pc 1 = .user (some (.ok (4, 7))) ∧
      s.pc 2 = .user (some (.ok (4, -1)))) (by decide +kernel)
  exact ⟨s, hs, hpid, hcode, h1, h2⟩

end Proc

end Os161
