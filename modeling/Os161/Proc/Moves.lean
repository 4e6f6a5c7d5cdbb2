import Os161.Proc.Model.Waitpid
import Os161.Thread.Partition
import Os161.Thread.Plist
/-!
# What a step does

A step of the process system is a move of the current thread from one place of
its code to the next, or a switch of threads that leaves all the places alone
(`Moves`). Everything proved of runs goes by these cases.
-/

namespace Os161

namespace Proc

open Thread Function Plist ProcSys Option

variable {s s' : ProcSys} {t : Tid} {e : Event} {sem : Sem}

/-! ## Going to another place -/

namespace ProcSys

variable (s : ProcSys) (t u : Tid) (pc : Pc)

@[simp] theorem goto_plist : (s.goto t pc).plist = s.plist := rfl

@[simp] theorem goto_exitcode : (s.goto t pc).exitcode = s.exitcode := rfl

theorem goto_pc : (s.goto t pc).pc u = if u = t then pc else s.pc u :=
  update_apply s.pc t pc u

/-- What does not tell the two places apart does not change. -/
theorem goto_class {β : Type} (f : Pc → β) (hf : f pc = f (s.pc t)) :
    f ((s.goto t pc).pc u) = f (s.pc u) := by
  rw [s.goto_pc]
  split
  · next hu => rw [hu, hf]
  · rfl

/-- The three branches. -/
theorem afterTest_cases (pid : Int32) :
    (getExited (nodes s.plist) pid = 1 ∧ s.afterTest pid = .readExited pid) ∨
    (getExited (nodes s.plist) pid = 0 ∧ s.afterTest pid = .find pid) ∨
    s.afterTest pid = .unlockMissing := by
  unfold afterTest
  dsimp only
  split
  · next h1 => exact .inl ⟨h1, rfl⟩
  · split
    · next h0 => exact .inr (.inl ⟨h0, rfl⟩)
    · exact .inr (.inr rfl)

end ProcSys

/-! ## The thread system below -/

/-- The same threads exist, and the same one is running. -/
structure SameThreads (a b : ThreadSys Sem) : Prop where
  curthread : b.curthread = a.curthread
  created : b.created = a.created
  live : b.live = a.live
  zombies : b.zombies = a.zombies
  ok : a.places.Ok → b.places.Ok

theorem sameThreads_threadResume {a b : ThreadSys Sem} (h : a.threadResume = some b) :
    SameThreads a b := by
  have hok : a.places.Ok → b.places.Ok :=
    fun hok => ok_step hok (show step a .resume = some _ from h)
  obtain ⟨t, -, rfl⟩ := map_eq_some_iff.1 h
  exact ⟨rfl, rfl, rfl, rfl, hok⟩

theorem sameThreads_threadWakeup {a b : ThreadSys Sem} (h : a.threadWakeup sem = some b) :
    SameThreads a b := by
  have hok : a.places.Ok → b.places.Ok :=
    fun hok => ok_step hok (show step a (.wakeup sem) = some _ from h)
  obtain ⟨q, sl, hw, -⟩ := ThreadSys.wakeupLoop_spec sem (List.nil_append _).symm
    (Lib.PtrArray.length_toList a.sleepers).le
  obtain rfl := some.inj (hw.symm.trans h)
  exact ⟨rfl, rfl, rfl, rfl, hok⟩

/-- The current thread has stopped running, and no other runs yet. -/
structure Stopped (a b : ThreadSys Sem) : Prop where
  curthread : b.curthread = none
  created : b.created = a.created
  live : b.live = a.live
  ok : a.places.Ok → b.places.Ok

theorem stopped_threadSleep {a b c : ThreadSys Sem} (hab : SameThreads a b)
    (h : b.threadSleep sem = some c) : Stopped a c ∧ c.zombies = a.zombies := by
  have hok : b.places.Ok → c.places.Ok :=
    fun hok => ok_step hok (show step b (.sleep sem) = some _ from h)
  obtain ⟨t, hcur, h⟩ := bind_eq_some_iff.1 h
  simp only [ThreadSys.miSwitch, hcur] at h
  obtain ⟨sl, -, rfl⟩ := map_eq_some_iff.1 h
  exact ⟨⟨rfl, hab.created, hab.live, fun ha => hok (hab.ok ha)⟩, hab.zombies⟩

theorem stopped_threadYield {a b : ThreadSys Sem} (h : a.threadYield = some b) :
    Stopped a b ∧ b.zombies = a.zombies := by
  have hok : a.places.Ok → b.places.Ok :=
    fun hok => ok_step hok (show step a .yield = some _ from h)
  unfold ThreadSys.threadYield ThreadSys.miSwitch at h
  split at h
  · next hcur =>
    obtain rfl := some.inj h
    exact ⟨⟨hcur, rfl, rfl, id⟩, rfl⟩
  · obtain ⟨q, -, rfl⟩ := map_eq_some_iff.1 h
    exact ⟨⟨rfl, rfl, rfl, hok⟩, rfl⟩

theorem stopped_threadExit {a b : ThreadSys Sem} (h : a.threadExit = some b) :
    Stopped a b ∧ ∃ t, a.curthread = some t ∧ b.zombies.toList = a.zombies.toList ++ [t] := by
  have hok : a.places.Ok → b.places.Ok := fun hok => ok_step hok (show step a .exit = some _ from h)
  have hp := eq_some_places h a.places_threadExit
  obtain ⟨t, hcur, hp⟩ := bind_eq_some_iff.1 hp
  split at hp
  · have hb := some.inj hp
    have hz : b.places.dead = a.zombies.toList ++ [t] := by rw [← hb]; rfl
    have hc : b.places.cur = none := by rw [← hb]; rfl
    have hn : b.places.next = a.created := by rw [← hb]; rfl
    have hl : b.places.live = a.live := by rw [← hb]; rfl
    exact ⟨⟨hc, hn, hl, hok⟩, t, hcur, hz⟩
  · cases hp

/-! ## The semaphores -/

theorem p_cases {next : Pc} (h : s.p t sem next = some s') :
    (s.count sem = 0 ∧ ∃ sys off, Stopped s.sys sys ∧ sys.zombies = s.sys.zombies ∧
      s' = { s with sys, off }) ∨
    (s.count sem ≠ 0 ∧ ∃ sys off, SameThreads s.sys sys ∧
      s' = goto
        { s with sys, off, count := update s.count sem (s.count sem - 1) } t next) := by
  obtain ⟨sys, hsys, h⟩ := bind_eq_some_iff.1 h
  have hsame := sameThreads_threadResume hsys
  split at h
  · next hcount =>
    obtain ⟨sys', hsleep, rfl⟩ := map_eq_some_iff.1 h
    obtain ⟨hstop, hz⟩ := stopped_threadSleep hsame hsleep
    exact .inl ⟨hcount, sys', _, hstop, hz, rfl⟩
  · next hcount =>
    obtain rfl := some.inj h
    exact .inr ⟨hcount, sys, _, hsame, rfl⟩

theorem v_cases {f : ProcSys → ProcSys} (h : (s.v sem).map f = some s') :
    ∃ sys, SameThreads s.sys sys ∧
      s' = f { s with sys, count := update s.count sem (s.count sem + 1) } := by
  obtain ⟨s₁, hv, rfl⟩ := map_eq_some_iff.1 h
  unfold v at hv
  split at hv
  · obtain ⟨sys, hsys, rfl⟩ := map_eq_some_iff.1 hv
    exact ⟨sys, sameThreads_threadWakeup hsys, rfl⟩
  · cases hv

/-! ## The moves -/

/-- What a step does. The places are those of the thread `t` that runs. -/
inductive Moves (s : ProcSys) : Event → ProcSys → Prop
  /-- A timer interrupt takes the processor away, from a thread with interrupts
  on. -/
  | timer {sys} (hoff : s.sys.curthread.any s.off = false) (hstop : Stopped s.sys sys)
      (hz : sys.zombies = s.sys.zombies) : Moves s .timer { s with sys }
  /-- A thread goes to sleep in `P`. -/
  | sleep {t sem sys off} (hcur : s.sys.curthread = some t)
      (hpc : (∃ pid, s.pc t = .takeLock pid ∧ sem = .lock) ∨
        ∃ pid q, s.pc t = .waitExit pid q ∧ sem = .wait q)
      (hcount : s.count sem = 0) (hstop : Stopped s.sys sys)
      (hz : sys.zombies = s.sys.zombies) : Moves s .run { s with sys, off }
  /-- A thread leaves for good. -/
  | leave {t sys} (hcur : s.sys.curthread = some t) (hpc : s.pc t = .leave)
      (hstop : Stopped s.sys sys) (hz : sys.zombies.toList = s.sys.zombies.toList ++ [t]) :
      Moves s .run { s with sys }
  | switchTo {sys} (h : s.sys.switchTo = some sys) : Moves s .switchTo { s with sys }
  | fork {t last sys off} (hcur : s.sys.curthread = some t) (hpc : s.pc t = .user last)
      (hmax : s.maxPid ≠ Int32.maxValue) (h : s.sys.threadFork = some (s.sys.created, sys)) :
      Moves s .fork
        { s with
          sys, off
          count := update s.count (.wait s.sys.created) 0
          plist := insertToPlist s.plist s.sys.created s.maxPid
          maxPid := s.maxPid + 1
          pid := update s.pid s.sys.created s.maxPid
          pc := update s.pc s.sys.created (.user none) }
  | refuse {t last pid status options e} (hcur : s.sys.curthread = some t)
      (hpc : s.pc t = .user last) :
      Moves s (.waitpid pid status options) (s.goto t (.user (some (.error e))))
  | begin {t last pid status options} (hcur : s.sys.curthread = some t)
      (hpc : s.pc t = .user last) :
      Moves s (.waitpid pid status options) (s.goto t (.takeLock pid))
  | exit {t last code off} (hcur : s.sys.curthread = some t) (hpc : s.pc t = .user last) :
      Moves s (.exit code)
        (goto
          { s with
            plist := setExcode s.plist (s.pid t) code
            off
            exitcode := update s.exitcode t (some code) } t .markExited)
  | finish {t last} (hcur : s.sys.curthread = some t) (hpc : s.pc t = .user last) :
      Moves s .finish (s.goto t .markExited)
  | takeLock {t pid sys off} (hcur : s.sys.curthread = some t) (hpc : s.pc t = .takeLock pid)
      (hcount : s.count .lock ≠ 0) (hsame : SameThreads s.sys sys) :
      Moves s .run
        (goto
          { s with sys, off, count := update s.count .lock (s.count .lock - 1) }
          t (.test pid))
  | test {t pid} (hcur : s.sys.curthread = some t) (hpc : s.pc t = .test pid) :
      Moves s .run (s.goto t (s.afterTest pid))
  | readExited {t pid} (hcur : s.sys.curthread = some t) (hpc : s.pc t = .readExited pid) :
      Moves s .run
        (s.goto t (.unlockExited pid (getExcode (nodes s.plist) pid)))
  /-- `V(lock)`, in each of the three branches. -/
  | unlock {t pc next sys} (hcur : s.sys.curthread = some t) (hpc : s.pc t = pc)
      (hnext : (∃ pid st, pc = .unlockExited pid st ∧ next = .user (some (.ok (pid, st)))) ∨
        (∃ pid q, pc = .unlockRunning pid q ∧ next = .loadWait pid q) ∨
        (pc = .unlockMissing ∧ next = .user (some (.error .EINVAL))))
      (hsame : SameThreads s.sys sys) :
      Moves s .run
        (goto
          { s with sys, count := update s.count .lock (s.count .lock + 1) } t next)
  | find {t pid} (hcur : s.sys.curthread = some t) (hpc : s.pc t = .find pid) :
      Moves s .run (s.goto t (.unlockRunning pid (findThreadByPid s.plist pid)))
  | loadWait {t pid q} (hcur : s.sys.curthread = some t)
      (hpc : s.pc t = .loadWait pid (some q)) : Moves s .run (s.goto t (.waitExit pid q))
  | wake {t pid q sys off} (hcur : s.sys.curthread = some t) (hpc : s.pc t = .waitExit pid q)
      (hcount : s.count (.wait q) ≠ 0) (hsame : SameThreads s.sys sys) :
      Moves s .run
        (goto
          { s with sys, off, count := update s.count (.wait q) (s.count (.wait q) - 1) }
          t (.readWoken pid q))
  | readWoken {t pid q} (hcur : s.sys.curthread = some t) (hpc : s.pc t = .readWoken pid q) :
      Moves s .run (s.goto t (.reap pid q (getExcode (nodes s.plist) pid)))
  | reap {t pid q st} (hcur : s.sys.curthread = some t) (hpc : s.pc t = .reap pid q st) :
      Moves s .run
        (goto { s with plist := delete s.plist pid } t
          (.user (some (.ok (pid, st)))))
  | markExited {t : Tid} (hcur : s.sys.curthread = some t) (hpc : s.pc t = .markExited) :
      Moves s .run
        (goto
          { s with
            plist := setExited s.plist (s.pid t)
            exitcode := update s.exitcode t (some ((s.exitcode t).getD (-1))) }
          t .postWait)
  | postWait {t sys} (hcur : s.sys.curthread = some t) (hpc : s.pc t = .postWait)
      (hsame : SameThreads s.sys sys) :
      Moves s .run
        (goto
          { s with sys, count := update s.count (.wait t) (s.count (.wait t) + 1) }
          t .postLock)
  | postLock {t sys} (hcur : s.sys.curthread = some t) (hpc : s.pc t = .postLock)
      (hsame : SameThreads s.sys sys) :
      Moves s .run
        (goto
          { s with
            sys
            count := update s.count .lock (s.count .lock + 1)
            exits := s.exits + 1 } t .leave)

/-- Thread `t` goes on from the place where it is. -/
theorem moves_run (hcur : s.sys.curthread = some t) (h : s.run t (s.pc t) = some s') :
    Moves s .run s' := by
  generalize hpc : s.pc t = pc at h
  cases pc with
  | user last => cases h
  | takeLock pid =>
    rcases p_cases h with ⟨h0, sys, off, hstop, hz, rfl⟩ | ⟨h0, sys, off, hsame, rfl⟩
    · exact .sleep hcur (.inl ⟨pid, hpc, rfl⟩) h0 hstop hz
    · exact .takeLock hcur hpc h0 hsame
  | test pid =>
    obtain rfl := some.inj h
    exact .test hcur hpc
  | readExited pid =>
    obtain rfl := some.inj h
    exact .readExited hcur hpc
  | unlockExited pid st =>
    obtain ⟨sys, hsame, rfl⟩ := v_cases h
    exact .unlock hcur hpc (.inl ⟨pid, st, rfl, rfl⟩) hsame
  | find pid =>
    obtain rfl := some.inj h
    exact .find hcur hpc
  | unlockRunning pid q =>
    obtain ⟨sys, hsame, rfl⟩ := v_cases h
    exact .unlock hcur hpc (.inr (.inl ⟨pid, q, rfl, rfl⟩)) hsame
  | loadWait pid q =>
    obtain ⟨q, rfl, rfl⟩ := map_eq_some_iff.1 h
    exact .loadWait hcur hpc
  | waitExit pid q =>
    rcases p_cases h with ⟨h0, sys, off, hstop, hz, rfl⟩ | ⟨h0, sys, off, hsame, rfl⟩
    · exact .sleep hcur (.inr ⟨pid, q, hpc, rfl⟩) h0 hstop hz
    · exact .wake hcur hpc h0 hsame
  | readWoken pid q =>
    obtain rfl := some.inj h
    exact .readWoken hcur hpc
  | reap pid q st =>
    obtain rfl := some.inj h
    exact .reap hcur hpc
  | unlockMissing =>
    obtain ⟨sys, hsame, rfl⟩ := v_cases h
    exact .unlock hcur hpc (.inr (.inr ⟨rfl, rfl⟩)) hsame
  | markExited =>
    obtain rfl := some.inj h
    exact .markExited hcur hpc
  | postWait =>
    obtain ⟨sys, hsame, rfl⟩ := v_cases h
    exact .postWait hcur hpc hsame
  | postLock =>
    obtain ⟨sys, hsame, rfl⟩ := v_cases h
    exact .postLock hcur hpc hsame
  | leave =>
    obtain ⟨sys, hsys, rfl⟩ := map_eq_some_iff.1 h
    obtain ⟨hstop, u, hu, hz⟩ := stopped_threadExit hsys
    obtain rfl := some.inj (hcur.symm.trans hu)
    exact .leave hcur hpc hstop hz

/-- Where the thread that runs goes from a place. -/
inductive Next (s : ProcSys) : Event → Pc → Pc → Prop
  | refuse {pid status options last e} :
      Next s (.waitpid pid status options) (.user last) (.user (some (.error e)))
  | begin {pid status options last} :
      Next s (.waitpid pid status options) (.user last) (.takeLock pid)
  | exit {e last} : Next s e (.user last) .markExited
  | takeLock {pid} : Next s .run (.takeLock pid) (.test pid)
  | exited {pid} (h : getExited (nodes s.plist) pid = 1) : Next s .run (.test pid) (.readExited pid)
  | running {pid} (h : getExited (nodes s.plist) pid = 0) : Next s .run (.test pid) (.find pid)
  | missing {pid} : Next s .run (.test pid) .unlockMissing
  | readExited {pid} :
      Next s .run (.readExited pid) (.unlockExited pid (getExcode (nodes s.plist) pid))
  | unlockExited {pid st} : Next s .run (.unlockExited pid st) (.user (some (.ok (pid, st))))
  | unlockRunning {pid q} : Next s .run (.unlockRunning pid q) (.loadWait pid q)
  | unlockMissing : Next s .run .unlockMissing (.user (some (.error .EINVAL)))
  | find {pid} : Next s .run (.find pid) (.unlockRunning pid (findThreadByPid s.plist pid))
  | loadWait {pid q} : Next s .run (.loadWait pid (some q)) (.waitExit pid q)
  | wake {pid q} : Next s .run (.waitExit pid q) (.readWoken pid q)
  | readWoken {pid q} :
      Next s .run (.readWoken pid q) (.reap pid q (getExcode (nodes s.plist) pid))
  | reap {pid q st} : Next s .run (.reap pid q st) (.user (some (.ok (pid, st))))
  | markExited : Next s .run .markExited .postWait
  | postWait : Next s .run .postWait .postLock
  | postLock : Next s .run .postLock .leave

/-- **The places change one at a time**, and a new thread has one. -/
theorem pc_of_moves (h : Moves s e s') (u : Tid) :
    s'.pc u = s.pc u ∨ (u = s.sys.created ∧ s'.pc u = .user none) ∨
      ∃ p p', s.sys.curthread = some u ∧ s.pc u = p ∧ s'.pc u = p' ∧ Next s e p p' := by
  have hgoto : ∀ {t p p'} {r : ProcSys}, s.sys.curthread = some t → s.pc t = p →
      r.pc = s.pc → Next s e p p' →
      (r.goto t p').pc u = s.pc u ∨ (u = s.sys.created ∧ (r.goto t p').pc u = .user none) ∨
        ∃ a b, s.sys.curthread = some u ∧ s.pc u = a ∧ (r.goto t p').pc u = b ∧ Next s e a b := by
    intro t p p' r hcur hpc hr hnext
    rw [goto_pc, hr]
    by_cases hu : u = t
    · subst hu
      exact .inr (.inr ⟨p, p', hcur, hpc, if_pos rfl, hnext⟩)
    · exact .inl (if_neg hu)
  cases h with
  | timer hoff hstop hz | sleep hcur hpc hcount hstop hz | leave hcur hpc hstop hz | switchTo hs =>
    exact .inl rfl
  | fork hcur hpc hmax hf =>
    by_cases hu : u = s.sys.created
    · subst hu
      exact .inr (.inl ⟨rfl, update_self ..⟩)
    · exact .inl (update_of_ne hu ..)
  | refuse hcur hpc => exact hgoto hcur hpc rfl .refuse
  | begin hcur hpc => exact hgoto hcur hpc rfl .begin
  | exit hcur hpc | finish hcur hpc => exact hgoto hcur hpc rfl .exit
  | takeLock hcur hpc hcount hsame => exact hgoto hcur hpc rfl .takeLock
  | test hcur hpc =>
    refine hgoto hcur hpc rfl ?_
    rcases s.afterTest_cases _ with ⟨h1, heq⟩ | ⟨h0, heq⟩ | heq <;> rw [heq]
    · exact .exited h1
    · exact .running h0
    · exact .missing
  | readExited hcur hpc => exact hgoto hcur hpc rfl .readExited
  | unlock hcur hpc hnext hsame =>
    refine hgoto hcur hpc rfl ?_
    rcases hnext with ⟨pid, st, rfl, rfl⟩ | ⟨pid, q, rfl, rfl⟩ | ⟨rfl, rfl⟩
    · exact .unlockExited
    · exact .unlockRunning
    · exact .unlockMissing
  | find hcur hpc => exact hgoto hcur hpc rfl .find
  | loadWait hcur hpc => exact hgoto hcur hpc rfl .loadWait
  | wake hcur hpc hcount hsame => exact hgoto hcur hpc rfl .wake
  | readWoken hcur hpc => exact hgoto hcur hpc rfl .readWoken
  | reap hcur hpc => exact hgoto hcur hpc rfl .reap
  | markExited hcur hpc => exact hgoto hcur hpc rfl .markExited
  | postWait hcur hpc hsame => exact hgoto hcur hpc rfl .postWait
  | postLock hcur hpc hsame => exact hgoto hcur hpc rfl .postLock

theorem fork_fst {a b : ThreadSys Sem} {n : Tid} (h : a.threadFork = some (n, b)) :
    n = a.created := by
  obtain ⟨t, -, h⟩ := bind_eq_some_iff.1 h
  obtain ⟨sl, -, h⟩ := bind_eq_some_iff.1 h
  obtain ⟨zo, -, h⟩ := bind_eq_some_iff.1 h
  obtain ⟨rq, -, h⟩ := bind_eq_some_iff.1 h
  obtain ⟨c, -, h⟩ := map_eq_some_iff.1 h
  exact (Prod.mk.inj h).1.symm

theorem call_cases {f : Tid → Option ProcSys} (h : s.call f = some s') :
    ∃ t last, s.sys.curthread = some t ∧ s.pc t = .user last ∧ f t = some s' := by
  obtain ⟨t, hcur, h⟩ := bind_eq_some_iff.1 h
  split at h
  · next last hpc => exact ⟨t, last, hcur, hpc, h⟩
  · cases h

/-- **Every step is one of the moves.** -/
theorem moves_of_step (h : s.step e = some s') : Moves s e s' := by
  cases e with
  | fork =>
    obtain ⟨t, last, hcur, hpc, h⟩ := call_cases h
    unfold fork at h
    split at h
    · cases h
    · next hmax =>
      obtain ⟨⟨n, sys⟩, hr, rfl⟩ := map_eq_some_iff.1 h
      obtain rfl := fork_fst hr
      exact .fork hcur hpc hmax hr
  | waitpid pid status options =>
    obtain ⟨t, last, hcur, hpc, h⟩ := call_cases h
    obtain rfl := some.inj h
    unfold waitpid
    split
    · exact .refuse hcur hpc
    · exact .begin hcur hpc
  | exit code =>
    obtain ⟨t, last, hcur, hpc, h⟩ := call_cases h
    obtain rfl := some.inj h
    exact .exit hcur hpc
  | finish =>
    obtain ⟨t, last, hcur, hpc, h⟩ := call_cases h
    obtain rfl := some.inj h
    exact .finish hcur hpc
  | run =>
    obtain ⟨t, hcur, h⟩ := bind_eq_some_iff.1 h
    exact moves_run hcur h
  | timer =>
    rw [ProcSys.step] at h
    split at h
    · cases h
    · next hoff =>
      obtain ⟨sys, hsys, rfl⟩ := map_eq_some_iff.1 h
      obtain ⟨hstop, hz⟩ := stopped_threadYield hsys
      exact .timer (Bool.eq_false_iff.2 hoff) hstop hz
  | switchTo =>
    obtain ⟨sys, hsys, rfl⟩ := map_eq_some_iff.1 h
    exact .switchTo hsys

end Proc

end Os161
