import Os161.Proc.Inv
/-!
# A waiter and the structure it waits on

`sys_waitpid` finds the thread of the pid, gives up `lock`, and only then loads
`pid_thread->wait`. In between the thread can exit and be disposed of, and the
load is from memory that was freed (`wait_after_destroy`). The threads that
have been disposed of had come to the end of `thread_exit`, so nothing of the
kind happens in runs without a timer interrupt in that window (`target_alive`).
-/

namespace Os161

namespace Proc

open Thread ProcSys Places Option

variable {s s' : ProcSys} {t u q : ℕ} {e : Event} {pid : Int32}

/-! ## The dead have left -/

/-- A thread that has come to the end of `thread_exit` stays there. -/
theorem leave_of_moves (hinv : Inv s) (h : Moves s e s') (hu : s.pc u = .leave) :
    s'.pc u = .leave := by
  rcases pc_of_moves h u with heq | ⟨rfl, -⟩ | ⟨p, p', -, hp, -, hnext⟩
  · rw [heq, hu]
  · rw [(hinv.core.fresh s.sys.created le_rfl).1] at hu
    cases hu
  · obtain rfl := hp.symm.trans hu
    cases hnext

theorem live_threadFork {a b : ThreadSys Sem} {m : Tid} (h : a.threadFork = some (m, b)) :
    b.live = a.live ++ [a.created] ∧ b.zombies.toList = a.zombies.toList := by
  have hp := a.places_threadFork
  rw [h] at hp
  obtain ⟨t, -, hb⟩ := map_eq_some_iff.1 hp.symm
  have hb' : b.places = a.places.newThread := (congrArg Prod.snd hb).symm
  exact ⟨congrArg live hb', congrArg dead hb'⟩

/-- Whoever is dead or disposed of has come to the end of `thread_exit`. -/
structure Buried (s : ProcSys) : Prop where
  gone : ∀ t < s.sys.created, t ∉ s.sys.live → s.pc t = .leave
  dead : ∀ t ∈ s.sys.zombies.toList, s.pc t = .leave

theorem buried_of_moves (hinv : Inv s) (h : Buried s) (hm : Moves s e s') : Buried s' := by
  have hleave : ∀ u, s.pc u = .leave → s'.pc u = .leave := fun u hu => leave_of_moves hinv hm hu
  -- most moves leave the threads as they are
  have hsame : s'.sys.created = s.sys.created → s'.sys.live = s.sys.live →
      s'.sys.zombies = s.sys.zombies → Buried s' := by
    intro h1 h2 h3
    constructor
    · rw [h1, h2]
      exact fun t ht ht' => hleave t (h.gone t ht ht')
    · rw [h3]
      exact fun t ht => hleave t (h.dead t ht)
  cases hm with
  | timer hoff hstop hz | sleep hcur hpc hcount hstop hz => exact hsame hstop.created hstop.live hz
  | @leave t sys hcur hpc hstop hz =>
    constructor
    · rw [hstop.created, hstop.live]
      exact h.gone
    · rw [hz]
      intro u hu
      rcases List.mem_append.1 hu with hu | hu
      · exact h.dead u hu
      · exact List.mem_singleton.1 hu ▸ hpc
  | @switchTo sys hs =>
    have hp := eq_some_places hs s.sys.places_switchTo
    constructor
    · rw [created_switchTo hs]
      intro u hu hu'
      by_cases hlive : u ∈ s.sys.live
      · exact h.dead u (mem_dead_of_dispatch hp hlive hu')
      · exact h.gone u hu hlive
    · exact fun u hu => h.dead u (dead_of_dispatch hp hu)
  | @fork t last sys off hcur hpc hmax hf =>
    obtain ⟨hlive, hdead⟩ := live_threadFork hf
    constructor
    · rw [created_threadFork hf, hlive]
      intro u hu hu'
      simp only [List.mem_append, List.mem_singleton, not_or] at hu'
      have hlt : u < s.sys.created := lt_of_le_of_ne (Nat.le_of_lt_succ hu) hu'.2
      exact hleave u (h.gone u hlt hu'.1)
    · rw [hdead]
      exact fun u hu => hleave u (h.dead u hu)
  | takeLock hcur hpc hcount hs | unlock hcur hpc hnext hs | wake hcur hpc hcount hs
  | postWait hcur hpc hs | postLock hcur hpc hs => exact hsame hs.created hs.live hs.zombies
  | _ => exact hsame rfl rfl rfl

/-! ## The window -/

/-- Between `get_exited(pid) == 0` and the load of `pid_thread->wait`. -/
def Pc.window : Pc → Bool
  | find _ | unlockRunning _ _ | loadWait _ _ => true
  | _ => false

/-- The condition on a step: no timer interrupt comes in the window. -/
def sparesWindow (s : ProcSys) : Event → Bool
  | .timer => (s.sys.curthread.map s.pc).all fun pc => !pc.window
  | _ => true

/-- A thread in the window is running, and the process it waits for has not
exited. -/
structure Undisturbed (s : ProcSys) : Prop where
  running : ∀ t, (s.pc t).window → s.sys.curthread = some t
  toFind : ∀ t pid, s.pc t = .find pid →
    ∃ q < s.sys.created, s.pid q = pid ∧ q ∈ s.present ∧ s.exitcode q = none
  found : ∀ t pid o, s.pc t = .unlockRunning pid o ∨ s.pc t = .loadWait pid o →
    ∃ q < s.sys.created, o = some q ∧ s.exitcode q = none

theorem undisturbed_of_quiet (h : ∀ u, (s.pc u).window = false) : Undisturbed s where
  running := fun t ht => by rw [h t] at ht; cases ht
  toFind := fun t pid ht => by have := h t; rw [ht] at this; cases this
  found := fun t pid o ht => by
    have hquiet := h t
    rcases ht with ht | ht <;> rw [ht] at hquiet <;> cases hquiet

namespace Undisturbed

section

variable (h : Undisturbed s)

include h

section

variable (hcur : s.sys.curthread = some t)

include hcur

/-- While a thread runs outside the window, nobody is in it. -/
theorem quiet (hpc : (s.pc t).window = false) (u : ℕ) : (s.pc u).window = false := by
  by_contra hu
  have hu' := h.running u (Bool.eq_true_of_not_eq_false hu)
  obtain rfl := some.inj (hcur.symm.trans hu')
  exact hu hpc

/-- While a thread is in the window, nobody else is. -/
theorem others (hu : u ≠ t) :
    (s.pc u).window = false := by
  by_contra hw
  have hu' := h.running u (Bool.eq_true_of_not_eq_false hw)
  exact hu (some.inj (hu'.symm.trans hcur))

/-- The running thread goes to a place outside the window. -/
theorem goto_outside {pc : Pc}
    (hpc : ∀ u, s'.pc u = if u = t then pc else s.pc u) (hnew : pc.window = false) :
    Undisturbed s' := by
  refine undisturbed_of_quiet fun u => ?_
  rw [hpc]
  split
  · exact hnew
  · next hu => exact h.others hcur hu

/-- The running thread goes to a place in the window. -/
theorem goto_inside (hcur' : s'.sys.curthread = some t) {pc : Pc}
    (hpc : ∀ u, s'.pc u = if u = t then pc else s.pc u)
    (hfind : ∀ pid, pc = .find pid →
      ∃ q < s'.sys.created, s'.pid q = pid ∧ q ∈ s'.present ∧ s'.exitcode q = none)
    (hfound : ∀ pid o, pc = .unlockRunning pid o ∨ pc = .loadWait pid o →
      ∃ q < s'.sys.created, o = some q ∧ s'.exitcode q = none) : Undisturbed s' := by
  have hother : ∀ u, u ≠ t → (s'.pc u).window = false := by
    intro u hu
    rw [hpc, if_neg hu]
    exact h.others hcur hu
  have hself : s'.pc t = pc := by rw [hpc, if_pos rfl]
  have heq : ∀ u, (s'.pc u).window → u = t := by
    intro u hu
    by_contra hne
    rw [hother u hne] at hu
    cases hu
  constructor
  · intro u hu
    rw [heq u hu]
    exact hcur'
  · intro u pid hu
    obtain rfl := heq u (by rw [hu]; rfl)
    exact hfind pid (hself.symm.trans hu)
  · intro u pid o hu
    obtain rfl := heq u (by rcases hu with hu | hu <;> rw [hu] <;> rfl)
    rw [hself] at hu
    exact hfound pid o hu

end

end

end Undisturbed

/-- **Every move keeps the window undisturbed**, if no timer interrupt comes in
it. -/
theorem undisturbed_of_moves (hinv : Inv s) (h : Undisturbed s) (hm : Moves s e s')
    (hg : sparesWindow s e = true) : Undisturbed s' := by
  cases hm with
  | timer hoff hstop hz =>
    refine undisturbed_of_quiet fun u => ?_
    by_contra hu
    have hcur := h.running u (Bool.eq_true_of_not_eq_false hu)
    rw [sparesWindow, hcur, map_some, all_some] at hg
    exact hu (by simpa using hg)
  | sleep hcur hpc hcount hstop hz =>
    refine undisturbed_of_quiet (h.quiet hcur ?_)
    rcases hpc with ⟨pid, hpc, -⟩ | ⟨pid, q, hpc, -⟩ <;> rw [hpc] <;> rfl
  | leave hcur hpc hstop hz => exact undisturbed_of_quiet (h.quiet hcur (by rw [hpc]; rfl))
  | switchTo hs =>
    -- there was no current thread
    have hnone : s.sys.curthread = none :=
      (dispatch_cases (eq_some_places hs s.sys.places_switchTo)).1
    refine undisturbed_of_quiet fun u => ?_
    by_contra hu
    rw [h.running u (Bool.eq_true_of_not_eq_false hu)] at hnone
    cases hnone
  | fork hcur hpc hmax hf =>
    refine undisturbed_of_quiet fun u => ?_
    show (Function.update s.pc _ _ u).window = false
    rw [Function.update_apply]
    split
    · rfl
    · exact h.quiet hcur (by rw [hpc]; rfl) u
  | test hcur hpc =>
    rcases s.afterTest_cases _ with ⟨-, heq⟩ | ⟨h0, heq⟩ | heq <;> rw [heq]
    · exact h.goto_outside hcur (s.goto_pc _ · _) rfl
    · refine h.goto_inside hcur hcur (s.goto_pc _ · _) (fun pid' hh => ?_)
        fun _ _ hh => by rcases hh with hh | hh <;> cases hh
      cases hh
      exact hinv.core.running_of_getExited h0
    · exact h.goto_outside hcur (s.goto_pc _ · _) rfl
  | unlock hcur hpc hnext hsame =>
    rcases hnext with ⟨pid, st, rfl, rfl⟩ | ⟨pid, q, rfl, rfl⟩ | ⟨rfl, rfl⟩
    · exact h.goto_outside hcur (goto_pc _ _ · _) rfl
    · refine h.goto_inside hcur (hsame.curthread.trans hcur) (goto_pc _ _ · _)
        (fun _ hh => by cases hh) fun pid' o hh => ?_
      rcases hh with hh | hh <;> cases hh
      obtain ⟨q, hq, ho, hcode⟩ := h.found _ _ _ (.inl hpc)
      exact ⟨q, lt_of_lt_of_le hq hsame.created.ge, ho, hcode⟩
    · exact h.goto_outside hcur (goto_pc _ _ · _) rfl
  | find hcur hpc =>
    refine h.goto_inside hcur hcur (goto_pc _ _ · _) (fun _ hh => by cases hh)
      fun pid' o hh => ?_
    rcases hh with hh | hh <;> cases hh
    obtain ⟨q, hq, rfl, hp, hcode⟩ := h.toFind _ _ hpc
    exact ⟨q, hq, hinv.core.findThreadByPid_eq hq hp, hcode⟩
  | refuse hcur hpc | begin hcur hpc | exit hcur hpc | finish hcur hpc
  | takeLock hcur hpc hcount hsame | readExited hcur hpc | loadWait hcur hpc
  | wake hcur hpc hcount hsame | readWoken hcur hpc | reap hcur hpc | markExited hcur hpc
  | postWait hcur hpc hsame | postLock hcur hpc hsame =>
    exact h.goto_outside hcur (goto_pc _ _ · _) rfl

theorem buried_boot : Buried boot where
  gone := by
    intro t ht ht'
    obtain rfl : t = 0 := Nat.lt_one_iff.1 ht
    exact absurd (List.mem_singleton_self 0) ht'
  dead := fun t ht => by cases ht

variable {G : ProcSys → Event → Prop} (hG : ∀ s e, G s e → sparesWindow s e = true)

include hG

/-- At the load, `pid_thread` is a thread that has not been disposed of. -/
theorem live_of_loadWait (h : Runs.Reachable ProcSys.step G boot s) {o : Option Tid}
    (hload : s.pc t = .loadWait pid o) : ∃ q, o = some q ∧ q ∈ s.sys.live := by
  have hall := h.invariant (I := fun s => Inv s ∧ Buried s ∧ Undisturbed s)
    ⟨inv_boot, buried_boot, undisturbed_of_quiet fun _ => rfl⟩ fun s e s' hI hg hstep => by
      have hm := moves_of_step hstep
      exact ⟨hI.1.moves hm, buried_of_moves hI.1 hI.2.1 hm,
        undisturbed_of_moves hI.1 hI.2.2 hm (hG s e hg)⟩
  obtain ⟨hinv, hburied, hund⟩ := hall
  obtain ⟨q, hq, rfl, hcode⟩ := hund.found t pid o (.inr hload)
  refine ⟨q, rfl, ?_⟩
  by_contra hgone
  have hmarked := hinv.core.marked q (by rw [hburied.gone q hq hgone]; rfl)
  rw [hcode] at hmarked
  cases hmarked

/-- So nothing strays. -/
theorem reachable_untorn_iff :
    Runs.Reachable ProcSys.turn (Turn.Meets True G) boot s ↔
      Runs.Reachable ProcSys.step G boot s := by
  refine ⟨fun h => h.imp fun s e s' hr hg hs => ?_, fun h => h.imp fun s e s' _ hg hs =>
    ⟨.whole e, hg, hs⟩⟩
  cases e with
  | whole e => exact ⟨e, hg, hs⟩
  | torn _ => exact hg.elim
  | stray u =>
    have hfreed : s.atFreed = true := by
      by_contra hno
      rw [turn, if_neg hno] at hs
      cases hs
    obtain ⟨t, -, ht⟩ := (any_eq_true _ _).1 hfreed
    split at ht
    · rename_i pid q hpc
      obtain ⟨q', hq', hlive⟩ := live_of_loadWait hG hr hpc
      obtain rfl := some.inj hq'
      exact absurd hlive (of_decide_eq_true ht)
    · cases ht

omit hG

/-- **A waiter's target outlives the load of its semaphore**, in every run
without a timer interrupt between a waiter's `get_exited(pid) == 0` and its load
of `pid_thread->wait`, or inside a function on the process list: at the load,
`pid_thread` is a thread that has not been disposed of. -/
theorem target_alive (s : ProcSys)
    (h : Runs.Reachable ProcSys.turn (Turn.Meets True fun s e => sparesWindow s e = true) boot s)
    (t : Tid) (pid : Int32) (pidThread : Option Tid)
    (hload : s.pc t = .loadWait pid pidThread) : ∃ q, pidThread = some q ∧ q ∈ s.sys.live :=
  live_of_loadWait (fun _ _ hg => hg) ((reachable_untorn_iff fun _ _ hg => hg).1 h) hload

/-- Thread 1 waits for thread 3, up to the load. -/
theorem target_alive_first_wait :
    ∃ s, Runs.exec ProcSys.step boot (family ++ waitCall 4 4) = some s ∧
      s.pc 1 = .loadWait 4 (some 3) ∧ 3 ∈ s.sys.live := by
  obtain ⟨s, hs, hpc⟩ := Runs.exists_of_exec
    (Runs.guarded step fun s e => sparesWindow s e = true) boot (family ++ waitCall 4 4)
    (fun s => s.pc 1 = .loadWait 4 (some 3)) (by decide +kernel)
  obtain ⟨hr, hs'⟩ := Runs.reachable_of_exec_guarded hs
  obtain ⟨q, hq, hlive⟩ :=
    target_alive s ((reachable_untorn_iff fun _ _ hg => hg).2 hr) 1 4 _ hpc
  obtain rfl := some.inj hq
  exact ⟨s, hs', hpc, hlive⟩

/-- Thread 1 waits for thread 3 and is interrupted before the load. Thread 3
exits, and the next thread that is switched to disposes of it. -/
def interruptedWait : List Event :=
  family ++ waitCall 4 4 ++ next ++ next ++ exitCall 7 ++ [.switchTo] ++ next

/-- **A waiter can load from a structure that was freed.** Thread 1 is running
and about to load `pid_thread->wait`, and thread 3 is gone. -/
theorem wait_after_destroy :
    ∃ s, Runs.exec ProcSys.step boot interruptedWait = some s ∧ s.sys.curthread = some 1 ∧
      s.pc 1 = .loadWait 4 (some 3) ∧ 3 ∉ s.sys.live := by
  obtain ⟨s, hs, hp⟩ := Runs.exists_of_exec step boot interruptedWait
    (fun s => s.sys.curthread = some 1 ∧ s.pc 1 = .loadWait 4 (some 3) ∧
      3 ∉ s.sys.live) (by decide +kernel)
  exact ⟨s, hs, hp.1, hp.2.1, hp.2.2⟩

end Proc

end Os161
