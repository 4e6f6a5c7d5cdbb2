import Os161.Synch.Monitor
/-!
# Condition variables: what a wait can miss and what a signal moves

`cv_wait` releases the lock and goes to sleep with interrupts off, so
between the two nothing but its own code can run: no thread takes the lock
before the waiter is in `sleepers[]`. `cv_signal` moves the first of the
sleepers on the condition variable, which has slept longest, and
`cv_broadcast` moves them all. But both then release the lock, and a
release moves a sleeper on the lock: `cv_broadcast` leaves the sleepers on
other addresses alone exactly when its caller does not hold the lock or
nobody sleeps on it.
-/

namespace Os161

namespace Synch

open Thread Function Places Kernel Runs

variable {k k' : ListKernel} {t : Tid} {l : LockId}

/-- What is left of `cv_signal` and `cv_broadcast` after their first
`splhigh`, from the wakeup `i` on. -/
def wakeAndRelease (i : Instr) (l : LockId) : List Instr :=
  [i, .splhigh, .lockDrop l false, .splx]

/-- The four instructions. -/
def fourRuns : List Event := [.run, .run, .run, .run]

/-! ## A signal or a broadcast, to its return -/

variable {rest : List Instr}

/-- A release wakes one sleeper on the lock if the thread holds it. -/
theorem run_lockDrop {own : Bool} {n : Spl} {ns : List Spl}
    (hl : Leaves k t (.lockDrop l own) rest n ns) :
    ∃ k', k.step placesOps .run = some k' ∧
      k'.sys = (if k.holder l = some t then k.sys.wakeupOne (.lock l) else k.sys) ∧
      k'.curspl = n ∧ k'.code t = rest ∧ k'.saved t = ns := by
  rw [step_run_high hl.cur hl.high hl.code (by rintro ⟨⟩) (by rintro ⟨⟩)]
  simp only [runHigh, lockDrop, placesOps, Option.bind_some]
  by_cases hheld : k.holder l = some t
  · simp only [if_pos hheld, leave, endInside_saved, hl.saved]
    exact ⟨_, rfl, rfl, rfl, update_self .., update_self ..⟩
  · simp only [if_neg hheld, leave, endInside_saved, hl.saved]
    exact ⟨_, rfl, by simp, rfl, update_self .., update_self ..⟩

theorem run_splx {n : Spl} {ns : List Spl} (hl : Leaves k t .splx rest n ns) :
    ∃ k', k.step placesOps .run = some k' ∧ k'.sys = k.sys ∧ k'.code t = rest := by
  rw [step_run_high hl.cur hl.high hl.code (by rintro ⟨⟩) (by rintro ⟨⟩)]
  simp only [runHigh, leave, hl.saved]
  exact ⟨_, rfl, rfl, update_self ..⟩

/-- The section of `cv_signal` and `cv_broadcast`, whatever their wakeup
does: it wakes, and the holder of the lock wakes one sleeper on it too. -/
theorem exec_wakeAndRelease (hb : Base k) {i : Instr} {p : Places SleepAddr}
    (hc : k.sys.cur = some t) (hcode : k.code t = wakeAndRelease i l)
    (hi : i.effect = .stay) (hp : p.cur = some t)
    (hrun : k.step placesOps .run =
      some { k.goOn t [.splhigh, .lockDrop l false, .splx] with sys := p }) :
    ∃ k', exec (step placesOps) k fourRuns = some k' ∧ k'.code t = [] ∧
      k'.sys = if k.holder l = some t then p.wakeupOne (.lock l) else p := by
  have hs := hb.running t hc
  rw [hcode] at hs
  simp only [wakeAndRelease, Safe, hi] at hs
  obtain ⟨hh, -, m, ms, hm, rfl, n, ns, rfl, -⟩ := hs
  obtain ⟨-, hsaved⟩ := List.cons.inj hm
  -- the `splhigh` of `lock_release`, the release, and the last `splx`
  generalize hk₁ : ({ k.goOn t [.splhigh, .lockDrop l false, .splx] with sys := p } : ListKernel)
    = k₁ at hrun
  have hc₁ : k₁.sys.cur = some t := by rw [← hk₁]; exact hp
  have hsplhigh := step_run_splhigh hc₁
    (show k₁.code t = .splhigh :: [.lockDrop l false, .splx] by
      rw [← hk₁]; exact update_self ..)
  generalize hk₂ : k₁.splTo t [.lockDrop l false, .splx] .high (k₁.curspl :: k₁.saved t) = k₂
    at hsplhigh
  have hl : Leaves k₂ t (.lockDrop l false) [.splx] .high (n :: ns) :=
    ⟨by rw [← hk₂]; exact hc₁, by rw [← hk₂]; exact update_self .., by rw [← hk₂]; rfl,
      by rw [← hk₂, ← hk₁]; simp [goOn, hh, hsaved]⟩
  obtain ⟨k₃, hdrop, hsys₃, hspl₃, hcode₃, hsaved₃⟩ := run_lockDrop hl
  have hsys₂ : k₂.sys = p ∧ k₂.holder = k.holder := by rw [← hk₂, ← hk₁]; exact ⟨rfl, rfl⟩
  rw [hsys₂.1, hsys₂.2] at hsys₃
  have hc₃ : k₃.sys.cur = some t := by
    rw [hsys₃]
    split
    · exact wakeupOne_cur.trans hp
    · exact hp
  obtain ⟨k₄, hsplx, hsys₄, hcode₄⟩ := run_splx ⟨hc₃, hcode₃, hspl₃, hsaved₃⟩
  refine ⟨k₄, ?_, hcode₄, hsys₄.trans hsys₃⟩
  rw [fourRuns, exec_cons hrun, exec_cons hsplhigh, exec_cons hdrop,
    exec_cons hsplx]
  rfl

/-- The sleepers on an address. -/
def Kernel.sleepersOn (k : OsKernel) (a : SleepAddr) : List Tid :=
  k.sys.sleepers.toList.filter fun t => k.sys.sleepaddr t = some a

theorem exec_signal {k : OsKernel} (hb : Base k.lists) {cv : CvId} (hc : k.sys.curthread = some t)
    (hcode : k.code t = wakeAndRelease (.wakeupOne (.cv cv)) l) :
    ∃ k', exec (step threadOps) k fourRuns = some k' ∧ k'.code t = [] ∧
      k'.lists.sys = if k.holder l = some t
        then (k.lists.sys.wakeupOne (.chan (.cv cv))).wakeupOne (.lock l)
        else k.lists.sys.wakeupOne (.chan (.cv cv)) := by
  have hh := (hb.inSection hcode (by rintro ⟨⟩) (by simp [Suspended])).2
  obtain ⟨k₁, hex, h1, h2⟩ := exec_wakeAndRelease hb hc hcode rfl
    (p := k.lists.sys.wakeupOne (.chan (.cv cv))) (wakeupOne_cur.trans hc)
    (step_run_high hc hh hcode (by rintro ⟨⟩) (by rintro ⟨⟩))
  rw [exec_lists] at hex
  obtain ⟨k', hk', rfl⟩ := Option.map_eq_some_iff.1 hex
  exact ⟨k', hk', h1, h2⟩

theorem exec_broadcast {k : OsKernel} (hb : Base k.lists) {cv : CvId}
    (hc : k.sys.curthread = some t)
    (hcode : k.code t = wakeAndRelease (.wakeup (.cv cv)) l) :
    ∃ k', exec (step threadOps) k fourRuns = some k' ∧ k'.code t = [] ∧
      k'.lists.sys = if k.holder l = some t
        then (k.lists.sys.wakeup (.chan (.cv cv))).wakeupOne (.lock l)
        else k.lists.sys.wakeup (.chan (.cv cv)) := by
  have hh := (hb.inSection hcode (by rintro ⟨⟩) (by simp [Suspended])).2
  obtain ⟨k₁, hex, h1, h2⟩ := exec_wakeAndRelease hb hc hcode rfl
    (p := k.lists.sys.wakeup (.chan (.cv cv))) hc
    (step_run_high hc hh hcode (by rintro ⟨⟩) (by rintro ⟨⟩))
  rw [exec_lists] at hex
  obtain ⟨k', hk', rfl⟩ := Option.map_eq_some_iff.1 hex
  exact ⟨k', hk', h1, h2⟩

/-- The release at the end of a signal, on the places the wakeup left. -/
def releaseIf (held : Prop) [Decidable held] (l : LockId) (p : Places SleepAddr) :
    Places SleepAddr :=
  if held then p.wakeupOne (.lock l) else p

section Release

variable (held : Prop) [Decidable held] {p : Places SleepAddr}

/-- The release touches no sleeper but those on the lock. -/
theorem sleepingOn_releaseIf (hn : p.asleep.Nodup) {a : SleepAddr} (ha : a ≠ .lock l) :
    (releaseIf held l p).sleepingOn a = p.sleepingOn a := by
  unfold releaseIf
  split
  · exact sleepingOn_wakeupOne_of_ne hn ha
  · rfl

/-- What the release adds to the run queue slept on the lock. -/
theorem ready_releaseIf (l : LockId) (p : Places SleepAddr) :
    ∃ ext, (releaseIf held l p).ready = p.ready ++ ext ∧ ∀ u ∈ ext, u ∈ p.sleepingOn (.lock l) := by
  unfold releaseIf
  split
  · exact ⟨_, ready_wakeupOne _ p, fun u hu => List.mem_of_mem_take hu⟩
  · exact ⟨[], (List.append_nil _).symm, fun u hu => by cases hu⟩

/-- **A release leaves the sleepers on the lock alone exactly when** it does
nothing or there are none. -/
theorem sleepingOn_lock_releaseIf (hn : p.asleep.Nodup) :
    (releaseIf held l p).sleepingOn (.lock l) = p.sleepingOn (.lock l) ↔
      (¬ held ∨ p.sleepingOn (.lock l) = []) := by
  unfold releaseIf
  split
  · rename_i h
    rw [sleepingOn_wakeupOne_self hn]
    constructor
    · intro heq
      refine .inr (List.eq_nil_of_length_eq_zero ?_)
      have := congrArg List.length heq
      rw [List.length_tail] at this
      omega
    · rintro (hne | hnil)
      · exact absurd h hne
      · rw [hnil]; rfl
  · rename_i h
    exact ⟨fun _ => .inl h, fun _ => rfl⟩

end Release

/-! ## What a condition variable does -/

/-- **Condition variables, at one state of the kernel.** -/
structure CvSpec (k : OsKernel) : Prop where
  /-- In the middle of a function with interrupts off, nothing happens but
  the current thread's own code. -/
  alone : ∀ t i rest e k', k.sys.curthread = some t → k.curspl = .high → k.code t = i :: rest →
    k.step threadOps e = some k' → e = .run
  /-- A thread that released the lock inside `cv_wait` is asleep on the
  condition variable in the next state, and the lock has not changed hands. -/
  release : ∀ w cv l e k', k.code w = [.sleep (.cv cv), .splhigh, .lockWait l false, .splx] →
    k.step threadOps e = some k' →
    e = .run ∧ w ∈ k'.sys.sleepers.toList ∧ k'.sys.sleepaddr w = some (.chan (.cv cv)) ∧
      k'.holder = k.holder
  /-- `cv_signal` moves the thread that has slept longest on the condition
  variable, and no other one on it. -/
  signal : ∀ t cv l w ws, k.sys.curthread = some t →
    k.code t = wakeAndRelease (.wakeupOne (.cv cv)) l →
    k.sleepersOn (.chan (.cv cv)) = w :: ws →
    ∃ k', exec (step threadOps) k fourRuns = some k' ∧ k'.code t = [] ∧
      k'.sleepersOn (.chan (.cv cv)) = ws ∧ (∀ u ∈ ws, k.sys.sleptAt w < k.sys.sleptAt u) ∧
      ∃ ext, k'.sys.runqueue.toList = k.sys.runqueue.toList ++ w :: ext ∧
        ∀ u ∈ ext, u ∈ k.sleepersOn (.lock l)
  /-- `cv_broadcast` moves every thread asleep on the condition variable. It
  moves none asleep on another address exactly when its caller does not
  hold the lock or nobody sleeps on the lock. -/
  broadcast : ∀ t cv l, k.sys.curthread = some t →
    k.code t = wakeAndRelease (.wakeup (.cv cv)) l →
    ∃ k', exec (step threadOps) k fourRuns = some k' ∧ k'.code t = [] ∧
      k'.sleepersOn (.chan (.cv cv)) = [] ∧
      (∃ ext, k'.sys.runqueue.toList =
        k.sys.runqueue.toList ++ k.sleepersOn (.chan (.cv cv)) ++ ext) ∧
      ((∀ a, a ≠ .chan (.cv cv) → k'.sleepersOn a = k.sleepersOn a) ↔
        (k.holder l ≠ some t ∨ k.sleepersOn (.lock l) = []))
  /-- `cv_wait` returns with the lock held. -/
  returns : ∀ w cv l b k', k.sys.curthread = some w → k.code w = [.splx] →
    k.call w = some (.cvWait cv l, b) → k.step threadOps .run = some k' →
    k'.code w = [] ∧ k'.holder l = some w

/-- The step from the release to the sleep. -/
theorem step_release {k k' : OsKernel} (hb : Base k.lists) {w : Tid} {cv : CvId} {e : Event}
    (hcode : k.code w = .sleep (.cv cv) :: rest)
    (hst : k.step threadOps e = some k') :
    e = .run ∧ w ∈ k'.sys.sleepers.toList ∧ k'.sys.sleepaddr w = some (.chan (.cv cv)) ∧
      k'.holder = k.holder := by
  obtain ⟨hc, hh⟩ := hb.inSection hcode (by rintro ⟨⟩) (by simp [Suspended])
  have hst' := step_lists hst
  obtain rfl := run_of_high hc hh hcode (step_cases hst')
  rw [step_run_high hc hh hcode (by rintro ⟨⟩) (by rintro ⟨⟩)] at hst'
  have heq := sleepOn_cases hc hst'
  have hsys : k'.lists.sys = k.lists.sys.sleepThread w (.chan (.cv cv)) := by rw [heq]
  refine ⟨rfl, ?_, ?_, ?_⟩
  · have hmem : w ∈ k'.lists.sys.asleep := by
      rw [hsys]
      exact List.mem_append_right _ (List.mem_singleton.2 rfl)
    exact hmem
  · have haddr : k'.lists.sys.addr w = some (.chan (.cv cv)) := by
      rw [hsys]
      exact update_self ..
    exact haddr
  · have hholder : k'.lists.holder = k.lists.holder := by rw [heq]; rfl
    exact hholder

/-- **A wait misses no signal; a broadcast may move too many.** In every
state that any number of threads bring about, condition variables do what
`CvSpec` says. -/
theorem cvSpec_of_reachable (init : SemId → ℕ) (k : OsKernel) (h : Reachable init k) :
    CvSpec k := by
  have hret : Returning k.lists := Reachable.lists_invariant h (returning_boot init)
    fun _ _ _ hi _ hs => hi.step hs
  have hb := hret.placed.base
  have hn := hb.ok.asleep_nodup
  refine ⟨fun t i rest e k' hc hh hcode hst => run_of_high hc hh hcode
    (step_cases (step_lists hst)),
    fun w cv l e k' hcode hst => step_release hb hcode hst, ?_, ?_, ?_⟩
  · intro t cv l w ws hc hcode hon
    obtain ⟨k', hex, hdone, hsys⟩ := exec_signal hb hc hcode
    have hn₁ := (hb.ok.wakeupOne (.chan (.cv cv))).asleep_nodup
    have hon' : k.lists.sys.sleepingOn (.chan (.cv cv)) = w :: ws := hon
    have hsys' : k'.lists.sys = releaseIf (k.holder l = some t) l
        (k.lists.sys.wakeupOne (.chan (.cv cv))) := hsys
    obtain ⟨ext, hext, hmem⟩ := ready_releaseIf (k.holder l = some t) l
      (k.lists.sys.wakeupOne (.chan (.cv cv)))
    refine ⟨k', hex, hdone, ?_, ?_, ext, ?_, ?_⟩
    · change k'.lists.sys.sleepingOn (.chan (.cv cv)) = ws
      rw [hsys', sleepingOn_releaseIf _ hn₁ (by rintro ⟨⟩), sleepingOn_wakeupOne_self hn, hon']
      rfl
    · have hsorted := hb.ok.sleepingOn_sorted (.chan (.cv cv))
      rw [hon'] at hsorted
      exact (List.pairwise_cons.1 hsorted).1
    · change k'.lists.sys.ready = k.lists.sys.ready ++ w :: ext
      rw [hsys', hext, ready_wakeupOne, hon']
      simp
    · intro u hu
      have := hmem u hu
      rwa [sleepingOn_wakeupOne_of_ne hn (by rintro ⟨⟩)] at this
  · intro t cv l hc hcode
    obtain ⟨k', hex, hdone, hsys⟩ := exec_broadcast hb hc hcode
    have hn₁ := (hb.ok.wakeup (.chan (.cv cv))).asleep_nodup
    have hsys' : k'.lists.sys = releaseIf (k.holder l = some t) l
        (k.lists.sys.wakeup (.chan (.cv cv))) := hsys
    obtain ⟨ext, hext, -⟩ := ready_releaseIf (k.holder l = some t) l
      (k.lists.sys.wakeup (.chan (.cv cv)))
    refine ⟨k', hex, hdone, ?_, ⟨ext, ?_⟩, ?_⟩
    · change k'.lists.sys.sleepingOn (.chan (.cv cv)) = []
      rw [hsys', sleepingOn_releaseIf _ hn₁ (by rintro ⟨⟩), sleepingOn_wakeup_self]
    · change k'.lists.sys.ready =
        k.lists.sys.ready ++ k.lists.sys.sleepingOn (.chan (.cv cv)) ++ ext
      rw [hsys', hext]
      rfl
    · change (∀ a, a ≠ _ → k'.lists.sys.sleepingOn a = k.lists.sys.sleepingOn a) ↔
        (_ ∨ k.lists.sys.sleepingOn (.lock l) = [])
      have hlock := sleepingOn_lock_releaseIf (k.holder l = some t) (l := l) hn₁
      rw [sleepingOn_wakeup_of_ne (by nofun : SleepAddr.lock l ≠ .chan (.cv cv))] at hlock
      rw [hsys', ← hlock]
      refine ⟨fun hall => hall (.lock l) (by rintro ⟨⟩), fun heq a ha => ?_⟩
      by_cases hal : a = .lock l
      · rw [hal]; exact heq
      · rw [sleepingOn_releaseIf _ hn₁ hal, sleepingOn_wakeup_of_ne ha]
  · intro w cv l b k' hc hcode hcall hst
    have hh := (hb.inSection hcode (by rintro ⟨⟩) (by simp [Suspended])).2
    obtain ⟨hholder, hdone⟩ := holder_of_splx hc hh hcode (step_lists hst)
    refine ⟨hdone, ?_⟩
    have hheld : k.lists.holder l = some w := hret.wait w cv l b hcall hcode
    rw [← hholder] at hheld
    exact hheld

/-- The boot thread forks another and takes a lock; the other sleeps on the
lock; the boot thread calls `cv_broadcast`. -/
def broadcastWithWaiter : List Event :=
  [.call .threadFork, .run, .run, .call (.lockAcquire 0), .run, .run,
   .call .threadYield, .run, .run, .switchTo, .run, .call (.lockAcquire 0), .run, .run,
   .switchTo, .run, .call (.cvBroadcast 0 0), .run]

/-- The other waits, and the boot thread calls `cv_broadcast`. -/
def broadcastToOne : List Event :=
  [.call .threadFork, .run, .run, .call .threadYield, .run, .run, .switchTo, .run,
   .call (.lockAcquire 0), .run, .run, .call (.cvWait 0 0), .run, .run, .run, .run,
   .switchTo, .run, .call (.lockAcquire 0), .run, .run, .call (.cvBroadcast 0 0), .run]

theorem cvSpec_of_reachable_broadcast :
    ∃ k, Runs.exec (Kernel.step threadOps) (boot fun _ => 0) broadcastToOne = some k ∧
      k.sleepersOn (.chan (.cv 0)) = [1] ∧
      ∃ k', Runs.exec (Kernel.step threadOps) k fourRuns = some k' ∧
        ∀ a, a ≠ .chan (.cv 0) → k'.sleepersOn a = k.sleepersOn a := by
  obtain ⟨k, hk, hc, hcode, hone, hfree⟩ := exists_of_exec (step threadOps) (boot fun _ => 0)
    broadcastToOne (fun k => k.sys.curthread = some 0 ∧
      k.code 0 = wakeAndRelease (.wakeup (.cv 0)) 0 ∧ k.sleepersOn (.chan (.cv 0)) = [1] ∧
      k.sleepersOn (.lock 0) = []) (by decide +kernel)
  obtain ⟨k', hex, -, -, -, hiff⟩ :=
    (cvSpec_of_reachable _ k (reachable_of_exec hk)).broadcast 0 0 0 hc hcode
  exact ⟨k, hk, hone, k', hex, hiff.2 (.inr hfree)⟩

/-- **A broadcast moves a thread that does not sleep on the condition
variable**: the one asleep on the lock. -/
theorem broadcast_moves_lock_sleeper :
    (Runs.exec (Kernel.step threadOps) (boot fun _ => 0) broadcastWithWaiter).any
      (fun k => k.sleepersOn (.lock 0) = [1] && k.code 0 = wakeAndRelease (.wakeup (.cv 0)) 0 &&
        (Runs.exec (Kernel.step threadOps) k fourRuns).any fun k' =>
          k'.code 0 = [] && k'.sleepersOn (.lock 0) = []) = true := by
  decide +kernel

end Synch

end Os161
