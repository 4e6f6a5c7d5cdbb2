import Os161.Synch.Lock
import Os161.Synch.Position
/-!
# The monitor discipline of condition variables

`cv_signal` and `cv_broadcast` call `lock_release` on the lock they are
given. So a caller that holds the lock never holds it when the call
returns (`Returning`), and another thread can take the lock while the
caller believes itself inside. In a run in which no thread signals with the
lock held, a thread that is inside a lock is its holder (`Disciplined`).
-/

namespace Os161

namespace Synch

open Thread Function Kernel Option

variable {k k' : ListKernel} {e : Event} {t : Tid} {l : LockId}

/-- The call signals a condition variable with the lock `l`. -/
def Call.Signals (c : Call) (l : LockId) : Prop :=
  (∃ cv, c = .cvSignal cv l) ∨ ∃ cv, c = .cvBroadcast cv l

/-! ## The lock when the functions return -/

theorem body_ne_splx (c : Call) (t : Tid) : c.body t ≠ [.splx] := by
  cases c <;> simp [Call.body, Call.lockReleaseCode, Call.lockAcquireCode, Call.vCode]

/-- The end of `cv_wait` is reached from the loop of `lock_acquire`. -/
theorem position_cvWait {cv : CvId} {j : Instr}
    (h : Position ((Call.cvWait cv l).body t) [j, .splx]) :
    (∃ b, j = .lockWait l b) ∨ j = .spl0 := by
  cases h with
  | suffix h =>
    simp [Call.body, Call.lockReleaseCode, Call.lockAcquireCode, List.suffix_cons_iff] at h
    exact .inl ⟨false, h⟩
  | back => exact .inr rfl
  | awake h =>
    simp [Call.body, Call.lockReleaseCode, Call.lockAcquireCode, List.suffix_cons_iff] at h
  | again h =>
    simp [Call.body, Call.lockReleaseCode, Call.lockAcquireCode, List.suffix_cons_iff] at h
    exact .inl ⟨true, by rw [h.1]⟩

/-- The end of `cv_signal` and `cv_broadcast` is reached from the release. -/
theorem position_signals {c : Call} {j : Instr} (hc : c.Signals l)
    (h : Position (c.body t) [j, .splx]) : j = .lockDrop l false ∨ j = .spl0 := by
  rcases hc with ⟨cv, rfl⟩ | ⟨cv, rfl⟩ <;>
  · cases h with
    | suffix h =>
      simp [Call.body, Call.lockReleaseCode, List.suffix_cons_iff] at h
      exact .inl h
    | back => exact .inr rfl
    | awake h | again h => simp [Call.body, Call.lockReleaseCode, List.suffix_cons_iff] at h

/-- **The invariant of the returns.** At its last `splx`, `cv_wait` holds
the lock, and `cv_signal` and `cv_broadcast` do not. -/
structure Returning (k : ListKernel) : Prop where
  placed : Placed k
  wait : ∀ t cv l b, k.call t = some (.cvWait cv l, b) → k.code t = [.splx] →
    k.holder l = some t
  signal : ∀ t c l b, k.call t = some (c, b) → c.Signals l → k.code t = [.splx] →
    k.holder l ≠ some t

/-- A run changes what no thread has called. -/
theorem call_of_run (hb : Base k) (hs : Step k .run k') (hc : k.sys.cur = some t) :
    k'.call t = k.call t := by
  cases hs with
  | lockDrop => simp
  | lockKeep => simp
  | fork hc' =>
    have hne : t ≠ k.sys.next := fun e =>
      hb.ok.next_not_mem (Places.mem_all.2 (.inl (e ▸ hc)))
    simp [update_of_ne hne]
  | _ => rfl

/-- How a thread comes to its last `splx`: by an instruction of its own,
inside the function it called. -/
theorem Placed.before_splx (h : Placed k) (hst : k.step placesOps e = some k')
    (hcode : k'.code t = [.splx]) :
    e = .run ∧ k.sys.cur = some t ∧ k'.call t = k.call t ∧
      ∃ j, k.code t = [j, .splx] ∧ j ≠ .spl0 := by
  have hs := step_cases hst
  obtain ⟨hc, ⟨rfl, j, hj⟩ | ⟨c, rfl, hbody⟩⟩ :=
    hs.entry h.base hcode (by nofun) (by simp [Suspended])
  · refine ⟨rfl, hc, call_of_run h.base hs hc, j, hj, ?_⟩
    -- the return to level 0 would leave interrupts on in the section
    rintro rfl
    rw [step_run_spl0 hc hj] at hst
    obtain ⟨-, hh⟩ := (h.base.step hs).inSection hcode (by nofun) (by simp [Suspended])
    rw [← some.inj hst] at hh
    cases hh
  · exact absurd hbody (body_ne_splx c t)

/-- The loop of `lock_acquire` ends with the lock held. -/
theorem holder_of_lockWait {b : Bool} {r : List Instr} (hb : Base k)
    (hst : k.step placesOps .run = some k') (hj : k.code t = .lockWait l b :: r)
    (hcode : k'.code t = r) : k'.holder l = some t := by
  obtain ⟨hc, hh⟩ := hb.inSection hj (by nofun) (by simp [Suspended])
  rw [step_run_high hc hh hj (by nofun) (by nofun)] at hst
  simp only [runHigh, lockWait] at hst
  split at hst
  · -- it went to sleep, and its code is not at its end
    rw [sleepOn_cases hc hst] at hcode
    simp only [goOn, update_self] at hcode
    have := congrArg List.length hcode
    simp at this
    omega
  · obtain ⟨n, ns, -, rfl⟩ := leave_eq_some _ _ _ hst
    simp

/-- A release ends with the lock not held. -/
theorem holder_of_lockDrop {own : Bool} {r : List Instr} (hb : Base k)
    (hst : k.step placesOps .run = some k') (hj : k.code t = .lockDrop l own :: r) :
    k'.holder l ≠ some t := by
  obtain ⟨hc, hh⟩ := hb.inSection hj (by nofun) (by simp [Suspended])
  rw [step_run_high hc hh hj (by nofun) (by nofun)] at hst
  simp only [runHigh, lockDrop] at hst
  split at hst
  · obtain ⟨n, ns, -, rfl⟩ := leave_eq_some _ _ _ hst
    simp
  · rename_i hne
    obtain ⟨n, ns, -, rfl⟩ := leave_eq_some _ _ _ hst
    simpa using hne

theorem Returning.step (h : Returning k) (hst : k.step placesOps e = some k') : Returning k' := by
  refine ⟨h.placed.step (step_cases hst), fun t cv l b hcall hcode => ?_,
    fun t c l b hcall hsig hcode => ?_⟩
  · obtain ⟨rfl, hc, hcall', j, hj, hne⟩ := h.placed.before_splx hst hcode
    have hpos := h.placed.pos t
    rw [hj, calledBody, ← hcall', hcall] at hpos
    rcases position_cvWait hpos with ⟨b, rfl⟩ | rfl
    · exact holder_of_lockWait h.placed.base hst hj hcode
    · exact absurd rfl hne
  · obtain ⟨rfl, hc, hcall', j, hj, hne⟩ := h.placed.before_splx hst hcode
    have hpos := h.placed.pos t
    rw [hj, calledBody, ← hcall', hcall] at hpos
    rcases position_signals hsig hpos with rfl | rfl
    · exact holder_of_lockDrop h.placed.base hst hj
    · exact absurd rfl hne

theorem returning_boot (init : SemId → ℕ) : Returning (boot init).lists where
  placed := placed_boot init
  wait := fun _ _ _ _ hcall => by cases hcall
  signal := fun _ _ _ _ hcall => by cases hcall

/-- The return itself moves no holder. -/
theorem holder_of_splx (hc : k.sys.cur = some t) (hh : k.curspl = .high)
    (hcode : k.code t = [.splx]) (hst : k.step placesOps .run = some k') :
    k'.holder = k.holder ∧ k'.code t = [] := by
  rw [step_run_high hc hh hcode (by nofun) (by nofun)] at hst
  obtain ⟨n, ns, -, rfl⟩ := leave_eq_some _ _ _ hst
  exact ⟨rfl, update_self ..⟩

/-! ## Runs in which nobody signals with the lock held -/

/-- The current thread does not signal with a lock that it holds. -/
def NoHeldSignal (k : OsKernel) (e : Event) : Prop :=
  ∀ c l t, e = .call c → c.Signals l → k.sys.curthread = some t → k.holder l ≠ some t

/-- No function both signals and takes a lock. -/
theorem body_not_both {c : Call} {l' : LockId} {b : Bool} (h : .lockDrop l false ∈ c.body t)
    (h' : .lockWait l' b ∈ c.body t) : False := by
  rcases lock_of_mem_body h with ⟨cv, rfl⟩ | ⟨cv, rfl⟩ <;>
    simp [Call.body, Call.lockReleaseCode] at h'

/-- **The invariant of the monitors.** A thread that is inside a lock is its
holder, and one that is to signal with it is not. -/
structure Disciplined (k : ListKernel) : Prop where
  base : Base k
  inside : ∀ t l, k.inside t l = true → k.holder l = some t
  signal : ∀ t l, .lockDrop l false ∈ k.code t → k.holder l ≠ some t
  notBoth : ∀ t l l' b, .lockDrop l false ∈ k.code t → .lockWait l' b ∉ k.code t

/-- A thread on its way to signal does not come to hold the lock. -/
theorem Disciplined.signal_step (h : Disciplined k) (hs : Step k e k')
    (hm : .lockDrop l false ∈ k.code t) : k'.holder l ≠ some t := by
  rcases hs.holder_cases with ⟨hh, -⟩ | ⟨u, l', b, rest, -, hcode, -, hh, -⟩ |
    ⟨u, l', own, rest, -, -, -, hh, -⟩
  · rw [hh]; exact h.signal t l hm
  · rw [hh]
    by_cases hl : l = l'
    · subst hl
      rw [update_self]
      rintro heq
      obtain rfl := some.inj heq
      exact h.notBoth u l l b hm (hcode ▸ List.mem_cons_self)
    · rw [update_of_ne hl]
      exact h.signal t l hm
  · rw [hh]
    by_cases hl : l = l'
    · subst hl; simp
    · rw [update_of_ne hl]
      exact h.signal t l hm

theorem Disciplined.step (h : Disciplined k) (hs : Step k e k')
    (hg : ∀ c l t, e = .call c → c.Signals l → k.sys.cur = some t → k.holder l ≠ some t) :
    Disciplined k' := by
  -- the release of a signal is in the code from before, or in the function just called
  have hfrom : ∀ {t l}, .lockDrop l false ∈ k'.code t → .lockDrop l false ∈ k.code t ∨
      ∃ c, e = .call c ∧ k.sys.cur = some t ∧ .lockDrop l false ∈ c.body t := by
    intro t l hm
    rcases hs.mem_code hm with hm | heq | heq | ⟨_, _, heq, -⟩ | hc
    · exact .inl hm
    · cases heq
    · cases heq
    · cases heq
    · exact .inr hc
  refine ⟨h.base.step hs, fun t l ht => ?_, fun t l hm => ?_, fun t l l' b hm hw => ?_⟩
  · exact inside_step hs (fun t => h.inside t l)
      (fun t r hcode => h.signal t l (hcode ▸ List.mem_cons_self)) ht
  · rcases hfrom hm with hm₀ | ⟨c, rfl, hc, hm₀⟩
    · exact h.signal_step hs hm₀
    · have := hg c l t rfl (lock_of_mem_body hm₀) hc
      cases hs with
      | call => exact this
  · rcases hfrom hm with hm₀ | ⟨c, rfl, hc, hm₀⟩
    · have hno := fun l' b => h.notBoth t l l' b hm₀
      rcases hs.mem_code hw with hw | heq | heq | ⟨l'', b'', heq, hw⟩ | ⟨c, rfl, hc, -⟩
      · exact hno l' b hw
      · cases heq
      · cases heq
      · exact hno l'' b'' hw
      · -- a thread that calls a function had no code left
        cases hs with
        | call hc' hcode =>
          rw [some.inj (hc.symm.trans hc'), hcode] at hm₀
          cases hm₀
    · cases hs with
      | call hc' hcode =>
        obtain rfl := some.inj (hc.symm.trans hc')
        simp only [goOn, update_self] at hw
        exact body_not_both hm₀ hw

theorem disciplined_boot (init : SemId → ℕ) : Disciplined (boot init).lists where
  base := base_boot init
  inside := fun _ _ ht => by cases ht
  signal := fun _ _ hm => by cases hm
  notBoth := fun _ _ _ _ hm => by cases hm

/-! ## The discipline of the kernel -/

/-- **A signal with the lock held gives the lock up.** In every state that
any number of threads bring about, when a `cv_signal` or `cv_broadcast`
returns whose caller held the lock as it called, the caller does not hold
it. In every run in which no thread makes such a call, a thread between its
`lock_acquire` and its own `lock_release` or `cv_wait` is the holder, so no
other thread is. -/
theorem signal_gives_lock_up (init : SemId → ℕ) :
    (∀ (k k' : OsKernel) t c l, Reachable init k → k.sys.curthread = some t →
      k.code t = [.splx] → k.call t = some (c, true) → c.Signals l →
      k.step threadOps .run = some k' → k'.code t = [] ∧ k'.holder l ≠ some t) ∧
    ∀ k : OsKernel, Runs.Reachable (Kernel.step threadOps) NoHeldSignal (boot init) k →
      ∀ t l, k.inside t l = true → k.holder l = some t := by
  refine ⟨fun k k' t c l hr hc hcode hcall hsig hst => ?_, fun k hr => ?_⟩
  · have h : Returning k.lists := Reachable.lists_invariant hr (returning_boot init)
      fun _ _ _ hi _ hs => hi.step hs
    have hh := (h.placed.base.inSection hcode (by nofun) (by simp [Suspended])).2
    obtain ⟨hholder, hdone⟩ := holder_of_splx hc hh hcode (step_lists hst)
    refine ⟨hdone, ?_⟩
    have hnot : k.lists.holder l ≠ some t := h.signal t c l true hcall hsig hcode
    rw [← hholder] at hnot
    exact hnot
  · have h : Disciplined k.lists := Reachable.lists_invariant hr (disciplined_boot init)
      fun _ _ _ hi hg hs => hi.step (step_cases hs) hg
    exact h.inside

/-- The boot thread forks another, takes a lock, and signals with it, up to
the return. -/
def signalHeld : List Event :=
  [.call .threadFork, .run, .run, .call (.lockAcquire 0), .run, .run,
   .call (.cvSignal 0 0), .run, .run, .run, .run]

theorem signal_gives_lock_up_once :
    (∃ k k', Runs.exec (Kernel.step threadOps) (boot fun _ => 0) signalHeld = some k ∧
      k.call 0 = some (.cvSignal 0 0, true) ∧ k.step threadOps .run = some k' ∧
      k'.holder 0 ≠ some 0) ∧
    ∃ k, Runs.exec (Kernel.step threadOps) (boot fun _ => 0) (signalHeld.take 6) = some k ∧
      k.inside 0 0 = true ∧ k.holder 0 = some 0 := by
  constructor
  · obtain ⟨k, hk, hc, hcode, hcall, hsome⟩ := Runs.exists_of_exec (step threadOps)
      (boot fun _ => 0) signalHeld
      (fun k => k.sys.curthread = some 0 ∧ k.code 0 = [.splx] ∧
        k.call 0 = some (.cvSignal 0 0, true) ∧ (k.step threadOps .run).isSome)
      (by decide +kernel)
    obtain ⟨k', hk'⟩ := isSome_iff_exists.1 hsome
    exact ⟨k, k', hk, hcall, hk', ((signal_gives_lock_up _).1 k k' 0 _ 0
      (Runs.reachable_of_exec hk) hc hcode hcall (.inl ⟨0, rfl⟩) hk').2⟩
  · obtain ⟨k, hk, hobs⟩ := Runs.exists_of_exec (step threadOps) (boot fun _ => 0)
      (signalHeld.take 6) (fun k => k.inside 0 0) (by decide +kernel)
    have hfree : ∀ k : OsKernel, ∀ e ∈ signalHeld.take 6, NoHeldSignal k e := by
      have hcalls : ∀ e ∈ signalHeld.take 6, e ∈ [.run, .call .threadFork,
          .call (.lockAcquire 0)] := by decide
      rintro _ _ he c l t rfl hsig
      have hc := hcalls _ he
      simp only [List.mem_cons, reduceCtorEq, Event.call.injEq, false_or, List.not_mem_nil,
        or_false] at hc
      rcases hc with rfl | rfl <;> rcases hsig with ⟨_, h⟩ | ⟨_, h⟩ <;> cases h
    exact ⟨k, hk, hobs, (signal_gives_lock_up _).2 k (Runs.Reachable.exec .refl hfree hk) 0 0 hobs⟩

/-- **Two threads inside one lock.** After the signal has returned, the
other thread takes the lock, and the boot thread has not released it. -/
theorem lock_taken_while_inside :
    (Runs.exec (Kernel.step threadOps) (boot fun _ => 0)
      (signalHeld ++ [.run, .call .threadYield, .run, .run, .switchTo, .run,
        .call (.lockAcquire 0), .run, .run])).any
      (fun k => k.inside 0 0 && k.holder 0 = some 1) = true := by
  decide +kernel

end Synch

end Os161
