import Os161.Synch.Frame
/-!
# Locks: one holder, and no lost wakeup

For a lock that threads use through `lock_acquire` and `lock_release` alone.
A thread between the two is the holder, so there is at most one. A release
wakes one sleeper, which may find the lock taken again and go back to
sleep; that none is left asleep for good is `Woken`: while the lock is free
and a thread sleeps on it, another that was woken for it is on its way
through the loop of `lock_acquire`. The last part holds however the lock is
used.
-/

namespace Os161

namespace Synch

open Thread Function Places Kernel Option

variable {k k' : ListKernel} {e : Event} {l : LockId} {t u w : Tid}

/-! ## The holder is inside -/

/-- The lock is used through `lock_acquire` and `lock_release` alone. -/
def OnlyLocks {S : Type} (l : LockId) (_ : Kernel S) (e : Event) : Prop :=
  ∀ c, e = .call c → c.lock? = some l → c = .lockAcquire l ∨ c = .lockRelease l

/-- The release that `cv_signal` and `cv_broadcast` make is in no other
function. -/
theorem lock_of_mem_body {c : Call} (h : .lockDrop l false ∈ c.body t) :
    (∃ cv, c = .cvSignal cv l) ∨ ∃ cv, c = .cvBroadcast cv l := by
  cases c with
  | cvSignal cv l' =>
    obtain rfl : l = l' := by simpa [Call.body, Call.lockReleaseCode] using h
    exact .inl ⟨cv, rfl⟩
  | cvBroadcast cv l' =>
    obtain rfl : l = l' := by simpa [Call.body, Call.lockReleaseCode] using h
    exact .inr ⟨cv, rfl⟩
  | _ => simp [Call.body, Call.lockReleaseCode, Call.lockAcquireCode, Call.vCode] at h

/-- **A thread that is inside a lock stays its holder**, as long as no
signal makes the holder let go. -/
theorem inside_step (hs : Step k e k') (hin : ∀ t, k.inside t l = true → k.holder l = some t)
    (hsig : ∀ t r, k.code t = .lockDrop l false :: r → k.holder l ≠ some t)
    (ht : k'.inside t l = true) : k'.holder l = some t := by
  rcases hs.holder_cases with ⟨hh, hin'⟩ | ⟨u, l', b, rest, -, -, hfree, hh, hin', -⟩ |
    ⟨u, l', own, rest, -, hcode, hheld, hh, hin', -⟩
  · rw [hh]; exact hin t (hin' t l ht)
  · rw [hin', inside_setInside] at ht
    rw [hh]
    split at ht
    · rename_i hself
      rw [hself.1, hself.2, update_self]
    · by_cases hl : l = l'
      · -- nobody was inside the free lock
        subst hl
        rw [hin t ht] at hfree
        cases hfree
      · rw [update_of_ne hl]
        exact hin t ht
  · rw [hin'] at ht
    obtain ⟨ht', hnot⟩ := inside_endInside ht
    rw [hh]
    by_cases hl : l = l'
    · -- the holder let go by a release of its own, so it is not inside
      subst hl
      have heq : t = u := some.inj ((hin t ht').symm.trans hheld)
      cases own with
      | true => exact absurd ⟨rfl, heq, rfl⟩ hnot
      | false => exact absurd hheld (hsig u rest hcode)
    · rw [update_of_ne hl]
      exact hin t ht'

/-- **The invariant of one lock's holder.** -/
structure HolderInv (l : LockId) (k : ListKernel) : Prop where
  base : Base k
  noSignal : ∀ t, .lockDrop l false ∉ k.code t
  inside : ∀ t, k.inside t l = true → k.holder l = some t

theorem HolderInv.step (h : HolderInv l k) (hg : OnlyLocks l k e) (hs : Step k e k') :
    HolderInv l k' := by
  refine ⟨h.base.step hs, fun t hm => ?_, fun t ht => ?_⟩
  · rcases hs.mem_code hm with hm | heq | heq | ⟨_, _, heq, -⟩ | ⟨c, rfl, -, hm⟩
    · exact h.noSignal t hm
    · cases heq
    · cases heq
    · cases heq
    · rcases lock_of_mem_body hm with ⟨cv, rfl⟩ | ⟨cv, rfl⟩ <;>
        rcases hg _ rfl rfl with hc | hc <;> cases hc
  · exact inside_step hs h.inside
      (fun t r hcode => absurd (hcode ▸ List.mem_cons_self) (h.noSignal t)) ht

theorem holderInv_boot (l : LockId) (init : SemId → ℕ) : HolderInv l (boot init).lists where
  base := base_boot init
  noSignal := fun _ hm => by cases hm
  inside := fun _ ht => by cases ht

/-! ## No lost wakeup -/

/-- Thread `w` was woken for the lock and is runnable in the loop of
`lock_acquire`. -/
def Woken (k : ListKernel) (l : LockId) (w : Tid) : Prop :=
  (k.sys.cur = some w ∨ w ∈ k.sys.ready) ∧
  ∃ rest, k.code w = .awake :: .lockWait l true :: rest ∨ k.code w = .lockWait l true :: rest

/-- A woken thread stays on its way as long as the lock stays free. -/
theorem Woken.step (hb : Base k) (h : k.step placesOps e = some k') (hfree : k.holder l = none)
    (hfree' : k'.holder l = none) (hw : Woken k l w) : Woken k' l w := by
  have hs := step_cases h
  obtain ⟨hplace, rest, hcode⟩ := hw
  by_cases hc : k.sys.cur = some w
  · have hsafe := hb.running w hc
    rcases hcode with hcode | hcode
    · -- it comes back from the switch, and is still the current thread
      rw [hcode] at hsafe
      have hh := high_of_safe hsafe (by rintro ⟨⟩)
      obtain rfl := run_of_high hc hh hcode hs
      rw [step_run_high hc hh hcode (by rintro ⟨⟩) (by rintro ⟨⟩)] at h
      simp only [runHigh, placesOps, resume, hc, map_some,
        some.injEq] at h
      subst h
      exact ⟨.inl hc, rest, .inr (update_self ..)⟩
    · -- it looks at the free lock, and takes it
      rw [hcode] at hsafe
      have hh := high_of_safe hsafe (by rintro ⟨⟩)
      obtain rfl := run_of_high hc hh hcode hs
      rw [step_run_high hc hh hcode (by rintro ⟨⟩) (by rintro ⟨⟩)] at h
      simp only [runHigh, lockWait, hfree] at h
      obtain ⟨n, ns, -, rfl⟩ := leave_eq_some _ _ _ h
      simp at hfree'
  · have hr : w ∈ k.sys.ready := hplace.resolve_left hc
    have hlt := hb.ok.lt_next_of_mem (mem_all.2 (.inr (.inl hr)))
    refine ⟨(hs.ready_cases hr).symm, rest, ?_⟩
    rw [(hs.others hc hlt).1]
    exact hcode

/-- **The invariant of one lock's sleepers.** -/
structure WakeInv (l : LockId) (k : ListKernel) : Prop where
  base : Base k
  woken : k.holder l = none → ∀ u ∈ k.sys.asleep, k.sys.addr u = some (.lock l) →
    ∃ w, Woken k l w

/-- A release leaves nobody asleep on the lock, or the first sleeper woken. -/
theorem woken_of_release (hb : Base k) (hcode : ∀ v ∈ k.sys.asleep, k'.code v = k.code v)
    (hsys : k'.sys = k.sys.wakeupOne (.lock l)) (hu : u ∈ k'.sys.asleep)
    (ha : k'.sys.addr u = some (.lock l)) : ∃ w, Woken k' l w := by
  rw [hsys] at hu ha
  rw [wakeupOne_addr] at ha
  rcases wakeupOne_cases (.lock l) k.sys with ⟨hnil, -⟩ | ⟨w, ws, hon, heq⟩
  · have hmem := mem_sleepingOn.2 ⟨asleep_wakeupOne_subset hu, ha⟩
    rw [hnil] at hmem
    cases hmem
  · obtain ⟨hw, hwa⟩ := mem_sleepingOn.1 (hon ▸ List.mem_cons_self : w ∈ _)
    obtain ⟨a, next, h1, h2, h3⟩ := hb.asleep w hw
    obtain rfl := some.inj (h1.symm.trans hwa)
    refine ⟨w, .inr ?_, ?_⟩
    · rw [hsys, heq]
      exact List.mem_append_right _ (List.mem_singleton.2 rfl)
    · rw [hcode w hw]
      cases h3 with
      | lock => exact ⟨_, .inl h2⟩

theorem WakeInv.step (h : WakeInv l k) (hst : k.step placesOps e = some k') : WakeInv l k' := by
  have hs := step_cases hst
  refine ⟨h.base.step hs, fun hfree' u hu ha => ?_⟩
  -- a thread goes to sleep on the lock only where it sees a holder
  have hold : k.holder l = none → k'.holder l = none → ∃ w, Woken k' l w := by
    intro hfree hfree'
    rcases hs.asleep_cases h.base hu with ⟨hu', hnc⟩ | ⟨-, -, hh, a, next, hblk, ha'⟩
    · have hlt := h.base.ok.lt_next_of_mem (mem_all.2 (.inr (.inr (.inl hu'))))
      obtain ⟨w, hw⟩ := h.woken hfree u hu' ((hs.others hnc hlt).2 ▸ ha)
      exact ⟨w, hw.step h.base hst hfree hfree'⟩
    · obtain rfl := some.inj (ha'.symm.trans ha)
      generalize k.code u = code at hblk
      cases hblk with
      | lock hheld => rw [hfree] at hheld; cases hheld
  rcases hs.holder_cases with ⟨hh, -⟩ | ⟨t, l', b, rest, -, -, hfree, hh, -⟩ |
    ⟨t, l', own, rest, hc, -, hheld, hh, -, hsys, hcode⟩
  · exact hold (hh ▸ hfree') hfree'
  · by_cases hl : l = l'
    · subst hl; simp [hh] at hfree'
    · exact hold (by rwa [hh, update_of_ne hl] at hfree') hfree'
  · by_cases hl : l = l'
    · subst hl
      refine woken_of_release h.base (fun v hv => ?_) hsys hu ha
      have hvt : v ≠ t := fun e => h.base.ok.not_asleep_of_cur hc (e ▸ hv)
      rw [hcode, update_of_ne hvt]
    · exact hold (by rwa [hh, update_of_ne hl] at hfree') hfree'

theorem wakeInv_boot (l : LockId) (init : SemId → ℕ) : WakeInv l (boot init).lists where
  base := base_boot init
  woken := fun _ _ hu => by cases hu

/-! ## Both, for the kernel -/

/-- A release by a thread that does not hold the lock returns and does
nothing else. -/
theorem step_lockKeep {k k' : OsKernel} {own : Bool} {rest : List Instr}
    (hc : k.sys.curthread = some t) (hcode : k.code t = .lockDrop l own :: rest)
    (hheld : k.holder l ≠ some t) (h : k.step threadOps .run = some k') :
    k'.sys = k.sys ∧ k'.holder = k.holder ∧ k'.count = k.count := by
  have hcur : threadOps.cur k.sys = some t := hc
  simp only [Kernel.step, hcur, bind_some, hcode] at h
  unfold runInstr at h
  split at h
  · cases ‹Instr.lockDrop _ _ = _›
  · cases ‹Instr.lockDrop _ _ = _›
  · cases h
  · simp only [runHigh, lockDrop, if_neg hheld] at h
    obtain ⟨n, ns, -, rfl⟩ := leave_eq_some _ _ _ h
    simp

/-- **Lock safety with no lost wakeup**, in every state that any number of
threads bring about that use the lock `l` through `lock_acquire` and
`lock_release`. A thread between a `lock_acquire` that returned and its
`lock_release` is the holder, so there is at most one; a `lock_release` by
a thread that is not the holder changes nothing; and while the lock is free
and a thread is in `sleepers[]` on it, another thread that was woken for it
is runnable in the loop of `lock_acquire`. -/
theorem lock_safety (init : SemId → ℕ) (l : LockId) (k : OsKernel)
    (h : Runs.Reachable (Kernel.step threadOps) (OnlyLocks l) (boot init) k) :
    (∀ t, k.inside t l = true → k.holder l = some t) ∧
    (∀ t u, k.inside t l = true → k.inside u l = true → t = u) ∧
    (∀ t own rest k', k.sys.curthread = some t → k.code t = .lockDrop l own :: rest →
      k.holder l ≠ some t → k.step threadOps .run = some k' →
      k'.sys = k.sys ∧ k'.holder = k.holder ∧ k'.count = k.count) ∧
    (k.holder l = none →
      ∀ u ∈ k.sys.sleepers.toList, k.sys.sleepaddr u = some (.lock l) →
      ∃ w, w ≠ u ∧ w ∉ k.sys.sleepers.toList ∧
        (k.sys.curthread = some w ∨ w ∈ k.sys.runqueue.toList) ∧
        ∃ rest, k.code w = .awake :: .lockWait l true :: rest ∨
          k.code w = .lockWait l true :: rest) := by
  have hholder : HolderInv l k.lists :=
    Reachable.lists_invariant h (holderInv_boot l init) fun _ _ _ hi hg hs =>
      hi.step hg (step_cases hs)
  have hwake : WakeInv l k.lists :=
    Reachable.lists_invariant h (wakeInv_boot l init) fun _ _ _ hi _ hs => hi.step hs
  refine ⟨hholder.inside, fun t u ht hu => ?_, fun t own rest k' hc hcode hheld hs =>
    step_lockKeep hc hcode hheld hs, fun hfree u hu ha => ?_⟩
  · exact some.inj ((hholder.inside t ht).symm.trans (hholder.inside u hu))
  · obtain ⟨w, hplace, hcode⟩ := hwake.woken hfree u hu ha
    have hnot : w ∉ k.sys.sleepers.toList := by
      rcases hplace with hc | hr
      · exact hwake.base.ok.not_asleep_of_cur hc
      · exact hwake.base.ok.not_asleep_of_ready hr
    exact ⟨w, fun e => hnot (e ▸ hu), hnot, hplace, hcode⟩

/-- Two threads wait for a lock, and its holder lets it go: one is woken and
the other sleeps on. -/
def twoWaiters : List Event :=
  [.call .threadFork, .run, .run, .call .threadFork, .run, .run,
   .call (.lockAcquire 0), .run, .run, .call .threadYield, .run, .run,
   .switchTo, .run, .call (.lockAcquire 0), .run, .run,
   .switchTo, .run, .call (.lockAcquire 0), .run, .run,
   .switchTo, .run, .call (.lockRelease 0), .run, .run]

theorem lock_safety_two_waiters :
    ∃ k, Runs.exec (Kernel.step threadOps) (boot fun _ => 0) twoWaiters = some k ∧
      k.holder 0 = none ∧ 2 ∈ k.sys.sleepers.toList ∧
      ∃ w, w ≠ 2 ∧ (k.sys.curthread = some w ∨ w ∈ k.sys.runqueue.toList) := by
  obtain ⟨k, hk, hfree, hsl, ha⟩ := Runs.exists_of_exec (step threadOps)
    (boot fun _ => 0) twoWaiters
    (fun k => k.holder 0 = none ∧ k.sys.sleepers.toList = [2] ∧
      k.sys.sleepaddr 2 = some (.lock 0)) (by decide +kernel)
  have hmem : 2 ∈ k.sys.sleepers.toList := by rw [hsl]; exact List.mem_singleton.2 rfl
  have honly : ∀ k : OsKernel, ∀ e ∈ twoWaiters, OnlyLocks 0 k e := by
    have hcalls : ∀ e ∈ twoWaiters, e ∈ [.run, .switchTo, .call .threadFork, .call .threadYield,
        .call (.lockAcquire 0), .call (.lockRelease 0)] := by decide
    rintro _ _ he c rfl hl
    have hc := hcalls _ he
    simp only [List.mem_cons, reduceCtorEq, Event.call.injEq, false_or, List.not_mem_nil,
      or_false] at hc
    rcases hc with rfl | rfl | rfl | rfl
    · cases hl
    · cases hl
    · exact .inl rfl
    · exact .inr rfl
  obtain ⟨w, hne, -, hplace, -⟩ :=
    (lock_safety _ 0 k (Runs.Reachable.exec .refl honly hk)).2.2.2 hfree 2 hmem ha
  exact ⟨k, hk, hfree, hmem, w, hne, hplace⟩

end Synch

end Os161
