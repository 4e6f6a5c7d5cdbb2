import Os161.Thread.Partition
/-!
# The promise of the preallocated run queue

`thread_fork` has the ring of the run queue grown to `numthreads + 1` slots,
so that `make_runnable` need not ask for memory. A ring of `n` slots holds
`n - 1` elements, so the promise is one short: it is broken when `numthreads`
is the size of the ring and every thread is runnable (`growsRing_iff`). That
is the case with 32 threads, and then with 64.
-/

namespace Os161

namespace Thread

open Lib Places RingQueue ThreadSys List

variable {A : Type} {s s' : ThreadSys A}

namespace ThreadSys

theorem added_makeRunnable {t : Tid} (h : makeRunnable t s = some s') :
    RingQueue.Added s.runqueue s'.runqueue := by
  obtain ⟨q, hq, rfl⟩ := Option.map_eq_some_iff.1 h
  exact added_qAddtail kmallocOk_eq hq

/-- A switch takes from the run queue and leaves the ring as large as it was. -/
theorem size_switchTo (h : s.switchTo = some s') :
    s'.runqueue.size = s.runqueue.size ∧ s'.numthreads = s.numthreads := by
  unfold switchTo at h
  split at h
  · cases h
  obtain ⟨⟨t, q⟩, hq, h⟩ := Option.bind_eq_some_iff.1 h
  have hsize : q.size = s.runqueue.size := by
    unfold qRemhead at hq
    split at hq
    · cases hq
    · cases hq
      rfl
  split at h
  · cases h
    exact ⟨hsize, rfl⟩
  · obtain ⟨z, -, -, he⟩ := exorcise_eq { s with curthread := some t, runqueue := q }
    rw [he] at h
    split at h
    · cases h
    · cases h
      exact ⟨hsize, rfl⟩

variable [DecidableEq A]

theorem added_wakeupLoop {a : A} {fuel i : ℕ} (h : wakeupLoop a fuel i s = some s') :
    RingQueue.Added s.runqueue s'.runqueue := by
  induction fuel generalizing i s with
  | zero =>
    obtain rfl := Option.some.inj h
    exact .refl _
  | succ fuel ih =>
    rw [wakeupLoop] at h
    split at h
    · simp only at h
      split at h
      · obtain ⟨s₁, h₁, h₂⟩ := Option.bind_eq_some_iff.1 h
        have hmake := added_makeRunnable h₁
        exact hmake.trans (ih h₂)
      · exact ih h
    · obtain rfl := Option.some.inj h
      exact .refl _

theorem added_wakeupOneLoop {a : A} {fuel i : ℕ} (h : wakeupOneLoop a fuel i s = some s') :
    RingQueue.Added s.runqueue s'.runqueue := by
  induction fuel generalizing i s with
  | zero =>
    obtain rfl := Option.some.inj h
    exact .refl _
  | succ fuel ih =>
    rw [wakeupOneLoop] at h
    split at h
    · simp only at h
      split at h
      · have hmake := added_makeRunnable h
        exact hmake
      · exact ih h
    · obtain rfl := Option.some.inj h
      exact .refl _

end ThreadSys

/-- Every thread is ready if none runs and none sleeps. -/
theorem count_eq_numthreads_iff (hok : s.places.Ok) :
    s.runqueue.count = s.numthreads ↔ s.places.cur = none ∧ s.places.asleep = [] := by
  have hnum : s.numthreads =
      (s.places.cur.toList ++ s.runqueue.toList ++ s.places.asleep).length := hok.num_eq
  simp only [length_append, length_toList] at hnum
  rw [hnum, ← length_eq_zero_iff, ← Option.toList_eq_nil_iff, ← length_eq_zero_iff]
  omega

/-- The operations that call `make_runnable` for a thread that exists: those
of `mi_switch` and of the two wakeups. -/
def Op.MakesRunnable : Op A → Prop
  | .yield => True
  | .wakeup _ => True
  | .wakeupOne _ => True
  | _ => False

variable [DecidableEq A] {op : Op A}

theorem added_step (hop : op.MakesRunnable) (h : step s op = some s') :
    RingQueue.Added s.runqueue s'.runqueue ∧ s'.numthreads = s.numthreads := by
  cases op with
  | yield =>
    simp only [step, threadYield, miSwitch] at h
    split at h
    · obtain rfl := Option.some.inj h
      exact ⟨.refl _, rfl⟩
    · have hadd := added_makeRunnable h
      obtain ⟨q, -, rfl⟩ := Option.map_eq_some_iff.1 h
      exact ⟨hadd, rfl⟩
  | wakeup a =>
    have hadd : RingQueue.Added s.runqueue s'.runqueue := added_wakeupLoop h
    obtain ⟨q, sl, hw, -⟩ := wakeupLoop_spec a (nil_append _).symm (PtrArray.length_toList _).le
    obtain rfl := Option.some.inj (h.symm.trans hw)
    exact ⟨hadd, rfl⟩
  | wakeupOne a =>
    have hadd : RingQueue.Added s.runqueue s'.runqueue := added_wakeupOneLoop h
    obtain ⟨q, sl, hw, -⟩ := wakeupOneLoop_spec a (nil_append _).symm (PtrArray.length_toList _).le
    obtain rfl := Option.some.inj (h.symm.trans hw)
    exact ⟨hadd, rfl⟩
  | fork | sleep a | resume | exit | switchTo => cases hop

/-! ## What the promise does give -/

/-- **The ring has a slot for every thread**, and so it is at most one short. -/
theorem numthreads_le_size (h : Reachable s) : s.numthreads ≤ s.runqueue.size := by
  refine h.invariant (I := fun s => s.numthreads ≤ s.runqueue.size) ?_ ?_
  · exact Nat.succ_le_of_lt (by decide : 0 < 32)
  intro s op s' hle _ hstep
  by_cases hop : op.MakesRunnable
  · obtain ⟨hadd, hnum⟩ := added_step hop hstep
    rw [hnum]
    exact hle.trans hadd.size
  cases op with
  | fork =>
    obtain ⟨r, hr, rfl⟩ := Option.map_eq_some_iff.1 hstep
    obtain ⟨c, -, hr⟩ := Option.bind_eq_some_iff.1 hr
    obtain ⟨sl, -, hr⟩ := Option.bind_eq_some_iff.1 hr
    obtain ⟨zo, -, hr⟩ := Option.bind_eq_some_iff.1 hr
    obtain ⟨rq, hrq, hr⟩ := Option.bind_eq_some_iff.1 hr
    obtain ⟨s₁, hs₁, rfl⟩ := Option.map_eq_some_iff.1 hr
    have hsize := (added_makeRunnable hs₁).size
    have hpre := le_size_of_qPreallocate hrq
    obtain ⟨q, -, rfl⟩ := Option.map_eq_some_iff.1 hs₁
    exact hpre.trans hsize
  | yield | wakeup a | wakeupOne a => exact absurd trivial hop
  | sleep a =>
    obtain ⟨t, hc, hstep⟩ := Option.bind_eq_some_iff.1 hstep
    simp only [miSwitch, hc] at hstep
    obtain ⟨z, -, rfl⟩ := Option.map_eq_some_iff.1 hstep
    exact hle
  | resume =>
    obtain ⟨t, -, rfl⟩ := Option.map_eq_some_iff.1 hstep
    exact hle
  | exit =>
    obtain ⟨t, hc, hstep⟩ := Option.bind_eq_some_iff.1 hstep
    split at hstep
    · simp only [miSwitch, hc] at hstep
      obtain ⟨z, -, rfl⟩ := Option.map_eq_some_iff.1 hstep
      exact (Nat.sub_le _ _).trans hle
    · cases hstep
  | switchTo =>
    obtain ⟨hsize, hnum⟩ := size_switchTo hstep
    rw [hnum, hsize]
    exact hle

/-! ## When the promise is broken -/

/-- The step makes the ring of the run queue grow: `make_runnable` asks for
memory. -/
def GrowsRing (s : ThreadSys A) (op : Op A) : Prop :=
  ∃ s', step s op = some s' ∧ s'.runqueue.size ≠ s.runqueue.size

/-- The step makes the last thread runnable that was not: the current thread
gives way while no thread is asleep, or there is no current thread and all
the sleepers are woken. -/
def MakesAllReady (s : ThreadSys A) : Op A → Prop
  | .yield => s.sleepers.toList = []
  | .wakeup a => s.curthread = none ∧ ∀ t ∈ s.sleepers.toList, s.sleepaddr t = some a
  | .wakeupOne a => s.curthread = none ∧ s.sleepers.toList.length ≤ 1 ∧
      ∀ t ∈ s.sleepers.toList, s.sleepaddr t = some a
  | _ => False

theorem asleep_wakeupOne_eq_nil_iff {p : Places A} {a : A} :
    (p.wakeupOne a).asleep = [] ↔ p.asleep.length ≤ 1 ∧ ∀ t ∈ p.asleep, p.addr t = some a := by
  unfold wakeupOne
  split
  · next hnil =>
    -- no thread sleeps on the address, so none may be asleep at all
    constructor
    · intro h
      rw [h]
      exact ⟨Nat.zero_le 1, fun t ht => absurd ht not_mem_nil⟩
    · rintro ⟨-, hall⟩
      refine eq_nil_iff_forall_not_mem.2 fun t ht => ?_
      have hmem : t ∈ p.sleepingOn a := mem_sleepingOn.2 ⟨ht, hall t ht⟩
      rw [hnil] at hmem
      exact absurd hmem not_mem_nil
  · next t ts hcons =>
    have hmem : t ∈ p.asleep ∧ p.addr t = some a :=
      mem_sleepingOn.1 (hcons ▸ mem_cons_self)
    have hpos := length_pos_of_mem hmem.1
    have hlen := length_erase_of_mem hmem.1
    rw [← length_eq_zero_iff, hlen]
    constructor
    · intro h
      obtain ⟨u, hu⟩ := length_eq_one_iff.1 (by omega : p.asleep.length = 1)
      rw [hu] at hmem ⊢
      refine ⟨le_rfl, fun v hv => ?_⟩
      rw [mem_singleton.1 hv, ← mem_singleton.1 hmem.1]
      exact hmem.2
    · rintro ⟨h, -⟩
      omega

theorem count_step_iff (hok : s.places.Ok) (hop : op.MakesRunnable) (h : step s op = some s') :
    s'.runqueue.count = s'.numthreads ↔ MakesAllReady s op := by
  rw [count_eq_numthreads_iff (ok_step hok h)]
  cases op with
  | yield =>
    have hp := Option.some.inj (eq_some_places h s.places_threadYield)
    rw [← hp]
    unfold yield
    split
    · next hc => exact ⟨fun h => h.2, fun h => ⟨hc, h⟩⟩
    · exact ⟨fun h => h.2, fun h => ⟨rfl, h⟩⟩
  | wakeup a =>
    have hp := Option.some.inj (eq_some_places h (s.places_threadWakeup a))
    rw [← hp]
    refine and_congr Iff.rfl ?_
    simp only [wakeup, filter_eq_nil_iff, decide_not, Bool.not_eq_true',
      decide_eq_false_iff_not, not_not]
    rfl
  | wakeupOne a =>
    have hp := Option.some.inj (eq_some_places h (s.places_threadWakeupOne a))
    rw [← hp, wakeupOne_cur]
    exact and_congr Iff.rfl asleep_wakeupOne_eq_nil_iff
  | fork | sleep a | resume | exit | switchTo => cases hop

/-- **The ring grows exactly when it is one slot short.** -/
theorem size_ne_iff (h : Reachable s) (hop : op.MakesRunnable) (hstep : step s op = some s') :
    s'.runqueue.size ≠ s.runqueue.size ↔
      s.numthreads = s.runqueue.size ∧ MakesAllReady s op := by
  obtain ⟨hadd, hnum⟩ := added_step hop hstep
  have hle := numthreads_le_size h
  have hok' := ok_step h.ok hstep
  have hcount : s'.runqueue.count ≤ s'.numthreads := by
    have heq := hok'.num_eq
    simp only [places, length_append, length_toList] at heq
    omega
  rw [Ne, hadd.size_eq_iff, ← count_step_iff h.ok hop hstep]
  omega

/-- Every operation that makes a thread runnable returns. -/
theorem step_isSome (hop : op.MakesRunnable) (s : ThreadSys A) : ∃ s', step s op = some s' := by
  cases op with
  | yield =>
    obtain ⟨s', hs', -⟩ := Option.map_eq_some_iff.1 s.places_threadYield
    exact ⟨s', hs'⟩
  | wakeup a =>
    obtain ⟨s', hs', -⟩ := Option.map_eq_some_iff.1 (s.places_threadWakeup a)
    exact ⟨s', hs'⟩
  | wakeupOne a =>
    obtain ⟨s', hs', -⟩ := Option.map_eq_some_iff.1 (s.places_threadWakeupOne a)
    exact ⟨s', hs'⟩
  | fork | sleep a | resume | exit | switchTo => cases hop

theorem growsRing_iff (h : Reachable s) (hop : op.MakesRunnable) :
    GrowsRing s op ↔ s.numthreads = s.runqueue.size ∧ MakesAllReady s op := by
  obtain ⟨s', hstep⟩ := step_isSome hop s
  rw [← size_ne_iff h hop hstep]
  constructor
  · rintro ⟨s₁, hs₁, hsize⟩
    obtain rfl := Option.some.inj (hstep.symm.trans hs₁)
    exact hsize
  · intro hsize
    exact ⟨s', hstep, hsize⟩

/-- A ring of the size of `q` that is full: only the slot it keeps empty is left. -/
def fullRing {α : Type} (q : RingQueue α) : RingQueue α :=
  { q with
    nextread := 0
    nextwrite := q.size - 1
    nextread_lt := q.size_pos
    nextwrite_lt := Nat.sub_lt q.size_pos Nat.one_pos }

/-- **What the preallocation of the run queue is good for.** After
`q_preallocate(q, n)` the queue takes an element without memory whenever it
holds fewer than `n`, unless the ring has exactly `n` slots. And in every
reachable state of the thread system, `make_runnable` called from `mi_switch`
or from a wakeup asks for no memory unless there are as many threads as slots
and the call makes the last of them runnable. -/
theorem preallocation_promise_iff :
    (∀ (α : Type) (km : ℕ → Bool) (q q' : RingQueue α) (n : ℕ) (x : α),
      RingQueue.qPreallocate km q n = some q' →
      ((∀ r : RingQueue α, r.size = q'.size → r.count < n →
        RingQueue.qAddtail (fun _ => false) r x = some (r.put x)) ↔ n ≠ q'.size)) ∧
    ∀ (s : ThreadSys A) (op : Op A), Reachable s → op.MakesRunnable →
      (¬ GrowsRing s op ↔ ¬ (s.numthreads = s.runqueue.size ∧ MakesAllReady s op)) := by
  refine ⟨fun α km q q' n x hpre => ?_, fun s op h hop => not_congr (growsRing_iff h hop)⟩
  have hle := le_size_of_qPreallocate hpre
  have hpos := q'.size_pos
  constructor
  · rintro hall rfl
    have hcount : (fullRing q').count = q'.size - 1 := rfl
    have hadd := hall (fullRing q') rfl (by omega)
    have hlt := qAddtail_noMemory_iff.1 hadd
    rw [hcount] at hlt
    exact absurd hlt (by simp only [fullRing]; omega)
  · intro hn r hsize hcount
    exact qAddtail_noMemory_iff.2 (by omega)

/-- One thread forked another and gives way to it: the ring stays as it is. -/
theorem preallocation_promise_two_threads :
    (∃ s : ThreadSys Unit, Runs.exec step threadBootstrap [.fork] = some s ∧
      ¬ GrowsRing s .yield) ∧
    ∀ r : RingQueue ℕ, r.size = 4 → r.count < 3 →
      RingQueue.qAddtail (fun _ => false) r 7 = some (r.put 7) := by
  constructor
  · have hr : Runs.exec step (threadBootstrap : ThreadSys Unit) [.fork] = some _ := rfl
    refine ⟨_, hr, ((preallocation_promise_iff (A := Unit)).2 _ .yield
      (Runs.reachable_of_exec hr) trivial).2 ?_⟩
    rintro ⟨hnum, -⟩
    exact absurd hnum (by decide)
  · have hpre : qPreallocate (fun _ => true) (qCreate 4 (by decide) : RingQueue ℕ) 3 =
        some (qCreate 4 (by decide)) := rfl
    exact ((preallocation_promise_iff (A := Unit)).1 ℕ _ _ _ 3 7 hpre).2 (by decide)

/-- **With 32 threads the promise is broken.** The boot thread forks 31
others. Each fork finds the ring of 32 slots large enough, and when the boot
thread then gives way, with the 31 others on the run queue, the ring is full
and grows to 64 slots. -/
theorem runqueue_grows_at_32 :
    ∃ s : ThreadSys Unit, Runs.exec step threadBootstrap (List.replicate 31 .fork) = some s ∧
      s.numthreads = 32 ∧ s.runqueue.size = 32 ∧ s.runqueue.count = 31 ∧
      RingQueue.qAddtail (fun _ => false) s.runqueue 0 = none ∧
      ∃ s', step s .yield = some s' ∧ s'.runqueue.size = 64 := by
  obtain ⟨s, hs, hnum, hsize, hcount, hnone, hyield⟩ := Runs.exists_of_exec step
    (threadBootstrap : ThreadSys Unit) (replicate 31 .fork)
    (fun s => s.numthreads = 32 ∧ s.runqueue.size = 32 ∧ s.runqueue.count = 31 ∧
      (qAddtail (fun _ => false) s.runqueue 0).isNone ∧
      (step s .yield).any fun s' => s'.runqueue.size = 64) (by decide +kernel)
  obtain ⟨s', hs', hsize'⟩ := (Option.any_eq_true _ _).1 hyield
  exact ⟨s, hs, hnum, hsize, hcount, Option.isNone_iff_eq_none.1 hnone, s', hs',
    of_decide_eq_true hsize'⟩

end Thread

end Os161
