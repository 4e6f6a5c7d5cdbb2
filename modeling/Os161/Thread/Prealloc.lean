import Os161.Thread.Partition
/-!
# The promise of the preallocated slots

`thread_fork` preallocates `numthreads + 1` slots in `sleepers[]` and
`zombies[]`, so that `mi_switch` need not ask for memory. For `sleepers[]`
the promise is kept from the first fork on: the table never shrinks, and
holds no more than `numthreads`. For `zombies[]` it can break in two ways.
`exorcise` gives the slots back once there are more than 16, and the next
fork is what brings them back; and a fork counts the threads without the
zombies, which stay in the table as long as only new threads are switched
to. Before the first fork neither table has a slot.

`Prepared` rules the three out, and under it every slot is there
(`findsSlot_of_prepared`).
-/

namespace Os161

namespace Thread

open Lib PtrArray ThreadSys

variable {A : Type} {s s' : ThreadSys A}

/-- The `array_add` that an operation of the current thread makes in
`mi_switch` finds a free slot, and goes through with no memory to be had. -/
def FindsSlot (s : ThreadSys A) : Op A → Prop
  | .sleep _ => s.sleepers.num + 1 ≤ s.sleepers.max ∧
      ∀ t, (s.sleepers.arrayAdd (fun _ => false) t).isSome
  | .exit => s.zombies.num + 1 ≤ s.zombies.max ∧
      ∀ t, (s.zombies.arrayAdd (fun _ => false) t).isSome
  | _ => True

/-- The condition on an operation and the state before it. A thread sleeps
or exits only once some thread has been forked. A fork leaves at most 14
threads, and while zombies are waiting it is made only if `zombies[]` has
slots for them and for every thread. -/
def Prepared (s : ThreadSys A) : Op A → Prop
  | .sleep _ => 1 < s.created
  | .exit => 1 < s.created
  | .fork => s.numthreads + 1 ≤ 14 ∧
      (s.zombies.num = 0 ∨ s.zombies.num + s.numthreads + 1 ≤ s.zombies.max)
  | _ => True

/-- A free slot is enough: no memory is asked for. -/
theorem arrayAdd_isSome_of_lt {a : PtrArray Tid} (h : a.num + 1 ≤ a.max) (t : Tid) :
    (a.arrayAdd (fun _ => false) t).isSome := by
  rw [arrayAdd_of_lt h]; rfl

/-- The capacities `array_preallocate` goes through while it is asked for
at most 14 slots. -/
def smallCapacities : List ℕ := [0, 2, 6, 14]

theorem newMax_small {m n : ℕ} (hm : m ∈ smallCapacities) (hn : n ≤ 14) :
    newMax m n ∈ smallCapacities := by
  have h : ∀ m ∈ smallCapacities, ∀ n < 15, newMax m n ∈ smallCapacities := by decide
  exact h m hm n (by omega)

/-- **The invariant of the capacities.** `zombies[]` never grows to where
`exorcise` gives its slots back, and once a thread has been forked there are
slots for every thread to sleep and for every thread to die. -/
structure Slots (s : ThreadSys A) : Prop where
  ok : s.places.Ok
  created_pos : 1 ≤ s.created
  small : s.zombies.max ∈ smallCapacities
  sleepers_le : 1 < s.created → s.numthreads ≤ s.sleepers.max
  zombies_le : 1 < s.created → s.zombies.num + s.numthreads ≤ s.zombies.max

/-! ## What each operation does to the capacities -/

/-- Of the current thread, the ready and the sleeping, the sleeping are
fewer than `numthreads` while a thread runs. -/
theorem sleepers_num_lt (hok : s.places.Ok) {t : Tid} (hc : s.curthread = some t) :
    s.sleepers.num + 1 ≤ s.numthreads := by
  have := hok.num_eq
  simp only [places, hc, Option.toList_some, List.length_append, List.length_cons,
    List.length_nil, length_toList] at this
  omega

theorem numthreads_pos (hok : s.places.Ok) {t : Tid} (hc : s.curthread = some t) :
    0 < s.numthreads :=
  Nat.lt_of_lt_of_le (Nat.succ_pos _) (sleepers_num_lt hok hc)

/-- **A prepared operation finds its slot.** -/
theorem Slots.findsSlot (hs : Slots s) {op : Op A} (hp : Prepared s op) {t : Tid}
    (hc : s.curthread = some t) : FindsSlot s op := by
  have hlt := sleepers_num_lt hs.ok hc
  cases op with
  | sleep a =>
    have hle : s.sleepers.num + 1 ≤ s.sleepers.max := le_trans hlt (hs.sleepers_le hp)
    exact ⟨hle, arrayAdd_isSome_of_lt hle⟩
  | exit =>
    have hle : s.zombies.num + 1 ≤ s.zombies.max := by
      have := hs.zombies_le hp
      omega
    exact ⟨hle, arrayAdd_isSome_of_lt hle⟩
  | fork | yield | resume | wakeup a | wakeupOne a | switchTo => trivial

/-- A fork makes the slots it promises. -/
theorem slots_fork {r : Tid × ThreadSys A} (h : s.threadFork = some r) :
    r.2.zombies.num = s.zombies.num ∧ r.2.created = s.created + 1 ∧
    r.2.numthreads = s.numthreads + 1 ∧
    r.2.sleepers.max = newMax s.sleepers.max (s.numthreads + 1) ∧
    r.2.zombies.max = newMax s.zombies.max (s.numthreads + 1) := by
  obtain ⟨c, hc, h⟩ := Option.bind_eq_some_iff.1 h
  obtain ⟨sl, hsl, h⟩ := Option.bind_eq_some_iff.1 h
  obtain ⟨zo, hzo, h⟩ := Option.bind_eq_some_iff.1 h
  obtain ⟨rq, hrq, h⟩ := Option.bind_eq_some_iff.1 h
  obtain ⟨s₁, hs₁, rfl⟩ := Option.map_eq_some_iff.1 h
  obtain ⟨q, -, rfl⟩ := Option.map_eq_some_iff.1 hs₁
  obtain ⟨-, -, hslm⟩ := arrayPreallocate_spec hsl
  obtain ⟨-, hzon, hzom⟩ := arrayPreallocate_spec hzo
  exact ⟨hzon, rfl, rfl, hslm, hzom⟩

section

variable (hs : Slots s)

include hs

/-- Where only the places change and the capacities stay, only the count of
zombies and of threads matters. -/
theorem Slots.of_caps (hok : s'.places.Ok) (hcr : s'.created = s.created)
    (hsl : s'.sleepers.max = s.sleepers.max) (hzo : s'.zombies.max = s.zombies.max)
    (hn : s'.numthreads ≤ s.numthreads)
    (hz : s'.zombies.num + s'.numthreads ≤ s.zombies.num + s.numthreads) : Slots s' where
  ok := hok
  created_pos := hcr ▸ hs.created_pos
  small := hzo ▸ hs.small
  sleepers_le := fun h => by
    rw [hsl]; exact le_trans hn (hs.sleepers_le (hcr ▸ h))
  zombies_le := fun h => by
    rw [hzo]; exact le_trans hz (hs.zombies_le (hcr ▸ h))

theorem Slots.fork (hp : Prepared s .fork) {r : Tid × ThreadSys A}
    (h : s.threadFork = some r) (hok : r.2.places.Ok) : Slots r.2 := by
  obtain ⟨hzn, hcr, hn, hslm, hzom⟩ := slots_fork h
  have hle := le_newMax s.zombies.max (s.numthreads + 1)
  have hge := le_newMax_right s.zombies.max (s.numthreads + 1)
  refine ⟨hok, by omega, hzom ▸ newMax_small hs.small hp.1, fun _ => ?_, fun _ => ?_⟩
  · rw [hn, hslm]
    exact le_newMax_right _ _
  · -- with no zombie waiting the new slots are enough; otherwise the old ones are
    rcases hp.2 with h0 | hroom <;> omega

/-- A thread that goes to sleep in a free slot moves no capacity. -/
theorem Slots.sleep {a : A} (hp : Prepared s (.sleep a))
    (h : s.threadSleep a = some s') (hok : s'.places.Ok) : Slots s' := by
  obtain ⟨t, hc, h⟩ := Option.bind_eq_some_iff.1 h
  have hslot := (hs.findsSlot hp hc).1
  simp only [miSwitch, hc, arrayAdd_of_lt hslot, Option.map_some,
    Option.some.injEq] at h
  subst h
  exact hs.of_caps hok rfl rfl rfl le_rfl le_rfl

theorem Slots.exit (hp : Prepared s .exit) (h : s.threadExit = some s')
    (hok : s'.places.Ok) : Slots s' := by
  obtain ⟨t, hc, h⟩ := Option.bind_eq_some_iff.1 h
  have hslot := (hs.findsSlot hp hc).1
  have hpos := numthreads_pos hs.ok hc
  simp only [if_pos hpos, miSwitch, hc, arrayAdd_of_lt hslot,
    Option.map_some, Option.some.injEq] at h
  subst h
  exact hs.of_caps hok rfl rfl rfl (Nat.sub_le _ _) (by simp only; omega)

/-- A switch empties `zombies[]` or leaves it alone, and keeps its slots. -/
theorem Slots.switchTo (h : s.switchTo = some s') (hok : s'.places.Ok) :
    Slots s' := by
  unfold ThreadSys.switchTo at h
  split at h
  · cases h
  · obtain ⟨nq, -, h⟩ := Option.bind_eq_some_iff.1 h
    split at h
    · obtain rfl := Option.some.inj h
      exact hs.of_caps hok rfl rfl rfl le_rfl le_rfl
    · obtain ⟨z, hz, hzmax, he⟩ := exorcise_eq
        { s with curthread := some nq.1, runqueue := nq.2 }
      rw [he] at h
      split at h
      · cases h
      · obtain rfl := Option.some.inj h
        have hz0 : z.num = 0 := by rw [← length_toList, hz]; rfl
        have hsmall : ¬ 16 < s.zombies.max := by
          have : ∀ m ∈ smallCapacities, ¬ 16 < m := by decide
          exact this _ hs.small
        rw [if_neg hsmall] at hzmax
        exact hs.of_caps hok rfl rfl hzmax le_rfl (by simp only [hz0]; omega)

/-- **Every prepared operation keeps the invariant of the capacities.** -/
theorem slots_step [DecidableEq A] {op : Op A} (hp : Prepared s op)
    (h : step s op = some s') : Slots s' := by
  have hok : s'.places.Ok := ok_step hs.ok h
  cases op with
  | fork =>
    obtain ⟨r, hr, rfl⟩ := Option.map_eq_some_iff.1 h
    exact hs.fork hp hr hok
  | yield =>
    simp only [step, threadYield, miSwitch] at h
    split at h
    · exact Option.some.inj h ▸ hs
    · obtain ⟨q, -, rfl⟩ := Option.map_eq_some_iff.1 h
      exact hs.of_caps hok rfl rfl rfl le_rfl le_rfl
  | sleep a => exact hs.sleep hp h hok
  | resume =>
    obtain ⟨t, -, rfl⟩ := Option.map_eq_some_iff.1 h
    exact hs.of_caps hok rfl rfl rfl le_rfl le_rfl
  | wakeup a =>
    obtain ⟨q, sl, hw, hmax, -, -⟩ :=
      wakeupLoop_spec a (List.nil_append _).symm (length_toList s.sleepers).le
    obtain rfl := Option.some.inj (hw.symm.trans h)
    exact hs.of_caps hok rfl hmax rfl le_rfl le_rfl
  | wakeupOne a =>
    obtain ⟨q, sl, hw, hmax, -, -⟩ :=
      wakeupOneLoop_spec a (List.nil_append _).symm (length_toList s.sleepers).le
    obtain rfl := Option.some.inj (hw.symm.trans h)
    exact hs.of_caps hok rfl hmax rfl le_rfl le_rfl
  | exit => exact hs.exit hp h hok
  | switchTo => exact hs.switchTo h hok

end

theorem slots_threadBootstrap : Slots (threadBootstrap : ThreadSys A) where
  ok := ok_threadBootstrap
  created_pos := le_rfl
  small := List.mem_cons_self
  sleepers_le := fun h => absurd h (lt_irrefl 1)
  zombies_le := fun h => absurd h (lt_irrefl 1)

/-- **The slots are there.** In every run whose operations are all prepared,
every `array_add` that `mi_switch` performs finds a free slot and completes
without memory. -/
theorem findsSlot_of_prepared [DecidableEq A] (s s' : ThreadSys A) (op : Op A)
    (hr : Runs.Reachable step Prepared threadBootstrap s) (hp : Prepared s op)
    (h : step s op = some s') : FindsSlot s op := by
  have hs : Slots s := hr.invariant slots_threadBootstrap fun _ _ _ hs hp h => slots_step hs hp h
  cases op with
  | sleep a | exit =>
    obtain ⟨t, hc, -⟩ := Option.bind_eq_some_iff.1 h
    exact hs.findsSlot hp hc
  | fork | yield | resume | wakeup a | wakeupOne a | switchTo => trivial

/-- The boot thread forks a thread and sleeps. -/
theorem findsSlot_of_prepared_fork_sleep :
    ∃ s s' : ThreadSys Unit, step s (.sleep ()) = some s' ∧ s.sleepers.max = 2 ∧
      FindsSlot s (.sleep ()) := by
  have hf : Prepared (threadBootstrap : ThreadSys Unit) .fork := ⟨by decide, .inl rfl⟩
  refine ⟨_, _, rfl, ?_, findsSlot_of_prepared _ _ _
    (.tail (e := .fork) .refl hf rfl) (by decide : 1 < 2) rfl⟩
  rfl

/-- The boot thread forks 14 threads, and the 15 take a turn each. -/
def fifteenThreads : List (Op Unit) :=
  List.replicate 14 .fork ++ (List.replicate 15 [.yield, .switchTo]).flatten

/-- **The promise breaks.** The boot thread sleeps before it has forked, as
it does in the menu's first wait for a key, and `sleepers[]` has no slot;
and the boot thread exits after each of 15 threads has had a turn, when
`exorcise` has given back the slots of `zombies[]`. -/
theorem not_findsSlot :
    (∃ s' : ThreadSys Unit, step threadBootstrap (.sleep ()) = some s' ∧
      ¬ FindsSlot (threadBootstrap : ThreadSys Unit) (.sleep ())) ∧
    ∃ s s' : ThreadSys Unit, Runs.exec step threadBootstrap fifteenThreads = some s ∧
      step s .exit = some s' ∧ ¬ FindsSlot s .exit := by
  refine ⟨⟨_, rfl, fun h => absurd h.1 (by decide)⟩, _, _, rfl, rfl, fun h => absurd h.1 ?_⟩
  decide

end Thread

end Os161
