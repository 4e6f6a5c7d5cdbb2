import Os161.Synch.Frame
/-!
# The law of semaphores

The count of a semaphore is what it started with, plus the `V`s that
returned, less the `P`s that returned; it is never negative; and while it is
positive nobody is asleep on the semaphore. The last part is what `V` owes
its waking of every sleeper: a thread goes to sleep only where it has seen
the count at 0 with interrupts off, and the step that makes the count
positive leaves no sleeper behind.
-/

namespace Os161

namespace Synch

open Thread Function

variable {init : SemId → ℕ} {k k' : ListKernel} {e : Event}

/-- **The invariant of the semaphores.** -/
structure SemLaw (init : SemId → ℕ) (k : ListKernel) : Prop where
  base : Base k
  count_eq : ∀ s, k.count s = init s + k.ups s - k.downs s
  nonneg : ∀ s, 0 ≤ k.count s
  awake : ∀ s, 0 < k.count s → ∀ u ∈ k.sys.asleep, k.sys.addr u ≠ some (.sem s)

/-- A step that moves no count lets a thread sleep only where the count is 0. -/
theorem SemLaw.awake_of_same (h : SemLaw init k) (hs : Step k e k') (hcount : k'.count = k.count)
    {s : SemId} (hpos : 0 < k'.count s) {u : Tid} (hu : u ∈ k'.sys.asleep) :
    k'.sys.addr u ≠ some (.sem s) := by
  rw [hcount] at hpos
  rcases hs.asleep_cases h.base hu with ⟨hu', hnc⟩ | ⟨-, -, -, a, next, hblk, ha⟩
  · have hlt := h.base.ok.lt_next_of_mem (Places.mem_all.2 (.inr (.inr (.inl hu'))))
    rw [(hs.others hnc hlt).2]
    exact h.awake s hpos u hu'
  · rw [ha]
    intro heq
    obtain rfl := Option.some.inj heq
    generalize k.code u = code at hblk
    cases hblk with
    | sem hzero => omega

theorem SemLaw.step (h : SemLaw init k) (hs : Step k e k') : SemLaw init k' := by
  have hbase := h.base.step hs
  rcases hs.count_cases with ⟨hc, hu, hd⟩ | ⟨s, hpos, hc, hu, hd, hsys⟩ |
    ⟨s, hpos, hc, hu, hd, hsys⟩
  · refine ⟨hbase, fun s => ?_, fun s => ?_, fun s hp u hm => h.awake_of_same hs hc hp hm⟩
    · rw [hc, hu, hd]; exact h.count_eq s
    · rw [hc]; exact h.nonneg s
  · -- a `P` that got through: its thread ran on, so nobody went to sleep
    refine ⟨hbase, fun s' => ?_, fun s' => ?_, fun s' hp u hm => ?_⟩
    · rw [hc, hu, hd]
      have := h.count_eq s'
      by_cases hss : s' = s
      · subst hss
        simp only [update_self]
        omega
      · simp only [update_of_ne hss]
        exact this
    · rw [hc]
      by_cases hss : s' = s
      · subst hss
        rw [update_self]
        omega
      · rw [update_of_ne hss]
        exact h.nonneg s'
    · rw [hsys] at hm ⊢
      refine h.awake s' ?_ u hm
      rw [hc] at hp
      by_cases hss : s' = s
      · exact hss ▸ hpos
      · rwa [update_of_ne hss] at hp
  · -- a `V`: the count is positive after it, and its sleepers are awake
    refine ⟨hbase, fun s' => ?_, fun s' => ?_, fun s' hp u hm => ?_⟩
    · rw [hc, hu, hd]
      have := h.count_eq s'
      by_cases hss : s' = s
      · subst hss
        simp only [update_self]
        omega
      · simp only [update_of_ne hss]
        exact this
    · rw [hc]
      by_cases hss : s' = s
      · subst hss
        rw [update_self]
        exact Int.le_of_lt hpos
      · rw [update_of_ne hss]
        exact h.nonneg s'
    · rw [hsys] at hm ⊢
      obtain ⟨hm', hne⟩ := Places.mem_asleep_wakeup.1 hm
      by_cases hss : s' = s
      · exact hss ▸ hne
      · rw [hc, update_of_ne hss] at hp
        exact h.awake s' hp u hm'

theorem semLaw_boot (init : SemId → ℕ) : SemLaw init (boot init).lists where
  base := base_boot init
  count_eq := fun s => by simp [Kernel.lists, Kernel.mapSys, boot]
  nonneg := fun s => Int.natCast_nonneg _
  awake := fun _ _ u hu => by cases hu

/-- **The law of semaphores**, in every state that any number of threads and
interrupt handlers bring about: the count of a semaphore that started at
`init s` is `init s` plus the `V`s less the `P`s, it is not negative, and
while it is positive no thread in `sleepers[]` sleeps on it. -/
theorem semaphore_law (init : SemId → ℕ) (k : OsKernel) (h : Reachable init k) (s : SemId) :
    k.count s = init s + k.ups s - k.downs s ∧ 0 ≤ k.count s ∧
    (0 < k.count s → ∀ t ∈ k.sys.sleepers.toList, k.sys.sleepaddr t ≠ some (.sem s)) := by
  have hl : SemLaw init k.lists :=
    Reachable.lists_invariant h (semLaw_boot init) fun _ _ _ hi _ hs => hi.step (step_cases hs)
  exact ⟨hl.count_eq s, hl.nonneg s, hl.awake s⟩

/-- A thread waits, another posts twice: one `P` got its unit and one unit
is left. -/
def waitAndPost : List Event :=
  [.call .threadFork, .run, .run, .call (.P .lock), .run, .run, .switchTo, .run,
   .call (.V .lock), .run, .run, .call (.V .lock), .run, .run, .call .threadYield, .run, .run,
   .switchTo, .run, .run]

theorem semaphore_law_wait_and_post :
    ∃ k, Runs.exec (Kernel.step threadOps) (boot fun _ => 0) waitAndPost = some k ∧
      k.ups .lock = 2 ∧ k.downs .lock = 1 ∧ k.count .lock = 1 ∧
      ∀ t ∈ k.sys.sleepers.toList, k.sys.sleepaddr t ≠ some (.sem .lock) := by
  obtain ⟨k, hk, hobs⟩ := Runs.exists_of_exec (Kernel.step threadOps) (boot fun _ => 0)
    waitAndPost (fun k => k.ups .lock = 2 ∧ k.downs .lock = 1) (by decide +kernel)
  obtain ⟨h1, -, h3⟩ := semaphore_law (fun _ => 0) k (Runs.reachable_of_exec hk) .lock
  have hcount : k.count .lock = 1 := by rw [h1, hobs.1, hobs.2]; rfl
  exact ⟨k, hk, hobs.1, hobs.2, hcount, h3 (by omega)⟩

end Synch

end Os161
