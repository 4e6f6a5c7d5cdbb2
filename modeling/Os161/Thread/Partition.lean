import Os161.Thread.ThreadSys
/-!
# No thread is lost or duplicated

The invariant of the places (`Places.Ok`) carried along every run of the
thread system. Read at a reachable state it says that a thread that exists
stands in exactly one of the four places and once there, and that
`numthreads` leaves out the zombies. Read at the state a switch leads to,
it says that the threads `exorcise` destroyed stood in none of the others.
-/

namespace Os161

namespace Thread

open Lib Option

variable {A : Type} {s s' : ThreadSys A}

/-- The states of the thread system that operations in any order come to
from the boot. -/
def Reachable [DecidableEq A] (s : ThreadSys A) : Prop :=
  Runs.Reachable step (Runs.Free (ThreadSys A) (Op A)) threadBootstrap s

/-- How often a thread occurs in `curthread`, the run queue, `sleepers[]`
and `zombies[]` together. -/
def ThreadSys.occurrences (s : ThreadSys A) (t : Tid) : ℕ :=
  (s.curthread.toList ++ s.runqueue.toList ++ s.sleepers.toList ++ s.zombies.toList).count t

/-- What an operation leaves is what the move between places leaves. -/
theorem eq_some_places {o : Option (ThreadSys A)} {r : Option (Places A)} (h : o = some s')
    (hr : o.map ThreadSys.places = r) : r = some s'.places := by
  rw [← hr, h]; rfl

/-- **Every operation keeps the invariant of the places.** -/
theorem ok_step [DecidableEq A] {op : Op A} (hok : s.places.Ok) (h : step s op = some s') :
    s'.places.Ok := by
  cases op with
  | fork =>
    obtain ⟨r, hr, rfl⟩ := map_eq_some_iff.1 h
    have := s.places_threadFork
    rw [hr] at this
    exact hok.fork this.symm
  | yield =>
    have := eq_some_places h s.places_threadYield
    exact some.inj this ▸ hok.yield
  | sleep a => exact hok.sleep (eq_some_places h (s.places_threadSleep a))
  | resume => exact hok.resume (eq_some_places h s.places_threadResume)
  | wakeup a =>
    have := eq_some_places h (s.places_threadWakeup a)
    exact some.inj this ▸ hok.wakeup a
  | wakeupOne a =>
    have := eq_some_places h (s.places_threadWakeupOne a)
    exact some.inj this ▸ hok.wakeupOne a
  | exit => exact hok.exit (eq_some_places h s.places_threadExit)
  | switchTo => exact hok.dispatch (eq_some_places h s.places_switchTo)

theorem ok_threadBootstrap : (threadBootstrap : ThreadSys A).places.Ok where
  perm := List.Perm.refl _
  nodup := List.nodup_singleton _
  lt_next := by simp [ThreadSys.places, threadBootstrap]
  num_eq := rfl
  addr_isSome := fun _ ht => by cases ht
  sorted := List.Pairwise.nil
  since_lt := fun _ ht => by cases ht

/-- **The invariant of the places holds in every reachable state.** -/
theorem Reachable.ok [DecidableEq A] (h : Reachable s) : s.places.Ok :=
  h.invariant ok_threadBootstrap fun _ _ _ hok _ hs => ok_step hok hs

/-- A thread that exists stands in one place, once; any other in none. -/
theorem occurrences_eq (hok : s.places.Ok) (t : Tid) :
    s.occurrences t = if t ∈ s.live then 1 else 0 := by
  have hcount : s.occurrences t = s.live.count t := hok.perm.count_eq t
  rw [hcount]
  exact hok.nodup.count

/-- The count of threads leaves out the zombies. -/
theorem numthreads_eq (hok : s.places.Ok) :
    s.numthreads = (s.live.filter fun t => t ∉ s.zombies.toList).length := by
  have hlen := (hok.perm.filter fun t => t ∉ s.zombies.toList).length_eq
  have hd := hok.disjoint
  have hlive : (s.curthread.toList ++ s.runqueue.toList ++ s.sleepers.toList).filter
      (fun t => t ∉ s.zombies.toList) =
        s.curthread.toList ++ s.runqueue.toList ++ s.sleepers.toList := by
    refine List.filter_eq_self.2 fun t ht => ?_
    rw [decide_eq_true_iff]
    rcases List.mem_append.1 ht with ht | ht
    · rcases List.mem_append.1 ht with ht | ht
      · exact (hd.1 t (mem_toList.1 ht)).2.2
      · exact (hd.2.1 t ht).2
    · exact hd.2.2 t ht
  have hdead : s.zombies.toList.filter (fun t => t ∉ s.zombies.toList) = [] :=
    List.filter_eq_nil_iff.2 fun t ht => by simpa using ht
  have hall : s.places.all =
      (s.curthread.toList ++ s.runqueue.toList ++ s.sleepers.toList) ++ s.zombies.toList := rfl
  rw [hall, List.filter_append, hlive, hdead, List.append_nil] at hlen
  exact hok.num_eq.trans hlen

/-- A thread that a switch destroyed was not running, and on no list. -/
theorem not_mem_of_destroyed (hok : s'.places.Ok) {t : Tid} (ht : t ∉ s'.live) :
    s'.curthread ≠ some t ∧ t ∉ s'.runqueue.toList ∧ t ∉ s'.sleepers.toList := by
  have h : t ∉ s'.places.all := fun hm => ht (hok.perm.mem_iff.1 hm)
  rw [Places.mem_all] at h
  simp only [not_or] at h
  exact ⟨h.1, h.2.1, h.2.2.1⟩

/-- **No thread is lost or duplicated.** In every reachable state, a thread
that was created and not destroyed occurs exactly once among `curthread`,
the run queue, `sleepers[]` and `zombies[]`, and no other thread occurs
there; `numthreads` is the number of threads that are not zombies; a switch
never trips over the assertions of `exorcise`; and the threads a switch
destroys are neither the new current thread nor on another list. -/
theorem threads_partitioned [DecidableEq A] (s : ThreadSys A) (h : Reachable s) :
    (∀ t, s.occurrences t = if t ∈ s.live then 1 else 0) ∧
    s.numthreads = (s.live.filter fun t => t ∉ s.zombies.toList).length ∧
    (s.curthread = none → s.runqueue.toList ≠ [] → s.switchTo.isSome) ∧
    ∀ s', s.switchTo = some s' → ∀ t ∈ s.live, t ∉ s'.live →
      t ∈ s.zombies.toList ∧ s'.curthread ≠ some t ∧ t ∉ s'.runqueue.toList ∧
        t ∉ s'.sleepers.toList := by
  have hok := h.ok
  refine ⟨occurrences_eq hok, numthreads_eq hok, fun hc hr => ?_, fun s' hs t ht ht' => ?_⟩
  · obtain ⟨p', hp'⟩ := hok.dispatch_isSome hc hr
    rw [← s.places_switchTo] at hp'
    obtain ⟨s', hs', -⟩ := map_eq_some_iff.1 hp'
    exact isSome_iff_exists.2 ⟨s', hs'⟩
  · have hok' : s'.places.Ok := hok.dispatch (eq_some_places hs s.places_switchTo)
    refine ⟨?_, not_mem_of_destroyed hok' ht'⟩
    exact Places.mem_dead_of_dispatch (eq_some_places hs s.places_switchTo) ht ht'

/-- One thread forked another, gave way to it, and the other exited: the
first is ready, the other a zombie that does not count any more. -/
theorem threads_partitioned_after_exit :
    ∃ s : ThreadSys Unit,
      Runs.exec step threadBootstrap [.fork, .yield, .switchTo, .exit] = some s ∧
      s.occurrences 0 = 1 ∧ s.occurrences 1 = 1 ∧ s.occurrences 2 = 0 ∧ s.numthreads = 1 := by
  refine ⟨_, rfl, ?_⟩
  have hr : Runs.exec step (threadBootstrap : ThreadSys Unit)
      [.fork, .yield, .switchTo, .exit] = some _ := rfl
  have h := threads_partitioned _ (Runs.reachable_of_exec hr)
  exact ⟨(h.1 0).trans rfl, (h.1 1).trans rfl, (h.1 2).trans rfl, h.2.1.trans rfl⟩

end Thread

end Os161
