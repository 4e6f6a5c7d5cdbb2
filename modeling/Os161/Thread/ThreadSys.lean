import Os161.Common.Places
import Os161.Lib.Array
import Os161.Lib.Queue
import Os161.Thread.Model.ThreadSys
/-!
# The thread system over its lists

Forgetting the ring buffer and the arrays for the lists they hold
(`places`), every operation of `thread.c` is the move of the same name
between places: it fails exactly when the move does, and otherwise leaves
the places the move leaves. The loop of `thread_wakeup`, which removes from
the table it walks, comes out as a filter.
-/

namespace Os161

namespace Thread

open Lib Places RingQueue PtrArray List Option

namespace ThreadSys

variable {A : Type} (s : ThreadSys A) {t : Tid}

/-- What the thread system holds, as lists. -/
def places (s : ThreadSys A) : Places A where
  cur := s.curthread
  ready := s.runqueue.toList
  asleep := s.sleepers.toList
  dead := s.zombies.toList
  num := s.numthreads
  addr := s.sleepaddr
  fresh := s.fresh
  live := s.live
  next := s.created
  since := s.sleptAt
  clock := s.clock

theorem kmallocOk_eq (m : ℕ) : kmallocOk m = true := rfl

/-! ## The operations that do not loop -/

theorem makeRunnable_spec (t : Tid) (s : ThreadSys A) :
    ∃ q, makeRunnable t s = some { s with runqueue := q } ∧
      q.toList = s.runqueue.toList ++ [t] := by
  obtain ⟨q, hq, hl⟩ := qAddtail_spec kmallocOk_eq s.runqueue t
  exact ⟨q, by rw [makeRunnable, hq]; rfl, hl⟩

theorem places_threadYield : s.threadYield.map places = some s.places.yield := by
  unfold threadYield miSwitch yield yieldThread places
  cases hc : s.curthread with
  | none => simp [hc]
  | some t =>
    obtain ⟨q, hq, hl⟩ := makeRunnable_spec t { s with curthread := none }
    simp only [hq, map_some, hl]

theorem places_threadSleep (a : A) (s : ThreadSys A) :
    (s.threadSleep a).map places = s.places.sleep a := by
  unfold threadSleep miSwitch sleep sleepThread places
  cases hc : s.curthread with
  | none => rfl
  | some t =>
    obtain ⟨z, hz, hl, -⟩ := arrayAdd_of_km kmallocOk_eq s.sleepers t
    simp only [bind_some, hz, map_some, hl]

theorem places_threadResume : s.threadResume.map places = s.places.resume := by
  unfold threadResume resume resumeThread places
  cases s.curthread <;> rfl

theorem places_threadExit : s.threadExit.map places = s.places.exit := by
  unfold threadExit miSwitch exit exitThread places
  cases hc : s.curthread with
  | none => rfl
  | some t =>
    by_cases hn : 0 < s.numthreads
    · obtain ⟨z, hz, hl, -⟩ := arrayAdd_of_km kmallocOk_eq s.zombies t
      simp only [bind_some, if_pos hn, hz, map_some, hl]
    · simp only [bind_some, if_neg hn, map_none]

theorem places_threadFork : s.threadFork.map (Prod.map id places) = s.places.fork := by
  unfold threadFork fork newThread places
  cases hc : s.curthread with
  | none => rfl
  | some t =>
    obtain ⟨sl, hsl⟩ := isSome_iff_exists.1
      (arrayPreallocate_isSome (a := s.sleepers) (n := s.numthreads + 1) kmallocOk_eq)
    obtain ⟨zo, hzo⟩ := isSome_iff_exists.1
      (arrayPreallocate_isSome (a := s.zombies) (n := s.numthreads + 1) kmallocOk_eq)
    obtain ⟨rq, hrq, hrql, -⟩ := qPreallocate_spec kmallocOk_eq s.runqueue
      (s.numthreads + 1)
    simp only [bind_some, hsl, hzo, hrq]
    obtain ⟨q, hq, hql⟩ := makeRunnable_spec s.created
      { s with
        sleepers := sl, zombies := zo, runqueue := rq
        sleepaddr := Function.update s.sleepaddr s.created none
        fresh := Function.update s.fresh s.created true
        live := s.live ++ [s.created]
        created := s.created + 1 }
    simp only [hc] at hq hql
    simp only [hq, map_some, Prod.map, id, hql, hrql,
      (arrayPreallocate_spec hsl).1, (arrayPreallocate_spec hzo).1]

/-! ## Disposing of the dead -/

theorem not_lt_of_toList {a : PtrArray Tid} {pre : List Tid} (h : a.toList = pre ++ []) :
    ¬ pre.length < a.num := by
  rw [← PtrArray.length_toList, h, append_nil]
  exact lt_irrefl _

theorem any_contains_iff {o : Option Tid} {l : List Tid} :
    o.any l.contains = true ↔ ∃ t, o = some t ∧ t ∈ l := by
  cases o <;> simp

/-- The loop of `exorcise` destroys the zombies from one on, unless the
current thread is one of them. -/
theorem exorciseLoop_eq {fuel : ℕ} {pre post : List Tid} {s : ThreadSys A}
    (hl : s.zombies.toList = pre ++ post) (hf : post.length ≤ fuel) :
    exorciseLoop fuel pre.length s = if s.curthread.any post.contains then none
      else some { s with live := s.live.diff post } := by
  induction post generalizing fuel pre s with
  | nil =>
    rw [if_neg (by simp [any_contains_iff])]
    cases fuel with
    | zero => rfl
    | succ fuel => exact dif_neg (not_lt_of_toList hl)
  | cons z post ih =>
    obtain ⟨fuel, rfl⟩ := Nat.exists_eq_add_one.2 (Nat.lt_of_lt_of_le (Nat.succ_pos _) hf)
    obtain ⟨hi, hget, -⟩ := slot_of_toList hl
    rw [exorciseLoop, dif_pos hi, hget]
    by_cases hz : s.curthread = some z
    · rw [if_pos (any_contains_iff.2 ⟨_, hz, mem_cons_self⟩)]
      exact if_pos hz
    · -- this zombie is not the current thread; the rest of the loop sees to the others
      have hany : s.curthread.any (z :: post).contains = s.curthread.any post.contains := by
        rw [Bool.eq_iff_iff, any_contains_iff, any_contains_iff]
        refine ⟨fun ⟨t, ht, hm⟩ => ⟨t, ht, ?_⟩, fun ⟨t, ht, hm⟩ => ⟨t, ht, mem_cons_of_mem _ hm⟩⟩
        exact (mem_cons.1 hm).resolve_left fun h => hz (by rw [ht, h])
      have hrest := @ih fuel (pre ++ [z]) { s with live := s.live.erase z }
        (hl.trans (append_cons ..)) (Nat.le_of_succ_le_succ hf)
      rw [length_append, length_singleton] at hrest
      rw [hany, diff_cons]
      exact (if_neg hz).trans hrest

theorem exorcise_eq :
    ∃ z : PtrArray Tid, z.toList = [] ∧ z.max = (if 16 < s.zombies.max then 0 else s.zombies.max) ∧
      exorcise s = if s.curthread.any s.zombies.toList.contains then none
        else some { s with zombies := z, live := s.live.diff s.zombies.toList } := by
  obtain ⟨z, hz, hl, hm⟩ := arraySetsize_zero kmallocOk s.zombies
  refine ⟨z, hl, hm, ?_⟩
  have hloop := exorciseLoop_eq (nil_append s.zombies.toList).symm (PtrArray.length_toList _).le
  rw [length_nil] at hloop
  rw [exorcise, hloop]
  split
  · rfl
  · simp only [bind_some, hz, map_some]

theorem places_exorcise : (exorcise s).map places = s.places.bury := by
  obtain ⟨z, hl, -, he⟩ := exorcise_eq s
  rw [he]
  unfold bury places
  split
  · rfl
  · simp only [map_some, hl]

theorem places_switchTo : s.switchTo.map places = s.places.dispatch := by
  unfold switchTo dispatch
  cases hc : s.curthread with
  | some t => simp [places, hc]
  | none =>
    cases hr : s.runqueue.toList with
    | nil =>
      have hempty : s.runqueue.qRemhead = none := by
        rw [qRemhead, if_pos ((qEmpty_iff _).2 hr)]
      simp [places, hc, hr, hempty]
    | cons t ts =>
      obtain ⟨q, hq, hql⟩ := qRemhead_spec s.runqueue hr
      simp only [hq, bind_some]
      by_cases hf : s.fresh t
      · simp [places, hc, hr, hf, hql]
      · rw [if_neg hf, places_exorcise]
        simp [places, hc, hr, hf, hql]

/-! ## Waking -/

variable [DecidableEq A]

/-- The loop of `thread_wakeup` behind the first sleepers. -/
theorem wakeupLoop_spec (a : A) {fuel : ℕ} {pre post : List Tid} {s : ThreadSys A}
    (hl : s.sleepers.toList = pre ++ post) (hf : post.length ≤ fuel) :
    ∃ q sl, wakeupLoop a fuel pre.length s = some { s with runqueue := q, sleepers := sl } ∧
      sl.max = s.sleepers.max ∧
      q.toList = s.runqueue.toList ++ post.filter (fun t => s.sleepaddr t = some a) ∧
      sl.toList = pre ++ post.filter (fun t => ¬ s.sleepaddr t = some a) := by
  induction post generalizing fuel pre s with
  | nil =>
    refine ⟨s.runqueue, s.sleepers, ?_, rfl, (append_nil _).symm, hl⟩
    cases fuel with
    | zero => rfl
    | succ fuel => exact dif_neg (not_lt_of_toList hl)
  | cons t post ih =>
    obtain ⟨fuel, rfl⟩ := Nat.exists_eq_add_one.2 (Nat.lt_of_lt_of_le (Nat.succ_pos _) hf)
    obtain ⟨hi, hget, hrem⟩ := slot_of_toList hl
    rw [wakeupLoop, dif_pos hi, hget]
    by_cases ha : s.sleepaddr t = some a
    · -- the sleeper is taken off and the walk stays where it is
      obtain ⟨q, hq, hql⟩ := makeRunnable_spec t
        { s with sleepers := s.sleepers.arrayRemove ⟨pre.length, hi⟩ }
      obtain ⟨q', sl, h1, h2, h3, h4⟩ := @ih fuel pre
        { s with sleepers := s.sleepers.arrayRemove ⟨pre.length, hi⟩, runqueue := q } hrem
        (Nat.le_of_succ_le_succ hf)
      refine ⟨q', sl, ?_, h2, ?_, ?_⟩
      · rw [if_pos ha, hq, bind_some, h1]
      · rw [h3, hql, filter_cons_of_pos (by simpa using ha), append_assoc, singleton_append]
      · rw [h4, filter_cons_of_neg (by simpa using ha)]
    · obtain ⟨q', sl, h1, h2, h3, h4⟩ := @ih fuel (pre ++ [t]) s (hl.trans (append_cons ..))
        (Nat.le_of_succ_le_succ hf)
      rw [length_append, length_singleton] at h1
      refine ⟨q', sl, ?_, h2, ?_, ?_⟩
      · rw [if_neg ha, h1]
      · rw [h3, filter_cons_of_neg (by simpa using ha)]
      · rw [h4, filter_cons_of_pos (by simpa using ha), append_assoc, singleton_append]

/-- **`thread_wakeup` is a filter**, whatever the order of removals. -/
theorem places_threadWakeup (a : A) (s : ThreadSys A) :
    (s.threadWakeup a).map places = some (s.places.wakeup a) := by
  obtain ⟨q, sl, h, -, hq, hsl⟩ := wakeupLoop_spec a (nil_append _).symm
    (PtrArray.length_toList _).le
  rw [show s.threadWakeup a = _ from h]
  simp only [map_some, places, hq, hsl]
  rfl

/-- The loop of `thread_wakeup_one` behind the first sleepers: the next one on
the address goes to the run queue, if there is one. -/
theorem wakeupOneLoop_spec (a : A) {fuel : ℕ} {pre post : List Tid} {s : ThreadSys A}
    (hl : s.sleepers.toList = pre ++ post) (hf : post.length ≤ fuel) :
    ∃ q sl, wakeupOneLoop a fuel pre.length s = some { s with runqueue := q, sleepers := sl } ∧
      sl.max = s.sleepers.max ∧
      q.toList = s.runqueue.toList ++ (post.filter (fun t => s.sleepaddr t = some a)).take 1 ∧
      sl.toList = pre ++ post.eraseP (fun t => s.sleepaddr t = some a) := by
  induction post generalizing fuel pre with
  | nil =>
    refine ⟨s.runqueue, s.sleepers, ?_, rfl, (append_nil _).symm, hl⟩
    cases fuel with
    | zero => rfl
    | succ fuel => exact dif_neg (not_lt_of_toList hl)
  | cons t post ih =>
    obtain ⟨fuel, rfl⟩ := Nat.exists_eq_add_one.2 (Nat.lt_of_lt_of_le (Nat.succ_pos _) hf)
    obtain ⟨hi, hget, hrem⟩ := slot_of_toList hl
    rw [wakeupOneLoop, dif_pos hi, hget]
    by_cases ha : s.sleepaddr t = some a
    · obtain ⟨q, hq, hql⟩ := makeRunnable_spec t
        { s with sleepers := s.sleepers.arrayRemove ⟨pre.length, hi⟩ }
      refine ⟨q, s.sleepers.arrayRemove ⟨pre.length, hi⟩, ?_, rfl, ?_, ?_⟩
      · rw [if_pos ha, hq]
      · rw [hql, filter_cons_of_pos (by simpa using ha)]
        rfl
      · rw [hrem, eraseP_cons_of_pos (by simpa using ha)]
    · obtain ⟨q', sl, h1, h2, h3, h4⟩ := @ih fuel (pre ++ [t]) (hl.trans (append_cons ..))
        (Nat.le_of_succ_le_succ hf)
      rw [length_append, length_singleton] at h1
      refine ⟨q', sl, ?_, h2, ?_, ?_⟩
      · rw [if_neg ha, h1]
      · rw [h3, filter_cons_of_neg (by simpa using ha)]
      · rw [h4, eraseP_cons_of_neg (by simpa using ha), append_assoc, singleton_append]

/-- Taking the first match out of a list is erasing that element. -/
theorem eraseP_eq_erase {l : List ℕ} {f : ℕ → Bool} {x : ℕ} {xs : List ℕ}
    (h : l.filter f = x :: xs) : l.eraseP f = l.erase x := by
  induction l with
  | nil => cases h
  | cons y l ih =>
    by_cases hy : f y = true
    · rw [filter_cons_of_pos hy] at h
      obtain ⟨rfl, -⟩ := cons.inj h
      rw [eraseP_cons_of_pos hy, erase_cons_head]
    · rw [filter_cons_of_neg hy] at h
      have hx : f x = true := of_mem_filter (h ▸ mem_cons_self : x ∈ l.filter f)
      have hne : y ≠ x := fun hxy => hy (hxy ▸ hx)
      rw [eraseP_cons_of_neg hy, erase_cons_tail (by simpa using hne), ih h]

/-- **`thread_wakeup_one` wakes the first sleeper on the address.** -/
theorem places_threadWakeupOne (a : A) (s : ThreadSys A) :
    (s.threadWakeupOne a).map places = some (s.places.wakeupOne a) := by
  obtain ⟨q, sl, h, -, hq, hsl⟩ := wakeupOneLoop_spec a (nil_append _).symm
    (PtrArray.length_toList _).le
  rw [show s.threadWakeupOne a = _ from h]
  have hon : s.places.sleepingOn a =
      s.sleepers.toList.filter (fun t => s.sleepaddr t = some a) := rfl
  unfold wakeupOne
  rw [hon]
  cases hfil : s.sleepers.toList.filter (fun t => s.sleepaddr t = some a) with
  | nil =>
    have hnone : ∀ t ∈ s.sleepers.toList, ¬ (decide (s.sleepaddr t = some a)) = true := by
      simpa using hfil
    rw [hfil] at hq
    rw [eraseP_of_forall_not hnone] at hsl
    simp [places, hq, hsl]
  | cons t ts =>
    rw [hfil] at hq
    rw [eraseP_eq_erase hfil] at hsl
    simp [places, hq, hsl]

end ThreadSys

end Thread

end Os161
