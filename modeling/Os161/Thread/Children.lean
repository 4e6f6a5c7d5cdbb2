import Os161.Common.Runs
import Os161.Thread.Model.Children
/-!
# The table of children fills up

The slots of a thread's table are never cleared. After any history its first slots hold
the threads that it has forked, in their order (`word_eq_calls`); so its 101st fork looks
behind the table, and a fork whose `struct thread` is the block of a child that is gone
finds the new thread in the table already (`fork_keeps_iff`).
-/

namespace Os161

namespace Thread

open Prog Function List

variable {t : ChildTable} {newguy : Tid} {s : Forker}

/-! ## One fork -/

/-- **What the loop does**: it goes to the first slot that is `NULL` and puts the new
thread there, or it goes to the end. -/
theorem adoptFrom_spec (newguy : Tid) (n i : ℕ) (t : ChildTable) :
    ∃ j t', adoptFrom newguy n i t = .ok j t' ∧ i ≤ j ∧ (∀ k, i ≤ k → k < j → t.word k ≠ none) ∧
      (∀ k ∈ t'.touched, k ∈ t.touched ∨ k < i + n) ∧
      ((j < i + n ∧ t.word j = none ∧ t'.word = update t.word j (some newguy)) ∨
        (j = i + n ∧ t'.word = t.word)) := by
  induction n generalizing i t with
  | zero => exact ⟨i, t, rfl, le_rfl, fun k _ _ => by omega, fun k hk => .inl hk, .inr ⟨rfl, rfl⟩⟩
  | succ n ih =>
    have hload : loadChild i t = .ok (t.word i) { t with touched := i :: t.touched } := rfl
    unfold adoptFrom
    by_cases hc : t.word i = none
    · refine ⟨i, ⟨update t.word i (some newguy), i :: i :: t.touched⟩, ?_, le_rfl,
        fun k _ _ => by omega, fun k hk => ?_, .inl ⟨by omega, hc, rfl⟩⟩
      · rw [bind_of_ok hload, if_pos hc]
        rfl
      · rcases mem_cons.1 hk with rfl | hk
        · exact .inr (by omega)
        · rcases mem_cons.1 hk with rfl | hk
          · exact .inr (by omega)
          · exact .inl hk
    · obtain ⟨j, t', hrun, hij, hfull, htouched, hend⟩ :=
        ih (i + 1) { t with touched := i :: t.touched }
      refine ⟨j, t', ?_, by omega, fun k hik hkj => ?_, fun k hk => ?_, ?_⟩
      · rw [bind_of_ok hload, if_neg hc]
        exact hrun
      · rcases Nat.eq_or_lt_of_le hik with rfl | hlt
        · exact hc
        · exact hfull k hlt hkj
      · rcases htouched k hk with hk | hk
        · rcases mem_cons.1 hk with rfl | hk
          · exact .inr (by omega)
          · exact .inl hk
        · exact .inr (by omega)
      · rcases hend with ⟨hlt, hnull, hword⟩ | ⟨hj, hword⟩
        · exact .inl ⟨by omega, hnull, hword⟩
        · exact .inr ⟨by omega, hword⟩

namespace Forker

/-- **What a fork does to the table**: the first slot that is `NULL` gets the new thread;
in a table without one nothing changes, and the test looks behind it. -/
theorem adopted_cases (s : Forker) (newguy : Tid) :
    (∃ j < maxChild, s.table.word j = none ∧ (∀ k < j, s.table.word k ≠ none) ∧
      (∀ k ∈ (s.adopted newguy).touched, k < maxChild) ∧
      (s.adopted newguy).word = update s.table.word j (some newguy)) ∨
    ((∀ k < maxChild, s.table.word k ≠ none) ∧ maxChild ∈ (s.adopted newguy).touched ∧
      (s.adopted newguy).word = s.table.word) := by
  obtain ⟨j, t', hrun, -, hfull, htouched, hend⟩ :=
    adoptFrom_spec newguy maxChild 0 { s.table with touched := [] }
  have hadopted : s.adopted newguy = { t' with touched := j :: t'.touched } := by
    have hchild : adoptChild newguy { s.table with touched := [] } =
        .ok (decide (t'.word j = none)) { t' with touched := j :: t'.touched } :=
      (bind_of_ok hrun).trans rfl
    unfold adopted
    rw [hchild]
  rw [hadopted]
  rcases hend with ⟨hlt, hnull, hword⟩ | ⟨hj, hword⟩
  · refine .inl ⟨j, by omega, hnull, fun k hk => hfull k (Nat.zero_le k) hk, fun k hk => ?_, hword⟩
    rcases mem_cons.1 hk with rfl | hk
    · omega
    · rcases htouched k hk with hk | hk
      · cases hk
      · omega
  · refine .inr ⟨fun k hk => hfull k (Nat.zero_le k) (by omega), ?_, hword⟩
    rw [hj, Nat.zero_add]
    exact mem_cons_self

/-- A fork keeps to the table where there is room and the new thread is not in it. -/
theorem keepsToTable_iff (s : Forker) (newguy : Tid) :
    KeepsToTable s newguy ↔ (∃ j < maxChild, s.table.word j = none) ∧
      ∀ k < maxChild, s.table.word k ≠ some newguy := by
  rcases adopted_cases s newguy with ⟨j, hj, hnull, -, hinside, hword⟩ | ⟨hfull, hbehind, -⟩
  · have hself : (s.adopted newguy).word j = some newguy := by
      rw [hword, update_self]
    constructor
    · intro hkeeps
      refine ⟨⟨j, hj, hnull⟩, fun k hk hold => ?_⟩
      have hkj : k ≠ j := by
        rintro rfl
        rw [hnull] at hold
        cases hold
      have hstill : (s.adopted newguy).word k = some newguy := by
        rw [hword, update_of_ne hkj, hold]
      exact hkj (hkeeps.once.unique ⟨hk, hstill⟩ ⟨hj, hself⟩)
    · rintro ⟨-, hnew⟩
      refine ⟨hinside, j, ⟨hj, hself⟩, fun k ⟨hk, hat⟩ => ?_⟩
      by_contra hkj
      rw [hword, update_of_ne hkj] at hat
      exact hnew k hk hat
  · constructor
    · intro hkeeps
      exact absurd (hkeeps.inside maxChild hbehind) (lt_irrefl maxChild)
    · rintro ⟨⟨j, hj, hnull⟩, -⟩
      exact absurd hnull (hfull j hj)

/-! ## The whole life -/

/-- The table holds the first threads that were entered in it. -/
def Filled (s : Forker) : Prop := ∀ i < maxChild, s.table.word i = s.calls[i]?

theorem Filled.room_iff (h : Filled s) :
    (∃ j < maxChild, s.table.word j = none) ↔ s.calls.length < maxChild := by
  constructor
  · rintro ⟨j, hj, hnull⟩
    rw [h j hj, getElem?_eq_none_iff] at hnull
    exact lt_of_le_of_lt hnull hj
  · intro hlt
    exact ⟨s.calls.length, hlt, by rw [h _ hlt, getElem?_eq_none_iff]⟩

theorem Filled.fork (h : Filled s) (newguy : Tid) (inUse : List Tid) :
    Filled ⟨s.adopted newguy, inUse, s.calls ++ [newguy]⟩ := by
  intro i hi
  rcases adopted_cases s newguy with ⟨j, hj, hnull, hbefore, -, hword⟩ | ⟨hfull, -, hword⟩
  · -- the first slot that is `NULL` is the one behind the threads entered before
    have hlen : s.calls.length = j := by
      rw [h j hj, getElem?_eq_none_iff] at hnull
      refine le_antisymm hnull (Nat.le_of_not_lt fun hlt => ?_)
      refine hbefore s.calls.length hlt ?_
      rw [h _ (hlt.trans hj), getElem?_eq_none_iff]
    rw [hword]
    rcases eq_or_ne i j with rfl | hij
    · rw [update_self, ← hlen, getElem?_concat_length]
    · rw [update_of_ne hij, h i hi]
      rcases Nat.lt_or_ge i s.calls.length with hlt | hge
      · rw [getElem?_append_left hlt]
      · rw [getElem?_eq_none hge, getElem?_eq_none]
        rw [length_append, length_singleton]
        omega
  · have hlt : i < s.calls.length := by
      have hsome := hfull i hi
      rw [h i hi, ne_eq, getElem?_eq_none_iff] at hsome
      omega
    rw [hword, h i hi, getElem?_append_left hlt]

theorem Filled.step {s' : Forker} {e : Lifetime} (h : Filled s) (hs : s.step e = some s') :
    Filled s' := by
  cases e with
  | fork newguy ok =>
    simp only [Forker.step] at hs
    split at hs
    · cases hs
    · cases hs
      exact h.fork newguy _
  | exit t =>
    cases hs
    exact h

/-- **In every life the table holds the threads that were entered first.** -/
theorem word_eq_calls {inUse : List Tid} {behind : ℕ → Option Tid}
    (h : Runs.Reachable step (Runs.Free _ _) (start inUse behind) s) : Filled s := by
  refine h.invariant ?_ fun s e s' hfilled _ hs => hfilled.step hs
  intro i hi
  show (if i < maxChild then none else behind i) = _
  rw [if_pos hi]
  rfl

/-- **A fork keeps to the table exactly if** the thread has made fewer than `MAX_CHILD`
calls before it, whether the children are still there or not, **and the block of the new
thread has not been that of an earlier one.** -/
theorem fork_keeps_iff {inUse : List Tid} {behind : ℕ → Option Tid}
    (h : Runs.Reachable step (Runs.Free _ _) (start inUse behind) s) (newguy : Tid) :
    KeepsToTable s newguy ↔ s.calls.length < maxChild ∧ newguy ∉ s.calls := by
  have hfilled := word_eq_calls h
  rw [keepsToTable_iff, hfilled.room_iff]
  refine and_congr_right fun hlt => ?_
  constructor
  · intro hnew hmem
    obtain ⟨i, hi⟩ := mem_iff_getElem?.1 hmem
    have hlen : i < s.calls.length := (List.getElem?_eq_some_iff.1 hi).1
    exact hnew i (hlen.trans hlt) ((hfilled i (hlen.trans hlt)).trans hi)
  · intro hnew i hi hat
    rw [hfilled i hi] at hat
    exact hnew (mem_of_getElem? hat)

/-- A life of two forks. -/
theorem fork_keeps_second : ∃ s, Runs.exec step (start [] fun _ => none)
    [.fork 7 true, .exit 7] = some s ∧ KeepsToTable s 8 := by
  obtain ⟨s, hs, hcalls⟩ := Runs.exists_of_exec step (start [] fun _ => none)
    [.fork 7 true, .exit 7] (fun s => decide (s.calls = [7])) (by decide)
  have hcalls : s.calls = [7] := of_decide_eq_true hcalls
  exact ⟨s, hs, (fork_keeps_iff (Runs.reachable_of_exec hs) 8).2 (by rw [hcalls]; decide)⟩

/-- A thread can fork as often as it likes. -/
theorem exists_calls_eq_range (n : ℕ) : ∃ s,
    Runs.Reachable step (Runs.Free _ _) (start [] fun _ => none) s ∧ s.calls = List.range n ∧
      ∀ t ∈ s.inUse, t < n := by
  induction n with
  | zero => exact ⟨_, .refl, rfl, nofun⟩
  | succ n ih =>
    obtain ⟨s, hs, hcalls, hlt⟩ := ih
    have hfree : n ∉ s.inUse := fun hmem => lt_irrefl n (hlt n hmem)
    refine ⟨⟨s.adopted n, n :: s.inUse, s.calls ++ [n]⟩, hs.tail (e := .fork n true) trivial ?_,
      ?_, fun t ht => ?_⟩
    · exact if_neg hfree
    · rw [hcalls, List.range_succ]
    · rcases mem_cons.1 ht with rfl | ht
      · exact Nat.lt_succ_self t
      · exact Nat.lt_succ_of_lt (hlt t ht)

/-- **The fork after a hundred looks behind the table, and a child is in it twice** when
its block was that of a child that has exited. -/
theorem table_overrun_and_doubled :
    (∃ s, Runs.Reachable step (Runs.Free _ _) (start [] fun _ => none) s ∧
      s.calls = List.range 100 ∧ 100 ∈ (s.adopted 100).touched) ∧
    ∃ s, Runs.exec step (start [] fun _ => none) [.fork 7 true, .exit 7, .fork 7 true] = some s ∧
      s.table.word 0 = some 7 ∧ s.table.word 1 = some 7 := by
  constructor
  · obtain ⟨s, hs, hcalls, -⟩ := exists_calls_eq_range 100
    have hroom := (word_eq_calls hs).room_iff
    rw [hcalls, length_range] at hroom
    refine ⟨s, hs, hcalls, ?_⟩
    rcases adopted_cases s 100 with ⟨j, hj, hnull, -⟩ | ⟨-, hbehind, -⟩
    · exact absurd (hroom.1 ⟨j, hj, hnull⟩) (lt_irrefl 100)
    · exact hbehind
  · obtain ⟨s, hs, hwords⟩ := Runs.exists_of_exec step (start [] fun _ => none)
      [.fork 7 true, .exit 7, .fork 7 true]
      (fun s => decide (s.table.word 0 = some 7 ∧ s.table.word 1 = some 7)) (by decide)
    exact ⟨s, hs, of_decide_eq_true hwords⟩

end Forker

end Thread

end Os161
