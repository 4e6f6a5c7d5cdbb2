import Os161.Thread.Model.Fork
/-!
# What a failing `thread_fork` leaves behind

Of the steps of `thread_fork` that can fail, the first two come before the new
thread is entered anywhere. From then on it has a node in the process list,
and neither of the two ways out takes the node off again: a failing fork
leaves no trace if and only if it does not fail after `insert_to_plist`
(`fork_no_trace_iff`).
-/

namespace Os161

namespace Thread

open Lib

variable {mem : Requests} {newguy : Tid} {junk pid : Int32} {s s' : ForkSys} {e : Stop Errno}

/-- **No trace**: the process list, the children, the number of threads, the
run queue and the references to the directory are as they were. -/
structure Untouched (s s' : ForkSys) : Prop where
  plist : s'.plist = s.plist
  child : s'.child = s.child
  numthreads : s'.numthreads = s.numthreads
  runqueue : s'.runqueue.toList = s.runqueue.toList
  cwd : s'.cwd = s.cwd

theorem Untouched.refl (s : ForkSys) : Untouched s s := ⟨rfl, rfl, rfl, rfl, rfl⟩

/-- The tables and the run queue get the memory that they ask for. -/
def Prepares (mem : Requests) (newguy : Tid) (s : ForkSys) : Prop :=
  (s.sleepers.arrayPreallocate mem.sleepers (s.numthreads + 1)).isSome ∧
    (s.zombies.arrayPreallocate mem.zombies (s.numthreads + 1)).isSome ∧
    ((s.runqueue.qPreallocate mem.scheduler (s.numthreads + 1)).bind fun q =>
      q.qAddtail mem.runnable newguy).isSome
  deriving Decidable

/-- The new thread gets its structure, its name and its node, and then there
is no memory for its stack or in the tables. -/
def ForkFailsLate (mem : Requests) (newguy : Tid) (s : ForkSys) : Prop :=
  mem.thread ∧ mem.name ∧ mem.pnode ∧ ¬ (mem.stack ∧ Prepares mem newguy s)
  deriving Decidable

/-! ## The steps -/

section Steps

open Prog

theorem wp_orNomem {α : Type} {o : Option α} {Q : α → ForkSys → Prop}
    {E : Stop Errno → ForkSys → Prop} :
    wp (orNomem o) Q E s ↔
      match o with
      | some a => Q a s
      | none => E (.error .ENOMEM) s := by
  cases o with
  | some a => exact wp_pure
  | none => exact wp_fail

/-- **Where the tables cannot be prepared**, the process list and the
directory are as they were. -/
theorem wp_prepareTables :
    wp (prepareTables mem newguy) (fun _ _ => Prepares mem newguy s)
      (fun e s' => ¬ Prepares mem newguy s ∧ e = .error .ENOMEM ∧ s'.plist = s.plist ∧
        s'.cwd = s.cwd) s := by
  unfold prepareTables Prepares
  rw [wp_get_bind, wp_bind, wp_orNomem]
  cases hsleep : s.sleepers.arrayPreallocate mem.sleepers (s.numthreads + 1) with
  | none => exact ⟨fun h => Bool.noConfusion h.1, rfl, rfl, rfl⟩
  | some sleepers =>
    simp only [wp_bind, wp_modify, wp_orNomem]
    cases hzomb : s.zombies.arrayPreallocate mem.zombies (s.numthreads + 1) with
    | none => exact ⟨fun h => Bool.noConfusion h.2.1, trivial, trivial, trivial⟩
    | some zombies =>
      cases hsched : s.runqueue.qPreallocate mem.scheduler (s.numthreads + 1) with
      | none => exact ⟨fun h => Bool.noConfusion h.2.2, trivial, trivial, trivial⟩
      | some runqueue =>
        cases hadd : runqueue.qAddtail mem.runnable newguy with
        | none =>
          simp only [hadd, Option.bind_some]
          exact ⟨fun h => Bool.noConfusion h.2.2, trivial, trivial, trivial⟩
        | some runqueue' =>
          simp only [hadd, Option.bind_some]
          exact ⟨rfl, rfl, rfl⟩

/-- The label gives the reference to the directory back, and nothing else. -/
theorem wp_enterTables (hcwd : ∀ n ∈ s.cwd, 1 < n) :
    wp (enterTables mem newguy) (fun _ _ => Prepares mem newguy s)
      (fun e s' => ¬ Prepares mem newguy s ∧ e = .error .ENOMEM ∧ s'.plist = s.plist) s := by
  unfold enterTables
  rw [wp_bind, wp_result]
  refine wp_mono wp_prepareTables (fun _ _ hprep => wp_modify.2 hprep) ?_
  rintro e s' ⟨hprep, rfl, hplist, hc⟩
  rw [← hc] at hcwd
  simp only [decrefCwd, wp_bind, wp_get, wp_assert, if_pos hcwd, wp_modify, wp_fail]
  exact ⟨hprep, trivial, hplist⟩

theorem wp_threadCreate :
    wp (threadCreate mem newguy junk)
      (fun _ s' => mem.thread ∧ mem.name ∧ mem.pnode ∧
        s'.plist.length = s.plist.length + 1 ∧ Prepares mem newguy s' = Prepares mem newguy s)
      (fun e s' => ¬ (mem.thread ∧ mem.name ∧ mem.pnode) ∧ (e = .halt ∨ s' = s)) s := by
  unfold threadCreate insertNode
  simp only [wp_bind, wp_failIf, wp_get, wp_modify, wp_assert, wp_pure]
  cases mem.thread with
  | false => exact ⟨fun h => Bool.noConfusion h.1, .inr trivial⟩
  | true =>
    cases mem.name with
    | false => exact ⟨fun h => Bool.noConfusion h.2.1, .inr trivial⟩
    | true =>
      cases mem.pnode with
      | false => exact ⟨fun h => Bool.noConfusion h.2.2, .inl trivial⟩
      | true => exact ⟨rfl, rfl, rfl, List.length_append, rfl⟩

theorem one_lt_of_incref {cwd : Option ℕ+} {n : ℕ+} (h : n ∈ cwd.map (· + 1)) : 1 < n := by
  obtain ⟨m, -, rfl⟩ := Option.mem_map.1 h
  exact PNat.lt_add_left 1 m

/-- **How a call of `thread_fork` ends.** -/
theorem wp_threadFork :
    wp (threadFork mem newguy junk) (fun _ _ => ¬ ForkFailsLate mem newguy s)
      (fun e s' => if ForkFailsLate mem newguy s
        then e = .error .ENOMEM ∧ s'.plist.length = s.plist.length + 1
        else e = .halt ∨ s' = s) s := by
  unfold threadFork
  refine wp_seq wp_threadCreate ?_ ?_
  · rintro pid s₁ ⟨hthread, hname, hpnode, hlen, hprep⟩
    have hlate : ForkFailsLate mem newguy s ↔ ¬ (mem.stack ∧ Prepares mem newguy s) := by
      simp only [ForkFailsLate, hthread, hname, hpnode, true_and]
    rw [wp_bind, wp_failIf]
    split
    · rename_i hstack
      rw [if_pos (hlate.2 fun h => hstack h.1)]
      exact ⟨rfl, hlen⟩
    · rename_i hstack
      simp only [increfCwd, adopt, wp_bind, wp_modify]
      refine wp_mono (wp_enterTables fun n => one_lt_of_incref) ?_ ?_
      · intro _ _ hp
        exact fun h => hlate.1 h ⟨not_not.1 hstack, hprep ▸ hp⟩
      · rintro e s' ⟨hp, rfl, hplist⟩
        have hnot : ¬ (mem.stack ∧ Prepares mem newguy s) := fun h => hp (hprep ▸ h.2)
        rw [if_pos (hlate.2 hnot), hplist]
        exact ⟨rfl, (List.length_map _).trans hlen⟩
  · rintro e s' ⟨hearly, hend⟩
    rw [if_neg fun h => hearly ⟨h.1, h.2.1, h.2.2.1⟩]
    exact hend

end Steps

/-- **A failing fork leaves no trace unless it fails late**, and then always
one: the node of a thread that does not exist. -/
theorem fork_no_trace_iff (mem : Requests) (newguy : Tid) (junk : Int32) (s : ForkSys) :
    (∀ e s', threadFork mem newguy junk s = .error (.error e) s' → Untouched s s') ↔
      ¬ ForkFailsLate mem newguy s := by
  have hends : Prog.wp (threadFork mem newguy junk) _ _ s := wp_threadFork
  constructor
  · intro htrace hlate
    rcases Prog.cases_of_wp hends with ⟨_, s', -, hok⟩ | ⟨e, s', hrun, hend⟩
    · exact hok hlate
    · rw [if_pos hlate] at hend
      obtain ⟨rfl, hlen⟩ := hend
      have hsame := congrArg List.length (htrace _ s' hrun).plist
      omega
  · intro hlate e s' hrun
    rw [Prog.wp_of_error hrun, if_neg hlate] at hends
    rcases hends with he | rfl
    · cases he
    · exact .refl _

theorem runqueue_room : 0 < 32 := by decide

/-- The boot thread, with pid 1, no directory and no children. -/
def bootForkSys : ForkSys where
  plist := [{ pid := 1, exited := 0, excode := -1, thread := 0, parentpid := -1, waited := 0 }]
  maxPid := 2
  pid := 1
  child := List.replicate maxChild none
  child_length := List.length_replicate
  cwd := none
  numthreads := 1
  sleepers := arrayCreate
  zombies := arrayCreate
  runqueue := qCreate 32 runqueue_room

/-- There is memory for everything but a stack. -/
def noStack : Requests where
  thread := true
  name := true
  wait := true
  pnode := true
  stack := false
  sleepers := fun _ => true
  zombies := fun _ => true
  scheduler := fun _ => true
  runnable := fun _ => true

/-- **A fork without memory for the stack** returns `ENOMEM`, and leaves a
node that refers to the thread that it has freed. -/
theorem fork_leaves_node :
    ∃ s', threadFork noStack 7 0 bootForkSys = .error (.error .ENOMEM) s' ∧
      s'.plist.map (fun node => node.thread) = [0, 7] ∧ ¬ Untouched bootForkSys s' := by
  refine ⟨_, rfl, rfl, fun h => ?_⟩
  exact absurd h.plist (by decide)

end Thread

end Os161
