import Os161.Proc.Moves
import Os161.Common.OneUnit
import Mathlib.Order.Interval.Set.Defs
/-!
# The invariant of the process list

The nodes of the list tell the truth about their threads, and the unit that a
thread posts on its own `wait` semaphore when it exits is passed on and never
copied: it is in the count of the semaphore, or with the one thread that has
slept on it and is about to delete the node, or the node is gone.
-/

namespace Os161

namespace Proc

open Thread Function Plist Option

variable {s s' : ProcSys} {t q n : ℕ} {e : Event} {pid code : Int32}

namespace Pc

/-- The thread whose exit has been consumed by the `P` that has just returned. -/
def holds : Pc → Option Tid
  | readWoken _ q | reap _ q _ => some q
  | _ => none

/-- The thread that was found for the pid. -/
def target : Pc → Option (Int32 × Tid)
  | unlockRunning pid (some q) | loadWait pid (some q) => some (pid, q)
  | waitExit pid q | readWoken pid q | reap pid q _ => some (pid, q)
  | _ => none

/-- In `thread_exit`. -/
def exiting : Pc → Bool
  | markExited | postWait | postLock | leave => true
  | _ => false

/-- In `thread_exit`, behind `set_exited`. -/
def marked : Pc → Bool
  | postWait | postLock | leave => true
  | _ => false

/-- In `thread_exit`, behind `V(curthread->wait)`. -/
def posted : Pc → Bool
  | postLock | leave => true
  | _ => false

variable {pc : Pc}

theorem marked_of_posted (h : pc.posted = true) : pc.marked = true := by
  cases pc <;> first | rfl | cases h

theorem posted_eq_false (h : pc.exiting = false ∨ pc.marked = false) :
    pc.posted = false := by
  cases pc <;> first | rfl | rcases h with h | h <;> cases h

end Pc

namespace ProcSys

/-- The threads that have posted on their `wait`. -/
def posted (s : ProcSys) : Set Tid := {q | (s.pc q).posted}

/-- The threads whose nodes are in the list. -/
def present (s : ProcSys) : Set Tid := {q | (find s.plist (s.pid q)).isSome}

theorem mem_posted {s : ProcSys} {q : Tid} : q ∈ s.posted ↔ (s.pc q).posted := Iff.rfl

theorem mem_present {s : ProcSys} {q : Tid} :
    q ∈ s.present ↔ (find s.plist (s.pid q)).isSome := Iff.rfl

end ProcSys

/-- **The invariant**, with `n` threads created so far. -/
structure Core (n : ℕ) (s : ProcSys) : Prop where
  maxPid : s.maxPid.toInt = n + 1
  pid : ∀ t < n, (s.pid t).toInt = t + 1
  nodup : (pids s.plist).Nodup
  thread : ∀ pid node, find s.plist pid = some node →
    node.thread < n ∧ s.pid node.thread = pid
  status : ∀ pid node, find s.plist pid = some node →
    node.exited = (if (s.exitcode node.thread).isSome then 1 else 0) ∧
    node.excode = (s.exitcode node.thread).getD (-1)
  fresh : ∀ t, n ≤ t → s.pc t = .user none ∧ s.exitcode t = none
  exiting : ∀ t, (s.exitcode t).isSome → (s.pc t).exiting
  marked : ∀ t, (s.pc t).marked → (s.exitcode t).isSome
  target : ∀ t pid q, (s.pc t).target = some (pid, q) → q < n ∧ s.pid q = pid
  unit : OneUnit (Set.Iio n) s.posted (fun q => s.count (.wait q)) (fun t => (s.pc t).holds)
    s.present

namespace Core

/-! ## What it says of the list -/

section

variable (h : Core n s)

include h

/-- Two threads have two pids. -/
theorem pid_inj {t u : ℕ} (ht : t < n) (hu : u < n) (heq : s.pid t = s.pid u) :
    t = u := by
  have h1 := h.pid t ht
  have h2 := h.pid u hu
  rw [heq] at h1
  omega

/-- The pid that is given out next is not in the list. -/
theorem maxPid_not_mem : s.maxPid ∉ pids s.plist := by
  intro hmem
  obtain ⟨node, hnode⟩ := isSome_iff_exists.1 (find_isSome_iff.2 hmem)
  obtain ⟨hlt, hpid⟩ := h.thread _ _ hnode
  have h1 := h.pid _ hlt
  have h2 := h.maxPid
  have h3 := Int.ofNat_lt.2 hlt
  rw [hpid] at h1
  omega

/-- A node found by a thread's pid is the thread's own. -/
theorem thread_eq (hq : q < n) {node : ThreadNode}
    (hnode : find s.plist (s.pid q) = some node) : node.thread = q := by
  obtain ⟨hlt, hpid⟩ := h.thread _ _ hnode
  exact h.pid_inj hlt hq hpid

theorem getExited_eq (hq : q < n) (hp : q ∈ s.present) :
    getExited (nodes s.plist) (s.pid q) = if (s.exitcode q).isSome then 1 else 0 := by
  obtain ⟨node, hnode⟩ := isSome_iff_exists.1 hp
  rw [getExited_nodes, hnode, ← h.thread_eq hq hnode]
  exact (h.status _ _ hnode).1

theorem getExcode_eq (hq : q < n) (hp : q ∈ s.present) :
    getExcode (nodes s.plist) (s.pid q) = (s.exitcode q).getD (-1) := by
  obtain ⟨node, hnode⟩ := isSome_iff_exists.1 hp
  rw [getExcode_nodes, hnode, ← h.thread_eq hq hnode]
  exact (h.status _ _ hnode).2

theorem findThreadByPid_eq (hq : q < n) (hp : q ∈ s.present) :
    findThreadByPid s.plist (s.pid q) = some q := by
  obtain ⟨node, hnode⟩ := isSome_iff_exists.1 hp
  rw [findThreadByPid, hnode, map_some, h.thread_eq hq hnode]

/-- The pid that `get_exited` knows is that of a thread in the list. -/
theorem exists_of_getExited (hne : getExited (nodes s.plist) pid ≠ -1) :
    ∃ q < n, s.pid q = pid ∧ q ∈ s.present := by
  rw [getExited_nodes] at hne
  cases hnode : find s.plist pid with
  | none => rw [hnode] at hne; exact absurd rfl hne
  | some node =>
    obtain ⟨hlt, hpid⟩ := h.thread _ _ hnode
    refine ⟨node.thread, hlt, hpid, ?_⟩
    show (find s.plist (s.pid node.thread)).isSome
    rw [hpid, hnode]
    rfl

/-- `get_exited` gives 1 for a thread that has exited. -/
theorem exited_of_getExited (h1 : getExited (nodes s.plist) pid = 1) :
    ∃ q < n, s.pid q = pid ∧ q ∈ s.present ∧ (s.exitcode q).isSome := by
  obtain ⟨q, hq, hpid, hp⟩ := h.exists_of_getExited (by rw [h1]; decide)
  refine ⟨q, hq, hpid, hp, ?_⟩
  have heq := h.getExited_eq hq hp
  rw [hpid, h1] at heq
  by_contra hnone
  rw [if_neg hnone] at heq
  exact absurd heq (by decide)

/-- `get_exited` gives 0 for a thread that has not. -/
theorem running_of_getExited (h0 : getExited (nodes s.plist) pid = 0) :
    ∃ q < n, s.pid q = pid ∧ q ∈ s.present ∧ s.exitcode q = none := by
  obtain ⟨q, hq, hpid, hp⟩ := h.exists_of_getExited (by rw [h0]; decide)
  refine ⟨q, hq, hpid, hp, ?_⟩
  have heq := h.getExited_eq hq hp
  rw [hpid, h0] at heq
  by_contra hsome
  rw [if_pos (isSome_iff_ne_none.2 hsome)] at heq
  exact absurd heq (by decide)

theorem not_posted_of_running (hq : s.exitcode q = none) : q ∉ s.posted := by
  intro hpost
  have hsome := h.marked q (Pc.marked_of_posted hpost)
  rw [hq] at hsome
  cases hsome

end

/-! ## Moves that only change a place -/

/-- Whatever happens to the rest of the state. -/
theorem congr (h : Core n s) (h1 : s'.maxPid = s.maxPid) (h2 : s'.pid = s.pid)
    (h3 : s'.plist = s.plist) (h4 : s'.exitcode = s.exitcode) (h5 : s'.pc = s.pc)
    (h6 : ∀ q, s'.count (.wait q) = s.count (.wait q)) : Core n s' := by
  have hposted : ∀ q, q ∈ s'.posted ↔ q ∈ s.posted := fun q => by
    rw [ProcSys.mem_posted, h5, ProcSys.mem_posted]
  have hpresent : ∀ q, q ∈ s'.present ↔ q ∈ s.present := fun q => by
    rw [ProcSys.mem_present, h2, h3, ProcSys.mem_present]
  constructor
  case unit => exact h.unit.congr hposted h6 (fun t => congrArg Pc.holds (congrFun h5 t)) hpresent
  all_goals simp only [h1, h2, h3, h4, h5]
  exacts [h.maxPid, h.pid, h.nodup, h.thread, h.status, h.fresh, h.exiting, h.marked, h.target]

variable {sys : ThreadSys Sem} {off : Tid → Bool}

/-- Thread `t` goes to another place, which agrees with what it has exited with.
Where the units are is for the rules of `OneUnit` to say. -/
theorem place (h : Core n s) (ht : t < n)
    {count : Sem → ℕ} {exits : ℕ} (hexiting : (s.exitcode t).isSome → pc.exiting)
    (hmarked : pc.marked → (s.exitcode t).isSome)
    (htarget : ∀ pid q, pc.target = some (pid, q) → q < n ∧ s.pid q = pid)
    (hunit : OneUnit (Set.Iio n) (s.goto t pc).posted (fun q => count (.wait q))
      (fun u => ((s.goto t pc).pc u).holds) s.present) :
    Core n (ProcSys.goto { s with sys, off, count, exits } t pc) := by
  refine
    { maxPid := h.maxPid, pid := h.pid, nodup := h.nodup, thread := h.thread, status := h.status,
      fresh := ?_, exiting := ?_, marked := ?_, target := ?_, unit := hunit }
  · intro u hu
    rw [ProcSys.goto_pc, if_neg (fun hut => by rw [hut] at hu; omega)]
    exact h.fresh u hu
  · intro u hu
    rw [ProcSys.goto_pc]
    split
    · next hut => exact hexiting (hut ▸ hu)
    · exact h.exiting u hu
  · intro u hu
    rw [ProcSys.goto_pc] at hu
    split at hu
    · next hut => exact hut ▸ hmarked hu
    · exact h.marked u hu
  · intro u pid q
    rw [ProcSys.goto_pc]
    split
    · exact htarget pid q
    · exact h.target u pid q

theorem mem_posted_goto (hposted : pc.posted = (s.pc t).posted) (q : Tid) :
    q ∈ (s.goto t pc).posted ↔ q ∈ s.posted := by
  rw [ProcSys.mem_posted, s.goto_class t q pc Pc.posted hposted, ProcSys.mem_posted]

/-- Nothing happens to the units when `t` has not posted on the way and holds
what it held. -/
theorem goto (h : Core n s) (ht : t < n) {old : Pc} (hpc : s.pc t = old)
    (hexiting : (s.exitcode t).isSome → pc.exiting) (hmarked : pc.marked → (s.exitcode t).isSome)
    (hposted : pc.posted = old.posted) (hholds : pc.holds = old.holds)
    (htarget : ∀ pid q, pc.target = some (pid, q) → q < n ∧ s.pid q = pid) :
    Core n (s.goto t pc) := by
  rw [← hpc] at hposted hholds
  refine h.place ht hexiting hmarked htarget ?_
  refine h.unit.congr (mem_posted_goto hposted) (fun _ => rfl) ?_ (fun _ => Iff.rfl)
  exact fun u => s.goto_class t u pc Pc.holds hholds

theorem exitcode_eq_none (h : Core n s) (ht : (s.pc t).exiting = false) : s.exitcode t = none := by
  by_contra hne
  have hexiting := h.exiting t (isSome_iff_ne_none.2 hne)
  rw [ht] at hexiting
  cases hexiting

/-- A thread that is not in `thread_exit` moves on, and stays out of
`set_exited`. -/
theorem goto_running (h : Core n s) (ht : t < n) {old : Pc} (hpc : s.pc t = old)
    (hold : old.exiting = false) (hmarked : pc.marked = false) (hholds : pc.holds = old.holds)
    (htarget : ∀ pid q, pc.target = some (pid, q) → q < n ∧ s.pid q = pid) :
    Core n (s.goto t pc) := by
  have hnone : s.exitcode t = none := h.exitcode_eq_none (by rw [hpc]; exact hold)
  have hposted : pc.posted = false ∧ old.posted = false :=
    ⟨Pc.posted_eq_false (.inr hmarked), Pc.posted_eq_false (.inl hold)⟩
  refine h.goto ht hpc (fun hsome => ?_) (fun hm => ?_) (hposted.1.trans hposted.2.symm) hholds
    htarget
  · rw [hnone] at hsome
    cases hsome
  · rw [hmarked] at hm
    cases hm

/-- The lock, the interrupts and the run queue are of no concern. -/
theorem other (h : Core n s) {lock exits : ℕ} :
    Core n { s with sys, off, count := update s.count .lock lock, exits } :=
  h.congr rfl rfl rfl rfl rfl fun q =>
    update_of_ne (show Sem.wait q ≠ Sem.lock by simp) lock s.count

/-! ## Moves that change the list or the counts -/

section

variable (h : Core n s)

include h

/-- The exit of thread `t` is written to its node. -/
theorem recordExit (ht : t < n) {plist : List ThreadNode} {c : Int32}
    (hfind : ∀ pid, find plist pid = if pid = s.pid t then
      (find s.plist pid).map fun node => ⟨⟨node.pid, 1, c⟩, node.thread⟩
      else find s.plist pid)
    (hpids : pids plist = pids s.plist)
    (hold : (s.pc t).posted = false ∧ (s.pc t).holds = none)
    (hpc : pc = .markExited ∨ pc = .postWait) :
    Core n (ProcSys.goto
      { s with plist, off, exitcode := update s.exitcode t (some c) } t pc) := by
  generalize hs' : ProcSys.goto
    { s with plist, off, exitcode := update s.exitcode t (some c) } t pc = s'
  have hpc' : ∀ u, s'.pc u = if u = t then pc else s.pc u := by
    intro u
    rw [← hs', ProcSys.goto_pc]
  have hexit : ∀ u, s'.exitcode u = if u = t then some c else s.exitcode u := by
    intro u
    rw [← hs', ProcSys.goto_exitcode]
    exact update_apply _ _ _ _
  have hplist : s'.plist = plist := by rw [← hs']; rfl
  have hpid : s'.pid = s.pid := by rw [← hs']; rfl
  have hposted : ∀ u, (s'.pc u).posted = (s.pc u).posted := by
    intro u
    rw [hpc']
    split
    · next hu => rcases hpc with rfl | rfl <;> rw [hu, hold.1] <;> rfl
    · rfl
  have hholds : ∀ u, (s'.pc u).holds = (s.pc u).holds := by
    intro u
    rw [hpc']
    split
    · next hu => rcases hpc with rfl | rfl <;> rw [hu, hold.2] <;> rfl
    · rfl
  constructor
  · rw [← hs']; exact h.maxPid
  · rw [hpid]; exact h.pid
  · rw [hplist, hpids]; exact h.nodup
  · intro pid node hnode
    rw [hplist, hfind] at hnode
    rw [hpid]
    split at hnode
    · obtain ⟨old, hold, rfl⟩ := map_eq_some_iff.1 hnode
      exact h.thread pid old hold
    · exact h.thread pid node hnode
  · intro pid node hnode
    rw [hplist, hfind] at hnode
    rw [hexit]
    split at hnode
    · next heq =>
      obtain ⟨old, hold, rfl⟩ := map_eq_some_iff.1 hnode
      have hthread : old.thread = t := h.thread_eq ht (heq ▸ hold)
      simp only [hthread, if_true]
      exact ⟨rfl, rfl⟩
    · next hne =>
      have hthread : node.thread ≠ t := fun hnt => hne (by rw [← (h.thread pid node hnode).2, hnt])
      rw [if_neg hthread]
      exact h.status pid node hnode
  · intro u hu
    have hne : u ≠ t := fun hut => by rw [hut] at hu; omega
    rw [hpc', hexit, if_neg hne, if_neg hne]
    exact h.fresh u hu
  · intro u hu
    rw [hpc']
    split
    · rcases hpc with rfl | rfl <;> rfl
    · next hne =>
      rw [hexit, if_neg hne] at hu
      exact h.exiting u hu
  · intro u hu
    rw [hexit]
    split
    · rfl
    · next hne =>
      rw [hpc', if_neg hne] at hu
      exact h.marked u hu
  · intro u pid q hu
    rw [hpid]
    rw [hpc'] at hu
    split at hu
    · rcases hpc with rfl | rfl <;> cases hu
    · exact h.target u pid q hu
  · refine h.unit.congr (fun q => ?_) (fun q => by rw [← hs']; rfl) hholds (fun q => ?_)
    · rw [ProcSys.mem_posted, hposted, ProcSys.mem_posted]
    · rw [ProcSys.mem_present, hplist, hpid, hfind, ProcSys.mem_present]
      split
      · rw [isSome_map]
      · rfl

/-- `set_exited` leaves the code that the node has. -/
theorem find_markExited (ht : t < n) (pid : Int32) :
    find (setExited s.plist (s.pid t)) pid =
      if pid = s.pid t then (find s.plist pid).map fun node =>
        ⟨⟨node.pid, 1, (s.exitcode t).getD (-1)⟩, node.thread⟩
      else find s.plist pid := by
  rw [find_setExited]
  split
  · next heq =>
    rw [heq]
    cases hnode : find s.plist (s.pid t) with
    | none => rfl
    | some node =>
      have hthread := h.thread_eq ht hnode
      have hcode := (h.status _ _ hnode).2
      rw [hthread] at hcode
      rw [map_some, map_some, hcode]
  · rfl

/-- `V(curthread->wait)`. -/
theorem postWait (ht : t < n) (hpc : s.pc t = .postWait) :
    Core n (ProcSys.goto
      { s with sys, count := update s.count (.wait t) (s.count (.wait t) + 1) }
      t .postLock) := by
  have hnot : t ∉ s.posted := by
    rw [ProcSys.mem_posted, hpc]
    exact Bool.false_ne_true
  have hsome : (s.exitcode t).isSome := h.marked t (by rw [hpc]; rfl)
  refine h.place ht (fun _ => rfl) (fun _ => hsome) (fun _ _ hh => by cases hh) ?_
  refine h.unit.post (k := t) ht hnot (fun q => ?_) (fun q => ?_) (fun u => ?_) (fun _ => Iff.rfl)
  · rw [ProcSys.mem_posted, s.goto_pc]
    split
    · next heq => simp [heq, Pc.posted]
    · next hne => simp [hne, ProcSys.mem_posted]
  · simp only [update_apply, Sem.wait.injEq]
  · exact s.goto_class t u _ Pc.holds (by rw [hpc]; rfl)

/-- The `P` of a waiter returns. -/
theorem wake (ht : t < n) {q : Tid} (hpc : s.pc t = .waitExit pid q)
    (hcount : s.count (.wait q) ≠ 0) :
    Core n (ProcSys.goto
      { s with sys, off, count := update s.count (.wait q) (s.count (.wait q) - 1) }
      t (.readWoken pid q)) := by
  have htarget : q < n ∧ s.pid q = pid := h.target t pid q (by rw [hpc]; rfl)
  have hnone : s.exitcode t = none := h.exitcode_eq_none (by rw [hpc]; rfl)
  refine h.place ht (fun hsome => by rw [hnone] at hsome; cases hsome) (fun hm => by cases hm) ?_ ?_
  · rintro pid' q' hh
    cases hh
    exact htarget
  refine h.unit.take (k := q) (v := t) htarget.1 hcount (by rw [hpc]; rfl)
    (mem_posted_goto (by rw [hpc]; rfl)) (fun x => ?_) (fun u => ?_) (fun _ => Iff.rfl)
  · simp only [update_apply, Sem.wait.injEq]
  · rw [s.goto_pc]
    split <;> rfl

/-- A waiter deletes the node and returns. -/
theorem reap (ht : t < n) {q : Tid} {st : Int32} (hpc : s.pc t = .reap pid q st)
    {last : Option Result} :
    Core n (ProcSys.goto { s with plist := delete s.plist pid } t (.user last)) := by
  obtain ⟨hq, hpid⟩ : q < n ∧ s.pid q = pid := h.target t pid q (by rw [hpc]; rfl)
  have hsub : ∀ pid' node, find (delete s.plist pid) pid' = some node →
      find s.plist pid' = some node := by
    intro pid' node hnode
    by_cases heq : pid' = pid
    · rw [heq, find_delete_self h.nodup] at hnode
      cases hnode
    · rwa [find_delete_of_ne _ heq] at hnode
  refine
    { maxPid := h.maxPid, pid := h.pid, nodup := ?_, fresh := ?_, exiting := ?_, marked := ?_,
      thread := fun pid' node hnode => h.thread pid' node (hsub pid' node hnode)
      status := fun pid' node hnode => h.status pid' node (hsub pid' node hnode)
      target := ?_, unit := ?_ }
  · show (pids (delete s.plist pid)).Nodup
    rw [pids_delete]
    exact h.nodup.erase pid
  · intro u hu
    rw [ProcSys.goto_pc, if_neg (fun hut => by rw [hut] at hu; omega)]
    exact h.fresh u hu
  · intro u hu
    exact (ProcSys.goto_class _ t u _ Pc.exiting (by rw [hpc]; rfl)).trans (h.exiting u hu)
  · intro u hu
    exact h.marked u ((ProcSys.goto_class _ t u _ Pc.marked (by rw [hpc]; rfl)).symm.trans hu)
  · intro u pid' q' hu
    rw [ProcSys.goto_pc] at hu
    split at hu
    · cases hu
    · exact h.target u pid' q' hu
  · refine h.unit.strike (k := q) (v := t) (by rw [hpc]; rfl)
      (mem_posted_goto (by rw [hpc]; rfl)) (fun _ => rfl) (fun u => ?_) (fun x hx => ?_)
    · rw [ProcSys.goto_pc]
      split <;> rfl
    · show (find (delete s.plist pid) (s.pid x)).isSome ↔ _
      by_cases hxq : x = q
      · rw [hxq, hpid, find_delete_self h.nodup]
        simp
      · have hne : s.pid x ≠ pid := fun heq => hxq (h.pid_inj hx hq (heq.trans hpid.symm))
        rw [find_delete_of_ne _ hne]
        exact ⟨fun hp => ⟨hp, hxq⟩, fun hp => hp.1⟩

end

/-! ## A new thread -/

theorem toInt_succ {a : Int32} (ha : a ≠ Int32.maxValue) : (a + 1).toInt = a.toInt + 1 := by
  have hlt := Int32.toInt_lt a
  have hge := Int32.le_toInt a
  have hne : a.toInt ≠ 2 ^ 31 - 1 := fun h => ha (Int32.toInt_inj.1 h)
  rw [Int32.toInt_add]
  show (a.toInt + 1).bmod (2 ^ 32) = a.toInt + 1
  rw [Int.bmod_eq_of_le] <;> omega

/-- `sys_fork`. -/
theorem fork (h : Core n s) (hmax : s.maxPid ≠ Int32.maxValue) :
    Core (n + 1)
      { s with
        sys, off
        count := update s.count (.wait n) 0
        plist := insertToPlist s.plist n s.maxPid
        maxPid := s.maxPid + 1
        pid := update s.pid n s.maxPid
        pc := update s.pc n (.user none) } := by
  have hpid : ∀ t, t < n → update s.pid n s.maxPid t = s.pid t :=
    fun t ht => update_of_ne (Nat.ne_of_lt ht) _ _
  have hpc : update s.pc n (.user none) = s.pc := by
    rw [← (h.fresh n le_rfl).1, update_eq_self]
  -- the nodes are the old ones and one for the new thread, which has the new pid
  have hnode : ∀ pid node, find (insertToPlist s.plist n s.maxPid) pid = some node →
      find s.plist pid = some node ∨
        pid = s.maxPid ∧ node = ⟨⟨s.maxPid, 0, -1⟩, n⟩ := by
    intro pid node hfind
    rw [find_insertToPlist] at hfind
    rcases or_eq_some_iff.1 hfind with hfind | ⟨-, hfind⟩
    · exact .inl hfind
    · split at hfind
      · next heq => exact .inr ⟨heq.symm, (some.inj hfind).symm⟩
      · cases hfind
  rw [hpc]
  refine
    { maxPid := ?_, pid := ?_, nodup := ?_, thread := ?_, status := ?_, target := ?_, unit := ?_
      fresh := fun t ht => h.fresh t (by omega), exiting := h.exiting, marked := h.marked }
  · rw [toInt_succ hmax, h.maxPid]
    rfl
  · intro t ht
    show (update s.pid n s.maxPid t).toInt = _
    by_cases htn : t = n
    · rw [htn, update_self, h.maxPid]
    · rw [hpid t (by omega)]
      exact h.pid t (by omega)
  · rw [pids_insertToPlist]
    rw [← List.concat_eq_append]
    exact h.nodup.concat h.maxPid_not_mem
  · intro pid node hfind
    show node.thread < n + 1 ∧ update s.pid n s.maxPid node.thread = pid
    rcases hnode pid node hfind with hold | ⟨rfl, rfl⟩
    · obtain ⟨hlt, heq⟩ := h.thread pid node hold
      rw [hpid _ hlt]
      exact ⟨Nat.lt_succ_of_lt hlt, heq⟩
    · exact ⟨Nat.lt_succ_self n, update_self _ _ _⟩
  · intro pid node hfind
    rcases hnode pid node hfind with hold | ⟨rfl, rfl⟩
    · exact h.status pid node hold
    · rw [(h.fresh n le_rfl).2]
      exact ⟨rfl, rfl⟩
  · intro t pid q hq
    obtain ⟨hlt, heq⟩ := h.target t pid q hq
    refine ⟨Nat.lt_succ_of_lt hlt, ?_⟩
    show update s.pid n s.maxPid q = pid
    rw [hpid q hlt, heq]
  · have hn : n ∉ s.posted := by
      rw [ProcSys.mem_posted, (h.fresh n le_rfl).1]
      exact Bool.false_ne_true
    refine h.unit.new (k := n) hn (fun x => ?_) (fun _ => Iff.rfl) (fun x => ?_) (fun _ => rfl)
      (fun x hx => ?_)
    · exact Nat.lt_succ_iff_lt_or_eq
    · simp only [update_apply, Sem.wait.injEq]
    · show (find (insertToPlist s.plist n s.maxPid)
        (update s.pid n s.maxPid x)).isSome ↔ _
      rw [find_isSome_iff, pids_insertToPlist, List.mem_append, List.mem_singleton,
        ProcSys.mem_present, find_isSome_iff]
      by_cases hxn : x = n
      · simp [hxn]
      · have hlt : x < n := by
          have : x < n + 1 := hx
          omega
        have hne : s.pid x ≠ s.maxPid := by
          intro heq
          have h1 := h.pid x hlt
          rw [heq, h.maxPid] at h1
          omega
        simp [hxn, hne]

end Core

/-! ## Every run -/

/-- The invariant of a state. -/
structure Inv (s : ProcSys) : Prop where
  ok : s.sys.places.Ok
  core : Core s.sys.created s

theorem Inv.lt_created (h : Inv s) (hcur : s.sys.curthread = some t) : t < s.sys.created :=
  h.ok.lt_next_of_mem (Places.mem_all.2 (.inl hcur))

theorem created_switchTo {a b : ThreadSys Sem} (h : a.switchTo = some b) :
    b.created = a.created := by
  obtain ⟨-, t, ts, -, -, -, -, -, -, hnext⟩ :=
    Places.dispatch_cases (eq_some_places h a.places_switchTo)
  exact hnext

theorem created_threadFork {a b : ThreadSys Sem} {m : Tid} (h : a.threadFork = some (m, b)) :
    b.created = a.created + 1 := by
  have hp := a.places_threadFork
  rw [h] at hp
  obtain ⟨t, -, hb⟩ := map_eq_some_iff.1 hp.symm
  exact (congrArg (fun r => Places.next r.2) hb).symm

/-- Switching leaves the invariant. -/
theorem Inv.sched (h : Inv s) (hok : sys.places.Ok)
    (hc : sys.created = s.sys.created) : Inv { s with sys, off } where
  ok := hok
  core := by
    rw [hc]
    exact h.core.congr rfl rfl rfl rfl rfl fun _ => rfl

theorem Inv.same (h : Inv s) (hsame : SameThreads s.sys s'.sys) (hcore : Core s.sys.created s') :
    Inv s' :=
  ⟨hsame.ok h.ok, by rw [hsame.created]; exact hcore⟩

/-- **Every move keeps the invariant.** -/
theorem Inv.moves (h : Inv s) (hm : Moves s e s') : Inv s' := by
  cases hm with
  | timer hoff hstop hz | sleep hcur hpc hcount hstop hz | leave hcur hpc hstop hz =>
    exact h.sched (hstop.ok h.ok) hstop.created
  | switchTo hs =>
    exact h.sched (ok_step h.ok (show step s.sys .switchTo = some _ from hs)) (created_switchTo hs)
  | @fork t last sys off hcur hpc hmax hf =>
    have hok : sys.places.Ok :=
      ok_step h.ok (show step s.sys .fork = some sys by rw [step, hf]; rfl)
    refine ⟨hok, ?_⟩
    rw [created_threadFork hf]
    exact h.core.fork hmax
  | refuse hcur hpc | begin hcur hpc | finish hcur hpc | readExited hcur hpc =>
    exact ⟨h.ok, h.core.goto_running (h.lt_created hcur) hpc rfl rfl rfl fun _ _ hh => by cases hh⟩
  | exit hcur hpc =>
    exact ⟨h.ok, h.core.recordExit (h.lt_created hcur) (find_setExcode _ _ _)
      (pids_setExcode _ _ _) (by rw [hpc]; exact ⟨rfl, rfl⟩) (.inl rfl)⟩
  | takeLock hcur hpc hcount hsame =>
    exact h.same hsame (h.core.other.goto_running (h.lt_created hcur) hpc rfl rfl rfl
      fun _ _ hh => by cases hh)
  | test hcur hpc =>
    rcases s.afterTest_cases _ with ⟨-, heq⟩ | ⟨-, heq⟩ | heq <;> rw [heq] <;>
      exact ⟨h.ok, h.core.goto_running (h.lt_created hcur) hpc rfl rfl rfl
        fun _ _ hh => by cases hh⟩
  | @unlock t pc next sys hcur hpc hnext hsame =>
    rcases hnext with ⟨pid, st, rfl, rfl⟩ | ⟨pid, q, rfl, rfl⟩ | ⟨rfl, rfl⟩
    · exact h.same hsame (h.core.other.goto_running (h.lt_created hcur) hpc rfl rfl rfl
        fun _ _ hh => by cases hh)
    · refine h.same hsame (h.core.other.goto_running (h.lt_created hcur) hpc ?_ ?_ ?_ ?_)
      · cases q <;> rfl
      · cases q <;> rfl
      · cases q <;> rfl
      · intro pid' q' hh
        refine h.core.target t pid' q' ?_
        rw [hpc, ← hh]
        cases q <;> rfl
    · exact h.same hsame (h.core.other.goto_running (h.lt_created hcur) hpc rfl rfl rfl
        fun _ _ hh => by cases hh)
  | @find t pid hcur hpc =>
    refine ⟨h.ok, h.core.goto_running (h.lt_created hcur) hpc rfl ?_ ?_ ?_⟩
    · cases findThreadByPid s.plist pid <;> rfl
    · cases findThreadByPid s.plist pid <;> rfl
    · intro pid' q hh
      cases hfind : find s.plist pid with
      | none =>
        rw [findThreadByPid, hfind] at hh
        cases hh
      | some node =>
        rw [findThreadByPid, hfind] at hh
        cases hh
        exact h.core.thread pid node hfind
  | loadWait hcur hpc | readWoken hcur hpc =>
    refine ⟨h.ok, h.core.goto_running (h.lt_created hcur) hpc rfl rfl rfl fun pid' q' hh => ?_⟩
    exact h.core.target _ pid' q' (by rw [hpc]; exact hh)
  | wake hcur hpc hcount hsame => exact h.same hsame (h.core.wake (h.lt_created hcur) hpc hcount)
  | reap hcur hpc => exact ⟨h.ok, h.core.reap (h.lt_created hcur) hpc⟩
  | markExited hcur hpc =>
    exact ⟨h.ok, h.core.recordExit (h.lt_created hcur) (h.core.find_markExited (h.lt_created hcur))
      (pids_setExited _ _) (by rw [hpc]; exact ⟨rfl, rfl⟩) (.inr rfl)⟩
  | postWait hcur hpc hsame => exact h.same hsame (h.core.postWait (h.lt_created hcur) hpc)
  | postLock hcur hpc hsame =>
    have hsome := h.core.marked _ (by rw [hpc]; rfl)
    exact h.same hsame (h.core.other.goto (h.lt_created hcur) hpc (fun _ => rfl) (fun _ => hsome)
      rfl rfl fun _ _ hh => by cases hh)

theorem find_boot {node : ThreadNode} (h : find boot.plist pid = some node) :
    pid = 1 ∧ node = ⟨⟨1, 0, -1⟩, 0⟩ := by
  have hnode : node = ⟨⟨1, 0, -1⟩, 0⟩ := List.mem_singleton.1 (List.mem_of_find?_eq_some h)
  refine ⟨?_, hnode⟩
  rw [← pid_of_find h, hnode]

theorem inv_boot : Inv boot where
  ok := ok_threadBootstrap
  core :=
    { maxPid := by decide
      pid := by
        intro t ht
        obtain rfl : t = 0 := Nat.lt_one_iff.1 ht
        rfl
      nodup := List.nodup_singleton _
      thread := by
        intro pid node hnode
        obtain ⟨rfl, rfl⟩ := find_boot hnode
        exact ⟨Nat.one_pos, rfl⟩
      status := by
        intro pid node hnode
        obtain ⟨rfl, rfl⟩ := find_boot hnode
        exact ⟨rfl, rfl⟩
      fresh := fun _ _ => ⟨rfl, rfl⟩
      exiting := fun _ ht => by cases ht
      marked := fun _ ht => by cases ht
      target := fun _ _ _ hq => by cases hq
      unit :=
        { unposted := by
            intro q hq _
            obtain rfl : q = 0 := Nat.lt_one_iff.1 hq
            exact ⟨rfl, rfl⟩
          counted := fun q _ hne => absurd rfl hne
          held := fun t q hq => by cases hq
          kept := fun q _ hpost => by cases hpost
          mem_dom := fun t q hq => by cases hq } }

/-- **The invariant holds in every state that is reached**, under any condition
on the steps. -/
theorem inv_of_reachable {G : ProcSys → Event → Prop}
    (h : Runs.Reachable ProcSys.step G boot s) : Inv s :=
  h.invariant inv_boot fun _ _ _ hinv _ hstep => hinv.moves (moves_of_step hstep)

/-- Where nothing is torn and nothing strays, the events are all there is. -/
theorem reachable_whole_iff {G : ProcSys → Event → Prop} :
    Runs.Reachable ProcSys.turn (Turn.Meets False G) boot s ↔
      Runs.Reachable ProcSys.step G boot s := by
  refine ⟨fun h => h.imp fun s e s' _ hg hs => ?_, fun h => h.imp fun s e s' _ hg hs =>
    ⟨.whole e, hg, hs⟩⟩
  cases e with
  | whole e => exact ⟨e, hg, hs⟩
  | torn _ | stray _ => exact hg.elim

/-! ## A run to start from -/

/-- `sys__exit(code)` by the current thread, to where it stops running. -/
def exitCall (code : Int32) : List Event := [.exit code, .run, .run, .run, .run]

/-- A call of `sys_waitpid(pid)` by the current thread, and `n` steps of it. -/
def waitCall (pid : Int32) (n : ℕ) : List Event :=
  .waitpid pid 0x10000000 0 :: List.replicate n .run

/-- The current thread gives way at a timer interrupt. -/
def next : List Event := [.timer, .switchTo]

/-- The boot thread forks threads 1 to 4, with the pids 2 to 5, and thread 4
exits, so that `lock` is free. Thread 1 is running. -/
def family : List Event :=
  [.fork, .fork, .fork, .fork] ++ next ++ next ++ next ++ next ++ exitCall 0 ++ [.switchTo] ++ next

/-- **The process list tells the truth**, in every run in which no timer interrupt comes in
inside a function on the list or the menu's `thread_fork` and no freed structure is read: no
pid is in it twice, the next pid is not in it, and a node has the pid of its thread and knows
whether, and how, it exited. -/
theorem plist_true (s : ProcSys)
    (h : Runs.Reachable ProcSys.turn (Turn.Meets False (Runs.Free ProcSys Event)) boot s) :
    (pids s.plist).Nodup ∧ s.maxPid ∉ pids s.plist ∧ ∀ pid node, find s.plist pid = some node →
      s.pid node.thread = pid ∧
      node.exited = (if (s.exitcode node.thread).isSome then 1 else 0) ∧
      node.excode = (s.exitcode node.thread).getD (-1) := by
  have hc := (inv_of_reachable (reachable_whole_iff.1 h)).core
  exact ⟨hc.nodup, hc.maxPid_not_mem, fun pid node hnode =>
    ⟨(hc.thread pid node hnode).2, hc.status pid node hnode⟩⟩

/-- Thread 3 exits with 7. -/
theorem plist_true_exited : ∃ s node,
    Runs.exec ProcSys.step boot (family ++ next ++ next ++ exitCall 7) = some s ∧
      find s.plist 4 = some node ∧ node.exited = 1 ∧ node.excode = 7 ∧ s.maxPid ∉ pids s.plist ∧
      s.exitcode node.thread = some 7 := by
  obtain ⟨s, hs, hp⟩ := Runs.exists_of_exec ProcSys.step boot
    (family ++ next ++ next ++ exitCall 7)
    (fun s => (find s.plist 4).any fun node => node.exited = 1 ∧ node.excode = 7)
      (by decide +kernel)
  obtain ⟨node, hnode, hp⟩ := (any_eq_true _ _).1 hp
  obtain ⟨h1, h7⟩ := of_decide_eq_true hp
  obtain ⟨-, hmax, htrue⟩ :=
    plist_true s (reachable_whole_iff.2 (Runs.reachable_of_exec hs))
  obtain ⟨-, hexited, hexcode⟩ := htrue 4 node hnode
  refine ⟨s, node, hs, hnode, h1, h7, hmax, ?_⟩
  cases hcode : s.exitcode node.thread with
  | none =>
    rw [h7, hcode] at hexcode
    exact absurd hexcode (by decide)
  | some code =>
    rw [h7, hcode] at hexcode
    rw [hexcode]
    rfl

end Proc

end Os161
