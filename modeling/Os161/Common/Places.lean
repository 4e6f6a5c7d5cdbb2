import Mathlib.Data.List.Perm.Basic
import Mathlib.Data.List.Perm.Lattice
import Mathlib.Data.List.Nodup
import Mathlib.Order.Nat
import Mathlib.Logic.Function.Basic
/-!
# A uniprocessor thread system, over lists

One thread runs or none does; the others are ready, asleep on an address,
or dead and not yet disposed of. The addresses are not interpreted. The
operations are the moves between those places, each given as the list it
leaves, and `nothing` where the move has no thread to make.

`live` is the history of which threads exist: a fork adds one, disposing of
the dead removes them. `since` and `clock` say in which order the sleepers
went to sleep. `Ok` is the invariant: every thread that exists is in one
place, once, the count of threads leaves out the dead, and the sleepers
stand in the order in which they went to sleep. Every operation keeps it.
-/

namespace Os161

open Function List

/-- The places of the threads. -/
structure Places (A : Type) where
  cur : Option ℕ
  ready : List ℕ
  asleep : List ℕ
  dead : List ℕ
  /-- The number of threads that are not dead. -/
  num : ℕ
  /-- The address a thread sleeps on. -/
  addr : ℕ → Option A
  /-- Whether a thread has never run. -/
  fresh : ℕ → Bool
  /-- The threads that were created and not disposed of. -/
  live : List ℕ
  /-- The next thread to be created. -/
  next : ℕ
  /-- When a thread last went to sleep. -/
  since : ℕ → ℕ
  clock : ℕ

namespace Places

variable {A : Type} {p p' : Places A} {a : A} {t n : ℕ}

/-- Thread `t` gives way and stays ready. -/
def yieldThread (t : ℕ) (p : Places A) : Places A :=
  { p with cur := none, ready := p.ready ++ [t] }

/-- The running thread gives way. With no thread running there is nothing
to switch. -/
def yield (p : Places A) : Places A :=
  match p.cur with
  | none => p
  | some t => p.yieldThread t

/-- Thread `t` goes to sleep on `a`. -/
def sleepThread (t : ℕ) (a : A) (p : Places A) : Places A :=
  { p with
    cur := none
    asleep := p.asleep ++ [t]
    addr := update p.addr t (some a)
    since := update p.since t p.clock
    clock := p.clock + 1 }

/-- The running thread goes to sleep on `a`. -/
def sleep (a : A) (p : Places A) : Option (Places A) := p.cur.map fun t => p.sleepThread t a

/-- Thread `t` comes back from sleep. -/
def resumeThread (t : ℕ) (p : Places A) : Places A :=
  { p with addr := update p.addr t none }

/-- The running thread comes back from sleep. -/
def resume (p : Places A) : Option (Places A) := p.cur.map fun t => p.resumeThread t

/-- Thread `t` dies. -/
def exitThread (t : ℕ) (p : Places A) : Places A :=
  { p with cur := none, dead := p.dead ++ [t], num := p.num - 1 }

/-- The running thread dies. -/
def exit (p : Places A) : Option (Places A) :=
  p.cur.bind fun t => if 0 < p.num then some (p.exitThread t) else none

/-- The threads asleep on `a`, in the order of the sleepers. -/
def sleepingOn [DecidableEq A] (a : A) (p : Places A) : List ℕ :=
  p.asleep.filter fun t => p.addr t = some a

/-- Every thread asleep on `a` becomes ready. -/
def wakeup [DecidableEq A] (a : A) (p : Places A) : Places A :=
  { p with
    ready := p.ready ++ p.sleepingOn a
    asleep := p.asleep.filter fun t => ¬ p.addr t = some a }

/-- The first thread asleep on `a` becomes ready. -/
def wakeupOne [DecidableEq A] (a : A) (p : Places A) : Places A :=
  match p.sleepingOn a with
  | [] => p
  | t :: _ => { p with ready := p.ready ++ [t], asleep := p.asleep.erase t }

/-- One more thread, ready to run for the first time. -/
def newThread (p : Places A) : Places A :=
  { p with
    ready := p.ready ++ [p.next]
    num := p.num + 1
    addr := update p.addr p.next none
    fresh := update p.fresh p.next true
    live := p.live ++ [p.next]
    next := p.next + 1 }

/-- The running thread creates another. -/
def fork (p : Places A) : Option (ℕ × Places A) := p.cur.map fun _ => (p.next, p.newThread)

/-- The dead are disposed of; none of them may be running. -/
def bury (p : Places A) : Option (Places A) :=
  if p.cur.any p.dead.contains then none
  else some { p with dead := [], live := p.live.diff p.dead }

/-- The first ready thread runs. It disposes of the dead, unless it has
never run before. -/
def dispatch (p : Places A) : Option (Places A) :=
  match p.cur, p.ready with
  | none, t :: ts =>
    if p.fresh t then
      some { p with cur := some t, ready := ts, fresh := update p.fresh t false }
    else bury { p with cur := some t, ready := ts }
  | _, _ => none

/-- Where everything is, as one list. -/
def all (p : Places A) : List ℕ := p.cur.toList ++ p.ready ++ p.asleep ++ p.dead

/-- **The invariant of the thread system.** -/
structure Ok (p : Places A) : Prop where
  perm : p.all.Perm p.live
  nodup : p.live.Nodup
  lt_next : ∀ t ∈ p.live, t < p.next
  num_eq : p.num = (p.cur.toList ++ p.ready ++ p.asleep).length
  addr_isSome : ∀ t ∈ p.asleep, (p.addr t).isSome
  sorted : p.asleep.Pairwise fun t u => p.since t < p.since u
  since_lt : ∀ t ∈ p.asleep, p.since t < p.clock

/-! ## What the invariant says of one thread -/

theorem mem_all : t ∈ p.all ↔ p.cur = some t ∨ t ∈ p.ready ∨ t ∈ p.asleep ∨ t ∈ p.dead := by
  simp [all]

namespace Ok

section

variable (h : Ok p)

include h

theorem nodup_all : p.all.Nodup := h.perm.nodup_iff.2 h.nodup

theorem lt_next_of_mem (ht : t ∈ p.all) : t < p.next :=
  h.lt_next t (h.perm.mem_iff.1 ht)

/-- **The places exclude one another.** -/
theorem disjoint :
    (∀ t, p.cur = some t → t ∉ p.ready ∧ t ∉ p.asleep ∧ t ∉ p.dead) ∧
    (∀ t ∈ p.ready, t ∉ p.asleep ∧ t ∉ p.dead) ∧ (∀ t ∈ p.asleep, t ∉ p.dead) := by
  have hn := h.nodup_all
  simp only [all, append_assoc] at hn
  obtain ⟨-, hn1, hd1⟩ := nodup_append'.1 hn
  obtain ⟨-, hn2, hd2⟩ := nodup_append'.1 hn1
  obtain ⟨-, -, hd3⟩ := nodup_append'.1 hn2
  refine ⟨fun t ht => ?_, fun t ht => ?_, fun t ht => hd3 ht⟩
  · have := hd1 (a := t) (by simp [ht])
    simpa [not_or] using this
  · have := hd2 ht
    simpa [not_or] using this

theorem not_asleep_of_cur (ht : p.cur = some t) : t ∉ p.asleep :=
  (h.disjoint.1 t ht).2.1

theorem not_asleep_of_ready (ht : t ∈ p.ready) : t ∉ p.asleep :=
  (h.disjoint.2.1 t ht).1

theorem asleep_nodup : p.asleep.Nodup := by
  have hn := h.nodup_all
  simp only [all, append_assoc] at hn
  exact ((hn.of_append_right).of_append_right).of_append_left

theorem next_not_mem : p.next ∉ p.all := fun hm =>
  Nat.lt_irrefl _ (h.lt_next_of_mem hm)

/-- Of the threads asleep on one address, the first has slept longest. -/
theorem sleepingOn_sorted [DecidableEq A] (a : A) :
    (p.sleepingOn a).Pairwise fun t u => p.since t < p.since u :=
  h.sorted.filter _

end

end Ok

theorem mem_sleepingOn [DecidableEq A] : t ∈ p.sleepingOn a ↔ t ∈ p.asleep ∧ p.addr t = some a := by
  simp [sleepingOn]

theorem mem_asleep_wakeup [DecidableEq A] :
    t ∈ (p.wakeup a).asleep ↔ t ∈ p.asleep ∧ p.addr t ≠ some a := by
  simp [wakeup]

theorem wakeupOne_cases [DecidableEq A] (a : A) (p : Places A) :
    (p.sleepingOn a = [] ∧ p.wakeupOne a = p) ∨
    ∃ t ts, p.sleepingOn a = t :: ts ∧
      p.wakeupOne a = { p with ready := p.ready ++ [t], asleep := p.asleep.erase t } := by
  unfold wakeupOne
  split
  · exact .inl ⟨‹_›, rfl⟩
  · exact .inr ⟨_, _, ‹_›, rfl⟩

/-- Waking one thread wakes nobody else. -/
theorem asleep_wakeupOne_subset [DecidableEq A] (ht : t ∈ (p.wakeupOne a).asleep) :
    t ∈ p.asleep := by
  rcases wakeupOne_cases a p with ⟨-, h⟩ | ⟨u, us, -, h⟩
  · rwa [h] at ht
  · rw [h] at ht
    exact mem_of_mem_erase ht

@[simp] theorem wakeupOne_cur [DecidableEq A] : (p.wakeupOne a).cur = p.cur := by
  rcases wakeupOne_cases a p with ⟨-, h⟩ | ⟨u, us, -, h⟩ <;> rw [h]

@[simp] theorem wakeupOne_addr [DecidableEq A] : (p.wakeupOne a).addr = p.addr := by
  rcases wakeupOne_cases a p with ⟨-, h⟩ | ⟨u, us, -, h⟩ <;> rw [h]

/-! ## Who is asleep on an address after a wakeup -/

theorem sleepingOn_wakeup_self [DecidableEq A] (a : A) (p : Places A) :
    (p.wakeup a).sleepingOn a = [] := by
  simp [sleepingOn, wakeup]

theorem sleepingOn_wakeup_of_ne [DecidableEq A] {b : A} (h : b ≠ a) :
    (p.wakeup a).sleepingOn b = p.sleepingOn b := by
  simp only [sleepingOn, wakeup, filter_filter]
  refine filter_congr fun t _ => ?_
  by_cases hb : p.addr t = some b
  · simp [hb, h]
  · simp [hb]

/-- Without one thread, the sleepers on an address are those before, without
that thread. -/
theorem filter_erase_eq [DecidableEq A] (hn : p.asleep.Nodup) (t : ℕ) (b : A) :
    (p.asleep.erase t).filter (fun u => p.addr u = some b) = (p.sleepingOn b).erase t := by
  rw [sleepingOn, hn.erase_eq_filter, (hn.filter _).erase_eq_filter, filter_filter,
    filter_filter]
  exact filter_congr fun u _ => Bool.and_comm _ _

theorem sleepingOn_wakeupOne_self [DecidableEq A] (hn : p.asleep.Nodup) (a : A) :
    (p.wakeupOne a).sleepingOn a = (p.sleepingOn a).tail := by
  rcases wakeupOne_cases a p with ⟨hnil, h⟩ | ⟨t, ts, hts, h⟩
  · rw [h, hnil]; rfl
  · rw [h]
    refine (filter_erase_eq hn t a).trans ?_
    rw [hts, erase_cons_head]
    rfl

theorem sleepingOn_wakeupOne_of_ne [DecidableEq A] (hn : p.asleep.Nodup) {b : A} (hb : b ≠ a) :
    (p.wakeupOne a).sleepingOn b = p.sleepingOn b := by
  rcases wakeupOne_cases a p with ⟨-, h⟩ | ⟨t, ts, hts, h⟩
  · rw [h]
  · rw [h]
    refine (filter_erase_eq hn t b).trans (erase_of_not_mem fun hm => hb ?_)
    have ht : t ∈ p.sleepingOn a := hts ▸ mem_cons_self
    exact Option.some.inj ((mem_sleepingOn.1 hm).2.symm.trans (mem_sleepingOn.1 ht).2)

theorem ready_wakeupOne [DecidableEq A] (a : A) (p : Places A) :
    (p.wakeupOne a).ready = p.ready ++ (p.sleepingOn a).take 1 := by
  rcases wakeupOne_cases a p with ⟨hnil, h⟩ | ⟨t, ts, hts, h⟩
  · rw [h, hnil]; simp
  · rw [h, hts]; rfl

/-! ## Every operation keeps the invariant -/

section

variable (h : Ok p)

include h

/-- The invariant depends only on where the threads are, up to the order of
the ready and the dead. -/
theorem Ok.of_perm (hall : p'.all.Perm p.all) (hlive : p'.live = p.live) (hnext : p'.next = p.next)
    (hnum : p'.num = (p'.cur.toList ++ p'.ready ++ p'.asleep).length)
    (hasleep : p'.asleep.Sublist p.asleep) (haddr : p'.addr = p.addr)
    (hsince : p'.since = p.since) (hclock : p'.clock = p.clock) : Ok p' where
  perm := by rw [hlive]; exact hall.trans h.perm
  nodup := hlive ▸ h.nodup
  lt_next := by rw [hlive, hnext]; exact h.lt_next
  num_eq := hnum
  addr_isSome := fun t ht => by rw [haddr]; exact h.addr_isSome t (hasleep.subset ht)
  sorted := by rw [hsince]; exact h.sorted.sublist hasleep
  since_lt := fun t ht => by rw [hsince, hclock]; exact h.since_lt t (hasleep.subset ht)

theorem Ok.yieldThread (ht : p.cur = some t) : Ok (p.yieldThread t) := by
  refine h.of_perm ?_ rfl rfl ?_ (List.Sublist.refl _) rfl rfl rfl
  · simp only [Places.yieldThread, all, ht, Option.toList_none, Option.toList_some,
      nil_append]
    exact (((perm_append_comm : (p.ready ++ [t]).Perm _).append_right _).append_right _)
  · have := h.num_eq
    simp only [Places.yieldThread, ht, Option.toList_none, Option.toList_some, nil_append,
      length_append, length_cons, length_nil] at this ⊢
    omega

theorem Ok.yield : Ok p.yield := by
  unfold Places.yield
  split
  · exact h
  · exact h.yieldThread ‹_›

theorem Ok.sleepThread (ht : p.cur = some t) (a : A) : Ok (p.sleepThread t a) := by
  have hta := h.not_asleep_of_cur ht
  have hlt := h.since_lt
  -- the sleeper is new to the list, so the updates leave the others alone
  have hne : ∀ u ∈ p.asleep, u ≠ t := fun u hu hut => hta (hut ▸ hu)
  refine ⟨?_, h.nodup, h.lt_next, ?_, ?_, ?_, ?_⟩
  · refine List.Perm.trans ?_ h.perm
    simp only [Places.sleepThread, all, ht, Option.toList_none, Option.toList_some,
      nil_append]
    rw [← append_assoc p.ready]
    refine List.Perm.append_right _ ?_
    exact perm_append_comm
  · have := h.num_eq
    simp only [Places.sleepThread, ht, Option.toList_none, Option.toList_some, nil_append,
      length_append, length_cons, length_nil] at this ⊢
    omega
  · intro u hu
    simp only [Places.sleepThread] at hu ⊢
    by_cases hut : u = t
    · subst hut; simp
    · rw [update_of_ne hut]
      exact h.addr_isSome u (by simpa [hut] using hu)
  · simp only [Places.sleepThread]
    refine pairwise_append.2 ⟨?_, pairwise_singleton _ _, ?_⟩
    · refine h.sorted.imp_of_mem fun {u v} hu hv huv => ?_
      rwa [update_of_ne (hne u hu), update_of_ne (hne v hv)]
    · intro u hu v hv
      obtain rfl := mem_singleton.1 hv
      rw [update_of_ne (hne u hu), update_self]
      exact hlt u hu
  · intro u hu
    simp only [Places.sleepThread] at hu ⊢
    by_cases hut : u = t
    · subst hut; simp
    · rw [update_of_ne hut]
      exact Nat.lt_succ_of_lt (hlt u (by simpa [hut] using hu))

theorem Ok.sleep (hs : p.sleep a = some p') : Ok p' := by
  obtain ⟨t, ht, rfl⟩ := Option.map_eq_some_iff.1 hs
  exact h.sleepThread ht a

theorem Ok.resumeThread (ht : p.cur = some t) : Ok (p.resumeThread t) := by
  refine ⟨h.perm, h.nodup, h.lt_next, h.num_eq, ?_, h.sorted, h.since_lt⟩
  intro u hu
  have hut : u ≠ t := fun hut => h.not_asleep_of_cur ht (hut ▸ hu)
  simp only [Places.resumeThread, update_of_ne hut]
  exact h.addr_isSome u hu

theorem Ok.resume (hs : p.resume = some p') : Ok p' := by
  obtain ⟨t, ht, rfl⟩ := Option.map_eq_some_iff.1 hs
  exact h.resumeThread ht

theorem Ok.exitThread (ht : p.cur = some t) : Ok (p.exitThread t) := by
  refine h.of_perm ?_ rfl rfl ?_ (List.Sublist.refl _) rfl rfl rfl
  · simp only [Places.exitThread, all, ht, Option.toList_none, Option.toList_some,
      nil_append, append_assoc]
    rw [← append_assoc, ← append_assoc]
    exact perm_append_comm.trans (by simp)
  · have := h.num_eq
    simp only [Places.exitThread, ht, Option.toList_none, Option.toList_some, nil_append,
      length_append, length_cons, length_nil] at this ⊢
    omega

theorem Ok.exit (hs : p.exit = some p') : Ok p' := by
  obtain ⟨t, ht, hs⟩ := Option.bind_eq_some_iff.1 hs
  split at hs
  · exact Option.some.inj hs ▸ h.exitThread ht
  · cases hs

end

/-- Splitting the sleepers and putting one half with the ready threads. -/
theorem perm_of_split {ready asleep asleep' woken dead : List ℕ} {c : List ℕ}
    (h : (woken ++ asleep').Perm asleep) :
    (c ++ (ready ++ woken) ++ asleep' ++ dead).Perm (c ++ ready ++ asleep ++ dead) := by
  refine List.Perm.append_right _ ?_
  rw [← append_assoc, append_assoc]
  exact h.append_left _

theorem Ok.wakeup [DecidableEq A] (h : Ok p) (a : A) : Ok (p.wakeup a) := by
  have hsplit : ((p.sleepingOn a) ++ p.asleep.filter fun t => ¬ p.addr t = some a).Perm
      p.asleep := by
    have := filter_append_perm (fun t => decide (p.addr t = some a)) p.asleep
    simpa [sleepingOn] using this
  refine h.of_perm (perm_of_split hsplit) rfl rfl ?_ filter_sublist rfl rfl rfl
  have hlen := hsplit.length_eq
  have := h.num_eq
  simp only [Places.wakeup, length_append] at this hlen ⊢
  omega

theorem Ok.wakeupOne [DecidableEq A] (h : Ok p) (a : A) : Ok (p.wakeupOne a) := by
  unfold Places.wakeupOne
  split
  · exact h
  · rename_i t ts hts
    have ht : t ∈ p.asleep :=
      mem_of_mem_filter (hts ▸ mem_cons_self : t ∈ p.sleepingOn a)
    have hsplit : ([t] ++ p.asleep.erase t).Perm p.asleep := (perm_cons_erase ht).symm
    refine h.of_perm (perm_of_split hsplit) rfl rfl ?_ erase_sublist rfl rfl rfl
    have hlen := hsplit.length_eq
    have := h.num_eq
    simp only [length_append] at this hlen ⊢
    omega

theorem Ok.newThread (h : Ok p) : Ok p.newThread := by
  have hnew : p.next ∉ p.live := fun hm => Nat.lt_irrefl _ (h.lt_next _ hm)
  refine ⟨?_, ?_, ?_, ?_, ?_, h.sorted, h.since_lt⟩
  · refine List.Perm.trans ?_ (h.perm.append_right [p.next])
    simp only [Places.newThread, all, append_assoc]
    refine (perm_append_left_iff _).2 ((perm_append_left_iff _).2 ?_)
    rw [← append_assoc p.asleep]
    exact perm_append_comm
  · exact List.Nodup.append h.nodup (nodup_singleton _) (by simpa using hnew)
  · intro u hu
    rcases mem_append.1 hu with hu | hu
    · exact Nat.lt_succ_of_lt (h.lt_next u hu)
    · rw [mem_singleton.1 hu]; exact Nat.lt_succ_self _
  · have := h.num_eq
    simp only [Places.newThread, length_append, length_cons, length_nil] at this ⊢
    omega
  · intro u hu
    have hut : u ≠ p.next := fun hut =>
      h.next_not_mem (mem_all.2 (.inr (.inr (.inl (hut ▸ hu)))))
    simp only [Places.newThread, update_of_ne hut]
    exact h.addr_isSome u hu

theorem Ok.fork (h : Ok p) (hs : p.fork = some (n, p')) : Ok p' := by
  obtain ⟨t, ht, heq⟩ := Option.map_eq_some_iff.1 hs
  obtain ⟨-, rfl⟩ := Prod.mk.inj heq
  exact h.newThread

/-- The thread that runs next was ready. -/
theorem Ok.run (h : Ok p) (hc : p.cur = none) {ts : List ℕ} (hr : p.ready = t :: ts)
    (f : ℕ → Bool) : Ok { p with cur := some t, ready := ts, fresh := f } := by
  refine h.of_perm ?_ rfl rfl ?_ (List.Sublist.refl _) rfl rfl rfl
  · simp [all, hc, hr]
  · have := h.num_eq
    simpa [hc, hr] using this

/-- Taking away the front of a list leaves its back. -/
theorem append_diff_self (l₁ l₂ : List ℕ) : (l₁ ++ l₂).diff l₁ = l₂ := by
  induction l₁ with
  | nil => rfl
  | cons a l₁ ih => rw [cons_append, diff_cons, erase_cons_head, ih]

theorem Ok.bury (h : Ok p) (hs : p.bury = some p') : Ok p' := by
  unfold Places.bury at hs
  split at hs
  · cases hs
  · obtain rfl := Option.some.inj hs
    have hsub : (p.live.diff p.dead).Sublist p.live := diff_sublist _ _
    refine ⟨?_, h.nodup.sublist hsub, fun t ht => h.lt_next t (hsub.subset ht), h.num_eq,
      h.addr_isSome, h.sorted, h.since_lt⟩
    -- the dead are the last part of the list of places
    have h1 : (p.live.diff p.dead).Perm (p.all.diff p.dead) := (h.perm.symm).diff_right _
    refine List.Perm.trans ?_ h1.symm
    have h2 : p.all.Perm (p.dead ++ (p.cur.toList ++ p.ready ++ p.asleep)) :=
      perm_append_comm
    refine List.Perm.trans ?_ (h2.diff_right _).symm
    rw [append_diff_self]
    simp [all]

/-- **The dispatcher never fails** while a thread is ready: no dead thread
is running. -/
theorem Ok.dispatch_isSome (h : Ok p) (hc : p.cur = none) (hr : p.ready ≠ []) :
    ∃ p', p.dispatch = some p' := by
  obtain ⟨t, ts, hts⟩ := exists_cons_of_ne_nil hr
  unfold Places.dispatch
  rw [hc, hts]
  simp only
  split
  · exact ⟨_, rfl⟩
  · have hdead : t ∉ p.dead := (h.disjoint.2.1 t (by rw [hts]; exact mem_cons_self)).2
    unfold Places.bury
    rw [if_neg (by simpa using hdead)]
    exact ⟨_, rfl⟩

theorem Ok.dispatch (h : Ok p) (hs : p.dispatch = some p') : Ok p' := by
  unfold Places.dispatch at hs
  split at hs
  · rename_i t ts hc hr
    split at hs
    · obtain rfl := Option.some.inj hs
      exact h.run hc hr _
    · exact (h.run hc hr p.fresh).bury hs
  · cases hs

section

variable (hs : p.dispatch = some p')

include hs

/-- **What a dispatch does** to the threads that are not dead. -/
theorem dispatch_cases :
    p.cur = none ∧ ∃ t ts, p.ready = t :: ts ∧ p'.cur = some t ∧ p'.ready = ts ∧
      p'.asleep = p.asleep ∧ p'.addr = p.addr ∧ p'.since = p.since ∧ p'.next = p.next := by
  unfold Places.dispatch at hs
  split at hs
  · rename_i t ts hc hr
    refine ⟨hc, t, ts, hr, ?_⟩
    split at hs
    · obtain rfl := Option.some.inj hs
      exact ⟨rfl, rfl, rfl, rfl, rfl, rfl⟩
    · unfold Places.bury at hs
      split at hs
      · cases hs
      · obtain rfl := Option.some.inj hs
        exact ⟨rfl, rfl, rfl, rfl, rfl, rfl⟩
  · cases hs

/-- Nobody dies in a dispatch. -/
theorem dead_of_dispatch (ht : t ∈ p'.dead) : t ∈ p.dead := by
  unfold Places.dispatch at hs
  split at hs
  · split at hs
    · obtain rfl := Option.some.inj hs
      exact ht
    · unfold Places.bury at hs
      split at hs
      · cases hs
      · obtain rfl := Option.some.inj hs
        exact absurd ht not_mem_nil
  · cases hs

/-- A dispatch disposes of nobody but the dead. -/
theorem mem_dead_of_dispatch (ht : t ∈ p.live) (ht' : t ∉ p'.live) :
    t ∈ p.dead := by
  unfold Places.dispatch at hs
  split at hs
  · split at hs
    · obtain rfl := Option.some.inj hs
      exact absurd ht ht'
    · unfold Places.bury at hs
      split at hs
      · cases hs
      · obtain rfl := Option.some.inj hs
        by_contra hd
        exact ht' (mem_diff_of_mem ht hd)
  · cases hs

end

end Places

end Os161
