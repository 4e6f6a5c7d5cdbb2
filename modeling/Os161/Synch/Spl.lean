import Os161.Synch.Step
/-!
# Where interrupts are off

What the kernel's code makes of the interrupt level. `Safe` follows a list
of instructions with the level and the stack of saved levels: every
instruction that asserts `curspl>0` finds interrupts off, every `splx` finds
a level, and the code ends with the stack empty. `Base` says that the
current thread's code is safe at the current level, that the code of every
other thread is safe with interrupts off and waits to come back from a
switch, and that a sleeper comes back to where it went to sleep. It is kept
by every step (`base_step`).

What the later files use is at the end: a thread in the middle of a section
is the current thread and nothing but its own code can run
(`run_of_high`).
-/

namespace Os161

namespace Synch

open Thread Function Places Option

/-! ## Following the level -/

/-- A thread that does not run comes back to one of these. -/
def Suspended : List Instr → Prop
  | [] => True
  | .awake :: _ => True
  | .spl0 :: _ => True
  | .switched :: _ => True
  | _ => False

/-- What an instruction does to the level. -/
inductive Effect
  | raise
  | lower
  | stay
  | leave
  | swap
  | stop

def Instr.effect : Instr → Effect
  | splhigh => .raise
  | spl0 => .lower
  | splx | switched | semWait _ | semPost _ | lockWait _ _ | lockDrop _ _ | fork => .leave
  | sleep _ | awake | wakeup _ | wakeupOne _ => .stay
  | yield => .swap
  | exit => .stop

/-- The code asserts `curspl>0` only with interrupts off, and gives back
every level it saved. -/
def Safe : List Instr → Spl → List Spl → Prop
  | [], _, ns => ns = []
  | i :: rest, n, ns =>
    match i.effect with
    | .raise => Safe rest .high (n :: ns)
    | .lower => n = .high ∧ Safe rest .zero ns
    | .stay => n = .high ∧ Safe rest .high ns
    | .leave => n = .high ∧ ∃ m ms, ns = m :: ms ∧ Safe rest m ms
    | .swap => n = .high ∧ Suspended rest ∧ Safe rest .high ns
    | .stop => n = .high

theorem safe_replicate_sleep {c : Chan} {rest : List Instr} {ns : List Spl}
    (h : Safe rest .high ns) : ∀ n, Safe (List.replicate n (.sleep c) ++ rest) .high ns
  | 0 => h
  | n + 1 => ⟨rfl, safe_replicate_sleep h n⟩

/-- **Every function is safe**, at whichever level it may be called. -/
theorem safe_body (t : Tid) (c : Call) {n : Spl} (h : c.needsHigh = true → n = .high) :
    Safe (c.body t) n [] := by
  cases c with
  | clocksleep secs =>
    have hend : Safe [.splx] .high [n] := ⟨rfl, n, [], rfl, rfl⟩
    have := safe_replicate_sleep (c := .lbolt) hend secs
    simpa [Call.body, Safe, Instr.effect] using this
  | threadSleep m | threadWakeup m | threadWakeupOne m => exact ⟨h rfl, rfl⟩
  | P s | V s | lockAcquire l | lockRelease l | threadFork => exact ⟨rfl, n, [], rfl, rfl⟩
  | cvWait cv l =>
    exact ⟨rfl, .high, [n], rfl, rfl, rfl, .high, [n], rfl, rfl, n, [], rfl, rfl⟩
  | cvSignal cv l | cvBroadcast cv l => exact ⟨rfl, rfl, .high, [n], rfl, rfl, n, [], rfl, rfl⟩
  | threadYield => exact ⟨rfl, trivial, rfl, n, [], rfl, rfl⟩
  | threadExit => exact ⟨rfl, n, [], rfl, rfl, n, [], rfl, rfl⟩

variable {i : Instr}

/-- Code that is not waiting to come back, and is not about to turn
interrupts off, runs with interrupts off. -/
theorem high_of_safe {rest : List Instr} {n : Spl} {ns : List Spl}
    (h : Safe (i :: rest) n ns) (hi : i ≠ .splhigh) : n = .high := by
  cases i with
  | splhigh => exact absurd rfl hi
  | exit => exact h
  | _ => exact h.1

/-! ## The invariant -/

/-- The code a sleeper on an address comes back to. -/
inductive Resumes : SleepAddr → List Instr → Prop
  | sem {s : SemId} {rest : List Instr} : Resumes (.sem s) (.semWait s :: rest)
  | lock {l : LockId} {rest : List Instr} : Resumes (.lock l) (.lockWait l true :: rest)
  | chan {c : Chan} {rest : List Instr} : Resumes (.chan c) rest

/-- A thread is asleep where it went to sleep. -/
def Asleep (k : ListKernel) (t : Tid) : Prop :=
  ∃ a next, k.sys.addr t = some a ∧ k.code t = .awake :: next ∧ Resumes a next

/-- **The invariant of the levels.** -/
structure Base (k : ListKernel) : Prop where
  ok : k.sys.Ok
  idle : k.sys.cur = none → k.curspl = .high
  running : ∀ t, k.sys.cur = some t → Safe (k.code t) k.curspl (k.saved t)
  suspended : ∀ t, k.sys.cur ≠ some t → Suspended (k.code t) ∧ Safe (k.code t) .high (k.saved t)
  asleep : ∀ t ∈ k.sys.asleep, Asleep k t

variable {k k' : ListKernel} {t : Tid} {rest : List Instr} {ns : List Spl} {a : SleepAddr}

theorem Blocks.resumes {next : List Instr} (h : Blocks k a rest next) :
    Resumes a next := by
  cases h with
  | sem => exact .sem
  | lock => exact .lock
  | chan => exact .chan

/-- A thread that blocks comes back to code that is safe. -/
theorem Blocks.safe {next : List Instr} (h : Blocks k a rest next)
    (hs : Safe rest .high ns) : Safe (.awake :: next) .high ns := by
  cases h with
  | sem | lock => exact ⟨rfl, hs⟩
  | chan => exact ⟨rfl, hs.2⟩

/-- The code, the stack and the address of a sleeper stay. -/
theorem Asleep.congr (h : Asleep k t) (hcode : k'.code t = k.code t)
    (haddr : k'.sys.addr t = k.sys.addr t) : Asleep k' t := by
  obtain ⟨a, next, h1, h2, h3⟩ := h
  exact ⟨a, next, haddr.trans h1, hcode.trans h2, h3⟩

/-- A step after which the same thread runs, with `rest` to run at the new
level. Sleepers may have been woken. -/
theorem Base.runOn (h : Base k) (rest : List Instr) (ns : List Spl)
    (hc : k.sys.cur = some t) (hok : k'.sys.Ok)
    (hc' : k'.sys.cur = some t)
    (hasleep : ∀ u ∈ k'.sys.asleep, u ∈ k.sys.asleep ∧ k'.sys.addr u = k.sys.addr u)
    (hcode : k'.code = update k.code t rest)
    (hsaved : k'.saved = update k.saved t ns) (hsafe : Safe rest k'.curspl ns) :
    Base k' where
  ok := hok
  idle := fun hn => by rw [hc'] at hn; cases hn
  running := fun u hu => by
    obtain rfl : u = t := some.inj (hu.symm.trans hc')
    rw [hcode, hsaved, update_self, update_self]
    exact hsafe
  suspended := fun u hu => by
    have hut : u ≠ t := fun e => hu (e ▸ hc')
    rw [hcode, hsaved, update_of_ne hut, update_of_ne hut]
    exact h.suspended u fun e => hut (some.inj (e.symm.trans hc))
  asleep := fun u hu => by
    obtain ⟨hu', ha⟩ := hasleep u hu
    have hut : u ≠ t := fun e => h.ok.not_asleep_of_cur hc (e ▸ hu')
    exact (h.asleep u hu').congr (by rw [hcode, update_of_ne hut]) ha

/-- A step after which no thread runs; the one that ran comes back to
`rest`. -/
theorem Base.stop (h : Base k) (rest : List Instr) (ns : List Spl)
    (hc : k.sys.cur = some t) (hok : k'.sys.Ok)
    (hc' : k'.sys.cur = none) (hh : k'.curspl = .high)
    (hasleep : ∀ u ∈ k'.sys.asleep, u ≠ t → u ∈ k.sys.asleep ∧ k'.sys.addr u = k.sys.addr u)
    (hself : t ∈ k'.sys.asleep → Asleep k' t)
    (hcode : k'.code = update k.code t rest)
    (hsaved : k'.saved = update k.saved t ns)
    (hsusp : Suspended rest) (hsafe : Safe rest .high ns) : Base k' where
  ok := hok
  idle := fun _ => hh
  running := fun u hu => by rw [hc'] at hu; cases hu
  suspended := fun u _ => by
    by_cases hut : u = t
    · rw [hcode, hsaved, hut, update_self, update_self]
      exact ⟨hsusp, hsafe⟩
    · rw [hcode, hsaved, update_of_ne hut, update_of_ne hut]
      exact h.suspended u fun e => hut (some.inj (e.symm.trans hc))
  asleep := fun u hu => by
    by_cases hut : u = t
    · exact hut ▸ hself (hut ▸ hu)
    · obtain ⟨hu', ha⟩ := hasleep u hu hut
      exact (h.asleep u hu').congr (by rw [hcode, update_of_ne hut]) ha

/-- A step that changes no code: an interrupt, or a switch. -/
theorem Base.frame (h : Base k) (hok : k'.sys.Ok)
    (hasleep : ∀ u ∈ k'.sys.asleep, u ∈ k.sys.asleep ∧ k'.sys.addr u = k.sys.addr u)
    (hcode : k'.code = k.code) (hsaved : k'.saved = k.saved) (hspl : k'.curspl = k.curspl)
    (hcur : k'.sys.cur = k.sys.cur ∨ (k.sys.cur = none ∧ k'.sys.cur ≠ none)) : Base k' where
  ok := hok
  idle := fun hn => by
    rcases hcur with hcur | ⟨-, hne⟩
    · rw [hspl]; exact h.idle (hcur ▸ hn)
    · exact absurd hn hne
  running := fun u hu => by
    rw [hcode, hsaved, hspl]
    rcases hcur with hcur | ⟨hn, -⟩
    · exact h.running u (hcur ▸ hu)
    · -- the thread switched to was suspended, and the scheduler ran with interrupts off
      rw [h.idle hn]
      exact (h.suspended u (by rw [hn]; nofun)).2
  suspended := fun u hu => by
    rw [hcode, hsaved]
    rcases hcur with hcur | ⟨hn, -⟩
    · exact h.suspended u (hcur ▸ hu)
    · exact h.suspended u (by rw [hn]; nofun)
  asleep := fun u hu => by
    obtain ⟨hu', ha⟩ := hasleep u hu
    exact (h.asleep u hu').congr (by rw [hcode]) ha

/-! ## Every step keeps it -/

theorem asleep_wakeup {p : Places SleepAddr} :
    ∀ u ∈ (p.wakeup a).asleep, u ∈ p.asleep ∧ (p.wakeup a).addr u = p.addr u :=
  fun _ hu => ⟨(mem_asleep_wakeup.1 hu).1, rfl⟩

theorem asleep_wakeupOne {p : Places SleepAddr} :
    ∀ u ∈ (p.wakeupOne a).asleep, u ∈ p.asleep ∧ (p.wakeupOne a).addr u = p.addr u :=
  fun _ hu => ⟨asleep_wakeupOne_subset hu, by rw [wakeupOne_addr]⟩

/-- An instruction that ends in `splx` leaves its thread at the level it
saved, with safe code. -/
theorem Base.safe_leaves (h : Base k) {n : Spl} (hl : Leaves k t i rest n ns)
    (hi : i.effect = .leave) : Safe rest n ns := by
  have hs := h.running t hl.cur
  rw [hl.code, hl.saved] at hs
  simp only [Safe, hi] at hs
  obtain ⟨-, m, ms, heq, hs⟩ := hs
  obtain ⟨rfl, rfl⟩ := List.cons.inj heq
  exact hs

/-- One case for every thing a step can do. -/
theorem Base.step {e : Event} (h : Base k) (hs : Step k e k') : Base k' := by
  cases hs with
  | @call t c hc hcode hh =>
    have hns : k.saved t = [] := by simpa [hcode, Safe] using h.running t hc
    exact h.runOn (c.body t) [] hc h.ok hc (fun u hu => ⟨hu, rfl⟩) rfl
      (by rw [← hns, update_eq_self]; rfl) (safe_body t c hh)
  | @spl t n hc hcode =>
    have hns : k.saved t = [] := by simpa [hcode, Safe] using h.running t hc
    refine h.runOn [] [] hc h.ok hc (fun u hu => ⟨hu, rfl⟩) ?_ ?_ rfl
    · rw [← hcode, update_eq_self]
    · rw [← hns, update_eq_self]
  | splhigh hc hcode =>
    have hs := h.running _ hc
    rw [hcode] at hs
    exact h.runOn _ _ hc h.ok hc (fun u hu => ⟨hu, rfl⟩) rfl rfl hs
  | spl0 hc hcode =>
    have hs := h.running _ hc
    rw [hcode] at hs
    exact h.runOn _ _ hc h.ok hc (fun u hu => ⟨hu, rfl⟩) rfl (update_eq_self _ _).symm hs.2
  | splx hi hl =>
    refine h.runOn _ _ hl.cur h.ok hl.cur (fun u hu => ⟨hu, rfl⟩) rfl rfl (h.safe_leaves hl ?_)
    rcases hi with rfl | rfl <;> rfl
  | @block t a next hc hh hb =>
    have hs := h.running t hc
    rw [hh] at hs
    refine h.stop (.awake :: next) (k.saved t) hc (h.ok.sleepThread hc a) rfl hh
      ?_ ?_ rfl (update_eq_self _ _).symm trivial (hb.safe hs)
    · intro u hu hut
      simp only [sleepThread, List.mem_append, List.mem_singleton] at hu
      exact ⟨hu.resolve_right hut, update_of_ne hut _ _⟩
    · exact fun _ => ⟨a, next, update_self .., update_self .., hb.resumes⟩
  | semTake hl hpos | lockTake hl hfree =>
    exact h.runOn _ _ hl.cur h.ok hl.cur (fun u hu => ⟨hu, rfl⟩) rfl rfl (h.safe_leaves hl rfl)
  | semPost hl hpos =>
    exact h.runOn _ _ hl.cur (h.ok.wakeup _) hl.cur asleep_wakeup rfl rfl (h.safe_leaves hl rfl)
  | lockDrop hl hheld =>
    exact h.runOn _ _ hl.cur (h.ok.wakeupOne _) (wakeupOne_cur.trans hl.cur)
      asleep_wakeupOne (by simp) (by simp) (h.safe_leaves hl rfl)
  | lockKeep hl hheld =>
    exact h.runOn _ _ hl.cur (by simpa using h.ok) (by simpa using hl.cur) (by simp) (by simp)
      (by simp) (h.safe_leaves hl rfl)
  | @awake t rest hc hh hcode =>
    have hs := h.running t hc
    rw [hcode, hh] at hs
    refine h.runOn _ _ hc (h.ok.resumeThread hc) hc ?_ rfl (update_eq_self _ _).symm
      (hh.symm ▸ hs.2)
    intro u hu
    have hut : u ≠ t := fun e => h.ok.not_asleep_of_cur hc (e ▸ hu)
    exact ⟨hu, update_of_ne hut _ _⟩
  | wakeup hc hh hcode =>
    have hs := h.running _ hc
    rw [hcode, hh] at hs
    exact h.runOn _ _ hc (h.ok.wakeup _) hc asleep_wakeup rfl (update_eq_self _ _).symm
      (hh.symm ▸ hs.2)
  | wakeupOne hc hh hcode =>
    have hs := h.running _ hc
    rw [hcode, hh] at hs
    exact h.runOn _ _ hc (h.ok.wakeupOne _) (wakeupOne_cur.trans hc) asleep_wakeupOne rfl
      (update_eq_self _ _).symm (hh.symm ▸ hs.2)
  | @fork t rest n ns hc hh hcode hsv =>
    -- the new thread is nobody that exists
    have hne : t ≠ k.sys.next := fun e =>
      h.ok.next_not_mem (mem_all.2 (.inl (e ▸ hc)))
    rw [update_of_ne hne] at hsv
    have hsafe := h.safe_leaves ⟨hc, hcode, hh, hsv⟩ rfl
    refine ⟨h.ok.newThread, fun hn => ?_, fun u hu => ?_, fun u hu => ?_, fun u hu => ?_⟩
    · replace hn : k.sys.cur = none := hn
      rw [hc] at hn
      cases hn
    · obtain rfl : u = t := some.inj (hu.symm.trans hc)
      simpa using hsafe
    · have hut : u ≠ t := fun e => hu (e ▸ hc)
      simp only [Kernel.splTo_code, Kernel.splTo_saved, update_of_ne hut]
      by_cases hun : u = k.sys.next
      · rw [hun, update_self, update_self]
        exact ⟨trivial, rfl, rfl⟩
      · rw [update_of_ne hun, update_of_ne hun]
        exact h.suspended u hu
    · have hut : u ≠ t := fun e => h.ok.not_asleep_of_cur hc (e ▸ hu)
      have hun : u ≠ k.sys.next := fun e =>
        h.ok.next_not_mem (mem_all.2 (.inr (.inr (.inl (e ▸ hu)))))
      refine (h.asleep u hu).congr ?_ (update_of_ne hun _ _)
      simp only [Kernel.splTo_code, update_of_ne hut, update_of_ne hun]
  | @yield t rest hc hh hcode =>
    have hs := h.running t hc
    rw [hcode, hh] at hs
    refine h.stop _ _ hc (h.ok.yieldThread hc) rfl hh (fun u hu _ => ⟨hu, rfl⟩) (fun hu => ?_) rfl
      (update_eq_self _ _).symm hs.2.1 hs.2.2
    exact absurd hu (h.ok.not_asleep_of_cur hc)
  | exit hc hh hcode =>
    refine h.stop ([]) ([]) hc (h.ok.exitThread hc) rfl hh (fun u hu _ => ⟨hu, rfl⟩)
      (fun hu => ?_) rfl rfl trivial rfl
    exact absurd hu (h.ok.not_asleep_of_cur hc)
  | @timer t second hc hz =>
    have hs := h.running t hc
    rw [hz] at hs
    have hok : (if second then k.sys.wakeup (.chan .lbolt) else k.sys).Ok := by
      cases second
      · exact h.ok
      · exact h.ok.wakeup _
    have hsub : ∀ u ∈ (if second then k.sys.wakeup (.chan .lbolt) else k.sys).asleep,
        u ∈ k.sys.asleep := by
      cases second
      · exact fun u hu => hu
      · exact fun u hu => (asleep_wakeup u hu).1
    refine h.stop (.spl0 :: k.code t) (k.saved t) hc
      (hok.yieldThread ((cur_hardclock second).trans hc)) rfl rfl (fun u hu _ => ?_) (fun hu => ?_)
      rfl (update_eq_self _ _).symm trivial ⟨rfl, hs⟩
    · exact ⟨hsub u hu, by cases second <;> rfl⟩
    · exact absurd (hsub t hu) (h.ok.not_asleep_of_cur hc)
  | @idleTimer second hc =>
    cases second
    · exact h
    · exact h.frame (h.ok.wakeup _) asleep_wakeup rfl rfl rfl (.inl rfl)
  | interrupt hi hpos => exact h.frame (h.ok.wakeup _) asleep_wakeup rfl rfl rfl (.inl rfl)
  | switchTo hp =>
    obtain ⟨hc, t, ts, -, hc', -, has, haddr, -⟩ := dispatch_cases hp
    refine h.frame (h.ok.dispatch hp) (fun u hu => ⟨has ▸ hu, by rw [haddr]⟩) rfl rfl rfl
      (.inr ⟨hc, ?_⟩)
    rw [hc']
    rintro ⟨⟩

theorem base_boot (init : SemId → ℕ) : Base (boot init).lists where
  ok := ok_threadBootstrap
  idle := fun _ => rfl
  running := fun _ _ => rfl
  suspended := fun _ _ => ⟨trivial, rfl⟩
  asleep := fun _ ht => by cases ht

/-- **Nothing but its own code can run** while a thread is in the middle of
a function with interrupts off. -/
theorem run_of_high {e : Event} (hc : k.sys.cur = some t) (hh : k.curspl = .high)
    (hcode : k.code t = i :: rest) (hs : Step k e k') : e = .run := by
  cases hs with
  | call hc' hcode' | spl hc' hcode' =>
    rw [some.inj (hc.symm.trans hc'), hcode'] at hcode; cases hcode
  | timer hc' hz => rw [hh] at hz; cases hz
  | idleTimer hc' => rw [hc] at hc'; cases hc'
  | interrupt hi =>
    rcases hi with hi | hi
    · rw [hh] at hi; cases hi
    · rw [hc] at hi; cases hi
  | switchTo hp => rw [(dispatch_cases hp).1] at hc; cases hc
  | _ => rfl

/-- A thread whose next instruction is inside a section is the current
thread, and interrupts are off. -/
theorem Base.inSection (h : Base k) (hcode : k.code t = i :: rest)
    (hi : i ≠ .splhigh) (hsusp : ¬ Suspended (i :: rest)) :
    k.sys.cur = some t ∧ k.curspl = .high := by
  have hc : k.sys.cur = some t := by
    by_contra hne
    exact hsusp (hcode ▸ (h.suspended t hne).1)
  have hs := h.running t hc
  rw [hcode] at hs
  exact ⟨hc, high_of_safe hs hi⟩

end Synch

end Os161
