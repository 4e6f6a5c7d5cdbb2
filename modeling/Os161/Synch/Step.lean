import Os161.Synch.Refine
/-!
# What one step of the kernel can do

The steps of the kernel over lists, inverted once (`step_cases`): each
constructor of `Step` is one thing that can happen, with what has to hold
for it and the state it leaves written out. A thread that goes to sleep
does so in one of three places, the loops of `P` and `lock_acquire` and a
plain `thread_sleep` (`Blocks`).
-/

namespace Os161

namespace Synch

open Thread Function Places Option

namespace Kernel

variable {S : Type} (k : Kernel S) (t : Tid) (rest : List Instr) (n : Spl) (ns : List Spl)
  (l : LockId) (b : Bool)

@[simp] theorem splTo_sys : (k.splTo t rest n ns).sys = k.sys := rfl

@[simp] theorem splTo_curspl : (k.splTo t rest n ns).curspl = n := rfl

@[simp] theorem splTo_count : (k.splTo t rest n ns).count = k.count := rfl

@[simp] theorem splTo_holder : (k.splTo t rest n ns).holder = k.holder := rfl

@[simp] theorem splTo_code :
    (k.splTo t rest n ns).code = update k.code t rest := rfl

@[simp] theorem splTo_saved :
    (k.splTo t rest n ns).saved = update k.saved t ns := rfl

@[simp] theorem splTo_call : (k.splTo t rest n ns).call = k.call := rfl

@[simp] theorem splTo_inside : (k.splTo t rest n ns).inside = k.inside := rfl

@[simp] theorem splTo_ups : (k.splTo t rest n ns).ups = k.ups := rfl

@[simp] theorem splTo_downs : (k.splTo t rest n ns).downs = k.downs := rfl

@[simp] theorem endInside_sys : (k.endInside t l b).sys = k.sys := by cases b <;> rfl

@[simp] theorem endInside_curspl : (k.endInside t l b).curspl = k.curspl := by cases b <;> rfl

@[simp] theorem endInside_count : (k.endInside t l b).count = k.count := by cases b <;> rfl

@[simp] theorem endInside_holder : (k.endInside t l b).holder = k.holder := by cases b <;> rfl

@[simp] theorem endInside_code : (k.endInside t l b).code = k.code := by cases b <;> rfl

@[simp] theorem endInside_saved : (k.endInside t l b).saved = k.saved := by cases b <;> rfl

@[simp] theorem endInside_call : (k.endInside t l b).call = k.call := by cases b <;> rfl

@[simp] theorem endInside_ups : (k.endInside t l b).ups = k.ups := by cases b <;> rfl

@[simp] theorem endInside_downs : (k.endInside t l b).downs = k.downs := by cases b <;> rfl

/-- A `splx` that goes through had a level to go back to. -/
theorem leave_eq_some {k' : Kernel S} (h : k.leave t rest = some k') :
    ∃ n ns, k.saved t = n :: ns ∧ k' = k.splTo t rest n ns := by
  unfold leave at h
  split at h
  · cases h
  · exact ⟨_, _, ‹_›, (some.inj h).symm⟩

end Kernel

/-- Where a thread goes to sleep: on which address, with which code before
it, and with which code to run once it is back. -/
inductive Blocks (k : ListKernel) : SleepAddr → List Instr → List Instr → Prop
  | sem {s : SemId} {rest : List Instr} (h : k.count s = 0) :
      Blocks k (.sem s) (.semWait s :: rest) (.semWait s :: rest)
  | lock {l : LockId} {b : Bool} {rest : List Instr} {u : Tid} (h : k.holder l = some u) :
      Blocks k (.lock l) (.lockWait l b :: rest) (.lockWait l true :: rest)
  | chan {c : Chan} {rest : List Instr} : Blocks k (.chan c) (.sleep c :: rest) rest

/-- The levels and code after an instruction that ends in `splx`. -/
structure Leaves (k : ListKernel) (t : Tid) (i : Instr) (rest : List Instr) (n : Spl)
    (ns : List Spl) : Prop where
  cur : k.sys.cur = some t
  code : k.code t = i :: rest
  high : k.curspl = .high
  saved : k.saved t = n :: ns

/-- **What one step can do.** -/
inductive Step (k : ListKernel) : Event → ListKernel → Prop
  | call {t : Tid} {c : Call} (hc : k.sys.cur = some t) (hcode : k.code t = [])
      (hh : c.needsHigh = true → k.curspl = .high) :
      Step k (.call c)
        { k.goOn t (c.body t) with call := update k.call t (some (c, k.holds t c)) }
  | spl {t : Tid} {n : Spl} (hc : k.sys.cur = some t) (hcode : k.code t = []) :
      Step k (.spl n) { k with curspl := n }
  | splhigh {t : Tid} {rest : List Instr} (hc : k.sys.cur = some t)
      (hcode : k.code t = .splhigh :: rest) :
      Step k .run (k.splTo t rest .high (k.curspl :: k.saved t))
  | spl0 {t : Tid} {rest : List Instr} (hc : k.sys.cur = some t)
      (hcode : k.code t = .spl0 :: rest) : Step k .run { k.goOn t rest with curspl := .zero }
  | splx {t : Tid} {i : Instr} {rest : List Instr} {n : Spl} {ns : List Spl}
      (hi : i = .splx ∨ i = .switched) (hl : Leaves k t i rest n ns) :
      Step k .run (k.splTo t rest n ns)
  | block {t : Tid} {a : SleepAddr} {next : List Instr} (hc : k.sys.cur = some t)
      (hh : k.curspl = .high) (hb : Blocks k a (k.code t) next) :
      Step k .run { k.goOn t (.awake :: next) with sys := k.sys.sleepThread t a }
  | semTake {t : Tid} {s : SemId} {rest : List Instr} {n : Spl} {ns : List Spl}
      (hl : Leaves k t (.semWait s) rest n ns) (hpos : 0 < k.count s) :
      Step k .run
        (Kernel.splTo
          { k with
            count := update k.count s (k.count s - 1)
            downs := update k.downs s (k.downs s + 1) } t rest n ns)
  | semPost {t : Tid} {s : SemId} {rest : List Instr} {n : Spl} {ns : List Spl}
      (hl : Leaves k t (.semPost s) rest n ns) (hpos : 0 < k.count s + 1) :
      Step k .run
        (Kernel.splTo
          { k with
            sys := k.sys.wakeup (.sem s)
            count := update k.count s (k.count s + 1)
            ups := update k.ups s (k.ups s + 1) } t rest n ns)
  | lockTake {t : Tid} {l : LockId} {b : Bool} {rest : List Instr} {n : Spl} {ns : List Spl}
      (hl : Leaves k t (.lockWait l b) rest n ns) (hfree : k.holder l = none) :
      Step k .run
        (Kernel.splTo
          { k.setInside t l true with holder := update k.holder l (some t) } t rest n ns)
  | lockDrop {t : Tid} {l : LockId} {own : Bool} {rest : List Instr} {n : Spl} {ns : List Spl}
      (hl : Leaves k t (.lockDrop l own) rest n ns) (hheld : k.holder l = some t) :
      Step k .run
        (Kernel.splTo
          { k.endInside t l own with
            sys := k.sys.wakeupOne (.lock l)
            holder := update k.holder l none } t rest n ns)
  | lockKeep {t : Tid} {l : LockId} {own : Bool} {rest : List Instr} {n : Spl} {ns : List Spl}
      (hl : Leaves k t (.lockDrop l own) rest n ns) (hheld : k.holder l ≠ some t) :
      Step k .run ((k.endInside t l own).splTo t rest n ns)
  | awake {t : Tid} {rest : List Instr} (hc : k.sys.cur = some t) (hh : k.curspl = .high)
      (hcode : k.code t = .awake :: rest) :
      Step k .run { k.goOn t rest with sys := k.sys.resumeThread t }
  | wakeup {t : Tid} {c : Chan} {rest : List Instr} (hc : k.sys.cur = some t)
      (hh : k.curspl = .high) (hcode : k.code t = .wakeup c :: rest) :
      Step k .run { k.goOn t rest with sys := k.sys.wakeup (.chan c) }
  | wakeupOne {t : Tid} {c : Chan} {rest : List Instr} (hc : k.sys.cur = some t)
      (hh : k.curspl = .high) (hcode : k.code t = .wakeupOne c :: rest) :
      Step k .run { k.goOn t rest with sys := k.sys.wakeupOne (.chan c) }
  | fork {t : Tid} {rest : List Instr} {n : Spl} {ns : List Spl} (hc : k.sys.cur = some t)
      (hh : k.curspl = .high) (hcode : k.code t = .fork :: rest)
      (hs : update k.saved k.sys.next [] t = n :: ns) :
      Step k .run
        (Kernel.splTo
          { k with
            sys := k.sys.newThread
            code := update k.code k.sys.next [.spl0]
            saved := update k.saved k.sys.next []
            call := update k.call k.sys.next none
            inside := update k.inside k.sys.next fun _ => false } t rest n ns)
  | yield {t : Tid} {rest : List Instr} (hc : k.sys.cur = some t) (hh : k.curspl = .high)
      (hcode : k.code t = .yield :: rest) :
      Step k .run { k.goOn t rest with sys := k.sys.yieldThread t }
  | exit {t : Tid} {rest : List Instr} (hc : k.sys.cur = some t) (hh : k.curspl = .high)
      (hcode : k.code t = .exit :: rest) :
      Step k .run { k.splTo t [] k.curspl [] with sys := k.sys.exitThread t }
  | timer {t : Tid} {second : Bool} (hc : k.sys.cur = some t) (hz : k.curspl = .zero) :
      Step k (.timer second)
        { k.goOn t (.spl0 :: k.code t) with
          sys := (if second then k.sys.wakeup (.chan .lbolt) else k.sys).yieldThread t
          curspl := .high }
  | idleTimer {second : Bool} (hc : k.sys.cur = none) :
      Step k (.timer second)
        { k with sys := if second then k.sys.wakeup (.chan .lbolt) else k.sys }
  | interrupt {s : SemId} (hi : k.curspl = .zero ∨ k.sys.cur = none) (hpos : 0 < k.count s + 1) :
      Step k (.interrupt s)
        { k with
          sys := k.sys.wakeup (.sem s)
          count := update k.count s (k.count s + 1)
          ups := update k.ups s (k.ups s + 1) }
  | switchTo {p : Places SleepAddr} (hp : k.sys.dispatch = some p) :
      Step k .switchTo { k with sys := p }

variable {k k' : ListKernel} {t : Tid}

theorem cur_hardclock (second : Bool) :
    (if second then k.sys.wakeup (.chan .lbolt) else k.sys).cur = k.sys.cur := by
  cases second <;> rfl

theorem post_cases {s : SemId} (h : k.post placesOps s = some k') :
    0 < k.count s + 1 ∧
      k' = { k with
        sys := k.sys.wakeup (.sem s)
        count := update k.count s (k.count s + 1)
        ups := update k.ups s (k.ups s + 1) } := by
  unfold Kernel.post at h
  split at h
  · exact ⟨(‹_› : _ ∧ _).1, (some.inj h).symm⟩
  · cases h

theorem sleepOn_cases {a : SleepAddr} {next : List Instr} (hc : k.sys.cur = some t)
    (h : k.sleepOn placesOps t a next = some k') :
    k' = { k.goOn t (.awake :: next) with sys := k.sys.sleepThread t a } := by
  simp only [Kernel.sleepOn, placesOps, sleep, hc, map_some,
    some.injEq] at h
  exact h.symm

variable {rest : List Instr}

section

variable (hc : k.sys.cur = some t)

include hc

/-- The instructions that run with interrupts off. -/
theorem runHigh_cases {i : Instr} (hh : k.curspl = .high) (hcode : k.code t = i :: rest)
    (h : k.runHigh placesOps t rest i = some k') : Step k .run k' := by
  cases i with
  | splhigh | spl0 => cases h
  | splx =>
    obtain ⟨n, ns, hs, rfl⟩ := k.leave_eq_some _ _ h
    exact .splx (.inl rfl) ⟨hc, hcode, hh, hs⟩
  | switched =>
    obtain ⟨n, ns, hs, rfl⟩ := k.leave_eq_some _ _ h
    exact .splx (.inr rfl) ⟨hc, hcode, hh, hs⟩
  | semWait s =>
    simp only [Kernel.runHigh, Kernel.semWait] at h
    split at h
    · obtain rfl := sleepOn_cases hc h
      exact .block hc hh (by rw [hcode]; exact .sem ‹_›)
    · split at h
      · obtain ⟨n, ns, hs, rfl⟩ := Kernel.leave_eq_some _ _ _ h
        exact .semTake ⟨hc, hcode, hh, hs⟩ ‹_›
      · cases h
  | semPost s =>
    obtain ⟨k₁, h₁, h₂⟩ := bind_eq_some_iff.1 h
    obtain ⟨hpos, rfl⟩ := post_cases h₁
    obtain ⟨n, ns, hs, rfl⟩ := Kernel.leave_eq_some _ _ _ h₂
    exact .semPost ⟨hc, hcode, hh, hs⟩ hpos
  | lockWait l b =>
    simp only [Kernel.runHigh, Kernel.lockWait] at h
    split at h
    · obtain rfl := sleepOn_cases hc h
      exact .block hc hh (by rw [hcode]; exact .lock ‹_›)
    · obtain ⟨n, ns, hs, rfl⟩ := Kernel.leave_eq_some _ _ _ h
      exact .lockTake ⟨hc, hcode, hh, hs⟩ ‹_›
  | lockDrop l own =>
    simp only [Kernel.runHigh, Kernel.lockDrop] at h
    split at h
    · obtain ⟨n, ns, hs, rfl⟩ := Kernel.leave_eq_some _ _ _ h
      exact .lockDrop ⟨hc, hcode, hh, by simpa using hs⟩ ‹_›
    · obtain ⟨n, ns, hs, rfl⟩ := Kernel.leave_eq_some _ _ _ h
      exact .lockKeep ⟨hc, hcode, hh, by simpa using hs⟩ ‹_›
  | sleep c =>
    obtain rfl := sleepOn_cases hc h
    exact .block hc hh (by rw [hcode]; exact .chan)
  | awake =>
    simp only [Kernel.runHigh, placesOps, resume, hc, map_some,
      some.injEq] at h
    exact h ▸ .awake hc hh hcode
  | wakeup c => exact some.inj h ▸ .wakeup hc hh hcode
  | wakeupOne c => exact some.inj h ▸ .wakeupOne hc hh hcode
  | fork =>
    simp only [Kernel.runHigh, Kernel.fork, placesOps, fork, hc, map_some,
      bind_some] at h
    obtain ⟨n, ns, hs, rfl⟩ := Kernel.leave_eq_some _ _ _ h
    exact .fork hc hh hcode hs
  | yield =>
    simp only [Kernel.runHigh, placesOps, yield, hc, map_some,
      some.injEq] at h
    exact h ▸ .yield hc hh hcode
  | exit =>
    simp only [Kernel.runHigh, placesOps, exit, hc, bind_some] at h
    split at h
    · exact some.inj h ▸ .exit hc hh hcode
    · cases h

/-- With interrupts off, a run is the instruction that the code begins with. -/
theorem step_run_high {i : Instr}
    (hh : k.curspl = .high) (hcode : k.code t = i :: rest) (hi : i ≠ .splhigh) (hi' : i ≠ .spl0) :
    k.step placesOps .run = k.runHigh placesOps t rest i := by
  have hcur : placesOps.cur k.sys = some t := hc
  simp only [Kernel.step, hcur, bind_some, hcode]
  unfold Kernel.runInstr
  rw [hh]
  cases i with
  | splhigh => exact absurd rfl hi
  | spl0 => exact absurd rfl hi'
  | _ => rfl

theorem step_run_splhigh (hcode : k.code t = .splhigh :: rest) :
    k.step placesOps .run = some (k.splTo t rest .high (k.curspl :: k.saved t)) := by
  have hcur : placesOps.cur k.sys = some t := hc
  simp only [Kernel.step, hcur, bind_some, hcode]
  rfl

theorem step_run_spl0 (hcode : k.code t = .spl0 :: rest) :
    k.step placesOps .run = some { k.goOn t rest with curspl := .zero } := by
  have hcur : placesOps.cur k.sys = some t := hc
  simp only [Kernel.step, hcur, bind_some, hcode]
  rfl

end

/-- **The steps, inverted.** -/
theorem step_cases {e : Event} (h : k.step placesOps e = some k') : Step k e k' := by
  cases e with
  | call c =>
    obtain ⟨t, hc, h⟩ := bind_eq_some_iff.1 h
    split at h
    · rename_i hg
      exact some.inj h ▸ .call hc hg.1 hg.2
    · cases h
  | spl n =>
    obtain ⟨t, hc, h⟩ := bind_eq_some_iff.1 h
    split at h
    · exact some.inj h ▸ .spl hc ‹_›
    · cases h
  | run =>
    obtain ⟨t, hc, h⟩ := bind_eq_some_iff.1 h
    split at h
    · cases h
    · rename_i i rest hcode
      unfold Kernel.runInstr at h
      split at h
      · exact some.inj h ▸ .splhigh hc hcode
      · exact some.inj h ▸ .spl0 hc hcode
      · cases h
      · exact runHigh_cases hc ‹_› hcode h
  | timer second =>
    simp only [Kernel.step] at h
    split at h
    · rename_i hi
      simp only [Kernel.hardclock, placesOps] at h
      have hw : (if second then some (k.sys.wakeup (.chan .lbolt)) else some k.sys) =
          some (if second then k.sys.wakeup (.chan .lbolt) else k.sys) := by
        cases second <;> rfl
      rw [hw] at h
      simp only [bind_some, map_some, some.injEq, yield,
        cur_hardclock] at h
      cases hc : k.sys.cur with
      | none =>
        simp only [hc] at h
        exact h ▸ .idleTimer hc
      | some t =>
        have hz : k.curspl = .zero := by
          simpa [Kernel.interruptible, placesOps, hc] using hi
        simp only [hc] at h
        exact h ▸ .timer hc hz
    · cases h
  | interrupt s =>
    simp only [Kernel.step] at h
    split at h
    · rename_i hi
      obtain ⟨hpos, rfl⟩ := post_cases h
      exact .interrupt (by simpa [Kernel.interruptible, placesOps] using hi) hpos
    · cases h
  | switchTo =>
    obtain ⟨p, hp, rfl⟩ := map_eq_some_iff.1 h
    exact .switchTo hp

end Synch

end Os161
