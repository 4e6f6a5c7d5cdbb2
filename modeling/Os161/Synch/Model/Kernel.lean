import Os161.Thread.Model.ThreadSys
import Os161.Common.Places
import Mathlib.Data.Int.Order.Basic
/-!
# The kernel as its threads and interrupts run it

`kern/thread/synch.c` and `kern/thread/hardclock.c` over the thread system,
on one processor. The code that a thread still has to run of a kernel
function is a list of instructions. An instruction is a stretch of the
source that runs with interrupts off and in which no other thread can run;
`splhigh` and `splx` stand in the list for themselves, with the saved level
in a stack beside it, so that where an interrupt can come in is not assumed
but follows from `curspl`. An instruction that ends a function's section
ends with its `splx`, and `assert(curspl>0)` fails at every instruction
that runs with interrupts on.

There are two levels, 0 and `SPL_HIGH`. Threads call the functions from
code of their own, which may raise and lower the level too. `in_interrupt`
is left out: an interrupt handler here runs `V` or `hardclock` and nothing
that sleeps. So are the panics of `thread_panic`, and the address spaces
that `thread_exit` and `mi_switch` see to.

The kernel is given over any thread system (`ThreadOps`): the one of
`thread.c` and, for the proofs, the one over lists.
-/

namespace Os161

namespace Synch

open Thread

/-! ## The things threads wait for -/

/-- The semaphores: each thread's `wait`, the global `lock`, and the rest. -/
inductive SemId
  | wait (t : Tid)
  | lock
  | other (n : ℕ)
  deriving DecidableEq, Repr

abbrev LockId := ℕ

abbrev CvId := ℕ

/-- The addresses that are slept on once and not in a loop. -/
inductive Chan
  | cv (c : CvId)
  | lbolt
  | other (n : ℕ)
  deriving DecidableEq, Repr

/-- The addresses that threads sleep on. -/
inductive SleepAddr
  | sem (s : SemId)
  | lock (l : LockId)
  | chan (c : Chan)
  deriving DecidableEq, Repr

/-- `curspl`: 0 or `SPL_HIGH`. -/
inductive Spl
  | zero
  | high
  deriving DecidableEq, Repr

/-! ## Instructions and functions -/

/-- One stretch of code that nothing can come in between. -/
inductive Instr
  /-- `spl = splhigh()` -/
  | splhigh
  /-- `splx(spl)` -/
  | splx
  /-- `spl0()`, and the level that a trap restores when it returns -/
  | spl0
  /-- The loop of `P`, the decrement, and `splx`. -/
  | semWait (s : SemId)
  /-- The increment of `V`, `thread_wakeup`, and `splx`. -/
  | semPost (s : SemId)
  /-- The loop of `lock_acquire`, the assignment, and `splx`. `woken` marks
  a turn of the loop after a sleep. -/
  | lockWait (l : LockId) (woken : Bool)
  /-- The body of `lock_release` and `splx`. `own` marks a release that the
  thread called for, in `lock_release` or `cv_wait`. -/
  | lockDrop (l : LockId) (own : Bool)
  /-- `thread_sleep(addr)`, up to the switch. -/
  | sleep (c : Chan)
  /-- The end of `thread_sleep`, after the switch back. -/
  | awake
  /-- `thread_wakeup(addr)` -/
  | wakeup (c : Chan)
  /-- `thread_wakeup_one(addr)` -/
  | wakeupOne (c : Chan)
  /-- The section of `thread_fork`, with its `splx`. -/
  | fork
  /-- `mi_switch(S_READY)`, in `thread_yield` -/
  | yield
  /-- The `splx(spl)` of `thread_yield`, after the switch back. -/
  | switched
  /-- The end of `thread_exit`. -/
  | exit
  deriving DecidableEq, Repr

/-- The functions that threads call. -/
inductive Call
  | P (s : SemId)
  | V (s : SemId)
  | lockAcquire (l : LockId)
  | lockRelease (l : LockId)
  | cvWait (c : CvId) (l : LockId)
  | cvSignal (c : CvId) (l : LockId)
  | cvBroadcast (c : CvId) (l : LockId)
  | threadYield
  | threadFork
  | threadExit
  | clocksleep (num_secs : ℕ)
  | threadSleep (n : ℕ)
  | threadWakeup (n : ℕ)
  | threadWakeupOne (n : ℕ)
  deriving DecidableEq, Repr

namespace Call

/-- The code of `lock_release`. The nested section of `lock_do_i_hold` is
inside the instruction. -/
def lockReleaseCode (l : LockId) (own : Bool) : List Instr := [.splhigh, .lockDrop l own]

/-- The code of `lock_acquire`. -/
def lockAcquireCode (l : LockId) : List Instr := [.splhigh, .lockWait l false]

/-- The code of `V`. -/
def vCode (s : SemId) : List Instr := [.splhigh, .semPost s]

/-- The code of a function, called by `t`. -/
def body (t : Tid) : Call → List Instr
  | P s => [.splhigh, .semWait s]
  | V s => vCode s
  | lockAcquire l => lockAcquireCode l
  | lockRelease l => lockReleaseCode l true
  | cvWait c l =>
    [.splhigh] ++ lockReleaseCode l true ++ [.sleep (.cv c)] ++ lockAcquireCode l ++ [.splx]
  | cvSignal c l => [.splhigh, .wakeupOne (.cv c)] ++ lockReleaseCode l false ++ [.splx]
  | cvBroadcast c l => [.splhigh, .wakeup (.cv c)] ++ lockReleaseCode l false ++ [.splx]
  | threadYield => [.splhigh, .yield, .switched]
  | threadFork => [.splhigh, .fork]
  | threadExit => vCode (.wait t) ++ vCode .lock ++ [.splhigh, .exit]
  | clocksleep n => [.splhigh] ++ List.replicate n (.sleep .lbolt) ++ [.splx]
  | threadSleep n => [.sleep (.other n)]
  | threadWakeup n => [.wakeup (.other n)]
  | threadWakeupOne n => [.wakeupOne (.other n)]

/-- The functions whose caller has to have turned interrupts off. -/
def needsHigh : Call → Bool
  | threadSleep _ | threadWakeup _ | threadWakeupOne _ => true
  | _ => false

/-- The lock that a call is made with. -/
def lock? : Call → Option LockId
  | lockAcquire l | lockRelease l | cvWait _ l | cvSignal _ l | cvBroadcast _ l => some l
  | _ => none

end Call

/-- What happens next. -/
inductive Event
  /-- The current thread calls a function. -/
  | call (c : Call)
  /-- The current thread sets the level, in code of its own. -/
  | spl (n : Spl)
  /-- The current thread runs its next instruction. -/
  | run
  /-- A timer interrupt; once in `HZ` of them it wakes the sleepers on
  `lbolt`. -/
  | timer (second : Bool)
  /-- A device interrupt, whose handler calls `V`. -/
  | interrupt (s : SemId)
  /-- `scheduler` returns a thread and `mi_switch` switches to it. -/
  | switchTo
  deriving DecidableEq, Repr

/-! ## The kernel over a thread system -/

/-- A thread system, by its operations. -/
structure ThreadOps (S : Type) where
  cur : S → Option Tid
  fork : S → Option (Tid × S)
  yield : S → Option S
  sleep : SleepAddr → S → Option S
  resume : S → Option S
  wakeup : SleepAddr → S → Option S
  wakeupOne : SleepAddr → S → Option S
  exit : S → Option S
  switchTo : S → Option S

/-- The operations of `thread.c`. -/
def threadOps : ThreadOps (ThreadSys SleepAddr) where
  cur := ThreadSys.curthread
  fork := ThreadSys.threadFork
  yield := ThreadSys.threadYield
  sleep := ThreadSys.threadSleep
  resume := ThreadSys.threadResume
  wakeup := ThreadSys.threadWakeup
  wakeupOne := ThreadSys.threadWakeupOne
  exit := ThreadSys.threadExit
  switchTo := ThreadSys.switchTo

/-- The state of the kernel. -/
structure Kernel (S : Type) where
  sys : S
  curspl : Spl
  /-- `sem->count` -/
  count : SemId → ℤ
  /-- `lock->holder` -/
  holder : LockId → Option Tid
  /-- What each thread has to run yet of the function it called. -/
  code : Tid → List Instr
  /-- The levels its `spl` variables hold, the innermost first. -/
  saved : Tid → List Spl
  -- history
  /-- The last call each thread made, and whether it held the call's lock
  then. -/
  call : Tid → Option (Call × Bool)
  /-- Whether a thread is between the return of a `lock_acquire` or a
  `cv_wait` and its own `lock_release` or next `cv_wait`. -/
  inside : Tid → LockId → Bool
  /-- The `V`s that returned. -/
  ups : SemId → ℕ
  /-- The `P`s that returned. -/
  downs : SemId → ℕ

namespace Kernel

variable {S : Type} (ops : ThreadOps S)

/-- Thread `t` goes on with `rest`. -/
def goOn (k : Kernel S) (t : Tid) (rest : List Instr) : Kernel S :=
  { k with code := Function.update k.code t rest }

/-- Thread `t` goes on with `rest` at level `n`, and its other saved levels
are `ns`. -/
def splTo (k : Kernel S) (t : Tid) (rest : List Instr) (n : Spl) (ns : List Spl) : Kernel S :=
  { k.goOn t rest with curspl := n, saved := Function.update k.saved t ns }

/-- `splx(spl)`, and thread `t` goes on with `rest`. -/
def leave (k : Kernel S) (t : Tid) (rest : List Instr) : Option (Kernel S) :=
  match k.saved t with
  | [] => none
  | n :: ns => some (k.splTo t rest n ns)

/-- The section of `V`, up to `splx`. The count is an `int`, and the
assertion fails when it overflows. -/
def post (k : Kernel S) (s : SemId) : Option (Kernel S) :=
  if 0 < k.count s + 1 ∧ k.count s + 1 < 2 ^ 31 then
    (ops.wakeup (.sem s) k.sys).map fun sys =>
      { k with
        sys
        count := Function.update k.count s (k.count s + 1)
        ups := Function.update k.ups s (k.ups s + 1) }
  else none

/-- `thread_sleep`, with `rest` to run when it returns. -/
def sleepOn (k : Kernel S) (t : Tid) (a : SleepAddr) (rest : List Instr) : Option (Kernel S) :=
  (ops.sleep a k.sys).map fun sys => { k.goOn t (.awake :: rest) with sys }

/-- One turn of the loop of `P`, or its end. -/
def semWait (k : Kernel S) (t : Tid) (s : SemId) (rest : List Instr) : Option (Kernel S) :=
  if k.count s = 0 then k.sleepOn ops t (.sem s) (.semWait s :: rest)
  else if 0 < k.count s then
    leave
      { k with
        count := Function.update k.count s (k.count s - 1)
        downs := Function.update k.downs s (k.downs s + 1) } t rest
  else none

/-- Thread `t` gets to be inside `l`, or stops being. -/
def setInside (k : Kernel S) (t : Tid) (l : LockId) (b : Bool) : Kernel S :=
  { k with inside := Function.update k.inside t (Function.update (k.inside t) l b) }

/-- One turn of the loop of `lock_acquire`, or its end. -/
def lockWait (k : Kernel S) (t : Tid) (l : LockId) (rest : List Instr) : Option (Kernel S) :=
  match k.holder l with
  | some _ => k.sleepOn ops t (.lock l) (.lockWait l true :: rest)
  | none =>
    leave { k.setInside t l true with holder := Function.update k.holder l (some t) } t rest

/-- A release that thread `t` called for ends its being inside. -/
def endInside (k : Kernel S) (t : Tid) (l : LockId) (own : Bool) : Kernel S :=
  if own then k.setInside t l false else k

/-- `lock_release`: nothing happens unless the thread holds the lock. -/
def lockDrop (k : Kernel S) (t : Tid) (l : LockId) (own : Bool) (rest : List Instr) :
    Option (Kernel S) :=
  if k.holder l = some t then
    (ops.wakeupOne (.lock l) k.sys).bind fun sys =>
      leave
        { k.endInside t l own with sys, holder := Function.update k.holder l none } t rest
  else leave (k.endInside t l own) t rest

/-- `thread_fork`: the new thread starts in `mi_threadstart`. -/
def fork (k : Kernel S) (t : Tid) (rest : List Instr) : Option (Kernel S) :=
  (ops.fork k.sys).bind fun r =>
    leave
      { k with
        sys := r.2
        code := Function.update k.code r.1 [.spl0]
        saved := Function.update k.saved r.1 []
        call := Function.update k.call r.1 none
        inside := Function.update k.inside r.1 fun _ => false } t rest

/-- The instructions that run with interrupts off. -/
def runHigh (k : Kernel S) (t : Tid) (rest : List Instr) : Instr → Option (Kernel S)
  | .splhigh | .spl0 => none
  | .splx | .switched => k.leave t rest
  | .semWait s => k.semWait ops t s rest
  | .semPost s => (k.post ops s).bind fun k => k.leave t rest
  | .lockWait l _ => k.lockWait ops t l rest
  | .lockDrop l own => k.lockDrop ops t l own rest
  | .sleep c => k.sleepOn ops t (.chan c) rest
  | .awake => (ops.resume k.sys).map fun sys => { k.goOn t rest with sys }
  | .wakeup c => (ops.wakeup (.chan c) k.sys).map fun sys => { k.goOn t rest with sys }
  | .wakeupOne c => (ops.wakeupOne (.chan c) k.sys).map fun sys => { k.goOn t rest with sys }
  | .fork => k.fork ops t rest
  | .yield => (ops.yield k.sys).map fun sys => { k.goOn t rest with sys }
  | .exit => (ops.exit k.sys).map fun sys => { k.splTo t [] k.curspl [] with sys }

/-- The current thread's next instruction. -/
def runInstr (k : Kernel S) (t : Tid) (rest : List Instr) (i : Instr) : Option (Kernel S) :=
  match i, k.curspl with
  | .splhigh, n => some (k.splTo t rest .high (n :: k.saved t))
  | .spl0, _ => some { k.goOn t rest with curspl := .zero }
  | _, .zero => none
  | i, .high => k.runHigh ops t rest i

/-- `hardclock`, called from the timer interrupt with interrupts off. A
thread that was interrupted goes on at level 0 when it is switched back to.
With no thread running, `thread_yield` returns. -/
def hardclock (k : Kernel S) (second : Bool) : Option (Kernel S) :=
  (if second then ops.wakeup (.chan .lbolt) k.sys else some k.sys).bind fun sys =>
    (ops.yield sys).map fun sys =>
      match ops.cur k.sys with
      | none => { k with sys }
      | some t => { k.goOn t (.spl0 :: k.code t) with sys, curspl := .high }

/-- Interrupts come in at level 0, and while the scheduler idles with no
thread running. More than one can come in before it looks again. -/
def interruptible (k : Kernel S) : Bool := k.curspl = .zero || (ops.cur k.sys).isNone

/-- Whether `t` holds the lock that the call is made with. -/
def holds (k : Kernel S) (t : Tid) (c : Call) : Bool :=
  c.lock?.any fun l => k.holder l = some t

/-- One event. -/
def step (k : Kernel S) : Event → Option (Kernel S)
  | .call c => (ops.cur k.sys).bind fun t =>
    if k.code t = [] ∧ (c.needsHigh = true → k.curspl = .high) then
      some { k.goOn t (c.body t) with call := Function.update k.call t (some (c, k.holds t c)) }
    else none
  | .spl n => (ops.cur k.sys).bind fun t =>
    if k.code t = [] then some { k with curspl := n } else none
  | .run => (ops.cur k.sys).bind fun t =>
    match k.code t with
    | [] => none
    | i :: rest => k.runInstr ops t rest i
  | .timer second => if k.interruptible ops then k.hardclock ops second else none
  | .interrupt s => if k.interruptible ops then k.post ops s else none
  | .switchTo => (ops.switchTo k.sys).map fun sys => { k with sys }

end Kernel

/-- The kernel over `thread.c`. -/
abbrev OsKernel := Kernel (ThreadSys SleepAddr)

/-- The boot, with semaphores that start at `init`, interrupts off, and the
boot thread running code of its own. -/
def boot (init : SemId → ℕ) : OsKernel where
  sys := threadBootstrap
  curspl := .high
  count := fun s => init s
  holder := fun _ => none
  code := fun _ => []
  saved := fun _ => []
  call := fun _ => none
  inside := fun _ _ => false
  ups := fun _ => 0
  downs := fun _ => 0

end Synch

end Os161
