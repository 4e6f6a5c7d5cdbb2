import Os161.Lib.Model.Array
import Os161.Lib.Model.Queue
/-!
# The thread system

`kern/thread/thread.c` and `kern/thread/scheduler.c`: the current thread,
the run queue, the tables of sleeping and dead threads, and the operations
on them. Every operation here runs with interrupts off from its first
statement to its last, so each is one step. An assertion that fails, and a
`panic`, is `none`.

`mi_switch` is two steps. The first stashes the current thread and leaves
`curthread` empty, which is the state in which `scheduler` idles and takes
interrupts; the second is what happens once the run queue has a thread to
give. A thread that has run before comes back inside `mi_switch` and calls
`exorcise` there; a new one starts in `mi_threadstart` and does not.

A thread is identified by the number of threads made before it. The fields
below the line are not in the source: `fresh` is the thread's saved context
(`mips_threadstart`, or a return into `mi_switch`), `live` and `created`
are the history of `thread_create` and `thread_destroy`, and `sleptAt` and
`clock` that of `thread_sleep`. A thread counts as created once
`thread_fork` has made it runnable: until then only its creator knows it.

`kmalloc` is taken never to fail.
-/

namespace Os161

namespace Thread

open Lib

/-- A `struct thread *`. -/
abbrev Tid := ℕ

/-- `threadstate_t`, as the argument of `mi_switch`. -/
inductive ThreadState
  | ready
  | sleep
  | zomb
  deriving DecidableEq, Repr

/-- The globals of the thread system; `A` is the type of sleep addresses. -/
structure ThreadSys (A : Type) where
  curthread : Option Tid
  runqueue : RingQueue Tid
  sleepers : PtrArray Tid
  zombies : PtrArray Tid
  numthreads : ℕ
  /-- `t_sleepaddr` of each thread. -/
  sleepaddr : Tid → Option A
  -- history
  fresh : Tid → Bool
  live : List Tid
  created : ℕ
  sleptAt : Tid → ℕ
  clock : ℕ

variable {A : Type}

/-- Requests for memory are met. -/
def kmallocOk : ℕ → Bool := fun _ => true

/-- `thread_bootstrap` and `scheduler_bootstrap`: the boot thread runs. -/
def threadBootstrap : ThreadSys A where
  curthread := some 0
  runqueue := qCreate 32 (by decide)
  sleepers := arrayCreate
  zombies := arrayCreate
  numthreads := 1
  sleepaddr := fun _ => none
  fresh := fun _ => false
  live := [0]
  created := 1
  sleptAt := fun _ => 0
  clock := 0

namespace ThreadSys

/-- `make_runnable`. -/
def makeRunnable (t : Tid) (s : ThreadSys A) : Option (ThreadSys A) :=
  (s.runqueue.qAddtail kmallocOk t).map fun q => { s with runqueue := q }

/-- `mi_switch`, up to the call of `scheduler`: the current thread goes on
the list it is supposed to go on. With no current thread it returns. -/
def miSwitch (nextstate : ThreadState) (s : ThreadSys A) : Option (ThreadSys A) :=
  match s.curthread with
  | none => some s
  | some cur =>
    match nextstate with
    | .ready => makeRunnable cur { s with curthread := none }
    | .sleep => (s.sleepers.arrayAdd kmallocOk cur).map fun a =>
        { s with curthread := none, sleepers := a }
    | .zomb => (s.zombies.arrayAdd kmallocOk cur).map fun a =>
        { s with curthread := none, zombies := a }

/-- The loop of `exorcise`: `thread_destroy` on `zombies[i]` and up. -/
def exorciseLoop : ℕ → ℕ → ThreadSys A → Option (ThreadSys A)
  | 0, _, s => some s
  | fuel + 1, i, s =>
    if h : i < s.zombies.num then
      let z := s.zombies.arrayGetguy ⟨i, h⟩
      if s.curthread = some z then none
      else exorciseLoop fuel (i + 1) { s with live := s.live.erase z }
    else some s

/-- `exorcise`. -/
def exorcise (s : ThreadSys A) : Option (ThreadSys A) :=
  (exorciseLoop s.zombies.num 0 s).bind fun s =>
    (s.zombies.arraySetsize kmallocOk 0).map fun a => { s with zombies := a }

/-- `mi_switch`, from the return of `scheduler`: the next thread becomes
current, and `exorcise` runs if it comes back here. -/
def switchTo (s : ThreadSys A) : Option (ThreadSys A) :=
  match s.curthread with
  | some _ => none
  | none => s.runqueue.qRemhead.bind fun nq =>
    if s.fresh nq.1 then
      some { s with
        curthread := some nq.1
        runqueue := nq.2
        fresh := Function.update s.fresh nq.1 false }
    else exorcise { s with curthread := some nq.1, runqueue := nq.2 }

/-- `thread_yield`, and `hardclock`'s call of it. -/
def threadYield (s : ThreadSys A) : Option (ThreadSys A) := miSwitch .ready s

/-- `thread_sleep`, up to the switch. -/
def threadSleep (addr : A) (s : ThreadSys A) : Option (ThreadSys A) :=
  s.curthread.bind fun cur =>
    miSwitch .sleep
      { s with
        sleepaddr := Function.update s.sleepaddr cur (some addr)
        sleptAt := Function.update s.sleptAt cur s.clock
        clock := s.clock + 1 }

/-- `thread_sleep`, after the switch back: `curthread->t_sleepaddr = NULL`. -/
def threadResume (s : ThreadSys A) : Option (ThreadSys A) :=
  s.curthread.map fun cur => { s with sleepaddr := Function.update s.sleepaddr cur none }

/-- `thread_exit`, from `assert(numthreads>0)` on. -/
def threadExit (s : ThreadSys A) : Option (ThreadSys A) :=
  s.curthread.bind fun _ =>
    if 0 < s.numthreads then miSwitch .zomb { s with numthreads := s.numthreads - 1 } else none

/-- `thread_fork`, from `splhigh` to `splx`, and the thread it made. -/
def threadFork (s : ThreadSys A) : Option (Tid × ThreadSys A) :=
  s.curthread.bind fun _ =>
    (s.sleepers.arrayPreallocate kmallocOk (s.numthreads + 1)).bind fun sl =>
    (s.zombies.arrayPreallocate kmallocOk (s.numthreads + 1)).bind fun zo =>
    (s.runqueue.qPreallocate kmallocOk (s.numthreads + 1)).bind fun rq =>
    (makeRunnable s.created
      { s with
        sleepers := sl
        zombies := zo
        runqueue := rq
        sleepaddr := Function.update s.sleepaddr s.created none
        fresh := Function.update s.fresh s.created true
        live := s.live ++ [s.created]
        created := s.created + 1 }).map fun s' =>
      (s.created, { s' with numthreads := s'.numthreads + 1 })

variable [DecidableEq A]

/-- The loop of `thread_wakeup`, from index `i`. After a removal the same
index is looked at again. Every turn takes a sleeper off or moves past one,
so the fuel is the number of sleepers from `i` on. -/
def wakeupLoop (addr : A) : ℕ → ℕ → ThreadSys A → Option (ThreadSys A)
  | 0, _, s => some s
  | fuel + 1, i, s =>
    if h : i < s.sleepers.num then
      let t := s.sleepers.arrayGetguy ⟨i, h⟩
      if s.sleepaddr t = some addr then
        (makeRunnable t { s with sleepers := s.sleepers.arrayRemove ⟨i, h⟩ }).bind
          (wakeupLoop addr fuel i)
      else wakeupLoop addr fuel (i + 1) s
    else some s

/-- `thread_wakeup`. -/
def threadWakeup (addr : A) (s : ThreadSys A) : Option (ThreadSys A) :=
  wakeupLoop addr s.sleepers.num 0 s

/-- The loop of `thread_wakeup_one`, which stops at the first sleeper on
the address. -/
def wakeupOneLoop (addr : A) : ℕ → ℕ → ThreadSys A → Option (ThreadSys A)
  | 0, _, s => some s
  | fuel + 1, i, s =>
    if h : i < s.sleepers.num then
      let t := s.sleepers.arrayGetguy ⟨i, h⟩
      if s.sleepaddr t = some addr then
        makeRunnable t { s with sleepers := s.sleepers.arrayRemove ⟨i, h⟩ }
      else wakeupOneLoop addr fuel (i + 1) s
    else some s

/-- `thread_wakeup_one`. -/
def threadWakeupOne (addr : A) (s : ThreadSys A) : Option (ThreadSys A) :=
  wakeupOneLoop addr s.sleepers.num 0 s

end ThreadSys

/-- The operations on the thread system, in whatever order the threads and
the interrupt handlers make them. -/
inductive Op (A : Type)
  | fork
  | yield
  | sleep (addr : A)
  | resume
  | wakeup (addr : A)
  | wakeupOne (addr : A)
  | exit
  | switchTo
  deriving DecidableEq, Repr

/-- One operation. -/
def step [DecidableEq A] (s : ThreadSys A) : Op A → Option (ThreadSys A)
  | .fork => s.threadFork.map Prod.snd
  | .yield => s.threadYield
  | .sleep addr => s.threadSleep addr
  | .resume => s.threadResume
  | .wakeup addr => s.threadWakeup addr
  | .wakeupOne addr => s.threadWakeupOne addr
  | .exit => s.threadExit
  | .switchTo => s.switchTo

end Thread

end Os161
