import Os161.Thread.Model.Plist
/-!
# Forking, waiting and exiting

`sys_waitpid` and `sys__exit` of `kern/arch/mips/mips/syscall.c`, with
`thread_exit` and the process list of `kern/thread/thread.c`, as any number of
threads run them on one processor. A thread is at one place of its code, and
the values of its local variables are kept with it. What stands between two
places runs in one go: a call of `P` up to where it sleeps or returns, a call
of `V`, and a call of one of the functions on the process list. Between two
places a timer interrupt can come in, unless the thread has interrupts off.

`sys_fork` has interrupts off from its first statement to its last, so a fork
is one step, and so is the `set_excode` of `sys__exit`. `sys__exit` goes on
into `thread_exit` with interrupts off. A kernel thread whose function returns
calls `thread_exit` with interrupts on.

Two things are not as plain as these steps have it (`Turn`). The functions on
the list are loops, and `sys_waitpid` calls them with interrupts on, as the menu
does `thread_fork`: a timer interrupt inside one leaves a change of the list or a
new pid half done. And a `struct thread` that has been freed may belong to another
thread when a waiter loads its `wait`. What comes of either is left open.

Left out are the address spaces, the open files and the vnodes that
`thread_exit` and `fork` see to, and the store to `*status`: the value it
stores is kept with what the call returns. `kmalloc` is taken never to fail.
-/

namespace Os161

namespace Proc

open Thread

/-- The semaphores here: the global `lock`, and the `wait` of each thread. -/
inductive Sem
  | lock
  | wait (t : Tid)
  deriving DecidableEq, Repr

/-- What `sys_waitpid` has returned: an error, or the pid with the status. -/
abbrev Result := Except Errno (Int32 × Int32)

/-- A place in the code. -/
inductive Pc
  /-- In user mode, or in other code of the kernel. `last` is what the last
  `sys_waitpid` returned. -/
  | user (last : Option Result)
  /-- `P(lock)` in `sys_waitpid(pid)`. -/
  | takeLock (pid : Int32)
  /-- `has_exited = get_exited(pid)`. -/
  | test (pid : Int32)
  /-- `has_exited == 1`: `*status = get_excode(pid)`. -/
  | readExited (pid : Int32)
  /-- `V(lock)` and `return 0`. -/
  | unlockExited (pid st : Int32)
  /-- `has_exited == 0`: `pid_thread = find_thread_by_pid(pid)`. -/
  | find (pid : Int32)
  /-- `V(lock)`. -/
  | unlockRunning (pid : Int32) (pidThread : Option Tid)
  /-- `pid_thread->wait` is loaded. -/
  | loadWait (pid : Int32) (pidThread : Option Tid)
  /-- In `P(pid_thread->wait)`. -/
  | waitExit (pid : Int32) (pidThread : Tid)
  /-- `*status = get_excode(pid)`. -/
  | readWoken (pid : Int32) (pidThread : Tid)
  /-- `delete_from_plist(pid)` and `return 0`. -/
  | reap (pid : Int32) (pidThread : Tid) (st : Int32)
  /-- Neither: `V(lock)` and `return EINVAL`. -/
  | unlockMissing
  /-- `set_exited(curthread->pid)` in `thread_exit`. -/
  | markExited
  /-- `V(curthread->wait)`. -/
  | postWait
  /-- `V(lock)`. -/
  | postLock
  /-- The rest of `thread_exit`. -/
  | leave
  deriving DecidableEq, Repr

/-- The process list and the threads. -/
structure ProcSys where
  sys : ThreadSys Sem
  /-- `sem->count` -/
  count : Sem → ℕ
  plist : List ThreadNode
  /-- `max_pid` -/
  maxPid : Int32
  /-- `thread->pid` -/
  pid : Tid → Int32
  pc : Tid → Pc
  /-- Whether interrupts are off where the thread is. -/
  off : Tid → Bool
  -- history
  /-- What a thread exited with: the argument of `sys__exit`, and `-1` without
  one. -/
  exitcode : Tid → Option Int32
  /-- The calls of `V(lock)` in `thread_exit`. -/
  exits : ℕ

/-- What happens next. -/
inductive Event
  /-- The current thread calls `sys_fork`. -/
  | fork
  /-- The current thread calls `sys_waitpid`. -/
  | waitpid (pid : Int32) (status : UInt32) (options : Int32)
  /-- The current thread calls `sys__exit`, or `kill_curthread` does it for a
  trap. -/
  | exit (code : Int32)
  /-- The function of the current kernel thread returns into
  `mi_threadstart`. -/
  | finish
  /-- The current thread goes on. -/
  | run
  /-- A timer interrupt. -/
  | timer
  /-- `scheduler` returns a thread and `mi_switch` switches to it. -/
  | switchTo
  deriving DecidableEq, Repr

namespace ProcSys

/-- Thread `t` gets to another place. -/
def goto (s : ProcSys) (t : Tid) (pc : Pc) : ProcSys :=
  { s with pc := Function.update s.pc t pc }

/-- One turn of the loop of `P`, or its end. A turn begins where the thread
comes back from `thread_sleep`, which clears `t_sleepaddr`; in the first turn
it is clear already. Interrupts are off while the thread sleeps. -/
def p (s : ProcSys) (t : Tid) (sem : Sem) (next : Pc) : Option ProcSys :=
  s.sys.threadResume.bind fun sys =>
    if s.count sem = 0 then
      (sys.threadSleep sem).map fun sys => { s with sys, off := Function.update s.off t true }
    else
      some (goto
        { s with
          sys
          count := Function.update s.count sem (s.count sem - 1)
          off := Function.update s.off t false } t next)

/-- `V`. The count is an `int`, and the assertion fails when it overflows. -/
def v (s : ProcSys) (sem : Sem) : Option ProcSys :=
  if s.count sem + 1 < 2 ^ 31 then
    (s.sys.threadWakeup sem).map fun sys =>
      { s with sys, count := Function.update s.count sem (s.count sem + 1) }
  else none

/-- `has_exited = get_exited(pid)`, and the branch. -/
def afterTest (s : ProcSys) (pid : Int32) : Pc :=
  let hasExited := getExited (Plist.nodes s.plist) pid
  if hasExited = 1 then .readExited pid
  else if hasExited = 0 then .find pid
  else .unlockMissing

/-- Thread `t` goes on from a place. -/
def run (s : ProcSys) (t : Tid) : Pc → Option ProcSys
  | .user _ => none
  | .takeLock pid => s.p t .lock (.test pid)
  | .test pid => some (s.goto t (s.afterTest pid))
  | .readExited pid =>
    some (s.goto t (.unlockExited pid (getExcode (Plist.nodes s.plist) pid)))
  | .unlockExited pid st =>
    (s.v .lock).map fun s => s.goto t (.user (some (.ok (pid, st))))
  | .find pid => some (s.goto t (.unlockRunning pid (Plist.findThreadByPid s.plist pid)))
  | .unlockRunning pid pidThread =>
    (s.v .lock).map fun s => s.goto t (.loadWait pid pidThread)
  -- a load through a null pointer is a fatal trap in the kernel
  | .loadWait pid pidThread => pidThread.map fun q => s.goto t (.waitExit pid q)
  | .waitExit pid q => s.p t (.wait q) (.readWoken pid q)
  | .readWoken pid q =>
    some (s.goto t (.reap pid q (getExcode (Plist.nodes s.plist) pid)))
  | .reap pid _ st =>
    some (goto { s with plist := Plist.delete s.plist pid } t (.user (some (.ok (pid, st)))))
  | .unlockMissing => (s.v .lock).map fun s => s.goto t (.user (some (.error .EINVAL)))
  | .markExited =>
    some (goto
      { s with
        plist := Plist.setExited s.plist (s.pid t)
        exitcode := Function.update s.exitcode t (some ((s.exitcode t).getD (-1))) } t .postWait)
  | .postWait => (s.v (.wait t)).map fun s => s.goto t .postLock
  | .postLock => (s.v .lock).map fun s => goto { s with exits := s.exits + 1 } t .leave
  | .leave => s.sys.threadExit.map fun sys => { s with sys }

/-- `sys_fork`, with `thread_create` and `thread_fork`. `max_pid` is an `int`. -/
def fork (s : ProcSys) : Option ProcSys :=
  if s.maxPid = Int32.maxValue then none
  else s.sys.threadFork.map fun r =>
    { s with
      sys := r.2
      count := Function.update s.count (.wait r.1) 0
      plist := Plist.insertToPlist s.plist r.1 s.maxPid
      maxPid := s.maxPid + 1
      pid := Function.update s.pid r.1 s.maxPid
      pc := Function.update s.pc r.1 (.user none)
      off := Function.update s.off r.1 false }

/-- The tests `sys_waitpid` begins with. -/
def refused (s : ProcSys) (t : Tid) (pid : Int32) (status : UInt32) (options : Int32) :
    Option Errno :=
  if pid = -8 ∨ pid = -1 ∨ pid = 0 ∨ pid = 34000 then some .EINVAL
  else if status = 0 ∨ status = 0x40000000 ∨ status = 0x80000000 then some .EFAULT
  else if options ≠ 0 then some .EINVAL
  else if pid = s.pid t then some .EINVAL
  else none

/-- `sys_waitpid`, up to `P(lock)`. -/
def waitpid (s : ProcSys) (t : Tid) (pid : Int32) (status : UInt32) (options : Int32) : ProcSys :=
  match s.refused t pid status options with
  | some e => s.goto t (.user (some (.error e)))
  | none => s.goto t (.takeLock pid)

/-- `sys__exit`, up to the call of `thread_exit`. -/
def exit (s : ProcSys) (t : Tid) (code : Int32) : ProcSys :=
  goto
    { s with
      plist := Plist.setExcode s.plist (s.pid t) code
      off := Function.update s.off t true
      exitcode := Function.update s.exitcode t (some code) } t .markExited

/-- The current thread makes a call, which it can do from user mode. -/
def call (s : ProcSys) (f : Tid → Option ProcSys) : Option ProcSys :=
  s.sys.curthread.bind fun t =>
    match s.pc t with
    | .user _ => f t
    | _ => none

/-- One event. -/
def step (s : ProcSys) : Event → Option ProcSys
  | .fork => s.call fun _ => s.fork
  | .waitpid pid status options => s.call fun t => some (s.waitpid t pid status options)
  | .exit code => s.call fun t => some (s.exit t code)
  | .finish => s.call fun t => some (s.goto t .markExited)
  | .run => s.sys.curthread.bind fun t => s.run t (s.pc t)
  | .timer =>
    if s.sys.curthread.any s.off then none
    else s.sys.threadYield.map fun sys => { s with sys }
  | .switchTo => s.sys.switchTo.map fun sys => { s with sys }

end ProcSys

/-- What happens next, with what the events leave out. -/
inductive Turn
  /-- An event, with the functions it calls in one go. -/
  | whole (e : Event)
  /-- A timer interrupt comes in inside a function on the process list, or inside the
  `thread_fork` of the menu. Any state may follow. -/
  | torn (s : ProcSys)
  /-- `pid_thread->wait` is loaded from a structure that has been freed. Any state may
  follow. -/
  | stray (s : ProcSys)

namespace ProcSys

/-- The current thread is at a call of a function on the process list, or where the menu
calls `thread_fork`, and interrupts are on. -/
def atList (s : ProcSys) : Bool :=
  s.sys.curthread.any fun t => !s.off t &&
    match s.pc t with
    | .user _ | .test _ | .readExited _ | .find _ | .readWoken _ _ | .reap _ _ _
    | .markExited => true
    | _ => false

/-- The current thread is about to load from a structure that has been freed. -/
def atFreed (s : ProcSys) : Bool :=
  s.sys.curthread.any fun t =>
    match s.pc t with
    | .loadWait _ (some q) => q ∉ s.sys.live
    | _ => false

/-- One step, whole or not. -/
def turn (s : ProcSys) : Turn → Option ProcSys
  | .whole e => s.step e
  | .torn s' => if s.atList then some s' else none
  | .stray s' => if s.atFreed then some s' else none

end ProcSys

/-- The condition on a step that nothing is torn and that events meet `G`. With `strays`,
loads from freed structures are not excluded. -/
def Turn.Meets (strays : Prop) (G : ProcSys → Event → Prop) (s : ProcSys) : Turn → Prop
  | .whole e => G s e
  | .torn _ => False
  | .stray _ => strays

/-- The boot: the process list has the boot thread, and `lock` starts at 0. -/
def boot : ProcSys where
  sys := threadBootstrap
  count := fun _ => 0
  plist := Plist.insertToPlist [] 0 1
  maxPid := 2
  pid := Function.update (fun _ => -1) 0 1
  pc := fun _ => .user none
  off := fun _ => false
  exitcode := fun _ => none
  exits := 0

end Proc

end Os161
