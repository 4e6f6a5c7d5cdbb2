import Mathlib.Data.PNat.Basic
import Os161.Common.Wp
import Os161.Thread.Model.Plist
/-!
# `thread_fork`, with memory that runs out

`thread_create` and `thread_fork` of `kern/thread/thread.c`, from the first
`kmalloc` to the label `fail`, over the parts of the thread system in which
they leave something: the process list, the children of `curthread`, the
count of the references to its directory, the tables and the run queue. Each
request for memory has its own answer.

The new `struct thread` is known here by its address alone. Nothing can be
seen of its fields but `t_cwd`, which is `curthread`'s.
-/

namespace Os161

namespace Thread

open Lib

/-- `struct pnode`, with the fields that `PNode` leaves out. -/
structure ForkNode extends ThreadNode where
  parentpid : Int32
  waited : Int32
  deriving DecidableEq, Repr

/-- `MAX_CHILD`. -/
def maxChild : ℕ := 100

/-- The first slot that is `NULL`, if there is one, takes the new thread. -/
def addChild (newguy : Tid) : List (Option Tid) → List (Option Tid)
  | [] => []
  | none :: slots => some newguy :: slots
  | some c :: slots => some c :: addChild newguy slots

theorem length_addChild (newguy : Tid) (slots : List (Option Tid)) :
    (addChild newguy slots).length = slots.length := by
  induction slots with
  | nil => rfl
  | cons c slots ih =>
    cases c with
    | none => rfl
    | some c => rw [addChild, List.length_cons, List.length_cons, ih]

/-- What `thread_fork` changes of the thread system. -/
structure ForkSys where
  /-- The list behind `phead`. -/
  plist : List ForkNode
  maxPid : Int32
  /-- `curthread->pid`. -/
  pid : Int32
  /-- `curthread->child`. -/
  child : List (Option Tid)
  child_length : child.length = maxChild
  /-- The `vn_refcount` of `curthread->t_cwd`, one of which is `curthread`'s. -/
  cwd : Option ℕ+
  numthreads : ℕ
  sleepers : PtrArray Tid
  zombies : PtrArray Tid
  runqueue : RingQueue Tid

/-- The answers to the requests for memory that `thread_fork` makes, in their
order. Those of the tables and of the queue depend on the number of bytes. -/
structure Requests where
  thread : Bool
  name : Bool
  /-- The semaphore `wait`. Nobody looks at the answer. -/
  wait : Bool
  pnode : Bool
  stack : Bool
  sleepers : ℕ → Bool
  zombies : ℕ → Bool
  scheduler : ℕ → Bool
  runnable : ℕ → Bool

/-- `thread_fork` over the thread system. -/
abbrev Forking : Type → Type := Prog ForkSys Errno

/-- `set_parentpid`, which does not stop at the first node. -/
def setParentpid (plist : List ForkNode) (parent current : Int32) : List ForkNode :=
  plist.map fun node => if node.pid == current then { node with parentpid := parent } else node

/-- `insert_to_plist`. The node is written to before anyone asks whether there
is one, and page 0 is never mapped. Its `parentpid` is what the memory held. -/
def insertNode (mem : Requests) (newguy : Tid) (pid junk : Int32) : Forking Unit := do
  Prog.assert mem.pnode
  modify fun s => { s with plist := s.plist ++
    [{ pid := pid, exited := 0, excode := -1, thread := newguy, parentpid := junk, waited := 0 }] }

/-- `thread_create`, which returns `NULL` for the two requests that it looks
at, and otherwise a thread with a pid and a node. -/
def threadCreate (mem : Requests) (newguy : Tid) (junk : Int32) : Forking Int32 := do
  Prog.failIf (¬ mem.thread) .ENOMEM
  Prog.failIf (¬ mem.name) .ENOMEM
  let pid := (← get).maxPid
  modify fun s => { s with maxPid := s.maxPid + 1 }
  insertNode mem newguy pid junk
  pure pid

/-- `ENOMEM`, or what there was memory for. -/
def orNomem {α : Type} : Option α → Forking α
  | some a => pure a
  | none => Prog.fail .ENOMEM

/-- `thread_fork`, from the first `array_preallocate` to `make_runnable`. -/
def prepareTables (mem : Requests) (newguy : Tid) : Forking Unit := do
  let s ← get
  let sleepers ← orNomem (s.sleepers.arrayPreallocate mem.sleepers (s.numthreads + 1))
  modify fun s => { s with sleepers := sleepers }
  let zombies ← orNomem (s.zombies.arrayPreallocate mem.zombies (s.numthreads + 1))
  modify fun s => { s with zombies := zombies }
  let runqueue ← orNomem (s.runqueue.qPreallocate mem.scheduler (s.numthreads + 1))
  modify fun s => { s with runqueue := runqueue }
  let runqueue ← orNomem (runqueue.qAddtail mem.runnable newguy)
  modify fun s => { s with runqueue := runqueue }

/-- `VOP_INCREF` of the directory, if there is one. -/
def increfCwd : Forking Unit := modify fun s => { s with cwd := s.cwd.map (· + 1) }

/-- `VOP_DECREF` of the directory, if there is one. The last reference is not
the one that is given back here. -/
def decrefCwd : Forking Unit := do
  Prog.assert (∀ n ∈ (← get).cwd, 1 < n)
  modify fun s => { s with cwd := s.cwd.map (· - 1) }

/-- The new thread becomes a child of `curthread`. -/
def adopt (newguy : Tid) (pid : Int32) : Forking Unit := modify fun s =>
  { s with
    child := addChild newguy s.child
    child_length := (length_addChild newguy s.child).trans s.child_length
    plist := setParentpid s.plist s.pid pid }

/-- `thread_fork`, from `splhigh` on. -/
def enterTables (mem : Requests) (newguy : Tid) : Forking Unit := do
  match ← Prog.result (prepareTables mem newguy) with
  | .ok _ => modify fun s => { s with numthreads := s.numthreads + 1 }
  | .error e => do
    decrefCwd
    Prog.fail e

/-- `thread_fork`. -/
def threadFork (mem : Requests) (newguy : Tid) (junk : Int32) : Forking Unit := do
  let pid ← threadCreate mem newguy junk
  Prog.failIf (¬ mem.stack) .ENOMEM
  increfCwd
  adopt newguy pid
  enterTables mem newguy

end Thread

end Os161
