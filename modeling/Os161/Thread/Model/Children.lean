import Os161.Thread.Model.Fork
/-!
# The children of a thread

The part of `thread_fork` that enters the new thread in `curthread->child`, access by
access, and the life of a thread that makes children while they exit. Exiting changes
nothing in the table of the parent; it only lets the block of the child's `struct thread`
be handed out again.
-/

namespace Os161

namespace Thread

/-- The words from `curthread->child[0]` on; those from `MAX_CHILD` on are not in the array,
the first of them being `curthread->parent`. -/
structure ChildTable where
  word : ℕ → Option Tid
  -- history
  /-- The indices of the accesses to `child[i]`, the last one first. -/
  touched : List ℕ

abbrev Adopting : Type → Type := Prog ChildTable Empty

/-- Read `curthread->child[i]`. -/
def loadChild (i : ℕ) : Adopting (Option Tid) := do
  let t ← get
  set { t with touched := i :: t.touched }
  pure (t.word i)

/-- Write `curthread->child[i]`. -/
def storeChild (i : ℕ) (c : Option Tid) : Adopting Unit :=
  modify fun t => { t with word := Function.update t.word i c, touched := i :: t.touched }

/-- The loop of `thread_fork` over the table from the index `i` on, with `n` slots to go,
and the `i` at which it ends. -/
def adoptFrom (newguy : Tid) : ℕ → ℕ → Adopting ℕ
  | 0, i => pure i
  | n + 1, i => do
    let c ← loadChild i
    if c = none then do
      storeChild i (some newguy)
      pure i
    else adoptFrom newguy n (i + 1)

/-- The loop and the test behind it: whether `thread_fork` prints that it has failed to add
the child. -/
def adoptChild (newguy : Tid) : Adopting Bool := do
  let i ← adoptFrom newguy maxChild 0
  let c ← loadChild i
  pure (decide (c = none))

/-! ## The life of a thread -/

/-- A thread that forks. -/
structure Forker where
  table : ChildTable
  /-- The blocks of `struct thread` that are in use. -/
  inUse : List Tid
  -- history
  /-- The threads that it has entered in its table, or tried to, the first one first. -/
  calls : List Tid

/-- What happens to it. -/
inductive Lifetime where
  /-- A `thread_fork` that gets past `kmalloc`. It can still fail for the tables of the
  thread system, and then the new thread is freed. -/
  | fork (newguy : Tid) (ok : Bool)
  /-- A thread exits and is disposed of. -/
  | exit (t : Tid)

namespace Forker

/-- A thread after `thread_init`; `behind` is what follows its table. -/
def start (inUse : List Tid) (behind : ℕ → Option Tid) : Forker where
  table := ⟨fun i => if i < maxChild then none else behind i, []⟩
  inUse := inUse
  calls := []

/-- The table after the code of `thread_fork` for it. -/
def adopted (s : Forker) (newguy : Tid) : ChildTable :=
  match adoptChild newguy { s.table with touched := [] } with
  | .ok _ t => t
  | .error _ t => t

/-- One event. A block in use is not handed out. -/
def step (s : Forker) : Lifetime → Option Forker
  | .fork newguy ok =>
    if newguy ∈ s.inUse then none
    else some
      { table := s.adopted newguy
        inUse := if ok then newguy :: s.inUse else s.inUse
        calls := s.calls ++ [newguy] }
  | .exit t => some { s with inUse := s.inUse.erase t }

/-- **A fork keeps to the table**: every access is in the array, and the new thread is in
one slot of it. -/
structure KeepsToTable (s : Forker) (newguy : Tid) : Prop where
  inside : ∀ i ∈ (s.adopted newguy).touched, i < maxChild
  once : ∃! i, i < maxChild ∧ (s.adopted newguy).word i = some newguy

end Forker

end Thread

end Os161
