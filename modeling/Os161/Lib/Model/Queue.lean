import Os161.Common.Prog
import Os161.Lib.Model.Errno
import Mathlib.Order.Nat
import Mathlib.Logic.Function.Basic
/-!
# The ring-buffer queue of pointers

`kern/lib/queue.c`. The ring has `size` slots and is empty when the two
indices meet, so it holds at most `size - 1` elements. The assertion
`q->size > 0` and the ranges the `%` operator gives the indices are fields.

`q_grow` copies the elements into a larger ring with `q_addtail`, which in
turn calls `q_grow` on a full ring. The nested growth is never reached —
the new ring is larger than the old one's contents (`Queue.lean`) — so the
`q_addtail` of the copy is the one whose growth fails, and a failure there
is the source's `assert(result==0)`.

The same functions stand a second time as programs over the `struct queue`, one
assignment after the other, with the assertion of the loop that looks for the
new size.
-/

namespace Os161

namespace Lib

/-- `struct queue`. -/
structure RingQueue (α : Type) where
  size : ℕ
  nextwrite : ℕ
  nextread : ℕ
  data : ℕ → α
  nextwrite_lt : nextwrite < size
  nextread_lt : nextread < size

variable {α : Type}

namespace RingQueue

/-- The number of elements between the two indices. -/
def count (q : RingQueue α) : ℕ :=
  if q.nextread ≤ q.nextwrite then q.nextwrite - q.nextread
  else q.nextwrite + q.size - q.nextread

/-- The elements, from `nextread` to `nextwrite` around the ring. -/
def toList (q : RingQueue α) : List α :=
  (List.range q.count).map fun i => q.data ((q.nextread + i) % q.size)

/-- `q_empty`. -/
def qEmpty (q : RingQueue α) : Bool := q.nextwrite == q.nextread

/-- The test of `q_addtail`: the next write would catch up with the reader. -/
def full (q : RingQueue α) : Bool := (q.nextwrite + 1) % q.size == q.nextread

theorem size_pos (q : RingQueue α) : 0 < q.size := Nat.lt_of_le_of_lt (Nat.zero_le _) q.nextread_lt

/-- The two assignments `q_addtail` ends with. -/
def put (q : RingQueue α) (ptr : α) : RingQueue α :=
  { q with
    nextwrite := (q.nextwrite + 1) % q.size
    data := Function.update q.data q.nextwrite ptr
    nextwrite_lt := Nat.mod_lt _ q.size_pos }

/-- `q_addtail`, over what it does with a full ring. -/
def addtailWith (grow : RingQueue α → Option (RingQueue α)) (q : RingQueue α) (ptr : α) :
    Option (RingQueue α) :=
  if q.full then (grow q).map fun q' => q'.put ptr else some (q.put ptr)

/-- The loop `while (nsize < targetsize) nsize *= 2`, from a positive size;
it runs at most `targetsize` times. -/
def growSize (targetsize : ℕ) : ℕ → ℕ → ℕ
  | 0, nsize => nsize
  | fuel + 1, nsize => if nsize < targetsize then growSize targetsize fuel (nsize * 2) else nsize

theorem le_growSize (targetsize : ℕ) : ∀ fuel nsize, nsize ≤ growSize targetsize fuel nsize
  | 0, _ => le_rfl
  | fuel + 1, nsize => by
    rw [growSize]
    split
    · exact le_trans (by omega) (le_growSize targetsize fuel (nsize * 2))
    · exact le_rfl

/-- The copying loop of `q_grow`: `i` walks the old ring until the old
`nextwrite`. -/
def copyLoop (old : RingQueue α) : ℕ → ℕ → RingQueue α → Option (RingQueue α)
  | 0, _, q => some q
  | fuel + 1, i, q =>
    if i = old.nextwrite then some q
    else (addtailWith (fun _ => none) q (old.data i)).bind fun q' =>
      copyLoop old fuel ((i + 1) % old.size) q'

/-- `q_grow`. The new store starts empty; what its slots hold before they
are written is arbitrary. -/
def qGrow (km : ℕ → Bool) (q : RingQueue α) (targetsize : ℕ) : Option (RingQueue α) :=
  if km (growSize targetsize targetsize q.size * 4) then
    copyLoop q q.size q.nextread
      { size := growSize targetsize targetsize q.size
        nextwrite := 0
        nextread := 0
        data := q.data
        nextwrite_lt := Nat.lt_of_lt_of_le q.size_pos (le_growSize _ _ _)
        nextread_lt := Nat.lt_of_lt_of_le q.size_pos (le_growSize _ _ _) }
  else none

/-- `q_preallocate`. -/
def qPreallocate (km : ℕ → Bool) (q : RingQueue α) (size : ℕ) : Option (RingQueue α) :=
  if q.size < size then qGrow km q size else some q

/-- `q_addtail`. -/
def qAddtail (km : ℕ → Bool) (q : RingQueue α) (ptr : α) : Option (RingQueue α) :=
  addtailWith (fun q => qGrow km q (q.size + 1)) q ptr

/-- `q_remhead`. An empty queue is an assertion failure. -/
def qRemhead (q : RingQueue α) : Option (α × RingQueue α) :=
  if q.qEmpty then none
  else some (q.data q.nextread,
    { q with
      nextread := (q.nextread + 1) % q.size
      nextread_lt := Nat.mod_lt _ q.size_pos })

end RingQueue

/-- `q_create`, for a positive size. -/
def qCreate [Inhabited α] (size : ℕ) (h : 0 < size) : RingQueue α where
  size := size
  nextwrite := 0
  nextread := 0
  data := fun _ => default
  nextwrite_lt := h
  nextread_lt := h

/-! ## As programs -/

namespace Queue

variable (km : ℕ → Bool) (fresh : ℕ → α)

/-- The loop that looks for the new size. An `int` that is doubled is positive if it does
not reach `2 ^ 31`. -/
def double (targetsize : ℕ) : ℕ → ℕ → Prog (RingQueue α) Errno ℕ
  | 0, nsize => pure nsize
  | fuel + 1, nsize =>
    if nsize < targetsize then do
      Prog.assert (nsize * 2 < 2 ^ 31)
      double targetsize fuel (nsize * 2)
    else pure nsize

/-- `q_addtail`, over the `q_grow` that it calls. -/
def addtailWith (grow : Prog (RingQueue α) Errno Unit) (ptr : α) :
    Prog (RingQueue α) Errno Unit := do
  let q ← get
  (if q.full then grow else pure ())
  modify fun q => q.put ptr

/-- The copying loop of `q_grow`. A `q_grow` that is called from within is the end. -/
def copy (old : RingQueue α) : ℕ → ℕ → Prog (RingQueue α) Errno Unit
  | 0, _ => pure ()
  | fuel + 1, i =>
    if i = old.nextwrite then pure ()
    else do
      addtailWith Prog.halt (old.data i)
      copy old fuel ((i + 1) % old.size)

/-- `q_grow`, where the new block holds `fresh`. -/
def qGrow (targetsize : ℕ) : Prog (RingQueue α) Errno Unit := do
  let q ← get
  let nsize ← double targetsize targetsize q.size
  Prog.failIf (km (nsize * 4) = false) .ENOMEM
  -- assert(q->size > 0), in q_addtail
  (if h : 0 < nsize then set (RingQueue.mk nsize 0 0 fresh h h) else Prog.halt)
  copy q q.size q.nextread

/-- `q_preallocate`. -/
def qPreallocate (size : ℕ) : Prog (RingQueue α) Errno Unit := do
  let q ← get
  if q.size < size then qGrow km fresh size else pure ()

/-- `q_addtail`. -/
def qAddtail (ptr : α) : Prog (RingQueue α) Errno Unit := do
  let q ← get
  addtailWith (qGrow km fresh (q.size + 1)) ptr

/-- `q_remhead`. -/
def qRemhead : Prog (RingQueue α) Errno α := do
  let q ← get
  match q.qRemhead with
  | some (ret, q') => do
    set q'
    pure ret
  | none => Prog.halt

end Queue

end Lib

end Os161
