import Os161.Common.Prog
import Os161.Lib.Model.Errno
import Mathlib.Order.Nat
import Mathlib.Logic.Function.Basic
/-!
# Resizable arrays of pointers

`kern/lib/array.c`. The backing store `v` is a function of the index, of
which the first `max` slots exist and the first `num` hold elements; what a
slot at or past `num` holds is whatever was there before. The assertion
`a->num <= a->max` that every operation opens with is a field, and an index
that must be below `num` is a `Fin`.

`kmalloc` is a parameter `km`: whether a request for that many bytes is
met. An operation that needs memory and gets none returns `none`, which is
the source's `ENOMEM`.

The same functions stand a second time as programs over the `struct array`, with a
check of every access to the backing store: one past `max` is the end.
-/

namespace Os161

namespace Lib

/-- `struct array`. -/
structure PtrArray (α : Type) where
  num : ℕ
  max : ℕ
  v : ℕ → α
  num_le : num ≤ max

variable {α : Type}

namespace PtrArray

/-- The elements, in index order. -/
def toList (a : PtrArray α) : List α := (List.range a.num).map a.v

/-- `array_getguy`. -/
def arrayGetguy (a : PtrArray α) (index : Fin a.num) : α := a.v index

/-- The loop `while (nguys > newmax) newmax = (newmax+1)*2`, which runs at
most `nguys` times. -/
def growLoop (nguys : ℕ) : ℕ → ℕ → ℕ
  | 0, newmax => newmax
  | fuel + 1, newmax =>
    if newmax < nguys then growLoop nguys fuel ((newmax + 1) * 2) else newmax

/-- The capacity `array_preallocate` gives an array that has `max` slots. -/
def newMax (max nguys : ℕ) : ℕ := growLoop nguys nguys max

theorem le_growLoop (nguys : ℕ) : ∀ fuel newmax, newmax ≤ growLoop nguys fuel newmax
  | 0, _ => le_rfl
  | fuel + 1, newmax => by
    rw [growLoop]
    split
    · exact le_trans (by omega) (le_growLoop nguys fuel ((newmax + 1) * 2))
    · exact le_rfl

/-- `array_preallocate` never takes slots away. -/
theorem le_newMax (max nguys : ℕ) : max ≤ newMax max nguys := le_growLoop _ _ _

/-- `array_preallocate`: a new backing store with the old elements in it. -/
def arrayPreallocate (km : ℕ → Bool) (a : PtrArray α) (nguys : ℕ) : Option (PtrArray α) :=
  if km (newMax a.max nguys * 4) then
    some { a with max := newMax a.max nguys, num_le := le_trans a.num_le (le_newMax _ _) }
  else none

/-- The loop runs out of work before it runs out of fuel. -/
theorem le_growLoop_of_fuel (nguys : ℕ) :
    ∀ fuel newmax, nguys ≤ newmax + fuel → nguys ≤ growLoop nguys fuel newmax
  | 0, newmax, h => by rw [growLoop]; omega
  | fuel + 1, newmax, h => by
    rw [growLoop]
    split
    · exact le_growLoop_of_fuel nguys fuel _ (by omega)
    · omega

/-- The capacity asked for is the capacity got. -/
theorem le_newMax_right (max nguys : ℕ) : nguys ≤ newMax max nguys :=
  le_growLoop_of_fuel _ _ _ (by omega)

theorem arrayPreallocate_max {km : ℕ → Bool} {a a' : PtrArray α} {nguys : ℕ}
    (h : arrayPreallocate km a nguys = some a') : a'.max = newMax a.max nguys := by
  unfold arrayPreallocate at h
  split at h
  · rw [← Option.some.inj h]
  · cases h

theorem le_max_of_arrayPreallocate {km : ℕ → Bool} {a a' : PtrArray α} {nguys : ℕ}
    (h : arrayPreallocate km a nguys = some a') : nguys ≤ a'.max := by
  rw [arrayPreallocate_max h]
  exact le_newMax_right _ _

/-- `array_setsize`. Shrinking to nothing gives the backing store back once
it is larger than 16 slots. -/
def arraySetsize (km : ℕ → Bool) (a : PtrArray α) (nguys : ℕ) : Option (PtrArray α) :=
  if hmax : a.max < nguys then
    match h : arrayPreallocate km a nguys with
    | none => none
    | some a' => some { a' with num := nguys, num_le := le_max_of_arrayPreallocate h }
  else if nguys = 0 ∧ 16 < a.max then
    some { num := 0, max := 0, v := a.v, num_le := le_rfl }
  else some { a with num := nguys, num_le := by omega }

/-- `array_add`. -/
def arrayAdd (km : ℕ → Bool) (a : PtrArray α) (guy : α) : Option (PtrArray α) :=
  (arraySetsize km a (a.num + 1)).map fun a' =>
    { a' with v := Function.update a'.v a.num guy }

/-- `array_remove`: the elements past `index` move down by one. -/
def arrayRemove (a : PtrArray α) (index : Fin a.num) : PtrArray α where
  num := a.num - 1
  max := a.max
  v := fun j => if index.val ≤ j ∧ j + 1 < a.num then a.v (j + 1) else a.v j
  num_le := le_trans (Nat.sub_le _ _) a.num_le

end PtrArray

/-- `array_create`. There is no backing store, and `v` is arbitrary. -/
def arrayCreate [Inhabited α] : PtrArray α where
  num := 0
  max := 0
  v := fun _ => default
  num_le := le_rfl

/-! ## As programs -/

namespace Arr

open Function

variable (km : ℕ → Bool) (fresh : ℕ → α)

/-- `array_getguy`. -/
def arrayGetguy (index : ℕ) : Prog (PtrArray α) Errno α := do
  let a ← get
  Prog.assert (index < a.num)
  Prog.assert (index < a.max)
  pure (a.v index)

/-- `array_setguy`. -/
def arraySetguy (index : ℕ) (ptr : α) : Prog (PtrArray α) Errno Unit := do
  let a ← get
  Prog.assert (index < a.num)
  Prog.assert (index < a.max)
  set { a with v := update a.v index ptr }

/-- `array_preallocate`, where the new block holds `fresh`. The loop reads and writes the
slots below `num`. -/
def arrayPreallocate (nguys : ℕ) : Prog (PtrArray α) Errno Unit := do
  let a ← get
  let newmax := PtrArray.newMax a.max nguys
  Prog.failIf (km (newmax * 4) = false) .ENOMEM
  if h : a.num ≤ a.max ∧ a.num ≤ newmax then
    set { a with max := newmax, v := fun i => if i < a.num then a.v i else fresh i, num_le := h.2 }
  else Prog.halt

/-- `a->num = nguys`. -/
def setNum (nguys : ℕ) : Prog (PtrArray α) Errno Unit := do
  let a ← get
  if h : nguys ≤ a.max then set { a with num := nguys, num_le := h } else Prog.halt

/-- `array_setsize`. -/
def arraySetsize (nguys : ℕ) : Prog (PtrArray α) Errno Unit := do
  let a ← get
  if a.max < nguys then do
    arrayPreallocate km fresh nguys
    setNum nguys
  else if nguys = 0 ∧ 16 < a.max then set (PtrArray.mk 0 0 fresh le_rfl)
  else setNum nguys

/-- `array_add`. -/
def arrayAdd (guy : α) : Prog (PtrArray α) Errno Unit := do
  let ix := (← get).num
  arraySetsize km fresh (ix + 1)
  let a ← get
  Prog.assert (ix < a.max)
  set { a with v := update a.v ix guy }

/-- `array_remove`. The `memmove` touches the slots from `index` up to `num`. -/
def arrayRemove (index : ℕ) : Prog (PtrArray α) Errno Unit := do
  let a ← get
  Prog.assert (a.num ≤ a.max)
  if h : index < a.num then set (a.arrayRemove ⟨index, h⟩) else Prog.halt

end Arr

end Lib

end Os161
