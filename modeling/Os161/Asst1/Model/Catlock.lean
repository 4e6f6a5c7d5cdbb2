import Mathlib.Logic.Function.Basic
import Mathlib.Data.Int.Notation
import Mathlib.Data.Nat.Notation
/-!
# Cats and mice: `kern/asst1/catlock.c`

Any number of threads run `catlock` and `mouselock`, which are one function but
for the kind of animal. A step is one use of a lock, of a condition variable or
of a counter. A lock is acquired where it has no holder and released by its
holder, and a release by another thread does nothing; `cv_wait` lets the lock
go and goes to sleep in one step, and acquires the lock again once it is awake;
`cv_broadcast` wakes every sleeper and calls `lock_release`, as `synch.c` has
it. An animal is inside `lock_eat` from the step that enters it to the step that
leaves it.
-/

namespace Os161

namespace Asst1

namespace Catlock

inductive Kind
  | cat
  | mouse
  deriving DecidableEq, Repr

/-- The other kind, whose counter is tested and whose condition variable is
broadcast on. -/
def Kind.other : Kind → Kind
  | .cat => .mouse
  | .mouse => .cat

inductive Bowl
  | first
  | second
  deriving DecidableEq, Repr

/-- The four locks. -/
inductive Lock
  /-- `first_bowl` and `second_bowl`. -/
  | bowl (b : Bowl)
  /-- `cat_num_change_lock` and `mouse_num_change_lock`. -/
  | numChange (k : Kind)
  deriving DecidableEq, Repr

/-- Where an animal stands in its function. -/
inductive Place
  /-- At `if(first_bowl->holder == NULL)`. -/
  | testFirst
  /-- At `else if(second_bowl->holder == NULL)`. -/
  | testSecond
  /-- At the `lock_acquire` of the bowl. -/
  | acquire (b : Bowl)
  /-- At the `while`, with the bowl. -/
  | check (b : Bowl)
  /-- In `cv_wait`, asleep. -/
  | asleep (b : Bowl)
  /-- In `cv_wait`, at its `lock_acquire`. -/
  | reacquire (b : Bowl)
  /-- At the first `lock_acquire` of the number. -/
  | lockUp (b : Bowl)
  /-- At the increment. -/
  | increment (b : Bowl)
  /-- At the first `lock_release` of the number. -/
  | unlockUp (b : Bowl)
  /-- In `lock_eat`. -/
  | eat (b : Bowl)
  /-- At the second `lock_acquire` of the number. -/
  | lockDown (b : Bowl)
  /-- At the decrement. -/
  | decrement (b : Bowl)
  /-- At the second `lock_release` of the number. -/
  | unlockDown (b : Bowl)
  /-- At the `lock_release` of the bowl. -/
  | release (b : Bowl)
  /-- At the last `if`. -/
  | testNum (b : Bowl)
  /-- At `cv_broadcast`. -/
  | broadcast (b : Bowl)
  /-- Out of the loop. -/
  | finished
  deriving DecidableEq, Repr

/-- An animal: what it is, how often it has eaten, and where it stands. -/
structure Pc where
  kind : Kind
  ctr : ℕ
  place : Place
  deriving DecidableEq, Repr

/-- The locks, the counters and the animals. -/
structure Kitchen (A : Type) where
  holder : Lock → Option A
  /-- `cat_eating_num` and `mouse_eating_num`. -/
  eatingNum : Kind → ℤ
  pc : A → Pc

namespace Kitchen

variable {A : Type} [DecidableEq A]

/-- Animal `a` goes on at `p`. -/
def goTo (s : Kitchen A) (a : A) (p : Place) : Kitchen A :=
  { s with pc := Function.update s.pc a { s.pc a with place := p } }

/-- `lock_acquire`, where the lock is free. -/
def lockAcquire (s : Kitchen A) (a : A) (l : Lock) : Option (Kitchen A) :=
  match s.holder l with
  | none => some { s with holder := Function.update s.holder l (some a) }
  | some _ => none

/-- `lock_release`. -/
def lockRelease (s : Kitchen A) (a : A) (l : Lock) : Kitchen A :=
  if s.holder l = some a then { s with holder := Function.update s.holder l none } else s

/-- The sleepers on the condition variable of a kind wake up. -/
def wakeup (s : Kitchen A) (k : Kind) : Kitchen A :=
  { s with
    pc := fun a =>
      match (s.pc a).place with
      | .asleep b => if (s.pc a).kind = k then { s.pc a with place := .reacquire b } else s.pc a
      | _ => s.pc a }

/-- The end of a turn of the loop. -/
def nextTurn (s : Kitchen A) (a : A) : Kitchen A :=
  { s with
    pc := Function.update s.pc a
      { s.pc a with
        ctr := (s.pc a).ctr + 1
        place := if (s.pc a).ctr + 1 < 4 then .testFirst else .finished } }

/-- One step of animal `a`. -/
def step (s : Kitchen A) (a : A) : Option (Kitchen A) :=
  let k := (s.pc a).kind
  match (s.pc a).place with
  | .testFirst =>
    some (s.goTo a (if s.holder (.bowl .first) = none then .acquire .first else .testSecond))
  | .testSecond =>
    some (s.goTo a (if s.holder (.bowl .second) = none then .acquire .second else .testFirst))
  | .acquire b => (s.lockAcquire a (.bowl b)).map (·.goTo a (.check b))
  | .check b =>
    if s.eatingNum k.other ≠ 0 then some ((s.lockRelease a (.bowl b)).goTo a (.asleep b))
    else some (s.goTo a (.lockUp b))
  | .asleep _ => none
  | .reacquire b => (s.lockAcquire a (.bowl b)).map (·.goTo a (.check b))
  | .lockUp b => (s.lockAcquire a (.numChange k)).map (·.goTo a (.increment b))
  | .increment b =>
    some ({ s with eatingNum := Function.update s.eatingNum k (s.eatingNum k + 1) }.goTo a
      (.unlockUp b))
  | .unlockUp b => some ((s.lockRelease a (.numChange k)).goTo a (.eat b))
  | .eat b => some (s.goTo a (.lockDown b))
  | .lockDown b => (s.lockAcquire a (.numChange k)).map (·.goTo a (.decrement b))
  | .decrement b =>
    some ({ s with eatingNum := Function.update s.eatingNum k (s.eatingNum k - 1) }.goTo a
      (.unlockDown b))
  | .unlockDown b => some ((s.lockRelease a (.numChange k)).goTo a (.release b))
  | .release b => some ((s.lockRelease a (.bowl b)).goTo a (.testNum b))
  | .testNum b => if s.eatingNum k = 0 then some (s.goTo a (.broadcast b)) else some (s.nextTurn a)
  | .broadcast b => some (((s.wakeup k.other).lockRelease a (.bowl b)).nextTurn a)
  | .finished => none

end Kitchen

/-- `catmouselock`, for any animals. -/
def catmouselock {A : Type} (kind : A → Kind) : Kitchen A where
  holder := fun _ => none
  eatingNum := fun _ => 0
  pc := fun a => ⟨kind a, 0, .testFirst⟩

end Catlock

end Asst1

end Os161
