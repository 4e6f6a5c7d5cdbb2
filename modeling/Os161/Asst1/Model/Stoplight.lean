import Mathlib.Logic.Function.Basic
import Mathlib.Data.Fin.Basic
import Mathlib.Algebra.GroupWithZero.Nat
/-!
# The intersection: `kern/asst1/stoplight.c`

Each car is a thread that runs one of three functions, chosen with the side it
comes from. A function is a straight line of `P`, `V` and messages, so the code
that a car has to run yet is a list of actions. `P` and `V` are steps of their
own: a `P` can be taken where the count is positive. The line that `message`
prints goes nowhere.
-/

namespace Os161

namespace Asst1

namespace Stoplight

scoped instance four : NeZero 4 := ⟨by decide⟩

scoped instance three : NeZero 3 := ⟨by decide⟩

/-- The four quadrants of the intersection. -/
inductive Quadrant
  | nw
  | ne
  | sw
  | se
  deriving DecidableEq, Repr

/-- The five semaphores. -/
inductive Sem
  | quadrant (q : Quadrant)
  | intersection
  deriving DecidableEq, Repr

abbrev nw : Sem := .quadrant .nw

abbrev ne : Sem := .quadrant .ne

abbrev sw : Sem := .quadrant .sw

abbrev se : Sem := .quadrant .se

/-- The first argument of `message`. -/
inductive Msg
  | APPROACHING
  | REGION1
  | REGION2
  | REGION3
  | LEAVING
  deriving DecidableEq, Repr

/-- One step of a car. The directions are numbered as in `directions[]`: north,
east, south, west. -/
inductive Action
  | P (s : Sem)
  | V (s : Sem)
  | message (msg : Msg) (cardirection destdirection : Fin 4)
  deriving DecidableEq, Repr

/-- A branch of `gostraight`. -/
def straightThrough (q₁ q₂ : Sem) (cardirection : Fin 4) : List Action :=
  let dest := cardirection + 2
  [.P .intersection, .message .APPROACHING cardirection dest,
   .P q₁, .message .REGION1 cardirection dest,
   .P q₂, .message .REGION2 cardirection dest,
   .V q₁, .message .LEAVING cardirection dest,
   .V q₂, .V .intersection]

/-- `gostraight`. -/
def gostraight (cardirection : Fin 4) : List Action :=
  if cardirection = 0 then straightThrough nw sw cardirection
  else if cardirection = 1 then straightThrough ne nw cardirection
  else if cardirection = 2 then straightThrough se ne cardirection
  else straightThrough sw se cardirection

/-- A branch of `turnleft`. -/
def leftThrough (q₁ q₂ q₃ : Sem) (cardirection : Fin 4) : List Action :=
  let dest := cardirection + 1
  [.P .intersection, .message .APPROACHING cardirection dest,
   .P q₁, .message .REGION1 cardirection dest,
   .P q₂, .message .REGION2 cardirection dest,
   .V q₁,
   .P q₃, .message .REGION3 cardirection dest,
   .V q₂, .message .LEAVING cardirection dest,
   .V q₃, .V .intersection]

/-- `turnleft`. -/
def turnleft (cardirection : Fin 4) : List Action :=
  if cardirection = 0 then leftThrough nw sw se cardirection
  else if cardirection = 1 then leftThrough ne nw sw cardirection
  else if cardirection = 2 then leftThrough se ne nw cardirection
  else leftThrough sw se ne cardirection

/-- A branch of `turnright`. -/
def rightThrough (q₁ : Sem) (cardirection : Fin 4) : List Action :=
  let dest := cardirection + 3
  [.P .intersection, .message .APPROACHING cardirection dest,
   .P q₁, .message .REGION1 cardirection dest, .message .LEAVING cardirection dest,
   .V q₁, .V .intersection]

/-- `turnright`. -/
def turnright (cardirection : Fin 4) : List Action :=
  if cardirection = 0 then rightThrough nw cardirection
  else if cardirection = 1 then rightThrough ne cardirection
  else if cardirection = 2 then rightThrough se cardirection
  else rightThrough sw cardirection

/-- What a car draws: `carDirection` and `carDriving`. -/
abbrev Turn := Fin 4 × Fin 3

/-- `approachintersection`, for the two numbers that `random` gives it. -/
def approachintersection (t : Turn) : List Action :=
  if t.2 = 0 then gostraight t.1
  else if t.2 = 1 then turnleft t.1
  else turnright t.1

/-- The semaphores and the cars. -/
structure Crossing (Car : Type) where
  count : Sem → ℕ
  /-- What each car has to run yet. -/
  code : Car → List Action
  -- history
  /-- What it has run. -/
  ran : Car → List Action

namespace Crossing

variable {Car : Type} [DecidableEq Car]

/-- Car `c` has run the action and goes on with `rest`. -/
def goOn (s : Crossing Car) (c : Car) (a : Action) (rest : List Action) : Crossing Car :=
  { s with
    code := Function.update s.code c rest
    ran := Function.update s.ran c (s.ran c ++ [a]) }

/-- One step of car `c`. -/
def step (s : Crossing Car) (c : Car) : Option (Crossing Car) :=
  match s.code c with
  | [] => none
  | .P q :: rest =>
    if 0 < s.count q then
      some { s.goOn c (.P q) rest with count := Function.update s.count q (s.count q - 1) }
    else none
  | .V q :: rest =>
    some { s.goOn c (.V q) rest with count := Function.update s.count q (s.count q + 1) }
  | a :: rest => some (s.goOn c a rest)

end Crossing

/-- What `sem_create` is given. -/
def units : Sem → ℕ
  | .quadrant _ => 1
  | .intersection => 3

/-- `createcars`, for any cars and whatever they draw. -/
def createcars {Car : Type} (turn : Car → Turn) : Crossing Car where
  count := units
  code := fun c => approachintersection (turn c)
  ran := fun _ => []

end Stoplight

end Asst1

end Os161
