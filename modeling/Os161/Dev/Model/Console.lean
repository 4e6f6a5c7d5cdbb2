import Mathlib.Logic.Function.Basic
import Mathlib.Algebra.Group.Nat.Defs
import Mathlib.Algebra.Group.Int.Defs
/-!
# The console: `kern/dev/generic/console.c` over `kern/dev/lamebus/lser.c`

Any number of threads call `putch` and `getch`, code that runs with interrupts
off calls `putch`, and the serial device sends and receives. A thread can be
interrupted and switched away from wherever interrupts are on, so the
functions that threads run are cut there: `putch_intr` between its `P` and
`lser_write`, `getch_intr` between its `P` and the read of `cs_gotchar`. While
`lser_writepolled` runs, interrupts are off, and only the device moves on.

`P` is a step that can be taken where the count is positive, `V` adds one; the
assertion of `V` fails when the count overflows, and the kernel stops. The
console has been found, so `the_console` is not null; `putch_delayed` is left
out with the time before that.
-/

namespace Os161

namespace Dev

/-- One call of `putch`: its number, and the character. -/
abbrev Putch := ℕ × ℤ

/-- Where a thread stands. -/
inductive Pc
  /-- Outside the console. -/
  | user
  /-- In `putch_intr`, at `P(cs->cs_wsem)`. -/
  | putchWait (x : Putch)
  /-- In `putch_intr`, between `P(cs->cs_wsem)` and `lser_write`. -/
  | putchSend (x : Putch)
  /-- In `getch_intr`, at `P(cs->cs_rsem)`. -/
  | getchWait
  /-- In `getch_intr`, at `return cs->cs_gotchar`. -/
  | getchRead
  deriving DecidableEq, Repr

/-- Where `lser_writepolled` stands. -/
inductive Poll
  /-- At `if (sc->ls_wbusy)`. -/
  | test (x : Putch)
  /-- In the first `lser_spin_until_write`. -/
  | drain (x : Putch)
  /-- At the first write to `LSER_REG_WIRQ`. -/
  | clear (x : Putch)
  /-- At the write to `LSER_REG_CHAR`. -/
  | send (x : Putch) (irqpending : Bool)
  /-- In the second `lser_spin_until_write`. -/
  | wait (irqpending : Bool)
  /-- At `if (!irqpending)`. -/
  | ack (irqpending : Bool)
  deriving DecidableEq, Repr

/-- The device, its driver, the console and the threads. -/
structure Console (W : Type) where
  -- the device
  /-- A character is on its way out. -/
  sending : Bool
  /-- `LSER_IRQ_ACTIVE` in `LSER_REG_WIRQ`. -/
  wirq : Bool
  /-- `LSER_IRQ_ACTIVE` in `LSER_REG_RIRQ`. -/
  rirq : Bool
  /-- The character that came in, in `LSER_REG_CHAR`. -/
  rchar : ℤ
  -- `struct lser_softc`
  wbusy : Bool
  -- `struct con_softc`
  rsem : ℕ
  wsem : ℕ
  gotchar : ℤ
  -- the processor
  pc : W → Pc
  /-- The polled write under way, with interrupts off. -/
  polled : Option Poll
  /-- `lser_write` has panicked. -/
  panicked : Bool
  -- history
  /-- The characters passed to `putch`, call by call. -/
  called : List ℤ
  /-- What was written to `LSER_REG_CHAR`. -/
  written : List Putch
  /-- `LSER_REG_CHAR` was written while a character was on its way out. -/
  overrun : Bool
  /-- The characters that `con_input` was called with, each with its number. -/
  received : List (ℕ × ℤ)
  /-- The characters that `getch` has returned. -/
  returned : List (ℕ × ℤ)
  /-- `con_input` has come since `cs_gotchar` was read last. -/
  fresh : Bool
  /-- `cs_gotchar` was read and `con_input` had not come since the last time. -/
  stale : Bool

/-- What happens next. -/
inductive Event (W : Type)
  /-- A thread calls `putch`, with interrupts on. -/
  | putch (w : W) (ch : ℤ)
  /-- Code with interrupts off, or an interrupt handler, calls `putch`. -/
  | putchOff (ch : ℤ)
  /-- A thread calls `getch`. -/
  | getch (w : W)
  /-- A thread takes its next step. -/
  | run (w : W)
  /-- The polled write takes its next step. -/
  | poll
  /-- The device has sent the character. -/
  | sent
  /-- The device receives a character. -/
  | key (ch : ℤ)
  /-- An interrupt of the device. -/
  | irq
  deriving DecidableEq, Repr

/-- `V`, on the count of a semaphore. -/
def V (count : ℕ) : Option ℕ := if count + 1 < 2 ^ 31 then some (count + 1) else none

namespace Console

variable {W : Type}

/-- `bus_write_register(.., LSER_REG_CHAR, ch)`. -/
def writeChar (s : Console W) (x : Putch) : Console W :=
  { s with
    sending := true
    written := s.written ++ [x]
    overrun := s.overrun || s.sending }

/-- `lser_write`. -/
def lserWrite (s : Console W) (x : Putch) : Console W :=
  if s.wbusy then { s with panicked := true }
  else { s with wbusy := true }.writeChar x

/-- The next step of `lser_writepolled`, where it does not spin. -/
def lserWritepolled (s : Console W) : Poll → Option (Console W)
  | .test x => some { s with polled := some (if s.wbusy then .drain x else .send x false) }
  | .drain x => if s.wirq then some { s with polled := some (.clear x) } else none
  | .clear x => some { s with wirq := false, polled := some (.send x true) }
  | .send x irqpending => some { s.writeChar x with polled := some (.wait irqpending) }
  | .wait irqpending => if s.wirq then some { s with polled := some (.ack irqpending) } else none
  | .ack irqpending =>
    if irqpending then some { s with polled := none }
    else some { s with wirq := false, polled := none }

/-- `con_start`. -/
def conStart (s : Console W) : Option (Console W) := (V s.wsem).map fun n => { s with wsem := n }

/-- `con_input`. -/
def conInput (s : Console W) (ch : ℤ) : Option (Console W) :=
  (V s.rsem).map fun n =>
    { s with
      gotchar := ch
      rsem := n
      received := s.received ++ [(s.received.length, ch)]
      fresh := true }

/-- `lser_irq`. -/
def lserIrq (s : Console W) : Option (Console W) :=
  let clearToWrite := s.wirq
  let s := if clearToWrite then { s with wbusy := false, wirq := false } else s
  let gotARead := s.rirq
  let ch := s.rchar
  let s := if gotARead then { s with rirq := false } else s
  (if clearToWrite then s.conStart else some s).bind fun s =>
    if gotARead then s.conInput ch else some s

/-- The character in `cs_gotchar` is returned. -/
def readChar (s : Console W) : Console W :=
  { s with
    returned := s.returned ++ [(s.received.length - 1, s.gotchar)]
    stale := s.stale || !s.fresh
    fresh := false }

variable [DecidableEq W]

def goTo (s : Console W) (w : W) (pc : Pc) : Console W :=
  { s with pc := Function.update s.pc w pc }

/-- The next step of thread `w`. -/
def run (s : Console W) (w : W) : Option (Console W) :=
  match s.pc w with
  | .user => none
  | .putchWait x =>
    if 0 < s.wsem then some ({ s with wsem := s.wsem - 1 }.goTo w (.putchSend x)) else none
  | .putchSend x => some ((s.lserWrite x).goTo w .user)
  | .getchWait =>
    if 0 < s.rsem then some ({ s with rsem := s.rsem - 1 }.goTo w .getchRead) else none
  | .getchRead => some (s.readChar.goTo w .user)

/-- Interrupts are on. -/
def On (s : Console W) : Prop := s.polled = none

instance (s : Console W) : Decidable s.On := inferInstanceAs (Decidable (s.polled = none))

/-- `putch`, where `in_interrupt || curspl>0` is false. -/
def putch (s : Console W) (w : W) (ch : ℤ) : Console W :=
  { s with called := s.called ++ [ch] }.goTo w (.putchWait (s.called.length, ch))

/-- `putch`, where it is true. -/
def putchOff (s : Console W) (ch : ℤ) : Console W :=
  { s with called := s.called ++ [ch], polled := some (.test (s.called.length, ch)) }

/-- One event. -/
def step (s : Console W) : Event W → Option (Console W)
  | .putch w ch => if s.On ∧ s.pc w = .user then some (s.putch w ch) else none
  | .putchOff ch => if s.On then some (s.putchOff ch) else none
  | .getch w => if s.On ∧ s.pc w = .user then some (s.goTo w .getchWait) else none
  | .run w => if s.On then s.run w else none
  | .poll => s.polled.bind s.lserWritepolled
  | .sent => if s.sending then some { s with sending := false, wirq := true } else none
  | .key ch => some { s with rirq := true, rchar := ch }
  | .irq => if s.On then s.lserIrq else none

end Console

/-- `config_lser` and `config_con`. -/
def configCon (W : Type) : Console W where
  sending := false
  wirq := false
  rirq := false
  rchar := 0
  wbusy := false
  rsem := 0
  wsem := 1
  gotchar := 0
  pc := fun _ => .user
  polled := none
  panicked := false
  called := []
  written := []
  overrun := false
  received := []
  returned := []
  fresh := false
  stale := false

end Dev

end Os161
