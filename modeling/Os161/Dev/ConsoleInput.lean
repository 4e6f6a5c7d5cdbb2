import Os161.Dev.Console
import Mathlib.Data.List.Range
import Mathlib.Data.List.Nodup
/-!
# Characters that come in

`con_input` puts a character into one cell and posts `cs_rsem`, which counts.
Two characters that come in before `getch` has read the first leave one
character and two units: the second character is returned twice
(`getch_twice`). What `getch` returns is what came in, in order and each
character once, if and only if no `getch` finds the cell as the last one left
it (`returned_sublist_iff`).
-/

namespace Os161

namespace Dev

open Os161.Units Console List Option

/-- The console as input sees it. -/
structure Input where
  rsem : ℕ
  /-- The threads between `P(cs->cs_rsem)` and the read of `cs_gotchar`. -/
  reading : ℕ
  gotchar : ℤ
  received : List (ℕ × ℤ)
  returned : List (ℕ × ℤ)
  fresh : Bool
  stale : Bool

/-- At the read of `cs_gotchar`. -/
def Pc.reads : Pc → ℕ
  | .getchRead => 1
  | _ => 0

namespace Input

/-- A `P(cs->cs_rsem)` returns. -/
def take (i : Input) : Input := { i with rsem := i.rsem - 1, reading := i.reading + 1 }

/-- `con_input`. -/
def put (i : Input) (ch : ℤ) : Input :=
  { i with
    gotchar := ch
    rsem := i.rsem + 1
    received := i.received ++ [(i.received.length, ch)]
    fresh := true }

/-- A `getch` returns. -/
def read (i : Input) : Input :=
  { i with
    reading := i.reading - 1
    returned := i.returned ++ [(i.received.length - 1, i.gotchar)]
    stale := i.stale || !i.fresh
    fresh := false }

/-! ## The invariant -/

/-- **The invariant of the input.** The units of `cs_rsem` are characters that
came in and were not returned; the cell holds the last one. As long as no read
was stale, what was returned are characters that came in before the one that is
still to be read. -/
structure Inv (i : Input) : Prop where
  units : i.rsem + i.reading + i.returned.length = i.received.length
  numbers : i.received.map Prod.fst = range i.received.length
  cell : ∀ x, i.received.getLast? = some x → x = (i.received.length - 1, i.gotchar)
  read : i.fresh = false → i.received ≠ [] → (i.received.length - 1, i.gotchar) ∈ i.returned
  order : i.stale = false → i.returned.Sublist (if i.fresh then i.received.dropLast else i.received)
  twice : i.stale = true → ¬ i.returned.Nodup

variable {i : Input}

namespace Inv

section

variable (h : Inv i)

include h

theorem nodup : i.received.Nodup := by
  refine List.Nodup.of_map Prod.fst ?_
  rw [h.numbers]
  exact nodup_range

theorem take (hpos : 0 < i.rsem) : Inv i.take := by
  refine ⟨?_, h.numbers, h.cell, h.read, h.order, h.twice⟩
  have hunits := h.units
  show i.rsem - 1 + (i.reading + 1) + i.returned.length = i.received.length
  omega

theorem sublist (hs : i.stale = false) : i.returned.Sublist i.received := by
  have horder := h.order hs
  split at horder
  · exact horder.trans (dropLast_sublist _)
  · exact horder

theorem put (ch : ℤ) : Inv (i.put ch) := by
  have hlen : (i.received ++ [(i.received.length, ch)]).length = i.received.length + 1 := by simp
  refine ⟨?_, ?_, fun x hx => ?_, fun hf => ?_, fun hs => ?_, h.twice⟩
  · have hunits := h.units
    show i.rsem + 1 + i.reading + i.returned.length = (i.received ++ _).length
    omega
  · show (i.received ++ _).map Prod.fst = range (i.received ++ _).length
    rw [hlen, range_succ, map_append, h.numbers]
    rfl
  · have hlast : some (i.received.length, ch) = some x := by
      rw [← hx]
      exact getLast?_concat.symm
    show x = ((i.received ++ _).length - 1, ch)
    rw [hlen, ← some.inj hlast]
    rfl
  · cases hf
  · show i.returned.Sublist (i.received ++ _).dropLast
    rw [dropLast_concat]
    exact h.sublist hs

/-- The character in the cell is the last that came in. -/
theorem received_eq (hne : i.received ≠ []) :
    i.received = i.received.dropLast ++ [(i.received.length - 1, i.gotchar)] := by
  have hlast := h.cell _ (getLast?_eq_getLast_of_ne_nil hne)
  rw [← hlast]
  exact (dropLast_append_getLast hne).symm

theorem readChar (hpos : 0 < i.reading) : Inv i.read := by
  have hunits := h.units
  have hne : i.received ≠ [] := fun hnil => by
    rw [hnil] at hunits
    simp at hunits
    omega
  obtain ⟨x, hx⟩ : ∃ x, (i.received.length - 1, i.gotchar) = x := ⟨_, rfl⟩
  have hreceived := h.received_eq hne
  have hread := h.read
  rw [hx] at hreceived hread
  refine ⟨?_, h.numbers, h.cell, fun _ _ => ?_, fun hs => ?_, fun hs => ?_⟩
  · show i.rsem + (i.reading - 1) + (i.returned ++ [_]).length = i.received.length
    rw [length_append, length_singleton]
    omega
  · exact mem_append_right _ (mem_singleton_self _)
  · -- the read was not stale, so the character in the cell was still to be read
    obtain ⟨hs', hf⟩ : i.stale = false ∧ i.fresh = true := by simpa [Input.read] using hs
    have horder := h.order hs'
    rw [hf, if_pos rfl] at horder
    show (i.returned ++ [_]).Sublist i.received
    rw [hx, hreceived]
    exact horder.append_right _
  · show ¬ (i.returned ++ [_]).Nodup
    rw [hx, nodup_append]
    rintro ⟨hnodup, -, hdisj⟩
    cases hf : i.fresh with
    | true =>
      have hs' : i.stale = true := by simpa [Input.read, hf] using hs
      exact h.twice hs' hnodup
    | false => exact hdisj x (hread hf hne) x (mem_singleton_self x) rfl

/-- **In order and each once, or a stale read.** -/
theorem sublist_iff : i.returned.Sublist i.received ↔ i.stale = false := by
  constructor
  · intro hsub
    by_contra hs
    exact h.twice (Bool.not_eq_false _ ▸ hs) (hsub.nodup h.nodup)
  · exact h.sublist

end

end Inv

end Input

section Steps

variable {W : Type} [Fintype W] {s s' : Console W} {e : Event W} {w : W}

def Console.input (s : Console W) : Input where
  rsem := s.rsem
  reading := held Pc.reads s.pc
  gotchar := s.gotchar
  received := s.received
  returned := s.returned
  fresh := s.fresh
  stale := s.stale

variable [DecidableEq W]

/-- A thread goes from one place to another. -/
theorem input_goTo (s : Console W) {w : W} {pc : Pc} (hpc : s.pc w = pc) (pc' : Pc) :
    (s.goTo w pc').input =
      { s.input with reading := s.input.reading + pc'.reads - pc.reads } := by
  have hheld := held_update Pc.reads s.pc w pc'
  rw [hpc] at hheld
  have hreading : held Pc.reads (s.goTo w pc').pc =
      held Pc.reads s.pc + pc'.reads - pc.reads := by
    show held Pc.reads (Function.update s.pc w pc') = _
    omega
  unfold input
  rw [hreading]
  rfl

/-- **What a step of a thread does to the input.** -/
theorem run_input (h : s.run w = some s') :
    s'.input = s.input ∨ (0 < s.input.rsem ∧ s'.input = s.input.take) ∨
      (0 < s.input.reading ∧ s'.input = s.input.read) := by
  unfold run at h
  split at h
  · cases h
  · next x hpc =>
    obtain ⟨-, h⟩ := ite_none_right_eq_some.1 h
    obtain rfl := some.inj h
    exact .inl (input_goTo { s with wsem := s.wsem - 1 } hpc _)
  · next x hpc =>
    obtain rfl := some.inj h
    left
    have hpc' : (s.lserWrite x).pc w = .putchSend x ∧ (s.lserWrite x).input = s.input := by
      unfold lserWrite
      split <;> exact ⟨hpc, rfl⟩
    rw [input_goTo _ hpc'.1, hpc'.2]
    rfl
  · next hpc =>
    obtain ⟨hpos, h⟩ := ite_none_right_eq_some.1 h
    obtain rfl := some.inj h
    exact .inr (.inl ⟨hpos, input_goTo { s with rsem := s.rsem - 1 } hpc _⟩)
  · next hpc =>
    obtain rfl := some.inj h
    have hle := units_le_held Pc.reads s.pc w
    rw [hpc] at hle
    exact .inr (.inr ⟨hle, input_goTo s.readChar hpc _⟩)

omit [DecidableEq W] in
/-- A polled write is output. -/
theorem lserWritepolled_input {p : Poll} (h : s.lserWritepolled p = some s') :
    s'.input = s.input := by
  cases p with
  | test x | clear x | send x irqpending => cases h; rfl
  | drain x | wait irqpending =>
    obtain ⟨-, h⟩ := ite_none_right_eq_some.1 h
    cases h
    rfl
  | ack irqpending => cases irqpending <;> cases h <;> rfl

/-- **What a step does to the input.** -/
theorem step_input (h : s.step e = some s') :
    s'.input = s.input ∨ (0 < s.input.rsem ∧ s'.input = s.input.take) ∨
      (∃ ch, s'.input = s.input.put ch) ∨ (0 < s.input.reading ∧ s'.input = s.input.read) := by
  cases e with
  | putch w ch =>
    obtain ⟨hc, h⟩ := ite_none_right_eq_some.1 h
    obtain rfl := some.inj h
    exact .inl (input_goTo { s with called := s.called ++ [ch] } hc.2 _)
  | putchOff ch | sent =>
    obtain ⟨-, h⟩ := ite_none_right_eq_some.1 h
    obtain rfl := some.inj h
    exact .inl rfl
  | getch w =>
    obtain ⟨hc, h⟩ := ite_none_right_eq_some.1 h
    obtain rfl := some.inj h
    exact .inl (input_goTo s hc.2 _)
  | run w =>
    obtain ⟨-, h⟩ := ite_none_right_eq_some.1 h
    rcases run_input h with h | h | h
    · exact .inl h
    · exact .inr (.inl h)
    · exact .inr (.inr (.inr h))
  | poll =>
    obtain ⟨p, -, hp⟩ := bind_eq_some_iff.1 h
    exact .inl (lserWritepolled_input hp)
  | key ch =>
    obtain rfl := some.inj h
    exact .inl rfl
  | irq =>
    obtain ⟨-, h⟩ := ite_none_right_eq_some.1 h
    obtain ⟨s₁, h₁, h₂⟩ := lserIrq_cases h
    have hs₁ : s₁.input = s.input := by
      rcases h₁ with ⟨-, rfl⟩ | ⟨-, rfl⟩ <;> rfl
    rcases h₂ with ⟨-, rfl⟩ | ⟨-, rfl⟩
    · exact .inl hs₁
    · exact .inr (.inr (.inl ⟨s₁.rchar, by rw [← hs₁]; rfl⟩))

/-! ## The runs -/

omit [DecidableEq W] in
theorem inv_configCon : (configCon W).input.Inv where
  units := by
    show 0 + held Pc.reads (fun _ : W => Pc.user) + 0 = 0
    have hzero : held Pc.reads (fun _ : W => Pc.user) = 0 := held_eq_zero.2 fun _ => rfl
    rw [hzero]
  numbers := rfl
  cell := fun _ hx => by cases hx
  read := fun _ hne => absurd rfl hne
  order := fun _ => .slnil
  twice := fun hs => by cases hs

theorem Reachable.input (h : Reachable s) : s.input.Inv := by
  refine Runs.Reachable.invariant (I := fun s => s.input.Inv) h inv_configCon ?_
  intro s e s' hi _ hs
  rcases step_input hs with heq | ⟨hpos, heq⟩ | ⟨ch, heq⟩ | ⟨hpos, heq⟩
  · rw [heq]
    exact hi
  · rw [heq]
    exact hi.take hpos
  · rw [heq]
    exact hi.put ch
  · rw [heq]
    exact hi.readChar hpos

/-- **When console input is not duplicated or reordered**, in every run: each
character that `con_input` was called with is returned by `getch` at most once
and in order, if and only if every `getch` read `cs_gotchar` after another
`con_input` than the last one did. Then the characters returned are a
subsequence of those received. -/
theorem returned_sublist_iff (s : Console W) (h : Reachable s) :
    (s.returned.Sublist s.received ↔ s.stale = false) ∧
      (s.stale = false → (s.returned.map Prod.snd).Sublist (s.received.map Prod.snd)) := by
  have hiff : s.returned.Sublist s.received ↔ s.stale = false := h.input.sublist_iff
  exact ⟨hiff, fun hs => (hiff.2 hs).map _⟩

end Steps

/-- A character comes in and is read, another comes in and is not read yet. -/
def oneOfTwo : List (Event Unit) :=
  [.getch (), .key 97, .irq, .run (), .run (), .key 98, .irq]

theorem returned_sublist_iff_one_of_two :
    ∃ s : Console Unit, Reachable s ∧ s.received.map Prod.snd = [97, 98] ∧
      s.returned.map Prod.snd = [97] ∧ s.returned.Sublist s.received := by
  obtain ⟨s, hs, hreceived, hreturned, hstale⟩ := Runs.exists_of_exec step
    (configCon Unit) oneOfTwo
    (fun s => s.received.map Prod.snd = [97, 98] ∧ s.returned.map Prod.snd = [97] ∧
      s.stale = false) (by decide +kernel)
  have hr : Reachable s := Runs.reachable_of_exec hs
  exact ⟨s, hr, hreceived, hreturned, (returned_sublist_iff s hr).1.2 hstale⟩

/-- Two characters come in before `getch` is called twice. -/
def twoThenGetch : List (Event Unit) :=
  [.key 97, .irq, .key 98, .irq, .getch (), .run (), .run (), .getch (), .run (), .run ()]

/-- The second is returned twice. -/
theorem getch_twice :
    ∃ s : Console Unit, Reachable s ∧ s.received.map Prod.snd = [97, 98] ∧
      s.returned.map Prod.snd = [98, 98] ∧ ¬ (s.returned.map Prod.snd).Sublist
        (s.received.map Prod.snd) := by
  obtain ⟨s, hs, hobs⟩ := Runs.exists_of_exec step (configCon Unit) twoThenGetch
    (fun s => s.received.map Prod.snd = [97, 98] ∧ s.returned.map Prod.snd = [98, 98])
    (by decide +kernel)
  refine ⟨s, Runs.reachable_of_exec hs, hobs.1, hobs.2, ?_⟩
  rw [hobs.1, hobs.2]
  decide

end Dev

end Os161
