import Os161.Dev.Console
/-!
# Characters that go out

One unit goes round: it is in `cs_wsem` while the device is clear to write, with
a thread between its `P` and `lser_write`, and in `ls_wbusy` until the interrupt
comes. A polled write that finds the device busy waits for the character that
is on its way, sends its own, and leaves the interrupt that was owed to the
first one to be raised by the second; so the unit stays where it is
(`console_output`).
-/

namespace Os161

namespace Dev

open Os161.Units Console Option

/-! ## Where the unit is, and where a call is -/

/-- Between `P(cs->cs_wsem)` and `lser_write`. -/
def Pc.between : Pc → ℕ
  | .putchSend _ => 1
  | _ => 0

/-- The call that has not written its character yet. -/
def Pc.putch? : Pc → Option Putch
  | .putchWait x | .putchSend x => some x
  | _ => none

def Poll.putch? : Poll → Option Putch
  | .test x | .drain x | .clear x | .send x _ => some x
  | _ => none

/-- 1 for the call `x`, 0 for any other. -/
def mark (x : Putch) (o : Option Putch) : ℕ := if o = some x then 1 else 0

/-- **What the driver knows of the device**, at each place of a polled write.
Outside of one, a character is on its way or has just gone if and only if
`ls_wbusy` says so. -/
def Agrees (wbusy sending wirq : Bool) : Option Poll → Prop
  | none | some (.test _) => (sending || wirq) = wbusy ∧ (sending && wirq) = false
  | some (.drain _) => wbusy = true ∧ sending = !wirq
  | some (.clear _) => wbusy = true ∧ sending = false ∧ wirq = true
  | some (.send _ irqpending) => irqpending = wbusy ∧ sending = false ∧ wirq = false
  | some (.wait irqpending) => irqpending = wbusy ∧ sending = !wirq
  | some (.ack irqpending) => irqpending = wbusy ∧ sending = false ∧ wirq = true

variable {W : Type} [Fintype W] {s s' : Console W} {e : Event W} {w : W} {x : Putch}

namespace Console

/-- The number of writers between `P` and `lser_write`. -/
def between (s : Console W) : ℕ := held Pc.between s.pc

/-- The threads that have the call `x` before them. -/
def waiting (s : Console W) (x : Putch) : ℕ := held (fun pc => mark x pc.putch?) s.pc

theorem between_goTo [DecidableEq W] (s : Console W) {pc : Pc} (hpc : s.pc w = pc) (pc' : Pc) :
    (s.goTo w pc').between + pc.between = s.between + pc'.between := by
  rw [← hpc]
  exact held_update Pc.between s.pc w pc'

theorem waiting_goTo [DecidableEq W] (s : Console W) {pc : Pc} (hpc : s.pc w = pc) (pc' : Pc)
    (x : Putch) :
    (s.goTo w pc').waiting x + mark x pc.putch? = s.waiting x + mark x pc'.putch? := by
  rw [← hpc]
  exact held_update (fun pc => mark x pc.putch?) s.pc w pc'

/-- The call `x` has not written its character yet. -/
def Pending (s : Console W) (x : Putch) : Prop :=
  (∃ w, (s.pc w).putch? = some x) ∨ s.polled.bind Poll.putch? = some x

/-- The events that take output further: a step of a writer, a character that
has gone, and the interrupt that is due for it. -/
def PassesOn (s : Console W) (e : Event W) : Prop :=
  e = .poll ∨ e = .sent ∨ (e = .irq ∧ s.wirq = true) ∨ ∃ w, e = .run w ∧ (s.pc w).putch? ≠ none

end Console

/-- **The invariant of the output.** -/
structure OutInv (s : Console W) : Prop where
  unit : s.wsem + s.wbusy.toNat + s.between = 1
  quiet : s.panicked = false ∧ s.overrun = false
  agrees : Agrees s.wbusy s.sending s.wirq s.polled
  once : ∀ x, s.written.count x + s.waiting x + mark x (s.polled.bind Poll.putch?) =
    mark x (s.called[x.1]?.map fun ch => (x.1, ch))

/-- A character is written. -/
theorem count_concat (l : List Putch) (x y : Putch) :
    (l ++ [x]).count y = l.count y + mark y (some x) := by
  rw [List.count_append, List.count_singleton]
  unfold mark
  simp

/-- `putch` is called once more. -/
theorem mark_called (l : List ℤ) (ch : ℤ) (x : Putch) :
    mark x ((l ++ [ch])[x.1]?.map fun ch => (x.1, ch)) =
      mark x (l[x.1]?.map fun ch => (x.1, ch)) + mark x (some (l.length, ch)) := by
  obtain ⟨n, c⟩ := x
  unfold mark
  rcases lt_trichotomy n l.length with hlt | heq | hgt
  · simp [List.getElem?_append_left hlt, show l.length ≠ n by omega]
  · subst heq
    simp
  · rw [List.getElem?_eq_none (by simp; omega), List.getElem?_eq_none (by omega)]
    simp [show l.length ≠ n by omega]

namespace OutInv

/-- Steps that output has no part in. -/
theorem frame (h : OutInv s) (hdev : s'.sending = s.sending ∧ s'.wirq = s.wirq)
    (hcon : s'.wbusy = s.wbusy ∧ s'.wsem = s.wsem ∧ s'.polled = s.polled)
    (hquiet : s'.panicked = s.panicked ∧ s'.overrun = s.overrun)
    (hhist : s'.called = s.called ∧ s'.written = s.written)
    (hpc : s'.between = s.between ∧ ∀ x, s'.waiting x = s.waiting x) : OutInv s' := by
  obtain ⟨hunit, hq, hagrees, honce⟩ := h
  refine ⟨?_, ?_, ?_, fun x => ?_⟩
  · rw [hcon.2.1, hcon.1, hpc.1]
    exact hunit
  · rw [hquiet.1, hquiet.2]
    exact hq
  · rw [hdev.1, hdev.2, hcon.1, hcon.2.2]
    exact hagrees
  · rw [hhist.1, hhist.2, hpc.2, hcon.2.2]
    exact honce x

theorem lserWritepolled {p : Poll} (h : OutInv s) (hp : s.polled = some p)
    (hs : s.lserWritepolled p = some s') : OutInv s' := by
  obtain ⟨hunit, hquiet, hagrees, honce⟩ := h
  rw [hp] at hagrees honce
  cases p with
  | test x =>
    obtain rfl := some.inj hs
    refine ⟨hunit, hquiet, ?_, fun y => ?_⟩
    · revert hagrees
      unfold Agrees
      cases s.wbusy <;> cases s.sending <;> cases s.wirq <;> simp
    · refine Eq.trans ?_ (honce y)
      cases s.wbusy <;> simp [waiting, Poll.putch?]
  | drain x =>
    obtain ⟨hw, hs⟩ := ite_none_right_eq_some.1 hs
    obtain rfl := some.inj hs
    obtain ⟨hb, hsend⟩ := hagrees
    exact ⟨hunit, hquiet, ⟨hb, by rw [hsend, hw]; rfl, hw⟩, honce⟩
  | clear x =>
    obtain rfl := some.inj hs
    obtain ⟨hb, hsend, -⟩ := hagrees
    exact ⟨hunit, hquiet, ⟨hb.symm, hsend, rfl⟩, honce⟩
  | send x irqpending =>
    obtain rfl := some.inj hs
    obtain ⟨hb, hsend, hw⟩ := hagrees
    refine ⟨hunit, ⟨hquiet.1, ?_⟩, ⟨hb, ?_⟩, fun y => ?_⟩
    · show (s.overrun || s.sending) = false
      rw [hquiet.2, hsend]
      rfl
    · show true = !s.wirq
      rw [hw]
      rfl
    · refine Eq.trans ?_ (honce y)
      show (s.written ++ [x]).count y + s.waiting y + 0 = _ + _ + mark y (some x)
      rw [count_concat]
      omega
  | wait irqpending =>
    obtain ⟨hw, hs⟩ := ite_none_right_eq_some.1 hs
    obtain rfl := some.inj hs
    obtain ⟨hb, hsend⟩ := hagrees
    exact ⟨hunit, hquiet, ⟨hb, by rw [hsend, hw]; rfl, hw⟩, honce⟩
  | ack irqpending =>
    obtain ⟨hb, hsend, hw⟩ := hagrees
    cases irqpending with
    | true =>
      obtain rfl := some.inj hs
      refine ⟨hunit, hquiet, ?_, honce⟩
      rw [hsend, hw, ← hb]
      exact ⟨rfl, rfl⟩
    | false =>
      obtain rfl := some.inj hs
      refine ⟨hunit, hquiet, ?_, honce⟩
      rw [hsend, ← hb]
      exact ⟨rfl, rfl⟩

theorem clearToWrite (h : OutInv s) (hon : s.polled = none) (hw : s.wirq = true) :
    OutInv s.clearToWrite := by
  obtain ⟨hunit, hquiet, hagrees, honce⟩ := h
  rw [hon] at hagrees
  obtain ⟨hor, hand⟩ := hagrees
  have hsend : s.sending = false := by simpa [hw] using hand
  have hbusy : s.wbusy = true := by rw [← hor, hw, Bool.or_true]
  refine ⟨?_, hquiet, ?_, honce⟩
  · rw [hbusy, Bool.toNat_true] at hunit
    show s.wsem + 1 + 0 + s.between = 1
    omega
  · show Agrees false s.sending false s.polled
    rw [hon, hsend]
    exact ⟨rfl, rfl⟩

variable [DecidableEq W]

omit [DecidableEq W] in
theorem configCon : OutInv (configCon W) := by
  have hzero : ∀ f : Pc → ℕ, f .user = 0 → held f (Dev.configCon W).pc = 0 :=
    fun f hf => held_eq_zero.2 fun _ => hf
  refine ⟨?_, ⟨rfl, rfl⟩, ⟨rfl, rfl⟩, fun x => ?_⟩
  · show 1 + 0 + held Pc.between (Dev.configCon W).pc = 1
    rw [hzero Pc.between rfl]
  · show 0 + held (fun pc => mark x pc.putch?) (Dev.configCon W).pc + 0 = 0
    rw [hzero (fun pc => mark x pc.putch?) rfl]

/-- A thread goes to a place where it has the same call before it. -/
theorem goTo_frame (h : OutInv s) {pc pc' : Pc} (hpc : s.pc w = pc)
    (hbetween : pc'.between = pc.between) (hputch : pc'.putch? = pc.putch?) :
    OutInv (s.goTo w pc') := by
  refine h.frame ⟨rfl, rfl⟩ ⟨rfl, rfl, rfl⟩ ⟨rfl, rfl⟩ ⟨rfl, rfl⟩ ⟨?_, fun x => ?_⟩
  · have hsum := s.between_goTo hpc pc'
    omega
  · have hsum := s.waiting_goTo hpc pc' x
    rw [hputch] at hsum
    exact Nat.add_right_cancel hsum

theorem putch (h : OutInv s) (hpc : s.pc w = .user) (ch : ℤ) : OutInv (s.putch w ch) := by
  obtain ⟨hunit, hquiet, hagrees, honce⟩ := h
  let t := { s with called := s.called ++ [ch] }
  refine ⟨?_, hquiet, hagrees, fun x => ?_⟩
  · have hsum := t.between_goTo hpc (.putchWait (s.called.length, ch))
    exact (congrArg (s.wsem + s.wbusy.toNat + ·) hsum).trans hunit
  · have hsum := t.waiting_goTo hpc (.putchWait (s.called.length, ch)) x
    have hsum' : (s.putch w ch).waiting x =
        s.waiting x + mark x (some (s.called.length, ch)) := hsum
    show s.written.count x + (s.putch w ch).waiting x + mark x (s.polled.bind Poll.putch?) =
      mark x ((s.called ++ [ch])[x.1]?.map fun ch => (x.1, ch))
    rw [mark_called, ← honce x, hsum']
    omega

omit [DecidableEq W] in
theorem putchOff (h : OutInv s) (hon : s.polled = none) (ch : ℤ) : OutInv (s.putchOff ch) := by
  obtain ⟨hunit, hquiet, hagrees, honce⟩ := h
  rw [hon] at hagrees
  refine ⟨hunit, hquiet, hagrees, fun x => ?_⟩
  have hbefore := honce x
  rw [hon] at hbefore
  show s.written.count x + s.waiting x + mark x (some (s.called.length, ch)) =
    mark x ((s.called ++ [ch])[x.1]?.map fun ch => (x.1, ch))
  rw [mark_called, ← hbefore]
  rfl

/-- The unit goes from `cs_wsem` to the thread. -/
theorem wait (h : OutInv s) (hpc : s.pc w = .putchWait x) (hpos : 0 < s.wsem) :
    OutInv ({ s with wsem := s.wsem - 1 }.goTo w (.putchSend x)) := by
  obtain ⟨hunit, hquiet, hagrees, honce⟩ := h
  let t := { s with wsem := s.wsem - 1 }
  refine ⟨?_, hquiet, hagrees, fun y => ?_⟩
  · have hsum : (t.goTo w (.putchSend x)).between = s.between + 1 := t.between_goTo hpc _
    show s.wsem - 1 + s.wbusy.toNat + (t.goTo w (.putchSend x)).between = 1
    omega
  · have hsum : (t.goTo w (.putchSend x)).waiting y = s.waiting y :=
      Nat.add_right_cancel (t.waiting_goTo hpc (.putchSend x) y)
    refine Eq.trans ?_ (honce y)
    rw [hsum]
    rfl

/-- The unit goes from the thread to `ls_wbusy`, and the character to the
device. -/
theorem send (h : OutInv s) (hon : s.polled = none) (hpc : s.pc w = .putchSend x) :
    OutInv ((s.lserWrite x).goTo w .user) := by
  obtain ⟨hunit, hquiet, hagrees, honce⟩ := h
  have hone : 1 ≤ s.between := by
    have hle := units_le_held Pc.between s.pc w
    rwa [hpc] at hle
  -- the unit is with the thread, so the device is idle
  have hbusy : s.wbusy = false := by
    cases hb : s.wbusy with
    | false => rfl
    | true =>
      rw [hb, Bool.toNat_true] at hunit
      omega
  rw [hon, hbusy] at hagrees
  obtain ⟨hor, -⟩ := hagrees
  obtain ⟨hsend, hw⟩ := Bool.or_eq_false_iff.1 hor
  let t := { s with wbusy := true }.writeChar x
  have hwrite : s.lserWrite x = t := by
    unfold lserWrite
    rw [hbusy]
    rfl
  rw [hwrite]
  refine ⟨?_, ⟨hquiet.1, ?_⟩, ?_, fun y => ?_⟩
  · have hsum : (t.goTo w .user).between + 1 = s.between := t.between_goTo hpc .user
    show s.wsem + 1 + (t.goTo w .user).between = 1
    omega
  · show (s.overrun || s.sending) = false
    rw [hquiet.2, hsend]
    rfl
  · show Agrees true true s.wirq s.polled
    rw [hon, hw]
    exact ⟨rfl, rfl⟩
  · have hsum : (t.goTo w .user).waiting y + mark y (some x) = s.waiting y :=
      t.waiting_goTo hpc .user y
    refine Eq.trans ?_ (honce y)
    show (s.written ++ [x]).count y + (t.goTo w .user).waiting y +
      mark y (s.polled.bind Poll.putch?) = _
    rw [count_concat, ← hsum]
    omega

theorem run (h : OutInv s) (hon : s.polled = none) (hs : s.run w = some s') : OutInv s' := by
  unfold Console.run at hs
  split at hs
  · cases hs
  · next x hpc =>
    obtain ⟨hpos, hs⟩ := ite_none_right_eq_some.1 hs
    obtain rfl := some.inj hs
    exact h.wait hpc hpos
  · next x hpc =>
    obtain rfl := some.inj hs
    exact h.send hon hpc
  · next hpc =>
    obtain ⟨-, hs⟩ := ite_none_right_eq_some.1 hs
    obtain rfl := some.inj hs
    have h' : OutInv { s with rsem := s.rsem - 1 } := ⟨h.unit, h.quiet, h.agrees, h.once⟩
    exact h'.goTo_frame hpc rfl rfl
  · next hpc =>
    obtain rfl := some.inj hs
    have h' : OutInv s.readChar := ⟨h.unit, h.quiet, h.agrees, h.once⟩
    exact h'.goTo_frame hpc rfl rfl

omit [DecidableEq W] in
/-- The device has sent the character. -/
theorem sent (h : OutInv s) (hsend : s.sending = true) :
    OutInv { s with sending := false, wirq := true } := by
  obtain ⟨hunit, hquiet, hagrees, honce⟩ := h
  refine ⟨hunit, hquiet, ?_, honce⟩
  show Agrees s.wbusy false true s.polled
  rw [hsend] at hagrees
  revert hagrees
  unfold Agrees
  split <;> cases s.wbusy <;> cases s.wirq <;> simp

/-- **A step keeps the invariant.** -/
theorem step (h : OutInv s) (hs : s.step e = some s') : OutInv s' := by
  cases e with
  | putch w ch =>
    obtain ⟨hc, hs⟩ := ite_none_right_eq_some.1 hs
    obtain rfl := some.inj hs
    exact h.putch hc.2 ch
  | putchOff ch =>
    obtain ⟨hon, hs⟩ := ite_none_right_eq_some.1 hs
    obtain rfl := some.inj hs
    exact h.putchOff hon ch
  | getch w =>
    obtain ⟨hc, hs⟩ := ite_none_right_eq_some.1 hs
    obtain rfl := some.inj hs
    exact h.goTo_frame hc.2 rfl rfl
  | run w =>
    obtain ⟨hon, hs⟩ := ite_none_right_eq_some.1 hs
    exact h.run hon hs
  | poll =>
    obtain ⟨p, hp, hs'⟩ := bind_eq_some_iff.1 hs
    exact h.lserWritepolled hp hs'
  | sent =>
    obtain ⟨hsend, hs⟩ := ite_none_right_eq_some.1 hs
    obtain rfl := some.inj hs
    exact h.sent hsend
  | key ch =>
    obtain rfl := some.inj hs
    exact ⟨h.unit, h.quiet, h.agrees, h.once⟩
  | irq =>
    obtain ⟨hon, hs⟩ := ite_none_right_eq_some.1 hs
    obtain ⟨s₁, h₁, h₂⟩ := lserIrq_cases hs
    have hs₁ : OutInv s₁ := by
      rcases h₁ with ⟨-, rfl⟩ | ⟨hw, rfl⟩
      · exact h
      · exact h.clearToWrite hon hw
    rcases h₂ with ⟨-, rfl⟩ | ⟨-, rfl⟩
    · exact hs₁
    · exact ⟨hs₁.unit, hs₁.quiet, hs₁.agrees, hs₁.once⟩

end OutInv

/-! ## The runs -/

theorem mark_eq_one {o : Option Putch} : mark x o = 1 ↔ o = some x := by
  unfold mark
  split <;> simp [*]

theorem mark_le_one (x : Putch) (o : Option Putch) : mark x o ≤ 1 := by
  unfold mark
  split <;> omega

namespace OutInv

/-- A call that is still to write has written nothing, and any other has
written its character once. -/
theorem count_of_called (h : OutInv s) {n : ℕ} {ch : ℤ} (hcall : s.called[n]? = some ch) :
    (s.Pending (n, ch) → s.written.count (n, ch) = 0) ∧
      (¬ s.Pending (n, ch) → s.written.count (n, ch) = 1) := by
  have honce := h.once (n, ch)
  have hmark : mark (n, ch) (s.called[(n, ch).1]?.map fun c => ((n, ch).1, c)) = 1 := by
    rw [mark_eq_one, hcall]
    rfl
  constructor
  · rintro (⟨w, hw⟩ | hp)
    · have hle := units_le_held (fun pc => mark (n, ch) pc.putch?) s.pc w
      have hone : mark (n, ch) (s.pc w).putch? = 1 := mark_eq_one.2 hw
      have hle' : 1 ≤ s.waiting (n, ch) := hone ▸ hle
      omega
    · rw [mark_eq_one.2 hp] at honce
      omega
  · intro hnot
    have hwaiting : s.waiting (n, ch) = 0 := by
      refine held_eq_zero.2 fun w => ?_
      have hne : mark (n, ch) (s.pc w).putch? ≠ 1 := fun h1 => hnot (.inl ⟨w, mark_eq_one.1 h1⟩)
      have hle := mark_le_one (n, ch) (s.pc w).putch?
      omega
    have hpolled : mark (n, ch) (s.polled.bind Poll.putch?) ≠ 1 :=
      fun h1 => hnot (.inr (mark_eq_one.1 h1))
    have hle := mark_le_one (n, ch) (s.polled.bind Poll.putch?)
    omega

theorem called_of_mem_written (h : OutInv s) (hx : x ∈ s.written) :
    s.called[x.1]? = some x.2 := by
  have honce := h.once x
  have hpos : 0 < s.written.count x := List.count_pos_iff.2 hx
  have hle := mark_le_one x (s.called[x.1]?.map fun ch => (x.1, ch))
  have hmark : mark x (s.called[x.1]?.map fun ch => (x.1, ch)) = 1 := by omega
  obtain ⟨ch, hch, heq⟩ := map_eq_some_iff.1 (mark_eq_one.1 hmark)
  rw [hch, ← heq]

/-- An interrupt that is due comes in, if `cs_rsem` does not overflow. -/
theorem exists_lserIrq (h : OutInv s) (hr : s.rsem + 1 < 2 ^ 31) : ∃ s', s.lserIrq = some s' := by
  have hunit := h.unit
  have hV : ∀ n, n + 1 < 2 ^ 31 → V n = some (n + 1) := fun n hn => V_eq_some.2 ⟨hn, rfl⟩
  obtain ⟨sending, wirq, rirq, rchar, wbusy, rsem, wsem⟩ := s
  have hw : wsem + 1 < 2 ^ 31 := by
    have : wsem ≤ 1 := by
      have hle : wsem + wbusy.toNat + _ = 1 := hunit
      omega
    omega
  unfold lserIrq
  cases wirq <;> cases rirq <;> simp [conStart, conInput, hV _ hw, hV _ hr]

variable [DecidableEq W]

omit [Fintype W] in
theorem run_putchWait (hpc : s.pc w = .putchWait x) (hpos : 0 < s.wsem) :
    s.run w = some ({ s with wsem := s.wsem - 1 }.goTo w (.putchSend x)) := by
  unfold Console.run
  rw [hpc]
  exact if_pos hpos

omit [Fintype W] in
theorem run_putchSend (hpc : s.pc w = .putchSend x) :
    s.run w = some ((s.lserWrite x).goTo w .user) := by
  unfold Console.run
  rw [hpc]

/-- With interrupts on the unit is in the semaphore, with a thread, or with the
device, and from there it goes on. -/
theorem exists_step_on (h : OutInv s) (hr : s.rsem + 1 < 2 ^ 31) (hon : s.polled = none)
    (hw : (s.pc w).putch? = some x) :
    ∃ e s', s.PassesOn e ∧ s.step e = some s' := by
  have hrun : ∀ w s', s.run w = some s' → s.step (.run w) = some s' :=
    fun w s' hs => (if_pos hon).trans hs
  have hunit := h.unit
  by_cases hbetween : 0 < s.between
  · obtain ⟨v, hv⟩ := exists_of_held_pos hbetween
    obtain ⟨y, hy⟩ : ∃ y, s.pc v = .putchSend y := by
      cases hpc : s.pc v with
      | putchSend y => exact ⟨y, rfl⟩
      | _ => rw [hpc] at hv; cases hv
    exact ⟨.run v, _, .inr (.inr (.inr ⟨v, rfl, by rw [hy]; nofun⟩)), hrun v _ (run_putchSend hy)⟩
  by_cases hwsem : 0 < s.wsem
  · obtain ⟨y, hy⟩ : ∃ y, s.pc w = .putchWait y := by
      cases hpc : s.pc w with
      | putchWait y => exact ⟨y, rfl⟩
      | putchSend y =>
        have hle := units_le_held Pc.between s.pc w
        rw [hpc] at hle
        exact absurd hle hbetween
      | _ => rw [hpc] at hw; cases hw
    exact ⟨.run w, _, .inr (.inr (.inr ⟨w, rfl, by rw [hw]; nofun⟩)),
      hrun w _ (run_putchWait hy hwsem)⟩
  -- the device is busy, and the character has gone unless it is on its way
  have hagrees := h.agrees
  rw [hon] at hagrees
  cases hs : s.sending with
  | true => exact ⟨.sent, _, .inr (.inl rfl), if_pos hs⟩
  | false =>
    have hwirq : s.wirq = true := by
      have hor := hagrees.1
      rw [hs, Bool.false_or] at hor
      rw [hor]
      cases hb : s.wbusy with
      | true => rfl
      | false =>
        rw [hb, Bool.toNat_false] at hunit
        omega
    obtain ⟨s', hs'⟩ := h.exists_lserIrq hr
    exact ⟨.irq, s', .inr (.inr (.inl ⟨rfl, hwirq⟩)), (if_pos hon).trans hs'⟩

/-- **Something can go on** while a character is still to be written, without
another call. -/
theorem exists_step (h : OutInv s) (hr : s.rsem + 1 < 2 ^ 31) (hx : s.Pending x) :
    ∃ e s', s.PassesOn e ∧ s.step e = some s' := by
  have hagrees := h.agrees
  cases hp : s.polled with
  | none =>
    rcases hx with ⟨w, hw⟩ | hx
    · exact h.exists_step_on hr hp hw
    · rw [hp] at hx
      cases hx
  | some p =>
    rw [hp] at hagrees
    have hstep : s.step .poll = s.lserWritepolled p := by
      show s.polled.bind s.lserWritepolled = _
      rw [hp]
      rfl
    -- a spin ends, or the character that it waits for is on its way
    have hspin : s.sending = (!s.wirq) → s.wirq = true ∨
        s.step .sent = some { s with sending := false, wirq := true } := by
      intro hs
      cases hw : s.wirq with
      | true => exact .inl rfl
      | false => exact .inr (if_pos (by rw [hs, hw]; rfl))
    cases p with
    | test y | clear y | send y irqpending => exact ⟨.poll, _, .inl rfl, hstep⟩
    | drain y | wait irqpending =>
      rcases hspin hagrees.2 with hw | hsent
      · exact ⟨.poll, _, .inl rfl, hstep.trans (if_pos hw)⟩
      · exact ⟨.sent, _, .inr (.inl rfl), hsent⟩
    | ack irqpending =>
      cases irqpending with
      | true | false => exact ⟨.poll, _, .inl rfl, hstep⟩

end OutInv

variable [DecidableEq W]

theorem Reachable.output (h : Reachable s) : OutInv s :=
  Runs.Reachable.invariant h OutInv.configCon fun _ _ _ hi _ hs => hi.step hs

/-- **The protocol of console output**, in every run of any number of threads,
polled writes, interrupts and the device. `lser_write` never panics. The count
of `cs_wsem`, `ls_wbusy` and the writers between `P` and `lser_write` add up to
1. The device is written to only while it is idle, what is written to it are
characters passed to `putch`, and each of them is written once, but for the
calls that are still to write theirs. As long as there are such calls,
something can go on. -/
theorem console_output (s : Console W) (h : Reachable s) :
    s.panicked = false ∧ s.wsem + s.wbusy.toNat + s.between = 1 ∧ s.overrun = false ∧
    (∀ x ∈ s.written, s.called[x.1]? = some x.2) ∧
    (∀ n ch, s.called[n]? = some ch →
      (s.Pending (n, ch) → s.written.count (n, ch) = 0) ∧
      (¬ s.Pending (n, ch) → s.written.count (n, ch) = 1)) ∧
    (s.rsem + 1 < 2 ^ 31 → ∀ x, s.Pending x → ∃ e s', s.PassesOn e ∧ s.step e = some s') := by
  have hinv := h.output
  exact ⟨hinv.quiet.1, hinv.unit, hinv.quiet.2, fun x hx => hinv.called_of_mem_written hx,
    fun n ch hcall => hinv.count_of_called hcall, fun hr x hx => hinv.exists_step hr hx⟩

/-- A thread writes a character, and before it has gone another is written with
interrupts off. -/
def overlapped : List (Event Unit) :=
  [.putch () 97, .run (), .run (), .putchOff 98, .poll, .sent, .poll, .poll, .poll, .sent, .poll,
   .poll]

theorem console_output_overlapped :
    ∃ s : Console Unit, Reachable s ∧ s.written = [(0, 97), (1, 98)] ∧ s.wbusy = true ∧
      s.wirq = true ∧ s.overrun = false ∧ s.wsem + s.wbusy.toNat + s.between = 1 := by
  obtain ⟨s, hs, hobs⟩ := Runs.exists_of_exec step (configCon Unit) overlapped
    (fun s => s.written = [(0, 97), (1, 98)] ∧ s.wbusy ∧ s.wirq) (by decide +kernel)
  have hr : Reachable s := Runs.reachable_of_exec hs
  obtain ⟨-, hunit, hover, -⟩ := console_output s hr
  exact ⟨s, hr, hobs.1, hobs.2.1, hobs.2.2, hover, hunit⟩

end Dev

end Os161
