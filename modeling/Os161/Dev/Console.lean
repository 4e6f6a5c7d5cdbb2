import Os161.Dev.Model.Console
import Os161.Common.Runs
import Os161.Common.Units
/-!
# Steps of the console

What each step can do, said once. Half of it is about input and half about
output, and a step of the one half leaves the other alone; so each half has a
view of the state (`Input`, `Output`) and a list of the steps of that view.
-/

namespace Os161

namespace Dev

open Option

variable {W : Type} {s s' : Console W}

theorem V_eq_some {count n : ℕ} : V count = some n ↔ count + 1 < 2 ^ 31 ∧ n = count + 1 := by
  unfold V
  split
  · next hlt => exact ⟨fun h => ⟨hlt, (some.inj h).symm⟩, fun h => by rw [h.2]⟩
  · next hge => exact ⟨nofun, fun h => absurd h.1 hge⟩

namespace Console

/-- The half of `lser_irq` that is about output. -/
def clearToWrite (s : Console W) : Console W :=
  { s with wbusy := false, wirq := false, wsem := s.wsem + 1 }

/-- The half that is about input. -/
def gotARead (s : Console W) : Console W :=
  { s with
    rirq := false
    gotchar := s.rchar
    rsem := s.rsem + 1
    received := s.received ++ [(s.received.length, s.rchar)]
    fresh := true }

/-- **What `lser_irq` does**, for the two bits that it looks at. -/
theorem lserIrq_cases (h : s.lserIrq = some s') :
    ∃ s₁, (s.wirq = false ∧ s₁ = s ∨ s.wirq = true ∧ s₁ = s.clearToWrite) ∧
      (s.rirq = false ∧ s' = s₁ ∨ s.rirq = true ∧ s' = s₁.gotARead) := by
  obtain ⟨sending, wirq, rirq, rchar, wbusy, rsem, wsem⟩ := s
  cases wirq with
  | false =>
    cases rirq with
    | false =>
      obtain rfl := some.inj h
      exact ⟨_, .inl ⟨rfl, rfl⟩, .inl ⟨rfl, rfl⟩⟩
    | true =>
      obtain ⟨n, hn, rfl⟩ := map_eq_some_iff.1 h
      obtain ⟨-, rfl⟩ := V_eq_some.1 hn
      exact ⟨_, .inl ⟨rfl, rfl⟩, .inr ⟨rfl, rfl⟩⟩
  | true =>
    obtain ⟨s₁, hs₁, h'⟩ := bind_eq_some_iff.1 h
    obtain ⟨n, hn, rfl⟩ := map_eq_some_iff.1 hs₁
    obtain ⟨-, rfl⟩ := V_eq_some.1 hn
    cases rirq with
    | false =>
      obtain rfl := some.inj h'
      exact ⟨_, .inr ⟨rfl, rfl⟩, .inl ⟨rfl, rfl⟩⟩
    | true =>
      obtain ⟨m, hm, rfl⟩ := map_eq_some_iff.1 h'
      obtain ⟨-, rfl⟩ := V_eq_some.1 hm
      exact ⟨_, .inr ⟨rfl, rfl⟩, .inr ⟨rfl, rfl⟩⟩

end Console

/-- The states that threads, interrupts and the device bring about. -/
def Reachable [DecidableEq W] (s : Console W) : Prop :=
  Runs.Reachable Console.step (Runs.Free _ _) (configCon W) s

end Dev

end Os161
