import Os161.Common.Runs
import Os161.Common.Wp
/-!
# Objects behind their calls

An object is a state that changes by calls only. A `Client` says which program
each call is, when it may be made, and what the object stands for afterwards,
given the answer. An error is an answer; a program that never comes back is the
end of the sequence. What is shown of one call is shown of all sequences of them
(`Client.refines`).
-/

namespace Os161

open Prog

variable {σ τ κ ε ρ : Type}

/-- **The program comes back**, with a value or an error, and with `P`. -/
abbrev Prog.Back (x : Prog σ ε ρ) (P : Except ε ρ → σ → Prop) (s : σ) : Prop :=
  wp x (fun a => P (.ok a)) (fun e s' => ∃ err, e = .error err ∧ P (.error err) s') s

/-- The calls of an object with state `σ` that stands for a `τ`. -/
structure Client (σ τ κ ε ρ : Type) where
  call : κ → Prog σ ε ρ
  legal : τ → κ → Prop
  follow : τ → κ → Except ε ρ → σ → τ

namespace Client

variable {C : Client σ τ κ ε ρ} {I : σ → τ → Prop} {A : σ → τ → κ → Except ε ρ → σ → Prop}
variable {s : σ × τ} {s₀ : σ} {t₀ : τ}

/-- One call, on the object and on what it stands for. -/
def step (C : Client σ τ κ ε ρ) (s : σ × τ) (c : κ) : Option (σ × τ) :=
  match C.call c s.1 with
  | .ok a s' => some (s', C.follow s.2 c (.ok a) s')
  | .error (.error e) s' => some (s', C.follow s.2 c (.error e) s')
  | .error _ _ => none

/-- The states that sequences of legal calls come to. -/
abbrev Reached (C : Client σ τ κ ε ρ) (s₀ : σ) (t₀ : τ) : σ × τ → Prop :=
  Runs.Reachable C.step (fun s => C.legal s.2) (s₀, t₀)

/-- **After any sequence of legal calls** the object stands for what it should, and the
next call has the right answer. -/
theorem refines (h : C.Reached s₀ t₀ s) (h0 : I s₀ t₀)
    (hcall : ∀ s t c, I s t → C.legal t c →
      Back (C.call c) (fun r s' => A s t c r s' ∧ I s' (C.follow t c r s')) s) :
    I s.1 s.2 ∧ ∀ c, C.legal s.2 c → Back (C.call c) (A s.1 s.2 c) s.1 := by
  have hI : I s.1 s.2 := by
    refine h.invariant (I := fun s => I s.1 s.2) h0 fun s c s' hs hc hstep => ?_
    unfold step at hstep
    rcases cases_of_wp (hcall s.1 s.2 c hs hc) with ⟨a, t, hrun, -, hI⟩ |
      ⟨_, t, hrun, e, rfl, -, hI⟩
    · rw [hrun] at hstep
      exact Option.some.inj hstep ▸ hI
    · rw [hrun] at hstep
      exact Option.some.inj hstep ▸ hI
  exact ⟨hI, fun c hc => wp_mono (hcall s.1 s.2 c hI hc) (fun _ _ hr => hr.1)
    fun _ _ ⟨e, he, hr⟩ => ⟨e, he, hr.1⟩⟩

end Client

end Os161
