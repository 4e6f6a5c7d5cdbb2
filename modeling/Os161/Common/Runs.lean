import Mathlib.Data.List.Basic
/-!
# Runs of a partial step function

A system is a function `step s e` that gives the state after the event `e`,
or nothing where the event cannot happen. `exec` runs a list of events;
`Reachable step G s₀` is the set of states that runs from `s₀` come to,
every step of which meets the condition `G` on the state before it and its
event. `Free` is no condition at all.

Two rules carry the rest: an invariant kept by every step holds in every state
reached (`Reachable.invariant`), and a run is a witness of reachability
(`reachable_of_exec`).
-/

namespace Os161

namespace Runs

variable {σ τ ε ι : Type*} {step : σ → ε → Option σ} {G : σ → ε → Prop} {s₀ s s' : σ}

/-- The state after a list of events, if each of them can happen. -/
def exec (step : σ → ε → Option σ) : σ → List ε → Option σ
  | s, [] => some s
  | s, e :: es => (step s e).bind fun s' => exec step s' es

variable {es : List ε}

theorem exec_cons {e : ε} (h : step s e = some s') :
    exec step s (e :: es) = exec step s' es := by
  rw [exec, h]; rfl

/-- The condition every step meets. -/
def Free (σ ε : Type*) : σ → ε → Prop := fun _ _ => True

/-- **The states that runs from `s₀` come to**, over steps that all meet `G`. -/
inductive Reachable (step : σ → ε → Option σ) (G : σ → ε → Prop) (s₀ : σ) : σ → Prop
  | refl : Reachable step G s₀ s₀
  | tail {s s' : σ} {e : ε} :
      Reachable step G s₀ s → G s e → step s e = some s' → Reachable step G s₀ s'

/-- **What every step keeps holds in every state reached.** -/
theorem Reachable.invariant {I : σ → Prop} (h : Reachable step G s₀ s) (h0 : I s₀)
    (hstep : ∀ s e s', I s → G s e → step s e = some s' → I s') : I s := by
  induction h with
  | refl => exact h0
  | tail _ hg hs ih => exact hstep _ _ _ ih hg hs

/-- **A run of one system is a run of another** that can take each of its steps. -/
theorem Reachable.imp {step' : σ → ι → Option σ} {G' : σ → ι → Prop}
    (h : Reachable step G s₀ s) (hstep : ∀ s e s', Reachable step' G' s₀ s → G s e →
      step s e = some s' → ∃ i, G' s i ∧ step' s i = some s') : Reachable step' G' s₀ s := by
  induction h with
  | refl => exact .refl
  | tail _ hg hs ih =>
    obtain ⟨i, hi, hs'⟩ := hstep _ _ _ ih hg hs
    exact ih.tail hi hs'

/-- A run goes on from a state reached, if its events meet the condition in
any state. -/
theorem Reachable.exec (h : Reachable step G s₀ s) (hG : ∀ s, ∀ e ∈ es, G s e)
    (he : Runs.exec step s es = some s') : Reachable step G s₀ s' := by
  induction es generalizing s with
  | nil => exact Option.some.inj he ▸ h
  | cons e es ih =>
    obtain ⟨s₁, h1, h2⟩ := Option.bind_eq_some_iff.1 he
    exact ih (h.tail (hG s e List.mem_cons_self) h1)
      (fun s e' he' => hG s e' (List.mem_cons_of_mem _ he')) h2

/-- **A run is a witness of reachability.** -/
theorem reachable_of_exec (he : exec step s₀ es = some s) :
    Reachable step (Free σ ε) s₀ s :=
  Reachable.exec .refl (fun _ _ _ => trivial) he

/-- The steps that meet the condition, and no others. -/
def guarded (step : σ → ε → Option σ) (G : σ → ε → Prop) [∀ s, DecidablePred (G s)] (s : σ)
    (e : ε) : Option σ :=
  if G s e then step s e else none

theorem guarded_eq_some [∀ s, DecidablePred (G s)] {e : ε} :
    guarded step G s e = some s' ↔ G s e ∧ step s e = some s' := by
  unfold guarded
  split <;> simp [*]

/-- **A run whose condition is checked on the way** is a run, and a witness of
reachability under the condition. -/
theorem reachable_of_exec_guarded [∀ s, DecidablePred (G s)]
    (he : exec (guarded step G) s₀ es = some s) :
    Reachable step G s₀ s ∧ exec step s₀ es = some s := by
  suffices key : ∀ t, Reachable step G s₀ t → exec (guarded step G) t es = some s →
      Reachable step G s₀ s ∧ exec step t es = some s from key s₀ .refl he
  clear he
  induction es with
  | nil => exact fun t ht h => ⟨Option.some.inj h ▸ ht, h⟩
  | cons e es ih =>
    intro t ht h
    obtain ⟨u, h1, h2⟩ := Option.bind_eq_some_iff.1 h
    obtain ⟨hg, hs⟩ := guarded_eq_some.1 h1
    rw [exec_cons hs]
    exact ih u (ht.tail hg hs) h2

/-- A run that can be evaluated, with what can be seen of its last state. -/
theorem exists_of_exec (step : σ → ε → Option σ) (s₀ : σ) (es : List ε) (p : σ → Prop)
    [DecidablePred p] (h : (exec step s₀ es).any (p ·) = true) :
    ∃ s, exec step s₀ es = some s ∧ p s := by
  cases he : exec step s₀ es with
  | none => rw [he] at h; cases h
  | some s => exact ⟨s, rfl, by simpa [he] using h⟩

/-- A view that commutes with the steps commutes with the runs. -/
theorem exec_view {step' : τ → ε → Option τ} (v : σ → τ)
    (hsim : ∀ s e, step' (v s) e = (step s e).map v) (s : σ) (es : List ε) :
    exec step' (v s) es = (exec step s es).map v := by
  induction es generalizing s with
  | nil => rfl
  | cons e es ih =>
    simp only [exec, hsim]
    cases step s e with
    | none => rfl
    | some s' => exact ih s'

end Runs

end Os161
