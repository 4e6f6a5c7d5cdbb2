import Os161.Common.Prog
/-!
# Weakest preconditions

`wp x Q E s` says how the run of `x` from the state `s` ends: it returns with
`Q`, or it stops with `E`, which is told whether the stop is an error or a
program that never comes back. Every construct of a program has one equation,
so that a run is taken apart by rewriting, and `wp_mono` puts the
specification of a called program in the place of its body.

Two constructs come with it: `result x` is the C idiom `result = x();`, after
which the program goes on whether `x` has failed or not, and `zoom` runs a
program on a part of the state.
-/

namespace Os161

namespace Prog

variable {σ τ ε α β : Type}

/-- `result = x();`: the error that `x` returns is a value. -/
def result (x : Prog σ ε α) : Prog σ ε (Except ε α) := fun s =>
  match x s with
  | .ok a s' => .ok (.ok a) s'
  | .error (.error e) s' => .ok (.error e) s'
  | .error .longjmp s' => .error .longjmp s'
  | .error .halt s' => .error .halt s'

/-- A part of a state. -/
structure Part (σ τ : Type) where
  get : σ → τ
  put : τ → σ → σ

/-- Run `x` on a part of the state. -/
def zoom (p : Part σ τ) (x : Prog τ ε α) : Prog σ ε α := fun s =>
  match x (p.get s) with
  | .ok a t => .ok a (p.put t s)
  | .error e t => .error e (p.put t s)

/-- **The run of `x` from `s` returns with `Q` or stops with `E`.** -/
def wp (x : Prog σ ε α) (Q : α → σ → Prop) (E : Stop ε → σ → Prop) (s : σ) : Prop :=
  match x s with
  | .ok a s' => Q a s'
  | .error e s' => E e s'

/-- What an error leaves; nothing is said of a panic. -/
def OnError (I : σ → Prop) (e : Stop ε) (s : σ) : Prop := (∃ err, e = .error err) → I s

theorem OnError.halt {I : σ → Prop} {s : σ} : OnError I (.halt : Stop ε) s := nofun

section Rules

variable {x : Prog σ ε α} {f : α → Prog σ ε β} {Q Q' : α → σ → Prop} {R : β → σ → Prop}
variable {E E' : Stop ε → σ → Prop} {s s' : σ}

theorem wp_of_ok {a : α} (h : x s = .ok a s') : wp x Q E s ↔ Q a s' := by
  unfold wp
  rw [h]

theorem wp_of_error {e : Stop ε} (h : x s = .error e s') : wp x Q E s ↔ E e s' := by
  unfold wp
  rw [h]

/-- A run of which something is known at its returns and nothing at its stops
returns. -/
theorem exists_ok_of_wp (h : wp x Q (fun _ _ => False) s) : ∃ a s', x s = .ok a s' ∧ Q a s' := by
  unfold wp at h
  cases hr : x s with
  | ok a s' => rw [hr] at h; exact ⟨a, s', rfl, h⟩
  | error e s' => rw [hr] at h; exact h.elim

/-- How a run has ended. -/
theorem cases_of_wp (h : wp x Q E s) :
    (∃ a s', x s = .ok a s' ∧ Q a s') ∨ ∃ e s', x s = .error e s' ∧ E e s' := by
  unfold wp at h
  cases hr : x s with
  | ok a s' => rw [hr] at h; exact .inl ⟨a, s', rfl, h⟩
  | error e s' => rw [hr] at h; exact .inr ⟨e, s', rfl, h⟩

/-- A run that returns one value in one state. -/
theorem run_of_wp {a₀ : α} {s₀ : σ}
    (h : wp x (fun a s' => a = a₀ ∧ s' = s₀) (fun _ _ => False) s) : x s = .ok a₀ s₀ := by
  obtain ⟨a, s', hr, rfl, rfl⟩ := exists_ok_of_wp h
  exact hr

/-- What holds if the program returns. -/
theorem wp_true_iff : wp x Q (fun _ _ => True) s ↔ ∀ a s', x s = .ok a s' → Q a s' := by
  unfold wp
  cases hr : x s <;> simp

/-- The program stops with `e`. -/
theorem wp_stop_iff {e : Stop ε} :
    wp x (fun _ _ => False) (fun e' _ => e' = e) s ↔ ∃ s', x s = .error e s' := by
  unfold wp
  cases hr : x s <;> simp

theorem wp_congr {y : Prog σ ε α} (h : x s = y s) : wp x Q E s ↔ wp y Q E s := by
  unfold wp
  rw [h]

/-- **A specification stands for the program.** -/
theorem wp_mono (h : wp x Q E s) (hQ : ∀ a s', Q a s' → Q' a s') (hE : ∀ e s', E e s' → E' e s') :
    wp x Q' E' s := by
  unfold wp at h ⊢
  cases hr : x s with
  | ok a s' => rw [hr] at h; exact hQ a s' h
  | error e s' => rw [hr] at h; exact hE e s' h

theorem wp_imp (h : wp x Q E s) (hQ : ∀ a s', Q a s' → Q' a s') : wp x Q' E s :=
  wp_mono h hQ fun _ _ he => he

/-- A specification without stops. -/
theorem wp_returns (h : wp x Q (fun _ _ => False) s) (hQ : ∀ a s', Q a s' → Q' a s') :
    wp x Q' E s :=
  wp_mono h hQ fun _ _ he => he.elim

theorem wp_pure {a : α} : wp (pure a : Prog σ ε α) Q E s ↔ Q a s := Iff.rfl

theorem wp_bind : wp (x >>= f) R E s ↔ wp x (fun a s' => wp (f a) R E s') E s := by
  show (match EStateM.bind x f s with | .ok a s' => R a s' | .error e s' => E e s') ↔ _
  unfold EStateM.bind wp
  cases x s <;> rfl

/-- A specification stands for the first part of a program. -/
theorem wp_seq (h : wp x Q E s) (hQ : ∀ a s', Q a s' → wp (f a) R E' s')
    (hE : ∀ e s', E e s' → E' e s') : wp (x >>= f) R E' s :=
  wp_bind.2 (wp_mono h hQ hE)

theorem wp_then (h : wp x Q E s) (hQ : ∀ a s', Q a s' → wp (f a) R E s') : wp (x >>= f) R E s :=
  wp_bind.2 (wp_imp h hQ)

theorem wp_get {Q : σ → σ → Prop} : wp (get : Prog σ ε σ) Q E s ↔ Q s s := Iff.rfl

theorem wp_get_bind {f : σ → Prog σ ε β} : wp (get >>= f) R E s ↔ wp (f s) R E s := wp_bind

theorem wp_set {t : σ} {Q : PUnit → σ → Prop} : wp (set t : Prog σ ε PUnit) Q E s ↔ Q ⟨⟩ t :=
  Iff.rfl

theorem wp_modify {g : σ → σ} {Q : PUnit → σ → Prop} :
    wp (modify g : Prog σ ε PUnit) Q E s ↔ Q ⟨⟩ (g s) := Iff.rfl

theorem wp_fail {e : ε} : wp (fail e : Prog σ ε α) Q E s ↔ E (.error e) s := Iff.rfl

theorem wp_halt : wp (halt : Prog σ ε α) Q E s ↔ E .halt s := Iff.rfl

theorem wp_longjmp : wp (longjmp : Prog σ ε α) Q E s ↔ E .longjmp s := Iff.rfl

/-- A jump out of `x` goes on in `h`. -/
theorem wp_setjmp {h : Prog σ ε α} :
    wp (setjmp x h) Q E s ↔ wp x Q (fun e s' => match e with
      | .longjmp => wp h Q E s'
      | .error e => E (.error e) s'
      | .halt => E .halt s') s := by
  unfold wp setjmp
  rcases x s with ⟨a, s'⟩ | ⟨e | _ | _, s'⟩ <;> rfl

theorem wp_ite {c : Prop} [Decidable c] {y : Prog σ ε α} :
    wp (if c then x else y) Q E s ↔ if c then wp x Q E s else wp y Q E s := by
  split <;> rfl

theorem wp_assert {c : Prop} [Decidable c] {Q : Unit → σ → Prop} :
    wp (assert c : Prog σ ε Unit) Q E s ↔ if c then Q () s else E .halt s := by
  unfold assert
  rw [wp_ite]
  rfl

theorem wp_assert_bind {c : Prop} [Decidable c] {f : Unit → Prog σ ε β} (h : c) :
    wp (assert c >>= f) R E s ↔ wp (f ()) R E s := by
  rw [wp_bind, wp_assert, if_pos h]

theorem wp_failIf {c : Prop} [Decidable c] {e : ε} {Q : Unit → σ → Prop} :
    wp (failIf c e : Prog σ ε Unit) Q E s ↔ if c then E (.error e) s else Q () s := by
  unfold failIf
  rw [wp_ite]
  rfl

/-- What comes after `result = x();` takes the errors of `x` and no other
stops. -/
theorem wp_result {Q : Except ε α → σ → Prop} :
    wp (result x) Q E s ↔ wp x (fun a => Q (.ok a))
      (fun e s' => match e with
        | .error e => Q (.error e) s'
        | .longjmp => E .longjmp s'
        | .halt => E .halt s') s := by
  unfold wp result
  rcases x s with ⟨a, s'⟩ | ⟨e | _ | _, s'⟩ <;> rfl

theorem wp_ofExcept {a : Except ε α} :
    wp (Prog.ofExcept a) Q E s ↔
      match a with
      | .ok a => Q a s
      | .error e => E (.error e) s := by
  cases a <;> rfl

theorem zoom_of_ok {p : Part σ τ} {y : Prog τ ε α} {a : α} {t : τ} (h : y (p.get s) = .ok a t) :
    zoom p y s = .ok a (p.put t s) := by
  unfold zoom
  rw [h]

theorem wp_zoom {p : Part σ τ} {y : Prog τ ε α} :
    wp (zoom p y) Q E s ↔
      wp y (fun a t => Q a (p.put t s)) (fun e t => E e (p.put t s)) (p.get s) := by
  unfold wp zoom
  cases y (p.get s) <;> rfl

end Rules

-- a program is taken apart by the rules above and never run
attribute [irreducible] wp

end Prog

end Os161
