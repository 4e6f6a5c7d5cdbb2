import Os161.Common.Wp
/-!
# What every return keeps

A program that returns, with an error or without, goes on working with the state
that it leaves; one that panics does not. `Returns I x` says that `I` is kept by
every return of `x`. The rules follow the program.
-/

namespace Os161

namespace Prog

variable {σ τ ε α β : Type} {I : σ → Prop} {x y : Prog σ ε α} {f : α → Prog σ ε β} {s s' : σ}

/-- **Every return of the program keeps `I`**, with an error or without. -/
def Returns (I : σ → Prop) (x : Prog σ ε α) : Prop :=
  ∀ s, I s → wp x (fun _ s' => I s') (fun e s' => (∃ err, e = .error err) → I s') s

namespace Returns

theorem pure {a : α} : Returns I (pure a : Prog σ ε α) := fun _ hs => wp_pure.2 hs

theorem fail {e : ε} : Returns I (fail e : Prog σ ε α) := fun _ hs => wp_fail.2 fun _ => hs

theorem bind (hx : Returns I x) (hf : ∀ a, Returns I (f a)) : Returns I (x >>= f) := by
  intro s hs
  rw [Prog.wp_bind]
  exact wp_imp (hx s hs) fun a s₁ h₁ => hf a s₁ h₁

theorem ite {c : Prop} {_ : Decidable c} (hx : Returns I x) (hy : Returns I y) :
    Returns I (if c then x else y) := by
  split
  · exact hx
  · exact hy

theorem halt : Returns I (halt : Prog σ ε α) := by
  intro s _
  refine wp_halt.2 ?_
  rintro ⟨err, he⟩
  cases he

theorem assert (c : Prop) {_ : Decidable c} : Returns I (assert c : Prog σ ε Unit) :=
  ite pure halt

/-- What is read has the invariant. -/
theorem get_bind {f : σ → Prog σ ε β} (hf : ∀ s, I s → Returns I (f s)) :
    Returns I (get >>= f) := by
  intro s hs
  rw [Prog.wp_get_bind]
  exact hf s hs s hs

theorem set {t : σ} (ht : I t) : Returns I (set t : Prog σ ε PUnit) := fun _ _ => wp_set.2 ht

theorem modify {g : σ → σ} (hg : ∀ s, I s → I (g s)) : Returns I (modify g : Prog σ ε PUnit) :=
  fun s hs => wp_modify.2 (hg s hs)

/-- Work on a part of the state. -/
theorem zoom {p : Part σ τ} {y : Prog τ ε α} {J : τ → Prop} (hy : Returns J y)
    (hget : ∀ s, I s → J (p.get s)) (hput : ∀ s t, I s → J t → I (p.put t s)) :
    Returns I (zoom p y) := by
  intro s hs
  rw [wp_zoom]
  exact wp_mono (hy _ (hget s hs)) (fun _ t ht => hput s t hs ht) fun e t ht herr =>
    hput s t hs (ht herr)

/-- Work on a part of the state that `I` does not depend on. -/
theorem zoom_of {p : Part σ τ} {y : Prog τ ε α} (hput : ∀ s t, I s → I (p.put t s)) :
    Returns I (Prog.zoom p y) := by
  intro s hs
  rw [wp_zoom]
  cases hr : y (p.get s) with
  | ok a t => exact (wp_of_ok hr).2 (hput s t hs)
  | error e t => exact (wp_of_error hr).2 fun _ => hput s t hs

theorem failIf (c : Prop) {_ : Decidable c} (e : ε) : Returns I (failIf c e : Prog σ ε Unit) :=
  ite fail pure

theorem ofExcept (r : Except ε α) : Returns I (ofExcept r : Prog σ ε α) := by
  cases r with
  | ok a => exact pure
  | error e => exact fail

section

variable (hx : Returns I x)

include hx

/-- An error that is looked at is a return like any other. -/
theorem result : Returns I (result x) := by
  intro s hs
  rw [wp_result]
  refine wp_mono (hx s hs) (fun _ _ h => h) fun e s₁ he => ?_
  cases e with
  | error err => exact he ⟨err, rfl⟩
  | longjmp | halt => exact he

/-- What comes before the rest of a program that is looked at by its errors. -/
theorem wp_bind {Q : β → σ → Prop} (hs : I s)
    (hf : ∀ a s', I s' → wp (f a) Q (fun e s' => (∃ err, e = .error err) → I s') s') :
    wp (x >>= f) Q (fun e s' => (∃ err, e = .error err) → I s') s := by
  rw [Prog.wp_bind]
  exact wp_imp (hx s hs) fun a s' h => hf a s' h

theorem of_ok (hs : I s) {a : α} (hr : x s = .ok a s') : I s' :=
  (wp_of_ok hr).1 (hx s hs)

theorem of_error (hs : I s) {e : ε} (hr : x s = .error (.error e) s') : I s' :=
  (wp_of_error hr).1 (hx s hs) ⟨e, rfl⟩

end

end Returns

end Prog

end Os161
