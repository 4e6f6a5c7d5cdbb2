import Mathlib.Data.List.Basic
import Mathlib.Algebra.Group.Nat.Defs
import Mathlib.Algebra.Group.Int.Defs
/-!
# Programs that can stop

`Prog σ ε` is the state monad of code that runs over a state `σ` and that,
besides returning, can end in three ways (`Stop`): it returns an error, it
jumps to the innermost `setjmp`, or it never comes back, because it panics or
because it loops. The state survives all of them.

`Triple P x Q E` is the rule of pre- and postconditions for such programs,
with one postcondition for a return and one for every other end. `Keeps` is
the case of an invariant. Beside them stand the lemmas that take a run apart,
one bind at a time (`bind_eq_ok`, `bind_eq_error`).
-/

namespace Os161

/-- How a program ends that does not return. -/
inductive Stop (ε : Type) where
  /-- It returns an error. -/
  | error (e : ε)
  /-- It jumps to the innermost `setjmp`. -/
  | longjmp
  /-- It never comes back. -/
  | halt
  deriving DecidableEq, Repr

/-- Programs over a state `σ` with errors in `ε`. -/
abbrev Prog (σ ε : Type) : Type → Type := EStateM (Stop ε) σ

namespace Prog

variable {σ ε α β : Type}

/-- Return an error. -/
def fail (e : ε) : Prog σ ε α := throw (.error e)

def halt : Prog σ ε α := throw .halt

def longjmp : Prog σ ε α := throw .longjmp

/-- `if (c) return e;`. -/
def failIf (c : Prop) [Decidable c] (e : ε) : Prog σ ε Unit := if c then fail e else pure ()

/-- `assert(c);`. -/
def assert (c : Prop) [Decidable c] : Prog σ ε Unit := if c then pure () else halt

/-- A result that was computed already. -/
def ofExcept : Except ε α → Prog σ ε α
  | .ok a => pure a
  | .error e => fail e

/-- `if (setjmp(..)) { h } else { x }`: a jump out of `x` goes on in `h`. -/
def setjmp (x h : Prog σ ε α) : Prog σ ε α := fun s =>
  match x s with
  | .error .longjmp s' => h s'
  | r => r

/-- `if (x) return f(error);`: another error in the place of the one that `x`
returns. -/
def mapError (f : ε → ε) (x : Prog σ ε α) : Prog σ ε α := fun s =>
  match x s with
  | .error (.error e) s' => .error (.error (f e)) s'
  | r => r

/-- `while (!isEnd(load(i))) i++;`, for at most `fuel` rounds, which returns
the last `i`. A program that needs more rounds than there are indices never
comes back. -/
def scanFrom (load : UInt32 → Prog σ ε α) (isEnd : α → Bool) : ℕ → UInt32 → Prog σ ε UInt32
  | 0, _ => halt
  | fuel + 1, i => do
    let a ← load i
    if isEnd a then pure i else scanFrom load isEnd fuel (i + 1)

/-! ## Taking a run apart -/

theorem toNat_succ {i : UInt32} (h : i.toNat + 1 < 2 ^ 32) : (i + 1).toNat = i.toNat + 1 := by
  rw [UInt32.toNat_add, UInt32.toNat_one]
  omega

theorem succ_le_iff {i j : UInt32} (h : i.toNat + 1 < 2 ^ 32) : i + 1 ≤ j ↔ i ≤ j ∧ j ≠ i := by
  rw [UInt32.le_iff_toNat_le, UInt32.le_iff_toNat_le, toNat_succ h, ne_eq, ← UInt32.toNat_inj]
  omega

section Runs

variable {x : Prog σ ε α} {f : α → Prog σ ε β} {s s' s₁ : σ} {a : α} {b : β} {e : Stop ε}

theorem bind_eq_ok :
    (x >>= f) s = .ok b s' ↔ ∃ a s₁, x s = .ok a s₁ ∧ f a s₁ = .ok b s' := by
  show EStateM.bind x f s = .ok b s' ↔ _
  unfold EStateM.bind
  cases x s <;> simp

theorem bind_eq_error :
    (x >>= f) s = .error e s' ↔
      x s = .error e s' ∨ ∃ a s₁, x s = .ok a s₁ ∧ f a s₁ = .error e s' := by
  show EStateM.bind x f s = .error e s' ↔ _
  unfold EStateM.bind
  cases x s <;> simp

/-- What comes after a return. -/
theorem bind_of_ok (h : x s = .ok a s₁) : (x >>= f) s = f a s₁ := by
  show EStateM.bind x f s = _
  unfold EStateM.bind
  rw [h]

/-- Nothing comes after any other end. -/
theorem bind_of_error (h : x s = .error e s₁) : (x >>= f) s = .error e s₁ := by
  show EStateM.bind x f s = _
  unfold EStateM.bind
  rw [h]

/-- What is read is the state. -/
theorem get_bind_apply {f : σ → Prog σ ε β} : (get >>= f) s = f s s := rfl

@[simp] theorem pure_apply : (pure a : Prog σ ε α) s = .ok a s := rfl

@[simp] theorem fail_apply (e : ε) : (fail e : Prog σ ε α) s = .error (.error e) s := rfl

@[simp] theorem halt_apply : (halt : Prog σ ε α) s = .error .halt s := rfl

variable {c : Prop}

theorem failIf_of_not [Decidable c] (e : ε) (h : ¬ c) :
    (failIf c e : Prog σ ε Unit) s = .ok () s := by
  rw [failIf, if_neg h, pure_apply]

theorem failIf_of [Decidable c] (e : ε) (h : c) :
    (failIf c e : Prog σ ε Unit) s = .error (.error e) s := by
  rw [failIf, if_pos h, fail_apply]

theorem failIf_eq_ok [Decidable c] {e : ε} {u : Unit} :
    (failIf c e : Prog σ ε Unit) s = .ok u s' ↔ ¬ c ∧ s' = s := by
  by_cases h : c
  · rw [failIf_of e h]
    exact ⟨nofun, fun hn => absurd h hn.1⟩
  · rw [failIf_of_not e h]
    exact ⟨fun hok => ⟨h, by cases hok; rfl⟩, fun hs => by rw [hs.2]⟩

theorem assert_of [Decidable c] (h : c) :
    (assert c : Prog σ ε Unit) s = .ok () s := by
  rw [assert, if_pos h, pure_apply]

theorem assert_of_not [Decidable c] (h : ¬ c) :
    (assert c : Prog σ ε Unit) s = .error .halt s := by
  rw [assert, if_neg h, halt_apply]

/-- A run that can be evaluated and that does not return, with what can be
seen of its end. -/
theorem exists_error_of (x : Prog σ ε α) (s : σ) (p : Stop ε → σ → Prop)
    [∀ e s, Decidable (p e s)]
    (h : (match x s with | .error e s' => decide (p e s') | .ok _ _ => false) = true) :
    ∃ e s', x s = .error e s' ∧ p e s' := by
  cases hr : x s with
  | ok a s' => rw [hr] at h; cases h
  | error e s' => exact ⟨e, s', rfl, by simpa [hr] using h⟩

/-- A run that can be evaluated and that returns. -/
theorem exists_ok_of (x : Prog σ ε α) (s : σ) (p : α → σ → Prop) [∀ a s, Decidable (p a s)]
    (h : (match x s with | .ok a s' => decide (p a s') | .error _ _ => false) = true) :
    ∃ a s', x s = .ok a s' ∧ p a s' := by
  cases hr : x s with
  | ok a s' => exact ⟨a, s', rfl, by simpa [hr] using h⟩
  | error e s' => rw [hr] at h; cases h

variable {load : UInt32 → Prog σ ε α} {isEnd : α → Bool}

/-- **What every round of a scan leaves behind is there at its end**, if no
round takes it away. -/
theorem scanFrom_leaves {M : UInt32 → σ → Prop}
    (hload : ∀ i s a s', load i s = .ok a s' → M i s')
    (hmono : ∀ i s a s' j, load i s = .ok a s' → M j s → M j s') {fuel : ℕ} {i n : UInt32}
    (hfuel : i.toNat + fuel ≤ 2 ^ 32) (h : scanFrom load isEnd fuel i s = .ok n s') :
    (∀ j, M j s → M j s') ∧ ∀ j, i ≤ j → j ≤ n → M j s' := by
  induction fuel generalizing i s with
  | zero => cases h
  | succ fuel ih =>
    obtain ⟨a, s₁, h1, h2⟩ := bind_eq_ok.1 h
    by_cases hend : isEnd a = true
    · rw [if_pos hend] at h2
      cases h2
      refine ⟨fun j => hmono n s a s' j h1, fun j hij hjn => ?_⟩
      rw [UInt32.le_antisymm hjn hij]
      exact hload n s a s' h1
    · rw [if_neg hend] at h2
      have hlast : fuel ≠ 0 := fun hz => by subst hz; cases h2
      have hi : i.toNat + 1 < 2 ^ 32 := by omega
      obtain ⟨hkeep, hrest⟩ := ih (by rw [toNat_succ hi]; omega) h2
      refine ⟨fun j hj => hkeep j (hmono i s a s₁ j h1 hj), fun j hij hjn => ?_⟩
      by_cases hj : j = i
      · subst hj
        exact hkeep j (hload j s a s₁ h1)
      · exact hrest j ((succ_le_iff hi).2 ⟨hij, hj⟩) hjn

end Runs

/-! ## The errors of a program -/

/-- The errors that a program can return are among those in `p`. -/
def ErrorsIn (p : ε → Prop) (x : Prog σ ε α) : Prop :=
  ∀ s e s', x s = .error (.error e) s' → p e

namespace ErrorsIn

variable {p : ε → Prop} {x : Prog σ ε α} {f : α → Prog σ ε β}

theorem pure (a : α) : ErrorsIn p (pure a : Prog σ ε α) := fun _ _ _ h => by cases h

theorem halt : ErrorsIn p (halt : Prog σ ε α) := fun _ _ _ h => by cases h

theorem longjmp : ErrorsIn p (longjmp : Prog σ ε α) := fun _ _ _ h => by cases h

theorem get : ErrorsIn p (get : Prog σ ε σ) := fun _ _ _ h => by cases h

theorem set (s : σ) : ErrorsIn p (set s : Prog σ ε PUnit) := fun _ _ _ h => by cases h

theorem modify (g : σ → σ) : ErrorsIn p (modify g : Prog σ ε PUnit) := fun _ _ _ h => by cases h

theorem fail {e : ε} (he : p e) : ErrorsIn p (fail e : Prog σ ε α) := fun _ _ _ h => by
  cases h
  exact he

theorem bind (hx : ErrorsIn p x) (hf : ∀ a, ErrorsIn p (f a)) : ErrorsIn p (x >>= f) := by
  intro s e s' h
  rcases bind_eq_error.1 h with h | ⟨a, s₁, -, h⟩
  · exact hx s e s' h
  · exact hf a s₁ e s' h

theorem ite [Decidable c] {y : Prog σ ε α} (hx : c → ErrorsIn p x)
    (hy : ¬ c → ErrorsIn p y) : ErrorsIn p (if c then x else y) := by
  split
  · exact hx ‹_›
  · exact hy ‹_›

theorem failIf [Decidable c] {e : ε} (he : c → p e) :
    ErrorsIn p (failIf c e : Prog σ ε Unit) :=
  ite (fun hc => fail (he hc)) fun _ => pure ()

theorem assert [Decidable c] : ErrorsIn p (assert c : Prog σ ε Unit) :=
  ite (fun _ => pure ()) fun _ => halt

theorem mapError {g : ε → ε} (hg : ∀ e, p (g e)) : ErrorsIn p (mapError g x) := by
  intro s e s' h
  unfold Prog.mapError at h
  cases hr : x s with
  | ok a s₁ => rw [hr] at h; cases h
  | error e₁ s₁ =>
    rw [hr] at h
    cases e₁ <;> cases h
    exact hg _

theorem scanFrom (hload : ∀ i, ErrorsIn p (load i))
    (fuel : ℕ) (i : UInt32) : ErrorsIn p (scanFrom load isEnd fuel i) := by
  induction fuel generalizing i with
  | zero => exact halt
  | succ fuel ih => exact bind (hload i) fun _ => ite (fun _ => pure i) fun _ => ih (i + 1)

end ErrorsIn

/-! ## Pre- and postconditions -/

section Triples

variable {I J E : σ → Prop} {x h : Prog σ ε α} {f : α → Prog σ ε β} {Q R : α → Prop}

/-- **From a state with `I`, the program returns a value with `Q` in a state
with `J`, or ends otherwise in a state with `E`.** -/
def Triple (I : σ → Prop) (x : Prog σ ε α) (Q : α → Prop) (J E : σ → Prop) : Prop :=
  ∀ s, I s → match x s with
    | .ok a s' => J s' ∧ Q a
    | .error _ s' => E s'

/-- **`I` is an invariant**: it holds again when the program returns, and `E`
holds when it ends in any other way. -/
def Keeps (I E : σ → Prop) (x : Prog σ ε α) (Q : α → Prop) : Prop := Triple I x Q I E

theorem Triple.ok {s s' : σ} {a : α} (ht : Triple I x Q J E) (hs : I s) (hx : x s = .ok a s') :
    J s' ∧ Q a := by
  have := ht s hs
  rwa [hx] at this

theorem Triple.error {s s' : σ} {e : Stop ε} (ht : Triple I x Q J E) (hs : I s)
    (hx : x s = .error e s') : E s' := by
  have := ht s hs
  rwa [hx] at this

theorem Triple.bind {K : σ → Prop} {Q' : β → Prop} (hx : Triple I x R J E)
    (hf : ∀ a, R a → Triple J (f a) Q' K E) : Triple I (x >>= f) Q' K E := by
  intro s hs
  cases hr : x s with
  | ok a s' =>
    obtain ⟨hJ, hR⟩ := hx.ok hs hr
    rw [bind_of_ok hr]
    exact hf a hR s' hJ
  | error e s' =>
    rw [bind_of_error hr]
    exact hx.error hs hr

theorem Triple.setjmp (hx : Triple I x Q J E) (hh : Triple E h Q J E) :
    Triple I (setjmp x h) Q J E := by
  intro s hs
  unfold Prog.setjmp
  cases hr : x s with
  | ok a s' => exact hx.ok hs hr
  | error e s' =>
    have hE := hx.error hs hr
    cases e with
    | longjmp => exact hh s' hE
    | error e | halt => exact hE

theorem Triple.modify {g : σ → σ} (hg : ∀ s, I s → J (g s)) :
    Triple I (modify g : Prog σ ε PUnit) (fun _ => True) J E :=
  fun s hs => ⟨hg s hs, trivial⟩

theorem Triple.fail (e : ε) (hE : ∀ s, I s → E s) : Triple I (fail e : Prog σ ε α) Q J E :=
  fun s hs => hE s hs

namespace Keeps

theorem pure {a : α} (ha : Q a) : Keeps I E (pure a : Prog σ ε α) Q := fun _ hs => ⟨hs, ha⟩

theorem mono (hx : Keeps I E x Q) (hQ : ∀ a, Q a → R a) : Keeps I E x R := by
  intro s hs
  cases hr : x s with
  | ok a s' => exact ⟨(Triple.ok hx hs hr).1, hQ a (Triple.ok hx hs hr).2⟩
  | error e s' =>
    have hE := Triple.error hx hs hr
    exact hE

theorem fail (e : ε) (hE : ∀ s, I s → E s) : Keeps I E (fail e : Prog σ ε α) Q :=
  Triple.fail e hE

theorem halt (hE : ∀ s, I s → E s) : Keeps I E (halt : Prog σ ε α) Q := fun s hs => hE s hs

theorem longjmp (hE : ∀ s, I s → E s) : Keeps I E (longjmp : Prog σ ε α) Q := fun s hs => hE s hs

theorem ite [Decidable c] {y : Prog σ ε α} (hx : c → Keeps I E x Q)
    (hy : ¬ c → Keeps I E y Q) : Keeps I E (if c then x else y) Q := by
  split
  · exact hx ‹_›
  · exact hy ‹_›

theorem failIf [Decidable c] (e : ε) (hE : ∀ s, I s → E s) :
    Keeps I E (failIf c e) (fun _ => ¬ c) :=
  ite (fun _ => fail e hE) fun hc => pure hc

theorem assert [Decidable c] (hE : ∀ s, I s → E s) :
    Keeps I E (assert c : Prog σ ε Unit) (fun _ => c) :=
  ite (fun hc => pure hc) fun _ => halt hE

theorem ofExcept (r : Except ε α) (hE : ∀ s, I s → E s) :
    Keeps I E (ofExcept r) (fun a => r = .ok a) := by
  cases r with
  | ok a => exact pure rfl
  | error e => exact fail e hE

theorem get : Keeps I E (get : Prog σ ε σ) I := fun _ hs => ⟨hs, hs⟩

theorem set {s : σ} (hs : I s) : Keeps I E (set s : Prog σ ε PUnit) (fun _ => True) :=
  fun _ _ => ⟨hs, trivial⟩

theorem modify {g : σ → σ} (hg : ∀ s, I s → I (g s)) :
    Keeps I E (modify g : Prog σ ε PUnit) (fun _ => True) :=
  Triple.modify hg

theorem mapError (g : ε → ε) (hx : Keeps I E x Q) : Keeps I E (mapError g x) Q := by
  intro s hs
  unfold Prog.mapError
  cases hr : x s with
  | ok a s' => exact Triple.ok hx hs hr
  | error e s' =>
    have hE := Triple.error hx hs hr
    cases e <;> exact hE

/-- **A scan stops at the first end.** A round may rely on what the rounds
before it have found. -/
theorem scanFrom {S : UInt32 → α → Prop}
    (hE : ∀ s, I s → E s) {fuel : ℕ} {i : UInt32} (hfuel : i.toNat + fuel ≤ 2 ^ 32)
    (hload : ∀ j, i ≤ j → (∀ j', i ≤ j' → j' < j → ∃ a, isEnd a = false ∧ S j' a) →
      Keeps I E (load j) (S j)) :
    Keeps I E (scanFrom load isEnd fuel i) (fun n => i ≤ n ∧ (∃ a, isEnd a = true ∧ S n a) ∧
      ∀ j, i ≤ j → j < n → ∃ a, isEnd a = false ∧ S j a) := by
  induction fuel generalizing i with
  | zero => exact halt hE
  | succ fuel ih =>
    have hself : ∀ j', i ≤ j' → j' < i → ∃ a, isEnd a = false ∧ S j' a :=
      fun j' h1 h2 => absurd h1 (UInt32.not_le.2 h2)
    refine .bind (hload i (UInt32.le_refl i) hself) fun a ha => ite (fun hend => ?_) fun hend => ?_
    · exact pure ⟨UInt32.le_refl i, ⟨a, hend, ha⟩, hself⟩
    · have hend : isEnd a = false := Bool.eq_false_iff.2 hend
      by_cases hz : fuel = 0
      · subst hz
        exact halt hE
      have hi : i.toNat + 1 < 2 ^ 32 := by omega
      have hsucc := fun j => succ_le_iff (j := j) hi
      have hrest : (i + 1).toNat + fuel ≤ 2 ^ 32 := by
        rw [toNat_succ hi]
        omega
      -- the rounds from `i + 1` on know what the first one found
      refine mono (ih hrest fun j hij hprev => hload j ((hsucc j).1 hij).1 ?_) ?_
      · intro j' hij' hj'
        by_cases he : j' = i
        · exact ⟨a, hend, he ▸ ha⟩
        · exact hprev j' ((hsucc j').2 ⟨hij', he⟩) hj'
      · rintro n ⟨hin, hstop, hbefore⟩
        refine ⟨((hsucc n).1 hin).1, hstop, fun j hij hjn => ?_⟩
        by_cases he : j = i
        · exact ⟨a, hend, he ▸ ha⟩
        · exact hbefore j ((hsucc j).2 ⟨hij, he⟩) hjn

end Keeps

end Triples

end Prog

end Os161
