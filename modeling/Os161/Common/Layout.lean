import Mathlib.Algebra.BigOperators.Group.List.Basic
import Mathlib.Algebra.GroupWithZero.Nat
import Mathlib.Data.List.Basic
/-!
# Blocks one behind the other

A list of blocks with sizes is laid out from an address on, each block where
the one before it ends. `Laid R lo p bs` says that a relation `R`, which knows
the address of a block and the block before it, holds of all of them, and
`Placed` names the address of one. Since a block ends where the next begins,
what is said of a list holds of its parts (`laid_append`), a change to one
place leaves the blocks elsewhere alone (`Laid.imp`), and two blocks never
overlap (`Placed.apart`).
-/

namespace Os161

namespace Layout

variable {B : Type*} (size : B → ℕ)

/-- The address behind the blocks that are laid out from `lo` on. -/
def stop (lo : ℕ) (bs : List B) : ℕ := lo + (bs.map size).sum

/-- **The blocks are laid out from `lo` on**, behind the block `p`. -/
def Laid (R : ℕ → Option B → B → Prop) : ℕ → Option B → List B → Prop
  | _, _, [] => True
  | x, p, b :: bs => R x p b ∧ Laid R (x + size b) (some b) bs

/-- The block `b` is at the address `x`. -/
def Placed (lo : ℕ) (bs : List B) (x : ℕ) (b : B) : Prop :=
  ∃ pre post, bs = pre ++ b :: post ∧ x = stop size lo pre

variable {size} {R R' : ℕ → Option B → B → Prop} {lo x y : ℕ} {p : Option B} {b c : B}
  {bs xs ys : List B}

@[simp] theorem stop_nil : stop size lo [] = lo := rfl

@[simp] theorem stop_cons : stop size lo (b :: bs) = stop size (lo + size b) bs := by
  unfold stop
  rw [List.map_cons, List.sum_cons, Nat.add_assoc]

@[simp] theorem stop_append : stop size lo (xs ++ ys) = stop size (stop size lo xs) ys := by
  unfold stop
  rw [List.map_append, List.sum_append, Nat.add_assoc]

theorem le_stop : lo ≤ stop size lo bs := Nat.le_add_right _ _

@[simp] theorem laid_nil : Laid size R lo p [] := trivial

@[simp] theorem laid_cons :
    Laid size R lo p (b :: bs) ↔ R lo p b ∧ Laid size R (lo + size b) (some b) bs := Iff.rfl

/-- A layout is one of the first blocks and one of the blocks behind them. -/
theorem laid_append : Laid size R lo p (xs ++ ys) ↔
    Laid size R lo p xs ∧ Laid size R (stop size lo xs) (xs.getLast?.or p) ys := by
  induction xs generalizing lo p with
  | nil => simp
  | cons b xs ih =>
    rw [List.cons_append, laid_cons, ih, laid_cons, stop_cons, and_assoc]
    have hlast : (b :: xs).getLast?.or p = xs.getLast?.or (some b) := by
      cases xs with
      | nil | cons c xs => rfl
    rw [hlast]

section

variable (h : Laid size R lo p bs)

include h

/-- **A change of the relation outside of the blocks changes nothing.** -/
theorem Laid.imp (hR : ∀ x q b, lo ≤ x → x + size b ≤ stop size lo bs → R x q b → R' x q b) :
    Laid size R' lo p bs := by
  induction bs generalizing lo p with
  | nil => trivial
  | cons b bs ih =>
    rw [stop_cons] at hR
    refine ⟨hR lo p b (Nat.le_refl lo) le_stop h.1, ih h.2 fun x q c hlo hhi => hR x q c ?_ hhi⟩
    omega

/-- The block before the first one matters to the first one only. -/
theorem Laid.imp_head {q : Option B} (hb : ∀ b bs', bs = b :: bs' → R lo p b → R' lo q b)
    (hR : ∀ x q b, lo < x → x + size b ≤ stop size lo bs → R x q b → R' x q b)
    (hpos : ∀ b ∈ bs, 0 < size b) : Laid size R' lo q bs := by
  cases bs with
  | nil => trivial
  | cons b bs =>
    rw [stop_cons] at hR
    refine ⟨hb b bs rfl h.1, h.2.imp fun x r c hlo hhi => hR x r c ?_ hhi⟩
    have := hpos b List.mem_cons_self
    omega

theorem Laid.placed (hx : Placed size lo bs x b) : ∃ q, R x q b := by
  obtain ⟨pre, post, rfl, rfl⟩ := hx
  exact ⟨_, (laid_append.1 h).2.1⟩

/-- Something that is known of every block, wherever it is. -/
theorem Laid.forall_mem {P : B → Prop} (hP : ∀ x q b, R x q b → P b) :
    ∀ b ∈ bs, P b := by
  induction bs generalizing lo p with
  | nil => simp
  | cons b bs ih => exact List.forall_mem_cons.2 ⟨hP _ _ _ h.1, ih h.2⟩

end

namespace Placed

theorem mem (h : Placed size lo bs x b) : b ∈ bs := by
  obtain ⟨pre, post, rfl, -⟩ := h
  simp

/-- A block lies between the first address and the last. -/
theorem bounds (h : Placed size lo bs x b) : lo ≤ x ∧ x + size b ≤ stop size lo bs := by
  obtain ⟨pre, post, rfl, rfl⟩ := h
  refine ⟨le_stop, ?_⟩
  rw [stop_append, stop_cons]
  exact le_stop

theorem append_left (h : Placed size lo xs x b) (ys : List B) : Placed size lo (xs ++ ys) x b := by
  obtain ⟨pre, post, rfl, rfl⟩ := h
  exact ⟨pre, post ++ ys, by simp, rfl⟩

theorem append_right (h : Placed size (stop size lo xs) ys x b) :
    Placed size lo (xs ++ ys) x b := by
  obtain ⟨pre, post, rfl, rfl⟩ := h
  exact ⟨xs ++ pre, post, by simp, by simp⟩

/-- A block of the first part or one of the second. -/
theorem append_iff : Placed size lo (xs ++ ys) x b ↔
    Placed size lo xs x b ∨ Placed size (stop size lo xs) ys x b := by
  refine ⟨?_, fun h => h.elim (·.append_left ys) append_right⟩
  rintro ⟨pre, post, hsplit, rfl⟩
  rcases List.append_eq_append_iff.1 hsplit with ⟨mid, rfl, rfl⟩ | ⟨mid, rfl, hpost⟩
  · exact .inr ⟨mid, post, rfl, stop_append⟩
  · cases mid with
    | nil =>
      rw [List.append_nil]
      exact .inr ⟨[], post, hpost.symm, rfl⟩
    | cons d mid =>
      obtain ⟨rfl, rfl⟩ := List.cons.inj hpost
      exact .inl ⟨pre, mid, rfl, rfl⟩

theorem cons_iff : Placed size lo (c :: bs) x b ↔
    (x = lo ∧ b = c) ∨ Placed size (lo + size c) bs x b := by
  constructor
  · rintro ⟨pre, post, hsplit, rfl⟩
    cases pre with
    | nil =>
      obtain ⟨rfl, rfl⟩ := List.cons.inj hsplit
      exact .inl ⟨rfl, rfl⟩
    | cons d pre =>
      obtain ⟨rfl, rfl⟩ := List.cons.inj hsplit
      exact .inr ⟨pre, post, rfl, stop_cons⟩
  · rintro (⟨rfl, rfl⟩ | ⟨pre, post, rfl, rfl⟩)
    · exact ⟨[], bs, rfl, rfl⟩
    · exact ⟨c :: pre, post, rfl, stop_cons.symm⟩

theorem not_nil : ¬ Placed size lo [] x b := by
  rintro ⟨pre, post, h, -⟩
  simp at h

/-- **Two blocks are one, or they do not overlap.** -/
theorem apart (h : Placed size lo bs x b) (h' : Placed size lo bs y c) :
    (x = y ∧ b = c) ∨ x + size b ≤ y ∨ y + size c ≤ x := by
  induction bs generalizing lo with
  | nil => exact absurd h not_nil
  | cons d bs ih =>
    rcases cons_iff.1 h with ⟨rfl, rfl⟩ | h <;> rcases cons_iff.1 h' with ⟨rfl, rfl⟩ | h'
    · exact .inl ⟨rfl, rfl⟩
    · exact .inr (.inl h'.bounds.1)
    · exact .inr (.inr h.bounds.1)
    · exact ih h h'

end Placed

end Layout

end Os161
