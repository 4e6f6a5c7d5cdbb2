import Mathlib.Data.Finset.Card
import Mathlib.Data.Finset.Range
import Mathlib.Logic.Function.Basic
/-!
# Tables of slots

A table of numbered slots, each of them empty or with a key and a value. As long
as no key stands in two slots (`Unique`) it is a finite map, whatever the slots
are.

Values may stand in many slots, and `count` says in how many.
-/

namespace Os161

open Function

/-- **A table of slots.** Behind the last slot there is nothing. -/
@[ext] structure Slots (K V : Type) where
  size : ℕ
  slot : ℕ → Option (K × V)
  slot_of_ge : ∀ i, size ≤ i → slot i = none

namespace Slots

variable {K V : Type} {d : Slots K V} {i j : ℕ} {k l : K} {v w : V}

theorem lt_size {e : K × V} (h : d.slot i = some e) : i < d.size := by
  by_contra hge
  rw [d.slot_of_ge i (not_lt.1 hge)] at h
  cases h

/-- Slot `i` gets an entry; the table may grow for it. -/
def put (d : Slots K V) (i : ℕ) (e : K × V) : Slots K V where
  size := max d.size (i + 1)
  slot := update d.slot i (some e)
  slot_of_ge j hj := by
    rw [update_of_ne (by omega)]
    exact d.slot_of_ge j (by omega)

/-- Slot `i` is emptied. -/
def clear (d : Slots K V) (i : ℕ) : Slots K V where
  size := d.size
  slot := update d.slot i none
  slot_of_ge j hj := by
    rw [update_apply, d.slot_of_ge j hj, ite_self]

theorem slot_put_eq_some {e : K × V} :
    (d.put i e).slot j = some (k, v) ↔ if j = i then e = (k, v) else d.slot j = some (k, v) := by
  show update d.slot i (some e) j = _ ↔ _
  rw [update_apply]
  split
  · exact Option.some_inj
  · rfl

theorem slot_clear_eq_some :
    (d.clear i).slot j = some (k, v) ↔ j ≠ i ∧ d.slot j = some (k, v) := by
  show update d.slot i none j = _ ↔ _
  rw [update_apply]
  split
  · rename_i hj
    refine ⟨fun h => ?_, fun h => absurd hj h.1⟩
    cases h
  · rename_i hj
    exact ⟨fun h => ⟨hj, h⟩, fun h => h.2⟩

/-! ## The map -/

/-- No key stands in two slots. -/
def Unique (d : Slots K V) : Prop :=
  ∀ i j k v w, d.slot i = some (k, v) → d.slot j = some (k, w) → i = j

theorem Unique.clear (hd : d.Unique) : (d.clear i).Unique := by
  intro a b l x y ha hb
  rw [slot_clear_eq_some] at ha hb
  exact hd a b l x y ha.2 hb.2

section Lookup

variable [DecidableEq K]

/-- The value of a key, from the first slot that has it. -/
def lookup (d : Slots K V) (k : K) : Option V :=
  (List.range d.size).findSome? fun i => (d.slot i).bind fun e => if e.1 = k then some e.2 else none

theorem lookup_eq_none_iff : d.lookup k = none ↔ ∀ i v, d.slot i ≠ some (k, v) := by
  unfold lookup
  rw [List.findSome?_eq_none_iff]
  constructor
  · intro h i v hi
    have := h i (List.mem_range.2 (lt_size hi))
    rw [hi] at this
    simp at this
  · intro h i _
    cases hi : d.slot i with
    | none => rfl
    | some e =>
      refine if_neg fun he => h i e.2 ?_
      rw [hi, ← he]

theorem slot_of_lookup (h : d.lookup k = some v) : ∃ i, d.slot i = some (k, v) := by
  obtain ⟨i, -, hi⟩ := List.exists_of_findSome?_eq_some h
  obtain ⟨e, he, hev⟩ := Option.bind_eq_some_iff.1 hi
  split at hev
  · rename_i hk
    cases hev
    exact ⟨i, by rw [he, ← hk]⟩
  · cases hev

/-- **The map of a table without duplicates.** -/
theorem lookup_eq_some_iff (hd : d.Unique) : d.lookup k = some v ↔ ∃ i, d.slot i = some (k, v) := by
  refine ⟨slot_of_lookup, fun ⟨i, hi⟩ => ?_⟩
  cases hl : d.lookup k with
  | none => exact absurd hi (lookup_eq_none_iff.1 hl i v)
  | some w =>
    obtain ⟨j, hj⟩ := slot_of_lookup hl
    obtain rfl := hd i j k v w hi hj
    rw [hi] at hj
    cases hj
    rfl

section Put

variable (hd : d.Unique) (hk : d.lookup k = none)
include hd hk

theorem Unique.put : (d.put i (k, v)).Unique := by
  intro a b l x y ha hb
  rw [slot_put_eq_some] at ha hb
  split at ha <;> split at hb <;> rename_i hai hbi
  · rw [hai, hbi]
  · cases ha
    exact absurd hb (lookup_eq_none_iff.1 hk b y)
  · cases hb
    exact absurd ha (lookup_eq_none_iff.1 hk a x)
  · exact hd a b l x y ha hb

end Put

end Lookup

/-! ## How often a value occurs -/

section Count

variable [DecidableEq V]

/-- The slots with a value. -/
def holders (d : Slots K V) (v : V) : Finset ℕ :=
  (Finset.range d.size).filter fun i => (d.slot i).map Prod.snd = some v

/-- In how many slots a value stands. -/
def count (d : Slots K V) (v : V) : ℕ := (d.holders v).card

theorem mem_holders : i ∈ d.holders v ↔ ∃ k, d.slot i = some (k, v) := by
  unfold holders
  rw [Finset.mem_filter, Finset.mem_range, Option.map_eq_some_iff]
  constructor
  · rintro ⟨-, ⟨k, v⟩, h, rfl⟩
    exact ⟨k, h⟩
  · rintro ⟨k, h⟩
    exact ⟨lt_size h, (k, v), h, rfl⟩

theorem count_le : d.count v ≤ d.size := by
  exact (Finset.card_filter_le _ _).trans (Finset.card_range _).le

theorem count_pos_iff : 0 < d.count v ↔ ∃ i k, d.slot i = some (k, v) := by
  unfold count
  rw [Finset.card_pos]
  exact exists_congr fun i => mem_holders

theorem count_put (hi : d.slot i = none) :
    (d.put i (k, v)).count w = d.count w + if w = v then 1 else 0 := by
  have hnot : i ∉ d.holders w := fun h => by
    obtain ⟨l, hl⟩ := mem_holders.1 h
    rw [hi] at hl
    cases hl
  unfold count
  split
  · rename_i hw
    have hinsert : (d.put i (k, v)).holders w = insert i (d.holders w) := by
      ext j
      rw [Finset.mem_insert, mem_holders, mem_holders]
      simp only [slot_put_eq_some]
      split
      · rename_i hj
        exact ⟨fun _ => .inl hj, fun _ => ⟨k, by rw [hw]⟩⟩
      · rename_i hj
        exact ⟨.inr, fun h => h.resolve_left hj⟩
    rw [hinsert, Finset.card_insert_of_notMem hnot]
  · rename_i hw
    have hsame : (d.put i (k, v)).holders w = d.holders w := by
      ext j
      rw [mem_holders, mem_holders]
      simp only [slot_put_eq_some]
      split
      · rename_i hj
        rw [hj, hi]
        refine ⟨fun ⟨l, h⟩ => absurd (congrArg Prod.snd h).symm hw, fun ⟨l, h⟩ => by cases h⟩
      · rfl
    rw [hsame, Nat.add_zero]

theorem count_clear (hi : d.slot i = some (k, v)) :
    (d.clear i).count w + (if w = v then 1 else 0) = d.count w := by
  have hholders : (d.clear i).holders w = (d.holders w).erase i := by
    ext j
    rw [Finset.mem_erase, mem_holders, mem_holders]
    simp only [slot_clear_eq_some, exists_and_left]
  unfold count
  rw [hholders]
  split
  · rename_i hw
    rw [hw]
    exact Finset.card_erase_add_one (mem_holders.2 ⟨k, hi⟩)
  · rename_i hw
    rw [Nat.add_zero, Finset.erase_eq_of_notMem]
    intro h
    obtain ⟨l, hl⟩ := mem_holders.1 h
    rw [hi] at hl
    cases hl
    exact hw rfl

end Count

end Slots

end Os161
