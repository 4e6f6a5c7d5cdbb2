import Os161.Lib.Model.Array
import Os161.Common.Client
/-!
# The resizable array is a list

What each operation of `array.c` does to the list of elements and to the
capacity. `arrayAdd_of_lt` is the half the thread system leans on: an
element goes in without a word to `kmalloc` as long as there is a slot for
it, and `arrayAdd_of_km` the other: with memory to be had, it always goes
in. Over any sequence of calls the array holds the list that the calls define,
and no access goes past its slots (`array_is_list`).
-/

namespace Os161

namespace Lib

namespace PtrArray

open Function

variable {α : Type} {km : ℕ → Bool} {a a' : PtrArray α} {x : α} {n : ℕ}

@[simp] theorem length_toList (a : PtrArray α) : a.toList.length = a.num := by
  simp [toList]

theorem getElem_toList (a : PtrArray α) {i : ℕ} (hi : i < a.toList.length) :
    a.toList[i] = a.v i := by
  simp [toList]

/-- **Preallocation is invisible** in the elements. -/
theorem arrayPreallocate_spec (h : arrayPreallocate km a n = some a') :
    a'.toList = a.toList ∧ a'.num = a.num ∧ a'.max = newMax a.max n := by
  unfold arrayPreallocate at h
  split at h
  · obtain rfl := Option.some.inj h
    exact ⟨rfl, rfl, rfl⟩
  · cases h

/-- With memory to be had, preallocation succeeds. -/
theorem arrayPreallocate_isSome (hkm : ∀ m, km m = true) :
    (arrayPreallocate km a n).isSome := by
  unfold arrayPreallocate
  rw [if_pos (hkm _)]
  rfl

/-- **A slot is there, so no memory is needed.** -/
theorem arrayAdd_of_lt (h : a.num < a.max) :
    arrayAdd km a x =
      some { a with num := a.num + 1, v := update a.v a.num x, num_le := h } := by
  unfold arrayAdd arraySetsize
  rw [dif_neg (by omega), if_neg (by omega)]
  rfl

/-- **No slot is there, so the backing store grows first.** -/
theorem arrayAdd_of_full (hkm : ∀ m, km m = true) (h : ¬ a.num < a.max) :
    ∃ a', arrayAdd km a x = some a' ∧ a'.num = a.num + 1 ∧
      a'.max = newMax a.max (a.num + 1) ∧ a'.v = update a.v a.num x := by
  unfold arrayAdd arraySetsize
  rw [dif_pos (by omega)]
  split
  · rename_i hnone
    have := arrayPreallocate_isSome (a := a) (n := a.num + 1) hkm
    rw [hnone] at this
    cases this
  · rename_i b hb
    have hmax : b.max = newMax a.max (a.num + 1) := arrayPreallocate_max hb
    refine ⟨_, rfl, rfl, hmax, ?_⟩
    unfold arrayPreallocate at hb
    rw [if_pos (hkm _)] at hb
    obtain rfl := Option.some.inj hb
    rfl

/-- The elements of an array whose first free slot was filled. -/
theorem toList_of_update (hn : a'.num = a.num + 1) (hv : a'.v = update a.v a.num x) :
    a'.toList = a.toList ++ [x] := by
  unfold toList
  rw [hn, hv, List.range_succ, List.map_append, List.map_singleton, update_self]
  congr 1
  refine List.map_congr_left fun i hi => ?_
  have : i ≠ a.num := by have := List.mem_range.1 hi; omega
  rw [update_of_ne this]

/-- **`array_add` appends**, with memory to be had; the capacity grows only
where there was no slot. -/
theorem arrayAdd_of_km (hkm : ∀ m, km m = true) (a : PtrArray α) (x : α) :
    ∃ a', arrayAdd km a x = some a' ∧ a'.toList = a.toList ++ [x] ∧
      a'.max = if a.num < a.max then a.max else newMax a.max (a.num + 1) := by
  by_cases h : a.num < a.max
  · refine ⟨_, arrayAdd_of_lt h, toList_of_update rfl rfl, ?_⟩
    rw [if_pos h]
  · obtain ⟨a', h1, h2, h3, h4⟩ := arrayAdd_of_full (x := x) hkm h
    exact ⟨a', h1, toList_of_update h2 h4, by rw [if_neg h, h3]⟩

/-- **Emptying an array** needs no memory, and keeps the backing store
unless it is larger than 16 slots. -/
theorem arraySetsize_zero (km : ℕ → Bool) (a : PtrArray α) :
    ∃ a', arraySetsize km a 0 = some a' ∧ a'.toList = [] ∧
      a'.max = if 16 < a.max then 0 else a.max := by
  unfold arraySetsize
  rw [dif_neg (by omega)]
  by_cases h : 16 < a.max
  · rw [if_pos ⟨rfl, h⟩]
    exact ⟨_, rfl, rfl, by rw [if_pos h]⟩
  · rw [if_neg (fun hc => h hc.2)]
    exact ⟨_, rfl, rfl, by rw [if_neg h]⟩

/-- **`array_remove` deletes one element** and closes the hole. -/
theorem toList_arrayRemove (a : PtrArray α) (index : Fin a.num) :
    (a.arrayRemove index).toList = a.toList.eraseIdx index := by
  have hi := index.isLt
  have hlen : (a.toList.eraseIdx index).length = a.num - 1 := by
    rw [List.length_eraseIdx, length_toList, if_pos hi]
  refine List.ext_getElem ?_ fun j hj _ => ?_
  · rw [hlen, length_toList]; rfl
  · rw [length_toList] at hj
    rw [getElem_toList, List.getElem_eraseIdx]
    simp only [arrayRemove, getElem_toList]
    by_cases h : j < index.val
    · rw [dif_pos h, if_neg (by omega)]
    · rw [dif_neg h, if_pos (by omega)]

/-- The slot behind the first elements. -/
theorem slot_of_toList {a : PtrArray α} {pre post : List α} {x : α}
    (h : a.toList = pre ++ x :: post) :
    ∃ hi : pre.length < a.num, a.arrayGetguy ⟨pre.length, hi⟩ = x ∧
      (a.arrayRemove ⟨pre.length, hi⟩).toList = pre ++ post := by
  have hlen := congrArg List.length h
  rw [length_toList, List.length_append, List.length_cons] at hlen
  have hi : pre.length < a.num := by omega
  refine ⟨hi, ?_, ?_⟩
  · have hget := getElem_toList a (i := pre.length) (by rw [length_toList]; exact hi)
    simp only [h, List.getElem_append_right le_rfl, Nat.sub_self, List.getElem_cons_zero] at hget
    exact hget.symm
  · rw [toList_arrayRemove, h, List.eraseIdx_append_of_length_le le_rfl, Nat.sub_self,
      List.eraseIdx_cons_zero]

end PtrArray

/-! ## Whole runs -/

namespace Arr

open PtrArray Prog Function

variable {α : Type} {km : ℕ → Bool} {fresh : ℕ → α} {a : PtrArray α} {x : α} {i n : ℕ}
variable {items : List α}

/-- The calls of an array. Those that may need memory come with the answers of `kmalloc`
and what is in the block that it gives. -/
inductive Call (α : Type) where
  | add (km : ℕ → Bool) (fresh : ℕ → α) (guy : α)
  | remove (index : ℕ)
  | setguy (index : ℕ) (ptr : α)
  | getguy (index : ℕ)
  | preallocate (km : ℕ → Bool) (fresh : ℕ → α) (nguys : ℕ)
  | setsize (km : ℕ → Bool) (fresh : ℕ → α) (nguys : ℕ)

/-- The calls of an array that stands for a list. Indices are in range, and sizes are below
`2 ^ 28`. What elements hold that `array_setsize` adds is up to the array. -/
def calls (α : Type) : Client (PtrArray α) (List α) (Call α) Errno (Option α) where
  call
    | .add km fresh guy => do arrayAdd km fresh guy; pure none
    | .remove index => do arrayRemove index; pure none
    | .setguy index ptr => do arraySetguy index ptr; pure none
    | .getguy index => do let guy ← arrayGetguy index; pure (some guy)
    | .preallocate km fresh nguys => do arrayPreallocate km fresh nguys; pure none
    | .setsize km fresh nguys => do arraySetsize km fresh nguys; pure none
  legal items
    | .add _ _ _ => items.length + 1 < 2 ^ 28
    | .remove index | .setguy index _ | .getguy index => index < items.length
    | .preallocate _ _ nguys | .setsize _ _ nguys => nguys < 2 ^ 28
  follow items
    | .add _ _ guy, .ok _, _ => items ++ [guy]
    | .remove index, .ok _, _ => items.eraseIdx index
    | .setguy index ptr, .ok _, _ => items.set index ptr
    | .setsize _ _ nguys, .ok _, a => items.take nguys ++ a.toList.drop items.length
    | _, _, _ => items

/-- **The array is the list.** -/
structure Agrees (a : PtrArray α) (items : List α) : Prop where
  toList : a.toList = items
  max : a.max ≤ 2 ^ 29

/-- The answer to a call: an element of the list, and where there is no memory nothing
changes. -/
def Answers (a : PtrArray α) (items : List α) :
    Call α → Except Errno (Option α) → PtrArray α → Prop
  | .getguy index, r, a' => r = .ok items[index]? ∧ a' = a
  | .remove _, r, _ | .setguy _ _, r, _ => r = .ok none
  | _, .ok _, _ => True
  | _, .error e, a' => e = .ENOMEM ∧ a' = a

theorem Agrees.num (h : Agrees a items) : a.num = items.length := by
  rw [← length_toList, h.toList]

theorem growLoop_le (hn : n ≤ 2 ^ 28) (fuel : ℕ) {m : ℕ} (hm : m ≤ 2 ^ 29) :
    growLoop n fuel m ≤ 2 ^ 29 := by
  induction fuel generalizing m with
  | zero => exact hm
  | succ fuel ih =>
    rw [growLoop]
    split
    · exact ih (by omega)
    · exact hm

theorem newMax_le (hn : n ≤ 2 ^ 28) {m : ℕ} (hm : m ≤ 2 ^ 29) : newMax m n ≤ 2 ^ 29 :=
  growLoop_le hn n hm

/-- **`array_preallocate`** makes room and keeps the elements, or there is no memory. -/
theorem Agrees.preallocate (h : Agrees a items) (hn : n < 2 ^ 28) :
    wp (arrayPreallocate km fresh n) (fun _ a' => Agrees a' items ∧ n ≤ a'.max)
      (fun e a' => e = .error .ENOMEM ∧ a' = a) a := by
  have hle : a.num ≤ a.max ∧ a.num ≤ newMax a.max n := ⟨a.num_le, a.num_le.trans (le_newMax _ _)⟩
  unfold arrayPreallocate
  rw [wp_get_bind, wp_bind, wp_failIf]
  split
  · exact ⟨rfl, rfl⟩
  · rw [wp_set]
    refine ⟨⟨?_, newMax_le hn.le h.max⟩, le_newMax_right _ _⟩
    rw [← h.toList]
    exact List.map_congr_left fun i hi => if_pos (List.mem_range.1 hi)

/-- An array of `n` elements, the first of which are those of the list. -/
structure Resized (a : PtrArray α) (items : List α) (n : ℕ) : Prop where
  num : a.num = n
  max : a.max ≤ 2 ^ 29
  take : a.toList.take items.length = items.take n

theorem Resized.agrees (h : Resized a items n) :
    Agrees a (items.take n ++ a.toList.drop items.length) :=
  ⟨by rw [← h.take, List.take_append_drop], h.max⟩

section

variable (h : Agrees a items)

include h

theorem Agrees.setNum (hn : n ≤ a.max) :
    wp (setNum n) (fun _ a' => Resized a' items n) (fun _ _ => False) a := by
  unfold Arr.setNum
  rw [wp_get_bind, dif_pos hn, wp_set]
  refine ⟨rfl, h.max, ?_⟩
  rw [← h.toList, length_toList, PtrArray.toList, PtrArray.toList, ← List.map_take,
    ← List.map_take, List.take_range, List.take_range, Nat.min_comm]

/-- **`array_setsize`** keeps the common part. -/
theorem Agrees.setsize (hn : n < 2 ^ 28) :
    wp (arraySetsize km fresh n) (fun _ a' => Resized a' items n)
      (fun e a' => e = .error .ENOMEM ∧ a' = a) a := by
  unfold arraySetsize
  rw [wp_get_bind, wp_ite]
  split
  · refine wp_then (h.preallocate hn) ?_
    rintro _ a₁ ⟨h₁, hroom⟩
    exact wp_returns (h₁.setNum hroom) fun _ _ hr => hr
  · rw [wp_ite]
    split
    · rename_i hfree
      rw [wp_set, hfree.1]
      exact ⟨rfl, Nat.zero_le _, List.take_nil⟩
    · exact wp_returns (h.setNum (by omega)) fun _ _ hr => hr

/-- **`array_add`** appends. -/
theorem Agrees.add (hlen : items.length + 1 < 2 ^ 28) :
    wp (arrayAdd km fresh x) (fun _ a' => Agrees a' (items ++ [x]))
      (fun e a' => e = .error .ENOMEM ∧ a' = a) a := by
  unfold arrayAdd
  rw [wp_get_bind, wp_bind, h.num]
  refine wp_imp (h.setsize hlen) fun _ a₁ h₁ => ?_
  have hmax := a₁.num_le
  have hnum := h₁.num
  rw [wp_get_bind, wp_assert_bind (by omega), wp_set]
  -- without its last element the array is the old list
  let a₂ : PtrArray α := { a₁ with num := items.length, num_le := by omega }
  have hlist : a₂.toList = items := by
    have htake := h₁.take
    rwa [PtrArray.toList, ← List.map_take, List.take_range, hnum, Nat.min_eq_left (by omega),
      List.take_of_length_le (by omega)] at htake
  refine ⟨?_, h₁.max⟩
  calc _ = a₂.toList ++ [x] := toList_of_update (by exact hnum) rfl
    _ = items ++ [x] := by rw [hlist]

theorem Agrees.setguy :
    Agrees { a with v := update a.v i x } (items.set i x) := by
  refine ⟨List.ext_getElem ?_ fun j hj _ => ?_, h.max⟩
  · rw [length_toList, List.length_set, h.num]
  · rw [getElem_toList, List.getElem_set]
    simp only [← h.toList, getElem_toList, update_apply, eq_comm]

/-- **A legal call** does to the array what it does to the list. -/
theorem Agrees.call {c : Call α} (hc : (calls α).legal items c) :
    Back ((calls α).call c) (fun r a' => Answers a items c r a' ∧
      Agrees a' ((calls α).follow items c r a')) a := by
  have hnum := h.num
  have hmax := a.num_le
  cases c with
  | add km fresh x =>
    refine wp_bind.2 (wp_mono (h.add hc) (fun _ a' ha => wp_pure.2 ⟨trivial, ha⟩) ?_)
    rintro _ _ ⟨rfl, rfl⟩
    exact ⟨_, rfl, ⟨rfl, rfl⟩, h⟩
  | preallocate km fresh n =>
    refine wp_bind.2 (wp_mono (h.preallocate hc) (fun _ a' ha => wp_pure.2 ⟨trivial, ha.1⟩) ?_)
    rintro _ _ ⟨rfl, rfl⟩
    exact ⟨_, rfl, ⟨rfl, rfl⟩, h⟩
  | setsize km fresh n =>
    refine wp_bind.2 (wp_mono (h.setsize hc) (fun _ a' ha => wp_pure.2 ⟨trivial, ha.agrees⟩) ?_)
    rintro _ _ ⟨rfl, rfl⟩
    exact ⟨_, rfl, ⟨rfl, rfl⟩, h⟩
  | remove i =>
    have hi : i < a.num := hnum ▸ hc
    refine wp_bind.2 (wp_bind.2 (wp_get.2 (wp_bind.2 (wp_assert.2 ?_))))
    rw [if_pos hmax, dif_pos hi, wp_set, wp_pure]
    exact ⟨rfl, by rw [toList_arrayRemove, h.toList]; rfl, h.max⟩
  | setguy i x =>
    have hi : i < a.num := hnum ▸ hc
    refine wp_bind.2 (wp_bind.2 (wp_get.2 (wp_bind.2 (wp_assert.2 ?_))))
    rw [if_pos hi, wp_assert_bind (by omega), wp_set, wp_pure]
    exact ⟨rfl, h.setguy⟩
  | getguy i =>
    have hi : i < a.num := hnum ▸ hc
    refine wp_bind.2 (wp_bind.2 (wp_get.2 (wp_bind.2 (wp_assert.2 ?_))))
    rw [if_pos hi, wp_assert_bind (by omega), wp_pure, wp_pure]
    have hguy : items[i]? = some (a.v i) := by
      simp [← h.toList, PtrArray.toList, hi]
    exact ⟨⟨by rw [hguy], rfl⟩, h⟩

end

/-- **The resizable array is a list**, whatever calls have been made, and the next call
answers for the list. -/
theorem array_is_list [Inhabited α] {s : PtrArray α × List α}
    (hs : (calls α).Reached arrayCreate [] s) :
    Agrees s.1 s.2 ∧ ∀ c, (calls α).legal s.2 c →
      Back ((calls α).call c) (Answers s.1 s.2 c) s.1 :=
  Client.refines hs ⟨rfl, Nat.zero_le _⟩ fun _ _ _ h => h.call

theorem array_is_list_two :
    ∃ s, Runs.exec (calls ℕ).step (arrayCreate, []) [.add (fun _ => true) id 7,
        .setsize (fun _ => true) id 3, .setguy 2 9, .remove 1] = some s ∧
      s.2 = [7, 9] ∧ Agrees s.1 s.2 := by
  let _ (s : PtrArray ℕ × List ℕ) : DecidablePred ((calls ℕ).legal s.2)
    | .add _ _ _ => inferInstanceAs (Decidable (s.2.length + 1 < 2 ^ 28))
    | .remove i | .setguy i _ | .getguy i => inferInstanceAs (Decidable (i < s.2.length))
    | .preallocate _ _ n | .setsize _ _ n => inferInstanceAs (Decidable (n < 2 ^ 28))
  obtain ⟨s, hexec, hitems⟩ := Runs.exists_of_exec
    (Runs.guarded (calls ℕ).step fun s => (calls ℕ).legal s.2) (arrayCreate, [])
    [.add (fun _ => true) id 7, .setsize (fun _ => true) id 3, .setguy 2 9, .remove 1]
    (fun s => s.2 = [7, 9]) (by decide +kernel)
  obtain ⟨hreach, hrun⟩ := Runs.reachable_of_exec_guarded hexec
  exact ⟨s, hrun, by simpa using hitems, (array_is_list hreach).1⟩

end Arr

end Lib

end Os161
