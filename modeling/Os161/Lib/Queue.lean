import Os161.Lib.Model.Queue
import Os161.Common.Client
/-!
# The ring-buffer queue is a list

`q_addtail` appends, `q_remhead` takes the head, and growing the ring is
invisible in the contents. Index arithmetic around the ring is done once,
in `index_eq`: an offset of at most `count` wraps at most once. Over any
sequence of calls the ring holds the list that the calls define
(`queue_is_list`), and a growth that fails leaves it as it was.
-/

namespace Os161

namespace Lib

namespace RingQueue

open List

variable {α : Type} {km : ℕ → Bool} {q q' : RingQueue α} {x : α}

variable (q)

theorem count_lt : q.count < q.size := by
  have h1 := q.nextread_lt
  have h2 := q.nextwrite_lt
  unfold count
  split <;> omega

@[simp] theorem length_toList : q.toList.length = q.count := by
  simp [toList]

/-- Within one turn of the ring, the index wraps at most once. -/
theorem index_eq {i : ℕ} (hi : i < q.size) :
    (q.nextread + i) % q.size =
      if q.nextread + i < q.size then q.nextread + i else q.nextread + i - q.size := by
  have h := q.nextread_lt
  split
  · exact Nat.mod_eq_of_lt ‹_›
  · rw [Nat.mod_eq_sub_mod (by omega), Nat.mod_eq_of_lt (by omega)]

/-- The slot `count` places past the reader is the one to write next. -/
theorem index_count : (q.nextread + q.count) % q.size = q.nextwrite := by
  have h1 := q.nextread_lt
  have h2 := q.nextwrite_lt
  rw [index_eq q q.count_lt]
  unfold count
  split <;> split <;> omega

/-- No element of the queue is in that slot. -/
theorem index_ne_nextwrite {i : ℕ} (hi : i < q.count) :
    (q.nextread + i) % q.size ≠ q.nextwrite := by
  have h1 := q.nextread_lt
  have h2 := q.nextwrite_lt
  rw [index_eq q (lt_trans hi q.count_lt)]
  unfold count at hi
  split at hi <;> split <;> omega

/-- The next slot to write, without the `%`. -/
theorem succ_nextwrite :
    (q.nextwrite + 1) % q.size = if q.nextwrite + 1 = q.size then 0 else q.nextwrite + 1 := by
  have h := q.nextwrite_lt
  split
  · rename_i heq
    rw [heq, Nat.mod_self]
  · exact Nat.mod_eq_of_lt (by omega)

/-- **A ring is full when all but one of its slots are taken.** -/
theorem full_iff : q.full = true ↔ q.count + 1 = q.size := by
  have h1 := q.nextread_lt
  have h2 := q.nextwrite_lt
  unfold full count
  rw [beq_iff_eq, succ_nextwrite]
  split <;> split <;> omega

variable {q}

section

variable (hf : q.count + 1 < q.size)

include hf

/-- A write into a ring that is not full adds one element. -/
theorem count_put : (q.put x).count = q.count + 1 := by
  have h1 := q.nextread_lt
  have h2 := q.nextwrite_lt
  unfold count at hf ⊢
  simp only [put, succ_nextwrite]
  split at hf <;> split <;> split <;> omega

/-- **A write into a ring that is not full appends.** -/
theorem toList_put : (q.put x).toList = q.toList ++ [x] := by
  unfold toList
  rw [count_put hf, range_succ, map_append, map_singleton]
  simp only [put]
  rw [index_count, Function.update_self]
  congr 1
  refine map_congr_left fun i hi => ?_
  rw [Function.update_of_ne (index_ne_nextwrite q (mem_range.1 hi))]

theorem addtailWith_of_not_full {grow : RingQueue α → Option (RingQueue α)} :
    addtailWith grow q x = some (q.put x) := by
  unfold addtailWith
  rw [if_neg (fun h => by rw [full_iff] at h; omega)]

end

/-! ## Growing -/

/-- The doubling loop runs out of work before it runs out of fuel. -/
theorem growSize_ge (targetsize : ℕ) :
    ∀ fuel nsize, 0 < nsize → targetsize ≤ nsize + fuel →
      targetsize ≤ growSize targetsize fuel nsize
  | 0, nsize, _, h => by rw [growSize]; omega
  | fuel + 1, nsize, hpos, h => by
    rw [growSize]
    split
    · exact growSize_ge targetsize fuel _ (by omega) (by omega)
    · omega

/-- **The copying loop moves the whole ring.** `i` is `k` places past the
old reader, the first `k` elements have been written, and there is room
for the rest, so no call of `q_addtail` finds the new ring full. -/
theorem copyLoop_spec (old : RingQueue α) :
    ∀ (fuel k : ℕ) (q : RingQueue α), k ≤ old.count →
      old.count - k ≤ fuel → q.count + (old.count - k) < q.size →
      ∃ q', copyLoop old fuel ((old.nextread + k) % old.size) q = some q' ∧
        q'.size = q.size ∧ q'.toList = q.toList ++ old.toList.drop k := by
  intro fuel
  induction fuel with
  | zero =>
    intro k q hk hfuel hroom
    refine ⟨q, rfl, rfl, ?_⟩
    rw [drop_eq_nil_of_le (by rw [length_toList]; omega), append_nil]
  | succ fuel ih =>
    intro k q hk hfuel hroom
    rw [copyLoop]
    by_cases hend : k = old.count
    · -- the walk has come to the old `nextwrite`
      rw [if_pos (by rw [hend, index_count])]
      refine ⟨q, rfl, rfl, ?_⟩
      rw [drop_eq_nil_of_le (by rw [length_toList]; omega), append_nil]
    · have hlt : k < old.count := by omega
      rw [if_neg (index_ne_nextwrite old hlt), addtailWith_of_not_full (by omega)]
      have hsucc : ((old.nextread + k) % old.size + 1) % old.size =
          (old.nextread + (k + 1)) % old.size := by
        rw [Nat.mod_add_mod, Nat.add_assoc]
      have hcount := count_put (q := q) (x := old.data ((old.nextread + k) % old.size))
        (by omega)
      obtain ⟨q', h1, h2, h3⟩ := ih (k + 1) (q.put (old.data ((old.nextread + k) % old.size)))
        (by omega) (by omega) (by rw [hcount]; simp only [put]; omega)
      refine ⟨q', ?_, h2, ?_⟩
      · rw [Option.bind_some, hsucc]
        exact h1
      · rw [h3, toList_put (by omega), append_assoc]
        have hk' : k < old.toList.length := by rw [length_toList]; exact hlt
        rw [drop_eq_getElem_cons hk', singleton_append]
        simp [toList]

/-- The copying loop ends with the whole ring in the new one, which was empty. -/
theorem copyLoop_empty (q : RingQueue α) (data : ℕ → α) {n : ℕ} (hn : q.size ≤ n) (h : 0 < n) :
    ∃ q', copyLoop q q.size q.nextread ⟨n, 0, 0, data, h, h⟩ = some q' ∧
      q'.toList = q.toList ∧ q'.size = n := by
  have hlt := q.count_lt
  have h0 : q.nextread = (q.nextread + 0) % q.size := by
    rw [Nat.add_zero, Nat.mod_eq_of_lt q.nextread_lt]
  rw [h0]
  obtain ⟨q', h1, h2, h3⟩ := copyLoop_spec q q.size 0 ⟨n, 0, 0, data, h, h⟩
    (by omega) (by omega) (Nat.lt_of_lt_of_le (by simpa [count] using hlt) hn)
  refine ⟨q', h1, ?_, h2⟩
  rw [h3, drop_zero]
  simp [toList, count]

/-- **Growing is invisible** in the contents, and makes room. -/
theorem qGrow_spec (hkm : ∀ m, km m = true) (q : RingQueue α) (t : ℕ) :
    ∃ q', qGrow km q t = some q' ∧ q'.toList = q.toList ∧
      q'.size = growSize t t q.size := by
  unfold qGrow
  rw [if_pos (hkm _)]
  exact copyLoop_empty q q.data (le_growSize _ _ _) _

/-- **`q_preallocate` is invisible** in the contents. -/
theorem qPreallocate_spec (hkm : ∀ m, km m = true) (q : RingQueue α) (t : ℕ) :
    ∃ q', qPreallocate km q t = some q' ∧ q'.toList = q.toList ∧ t ≤ q'.size := by
  unfold qPreallocate
  by_cases h : q.size < t
  · rw [if_pos h]
    obtain ⟨q', h1, h2, h3⟩ := qGrow_spec hkm q t
    exact ⟨q', h1, h2, by rw [h3]; exact growSize_ge t t _ q.size_pos (by omega)⟩
  · rw [if_neg h]
    exact ⟨q, rfl, rfl, by omega⟩

/-- **`q_addtail` appends**, with memory to be had. -/
theorem qAddtail_spec (hkm : ∀ m, km m = true) (q : RingQueue α) (x : α) :
    ∃ q', qAddtail km q x = some q' ∧ q'.toList = q.toList ++ [x] := by
  unfold qAddtail
  by_cases hf : q.full = true
  · obtain ⟨q', h1, h2, h3⟩ := qGrow_spec hkm q (q.size + 1)
    have hsize : q.size + 1 ≤ q'.size := by
      rw [h3]; exact growSize_ge _ _ _ q.size_pos (by omega)
    have hcount : q'.count = q.count := by rw [← length_toList, h2, length_toList]
    refine ⟨q'.put x, ?_, ?_⟩
    · unfold addtailWith
      rw [if_pos hf]
      exact congrArg (Option.map fun q' => q'.put x) h1
    · rw [toList_put (by rw [hcount]; have := q.count_lt; omega), h2]
  · have hlt : q.count + 1 < q.size := by
      have := q.count_lt
      rw [full_iff] at hf
      omega
    exact ⟨q.put x, addtailWith_of_not_full hlt, toList_put hlt⟩

/-! ## Taking the head -/

theorem qEmpty_iff (q : RingQueue α) : q.qEmpty = true ↔ q.toList = [] := by
  have h1 := q.nextread_lt
  have h2 := q.nextwrite_lt
  rw [← length_eq_zero_iff, length_toList]
  unfold qEmpty count
  rw [beq_iff_eq]
  split <;> omega

/-- **`q_remhead` takes the head.** -/
theorem qRemhead_spec (q : RingQueue α) {t : α} {ts : List α} (h : q.toList = t :: ts) :
    ∃ q', q.qRemhead = some (t, q') ∧ q'.toList = ts := by
  have h1 := q.nextread_lt
  have h2 := q.nextwrite_lt
  have hne : ¬ q.qEmpty = true := by rw [qEmpty_iff, h]; simp
  unfold qRemhead
  rw [if_neg hne]
  have hsucc : (q.nextread + 1) % q.size =
      if q.nextread + 1 = q.size then 0 else q.nextread + 1 := by
    split
    · rename_i heq
      rw [heq, Nat.mod_self]
    · exact Nat.mod_eq_of_lt (by omega)
  have hpos : 0 < q.count := by rw [← length_toList, h]; simp
  -- the shorter ring reads the same slots, one place further on
  have hcount : (RingQueue.mk q.size q.nextwrite ((q.nextread + 1) % q.size) q.data
      q.nextwrite_lt (Nat.mod_lt _ q.size_pos)).count + 1 = q.count := by
    unfold count at hpos ⊢
    simp only [hsucc]
    split at hpos <;> split <;> split <;> omega
  have hlist : q.toList = q.data q.nextread :: (RingQueue.mk q.size q.nextwrite
      ((q.nextread + 1) % q.size) q.data q.nextwrite_lt (Nat.mod_lt _ q.size_pos)).toList := by
    unfold toList
    rw [← hcount, range_succ_eq_map, map_cons, Nat.add_zero, Nat.mod_eq_of_lt h1,
      map_map]
    congr 1
    refine map_congr_left fun i _ => ?_
    simp only [Function.comp]
    rw [Nat.mod_add_mod]
    congr 2
    omega
  rw [h] at hlist
  injection hlist with ha hb
  exact ⟨_, by rw [← ha], hb.symm⟩

/-! ## When the ring grows -/

theorem size_of_qGrow {n : ℕ} (h : qGrow km q n = some q') : q'.size = growSize n n q.size := by
  have hkm : ∀ m : ℕ, (fun _ => true : ℕ → Bool) m = true := fun _ => rfl
  obtain ⟨q₁, h₁, -, hsize⟩ := qGrow_spec hkm q n
  unfold qGrow at h h₁
  split at h
  · rw [if_pos rfl, h] at h₁
    rw [Option.some.inj h₁]
    exact hsize
  · cases h

theorem le_size_of_qPreallocate {n : ℕ} (h : qPreallocate km q n = some q') : n ≤ q'.size := by
  unfold qPreallocate at h
  split at h
  · rw [size_of_qGrow h]
    exact growSize_ge n n q.size q.size_pos (by omega)
  · obtain rfl := Option.some.inj h
    omega

/-- With no memory to be had, `q_addtail` goes through if the ring has a slot
to spare, and only then. -/
theorem qAddtail_noMemory_iff :
    qAddtail (fun _ => false) q x = some (q.put x) ↔ q.count + 1 < q.size := by
  constructor
  · intro h
    by_contra hlt
    have hfull : q.full = true := (full_iff q).2 (by have := q.count_lt; omega)
    have hgrow : qGrow (fun _ => false) q (q.size + 1) = none := if_neg Bool.false_ne_true
    rw [qAddtail, addtailWith, if_pos hfull, hgrow] at h
    cases h
  · intro hlt
    exact addtailWith_of_not_full hlt

/-- The ring has come from `q` by adding to it, and has not grown while there
was room for what it holds. -/
structure Added (q q' : RingQueue α) : Prop where
  count : q.count ≤ q'.count
  size : q.size ≤ q'.size
  grows : q'.count < q.size → q'.size = q.size

theorem Added.refl (q : RingQueue α) : Added q q := ⟨le_rfl, le_rfl, fun _ => rfl⟩

theorem Added.trans {q₁ q₂ q₃ : RingQueue α} (h₁ : Added q₁ q₂) (h₂ : Added q₂ q₃) :
    Added q₁ q₃ where
  count := h₁.count.trans h₂.count
  size := h₁.size.trans h₂.size
  grows := by
    intro h
    have h12 : q₂.size = q₁.size := h₁.grows (lt_of_le_of_lt h₂.count h)
    rw [← h12] at h
    exact (h₂.grows h).trans h12

/-- Adding grows the ring if the old ring could not hold what there is now. -/
theorem Added.size_eq_iff (h : Added q q') : q'.size = q.size ↔ q'.count < q.size := by
  constructor
  · intro heq
    have hlt := q'.count_lt
    omega
  · exact h.grows

/-- **`q_addtail` grows the ring only when it is full.** -/
theorem added_qAddtail (hkm : ∀ m, km m = true) (h : qAddtail km q x = some q') : Added q q' := by
  obtain ⟨q₁, h₁, hlist⟩ := qAddtail_spec hkm q x
  obtain rfl := Option.some.inj (h.symm.trans h₁)
  have hcount : q'.count = q.count + 1 := by
    rw [← length_toList, hlist, length_append, length_toList, length_singleton]
  unfold qAddtail addtailWith at h
  split at h
  · next hfull =>
    rw [full_iff] at hfull
    obtain ⟨q₂, hq₂, rfl⟩ := Option.map_eq_some_iff.1 h
    have hle : q.size + 1 ≤ q₂.size := by
      rw [size_of_qGrow hq₂]
      exact growSize_ge _ _ _ q.size_pos (by omega)
    exact ⟨by omega, by simp only [put]; omega, fun hlt => by omega⟩
  · obtain rfl := Option.some.inj h
    exact ⟨by omega, le_rfl, fun _ => rfl⟩

end RingQueue

/-! ## Whole runs -/

namespace Queue

open RingQueue Prog

variable {α : Type} {km : ℕ → Bool} {fresh : ℕ → α} {q q' old : RingQueue α} {x : α} {t : ℕ}

/-- No `int` overflows on the way to the new size. -/
theorem run_double (ht : t ≤ 2 ^ 28) (fuel n : ℕ) :
    double t fuel n q = .ok (growSize t fuel n) q := by
  induction fuel generalizing n with
  | zero => rfl
  | succ fuel ih =>
    rw [double, growSize]
    split
    · rw [bind_of_ok (assert_of (by omega)), ih]
    · rfl

theorem growSize_le (ht : t ≤ 2 ^ 28) (fuel : ℕ) {n : ℕ} (hn : n ≤ 2 ^ 29) :
    growSize t fuel n ≤ 2 ^ 29 := by
  induction fuel generalizing n with
  | zero => exact hn
  | succ fuel ih =>
    rw [growSize]
    split
    · exact ih (by omega)
    · exact hn

/-- The loop that copies never comes to a full ring. -/
theorem run_copy {fuel i : ℕ} (h : copyLoop old fuel i q = some q') :
    copy old fuel i q = .ok () q' := by
  induction fuel generalizing i q with
  | zero =>
    obtain rfl := Option.some.inj h
    rfl
  | succ fuel ih =>
    rw [copyLoop] at h
    rw [copy]
    split at h
    · rename_i hend
      obtain rfl := Option.some.inj h
      rw [if_pos hend]
      rfl
    · rename_i hend
      obtain ⟨q₁, hq₁, hrest⟩ := Option.bind_eq_some_iff.1 h
      have hput : ¬ q.full = true ∧ q₁ = q.put (old.data i) := by
        unfold RingQueue.addtailWith at hq₁
        split at hq₁
        · cases hq₁
        · exact ⟨‹_›, (Option.some.inj hq₁).symm⟩
      have hadd : addtailWith halt (old.data i) q = .ok () q₁ := by
        unfold addtailWith
        rw [get_bind_apply, if_neg hput.1, hput.2]
        rfl
      rw [if_neg hend, bind_of_ok hadd]
      exact ih hrest

/-- **`q_grow`** makes room and keeps the contents, or there is no memory and
nothing has changed. -/
theorem wp_qGrow (hq : q.size ≤ 2 ^ 29) (ht : t ≤ 2 ^ 28) :
    wp (qGrow km fresh t)
      (fun _ q' => q'.toList = q.toList ∧ t ≤ q'.size ∧ q'.size ≤ 2 ^ 29)
      (fun e q' => e = .error .ENOMEM ∧ q' = q) q := by
  have hle : q.size ≤ growSize t t q.size := le_growSize _ _ _
  have hpos : 0 < growSize t t q.size := lt_of_lt_of_le q.size_pos hle
  unfold qGrow
  rw [wp_get_bind, wp_bind, wp_of_ok (run_double ht _ _), wp_bind, wp_failIf]
  split
  · exact ⟨rfl, rfl⟩
  · obtain ⟨q', hcopy, hlist, hsize⟩ := copyLoop_empty q fresh hle hpos
    rw [wp_bind, wp_set, wp_of_ok (run_copy hcopy), hsize]
    exact ⟨hlist, growSize_ge t t _ q.size_pos (by omega), growSize_le ht t hq⟩

/-- The calls of a queue. Those that may need memory come with the answers of `kmalloc`
and what is in the block that it gives. -/
inductive Call (α : Type) where
  | addtail (km : ℕ → Bool) (fresh : ℕ → α) (ptr : α)
  | remhead
  | preallocate (km : ℕ → Bool) (fresh : ℕ → α) (size : ℕ)

/-- The calls of a queue that stands for a list. Nothing is taken from an empty queue, and
targets and numbers of elements are below `2 ^ 28`. -/
def calls (α : Type) : Client (RingQueue α) (List α) (Call α) Errno (Option α) where
  call
    | .addtail km fresh ptr => do qAddtail km fresh ptr; pure none
    | .remhead => do let ret ← qRemhead; pure (some ret)
    | .preallocate km fresh size => do qPreallocate km fresh size; pure none
  legal items
    | .addtail _ _ _ => items.length + 1 < 2 ^ 28
    | .remhead => items ≠ []
    | .preallocate _ _ size => size < 2 ^ 28
  follow items
    | .addtail _ _ ptr, .ok _, _ => items ++ [ptr]
    | .remhead, .ok _, _ => items.tail
    | _, _, _ => items

/-- **The queue is the list.** -/
structure Agrees (q : RingQueue α) (items : List α) : Prop where
  toList : q.toList = items
  size : q.size ≤ 2 ^ 29

/-- The answer to a call: the head comes out, and where there is no memory nothing
changes. -/
def Answers (q : RingQueue α) (items : List α) :
    Call α → Except Errno (Option α) → RingQueue α → Prop
  | .remhead, r, _ => r = .ok items.head?
  | _, .ok _, _ => True
  | _, .error e, q' => e = .ENOMEM ∧ q' = q

variable {items : List α}

theorem Agrees.put (h : Agrees q items) (hlt : q.count + 1 < q.size) :
    Agrees (q.put x) (items ++ [x]) :=
  ⟨by rw [toList_put hlt, h.toList], h.size⟩

/-- **`q_addtail`** appends, or there is no memory. -/
theorem Agrees.addtail (h : Agrees q items) (hlen : items.length + 1 < 2 ^ 28) :
    wp (qAddtail km fresh x) (fun _ q' => Agrees q' (items ++ [x]))
      (fun e q' => e = .error .ENOMEM ∧ q' = q) q := by
  have hcount : q.count = items.length := by rw [← length_toList, h.toList]
  unfold qAddtail addtailWith
  rw [wp_get_bind, wp_get_bind, wp_bind, wp_ite]
  split
  · rename_i hfull
    rw [full_iff] at hfull
    refine wp_imp (wp_qGrow h.size (by omega)) ?_
    rintro _ q' ⟨hlist, hroom, hsize⟩
    have hcount' : q'.count = q.count := by rw [← length_toList, hlist, length_toList]
    exact wp_modify.2 (Agrees.put ⟨hlist.trans h.toList, hsize⟩ (by omega))
  · rename_i hfull
    rw [full_iff] at hfull
    have hlt := q.count_lt
    exact wp_pure.2 (wp_modify.2 (h.put (by omega)))

theorem Agrees.preallocate (h : Agrees q items) (ht : t < 2 ^ 28) :
    wp (qPreallocate km fresh t) (fun _ q' => Agrees q' items)
      (fun e q' => e = .error .ENOMEM ∧ q' = q) q := by
  unfold qPreallocate
  rw [wp_get_bind, wp_ite]
  split
  · refine wp_imp (wp_qGrow h.size (by omega)) ?_
    exact fun _ q' hq => ⟨hq.1.trans h.toList, hq.2.2⟩
  · exact wp_pure.2 h

theorem Agrees.remhead {xs : List α} (h : Agrees q (x :: xs)) :
    wp qRemhead (fun y q' => y = x ∧ Agrees q' xs) (fun _ _ => False) q := by
  obtain ⟨q', hq, hlist⟩ := qRemhead_spec q h.toList
  have hsize : q'.size = q.size := by
    unfold RingQueue.qRemhead at hq
    split at hq <;> cases hq
    rfl
  unfold qRemhead
  rw [wp_get_bind, hq]
  exact wp_bind.2 (wp_set.2 (wp_pure.2 ⟨rfl, hlist, hsize ▸ h.size⟩))

/-- **A legal call** does to the queue what it does to the list. -/
theorem Agrees.call (h : Agrees q items) {c : Call α} (hc : (calls α).legal items c) :
    Back ((calls α).call c) (fun r q' => Answers q items c r q' ∧
      Agrees q' ((calls α).follow items c r q')) q := by
  cases c with
  | addtail km fresh x =>
    refine wp_bind.2 (wp_mono (h.addtail hc) (fun _ q' hq => wp_pure.2 ⟨trivial, hq⟩) ?_)
    rintro _ _ ⟨rfl, rfl⟩
    exact ⟨_, rfl, ⟨rfl, rfl⟩, h⟩
  | preallocate km fresh n =>
    refine wp_bind.2 (wp_mono (h.preallocate hc) (fun _ q' hq => wp_pure.2 ⟨trivial, hq⟩) ?_)
    rintro _ _ ⟨rfl, rfl⟩
    exact ⟨_, rfl, ⟨rfl, rfl⟩, h⟩
  | remhead =>
    obtain ⟨x, xs, rfl⟩ := List.exists_cons_of_ne_nil hc
    refine wp_bind.2 (wp_returns h.remhead ?_)
    rintro _ q' ⟨rfl, hq⟩
    exact wp_pure.2 ⟨rfl, hq⟩

/-- **The ring-buffer queue is a list**, whatever calls have been made, and the next call
answers for the list. -/
theorem queue_is_list [Inhabited α] {size : ℕ} (hpos : 0 < size) (hsize : size ≤ 2 ^ 28)
    {s : RingQueue α × List α} (hs : (calls α).Reached (qCreate size hpos) [] s) :
    Agrees s.1 s.2 ∧ ∀ c, (calls α).legal s.2 c →
      Back ((calls α).call c) (Answers s.1 s.2 c) s.1 := by
  have hnew : Agrees (qCreate size hpos : RingQueue α) [] := ⟨rfl, by show size ≤ _; omega⟩
  exact Client.refines hs hnew fun _ _ _ h => h.call

/-- A ring of two slots grows with the second element. -/
theorem queue_is_list_two :
    ∃ s, Runs.exec (calls ℕ).step (qCreate 2 (by decide), [])
        [.addtail (fun _ => true) id 7, .addtail (fun _ => true) id 8, .remhead] = some s ∧
      s.1.size = 4 ∧ Agrees s.1 s.2 := by
  let _ (s : RingQueue ℕ × List ℕ) : DecidablePred ((calls ℕ).legal s.2)
    | .addtail _ _ _ => inferInstanceAs (Decidable (s.2.length + 1 < 2 ^ 28))
    | .remhead => inferInstanceAs (Decidable (s.2 ≠ []))
    | .preallocate _ _ size => inferInstanceAs (Decidable (size < 2 ^ 28))
  obtain ⟨s, hexec, hsize⟩ := Runs.exists_of_exec
    (Runs.guarded (calls ℕ).step fun s => (calls ℕ).legal s.2) (qCreate 2 (by decide), [])
    [.addtail (fun _ => true) id 7, .addtail (fun _ => true) id 8, .remhead]
    (fun s => s.1.size = 4) (by decide +kernel)
  obtain ⟨hreach, hrun⟩ := Runs.reachable_of_exec_guarded hexec
  exact ⟨s, hrun, by simpa using hsize, (queue_is_list (by decide) (by decide) hreach).1⟩

end Queue

end Lib

end Os161
