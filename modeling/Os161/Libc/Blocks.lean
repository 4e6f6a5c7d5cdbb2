import Os161.Libc.Tiling
/-!
# What a split and a merge do to the list of blocks

Both replace a few neighbouring blocks by others that fill the same place
(`inUse_replace`), and neither touches a block in use. A list has no two free
neighbours (`NoTwoFree`) before `malloc` and after `free`; a merge with the
block above and then with the one below restores that.
-/

namespace Os161

namespace Libc

open Layout Block

/-- A block in use, and where its header is. -/
def InUse (lo : ℕ) (bs : List Block) (x : ℕ) (b : Block) : Prop :=
  Placed size lo bs x b ∧ b.used = true

/-- **No two adjacent blocks are both free.** -/
def NoTwoFree (bs : List Block) : Prop := bs.IsChain fun b c => b.used = true ∨ c.used = true

/-- What becomes of a free block of which `n` bytes are wanted. -/
def splitBlock (b : Block) (n : ℕ) : List Block :=
  if b.size - 8 - n < 16 then [b] else [⟨n + 8, false⟩, ⟨b.size - 8 - n, false⟩]

/-- What becomes of two neighbours. -/
def mergeBlocks (b c : Block) : List Block :=
  if b.used = true ∨ c.used = true then [b, c] else [⟨b.size + c.size, false⟩]

variable {lo x y n : ℕ} {b c d : Block} {bs pre mid mid' post : List Block}

/-! ## Blocks in use -/

theorem inUse_append : InUse lo (pre ++ post) x b ↔
    InUse lo pre x b ∨ InUse (stop size lo pre) post x b := by
  unfold InUse
  rw [Placed.append_iff, or_and_right]

theorem inUse_cons : InUse lo (c :: bs) x b ↔
    (x = lo ∧ b = c ∧ c.used = true) ∨ InUse (lo + c.size) bs x b := by
  unfold InUse
  rw [Placed.cons_iff, or_and_right, and_assoc]
  refine or_congr_left (and_congr_right fun _ => and_congr_right fun hb => ?_)
  rw [hb]

theorem not_inUse_nil : ¬ InUse lo [] x b := fun h => Placed.not_nil h.1

/-- A free block counts for nothing. -/
theorem inUse_cons_free (hc : c.used = false) :
    InUse lo (c :: bs) x b ↔ InUse (lo + c.size) bs x b := by
  rw [inUse_cons, hc]
  exact or_iff_right fun h => Bool.false_ne_true h.2.2

/-- **Neighbouring blocks are replaced by others of the same total size**, and
what is in use elsewhere stays where it is. -/
theorem inUse_replace (hstop : stop size (stop size lo pre) mid =
      stop size (stop size lo pre) mid')
    (hmid : ∀ y d, InUse (stop size lo pre) mid y d ↔
      InUse (stop size lo pre) mid' y d) :
    InUse lo (pre ++ mid ++ post) x b ↔ InUse lo (pre ++ mid' ++ post) x b := by
  rw [inUse_append, inUse_append, inUse_append, inUse_append, stop_append, stop_append, hstop, hmid]

theorem stop_splitBlock :
    stop size lo (splitBlock b n) = lo + b.size := by
  unfold splitBlock
  split
  · rw [stop_cons, stop_nil]
  · simp only [stop_cons, stop_nil]
    omega

/-- A split does not touch what is in use. -/
theorem inUse_splitBlock (hfree : b.used = false) : InUse lo (splitBlock b n) y d ↔ False := by
  refine iff_false_intro fun h => ?_
  unfold splitBlock at h
  split at h
  · exact not_inUse_nil ((inUse_cons_free hfree).1 h)
  · exact not_inUse_nil ((inUse_cons_free rfl).1 ((inUse_cons_free rfl).1 h))

theorem stop_mergeBlocks : stop size lo (mergeBlocks b c) = lo + b.size + c.size := by
  unfold mergeBlocks
  split
  · rw [stop_cons, stop_cons, stop_nil]
  · rw [stop_cons, stop_nil, Nat.add_assoc]

/-- **A merge does not touch what is in use.** -/
theorem inUse_mergeBlocks :
    InUse lo (pre ++ mergeBlocks b c ++ post) x d ↔ InUse lo (pre ++ b :: c :: post) x d := by
  have hsplit : pre ++ b :: c :: post = pre ++ [b, c] ++ post := by simp
  rw [hsplit]
  refine inUse_replace ?_ fun y d => ?_
  · rw [stop_mergeBlocks, stop_cons, stop_cons, stop_nil]
  unfold mergeBlocks
  split
  · exact Iff.rfl
  · rename_i hboth
    obtain ⟨hb, hc⟩ := not_or.1 hboth
    rw [inUse_cons_free rfl, inUse_cons_free (Bool.eq_false_iff.2 hb),
      inUse_cons_free (Bool.eq_false_iff.2 hc)]
    exact ⟨fun h => absurd h not_inUse_nil, fun h => absurd h not_inUse_nil⟩

/-- A block is taken into use. -/
theorem inUse_take (hfree : b.used = false) :
    InUse lo (pre ++ { b with used := true } :: post) y d ↔
      InUse lo (pre ++ b :: post) y d ∨
        (y = stop size lo pre ∧ d = { b with used := true }) := by
  rw [inUse_append, inUse_append, inUse_cons, inUse_cons_free hfree]
  constructor
  · rintro (h | ⟨h1, h2, -⟩ | h)
    · exact .inl (.inl h)
    · exact .inr ⟨h1, h2⟩
    · exact .inl (.inr h)
  · rintro ((h | h) | ⟨h1, h2⟩)
    · exact .inl h
    · exact .inr (.inr h)
    · exact .inr (.inl ⟨h1, h2, rfl⟩)

/-- Where a free block is, none is in use. -/
theorem not_inUse_free (hfree : b.used = false) (hpos : ∀ e ∈ pre ++ b :: post, 0 < e.size) :
    ¬ InUse lo (pre ++ b :: post) (stop size lo pre) d := by
  rintro ⟨hd, hused⟩
  have hb : Placed size lo (pre ++ b :: post) (stop size lo pre) b :=
    ⟨pre, post, rfl, rfl⟩
  have h1 := hpos b (by simp)
  have h2 := hpos d hd.mem
  rcases hb.apart hd with ⟨-, rfl⟩ | h | h
  · rw [hfree] at hused
    exact Bool.false_ne_true hused
  · omega
  · omega

/-- A block is given back. -/
theorem inUse_drop (hpos : ∀ e ∈ pre ++ b :: post, 0 < e.size) :
    InUse lo (pre ++ { b with used := false } :: post) y d ↔
      InUse lo (pre ++ b :: post) y d ∧ y ≠ stop size lo pre := by
  have hpos' : ∀ e ∈ pre ++ { b with used := false } :: post, 0 < e.size := by
    intro e he
    rw [List.mem_append, List.mem_cons] at he
    rcases he with he | rfl | he
    · exact hpos e (by simp [he])
    · exact hpos b (by simp)
    · exact hpos e (by simp [he])
  constructor
  · intro h
    refine ⟨?_, fun hy => ?_⟩
    · rw [inUse_append, inUse_cons_free rfl] at h
      rw [inUse_append, inUse_cons]
      exact h.imp_right .inr
    · rw [hy] at h
      exact not_inUse_free rfl hpos' h
  · rintro ⟨h, hy⟩
    rw [inUse_append, inUse_cons] at h
    rw [inUse_append, inUse_cons_free rfl]
    exact h.imp_right fun h => h.resolve_left fun h => hy h.1

/-! ## No two free neighbours -/

theorem noTwoFree_cons_used (hb : b.used = true) : NoTwoFree (b :: bs) ↔ NoTwoFree bs := by
  unfold NoTwoFree
  rw [List.isChain_cons]
  exact and_iff_right fun c _ => .inl hb

/-- Only whether a block is in use counts. -/
theorem NoTwoFree.cons_congr (h : NoTwoFree (b :: bs)) (hused : c.used = b.used) :
    NoTwoFree (c :: bs) := by
  unfold NoTwoFree at h ⊢
  rw [List.isChain_cons] at h ⊢
  rw [hused]
  exact h

/-- Behind a block in use, and before one, everything is allowed. -/
theorem noTwoFree_append_used (hb : b.used = true) :
    NoTwoFree (pre ++ b :: post) ↔ NoTwoFree pre ∧ NoTwoFree post := by
  have hcons : NoTwoFree (b :: post) ↔ NoTwoFree post := noTwoFree_cons_used hb
  rw [← hcons]
  unfold NoTwoFree
  rw [List.isChain_append]
  refine and_congr_right fun _ => and_iff_left fun a _ c hc => ?_
  rw [List.head?_cons, Option.mem_some_iff] at hc
  exact .inr (hc ▸ hb)

theorem NoTwoFree.left (h : NoTwoFree (pre ++ post)) : NoTwoFree pre :=
  List.IsChain.left_of_append h

theorem NoTwoFree.right (h : NoTwoFree (pre ++ post)) : NoTwoFree post :=
  List.IsChain.right_of_append h

/-- **A free block is merged with the one above it.** -/
theorem NoTwoFree.mergeAbove (h : NoTwoFree (c :: post)) (hb : b.used = false) :
    ∃ d post', mergeBlocks b c ++ post = d :: post' ∧ d.used = false ∧ NoTwoFree (d :: post') := by
  unfold mergeBlocks
  split
  · rename_i hused
    have hc : c.used = true := hused.resolve_left (by rw [hb]; exact Bool.false_ne_true)
    refine ⟨b, c :: post, rfl, hb, ?_⟩
    exact List.isChain_cons_cons.2 ⟨.inr hc, h⟩
  · rename_i hboth
    have hc : c.used = false := Bool.eq_false_iff.2 (not_or.1 hboth).2
    exact ⟨_, post, rfl, rfl, h.cons_congr hc.symm⟩

/-- **A free block is merged with the one below it.** -/
theorem NoTwoFree.mergeBelow (hpre : NoTwoFree (pre ++ [b])) (h : NoTwoFree (c :: post))
    (hc : c.used = false) : NoTwoFree (pre ++ mergeBlocks b c ++ post) := by
  unfold mergeBlocks
  split
  · rename_i hused
    have hb : b.used = true := hused.resolve_right (by rw [hc]; exact Bool.false_ne_true)
    have hsplit : pre ++ [b, c] ++ post = pre ++ b :: (c :: post) := by simp
    rw [hsplit, noTwoFree_append_used hb]
    exact ⟨hpre.left, h⟩
  · rename_i hboth
    have hb : b.used = false := Bool.eq_false_iff.2 (not_or.1 hboth).1
    have hsplit : pre ++ [⟨b.size + c.size, false⟩] ++ post =
        pre ++ (⟨b.size + c.size, false⟩ :: post) := by simp
    rw [hsplit]
    unfold NoTwoFree at hpre ⊢
    rw [List.isChain_append] at hpre ⊢
    refine ⟨hpre.1, h.cons_congr hc.symm, fun a ha d hd => ?_⟩
    have hlast := hpre.2.2 a ha b (by rw [List.head?_cons, Option.mem_some_iff])
    exact .inl (hlast.resolve_right (by rw [hb]; exact Bool.false_ne_true))

/-- **The block that is taken splits off what is left of it.** -/
theorem NoTwoFree.take (h : NoTwoFree (pre ++ b :: post)) (hfree : b.used = false)
    (hsplit : splitBlock b n = c :: mid) :
    NoTwoFree (pre ++ { c with used := true } :: (mid ++ post)) := by
  rw [noTwoFree_append_used rfl]
  refine ⟨h.left, ?_⟩
  unfold splitBlock at hsplit
  split at hsplit
  · obtain ⟨-, rfl⟩ := List.cons.inj hsplit
    exact List.IsChain.tail h.right
  · obtain ⟨-, rfl⟩ := List.cons.inj hsplit
    exact h.right.cons_congr hfree.symm

end Libc

end Os161
