import Os161.Libc.Blocks
/-!
# `malloc` and `free` on a tiled heap

One specification for each function of `malloc.c`, in terms of the list of
blocks: the search finds a free block that is large enough or comes to the top
of the heap with the right `mh_prevblock`, a split makes two blocks of one, a
merge makes one of two. No `errx` is reached on the way.
-/

namespace Os161

namespace Libc

open Layout Prog Function Block

variable {h h' : Heap} {least x y n : ℕ} {b c : Block} {bs pre post : List Block}
  {Q : Unit → Heap → Prop} {E : Stop Exit → Heap → Prop}

theorem wp_setHeader {mh : ℕ} {f : Mheader → Mheader} :
    wp (setHeader mh f) Q E h ↔
      Q () { h with mem := update h.mem mh (f (h.mem mh)) } := wp_modify

theorem wp_mallocDeadbeef {ptr size : ℕ} :
    wp (mallocDeadbeef ptr size) Q E h ↔
      Q () { h with mem := fun a => if ptr ≤ a ∧ a < ptr + size then .deadbeef else h.mem a } :=
  wp_modify

namespace TiledBy

/-- The header of one block of the list. -/
theorem at_split (h₁ : TiledBy least h (pre ++ b :: post)) (hx : x = stop size h.heapbase pre) :
    Head least h.mem x (pre.getLast?.or none) b := by
  subst hx
  exact (laid_append.1 h₁.laid).2.1

/-- The header of the block above. -/
theorem at_second (h₁ : TiledBy least h (pre ++ b :: c :: post))
    (hx : x = stop size h.heapbase pre) : Head least h.mem (x + b.size) (some b) c := by
  subst hx
  exact (laid_append.1 h₁.laid).2.2.1

section

variable (h₁ : TiledBy least h (pre ++ b :: post))

include h₁

section

variable (hx : x = stop size h.heapbase pre)

include hx

theorem split_le :
    h.heapbase ≤ x ∧ x + b.size ≤ h.heaptop :=
  h₁.placed_le ⟨pre, post, rfl, hx⟩

/-- `M_NEXT`. -/
theorem next_eq :
    h.next x = x + b.size := by
  have hle := (h₁.split_le hx).2
  have hlt := h₁.top_lt
  rw [Heap.next, (h₁.at_split hx).nextOff, add32]
  omega

/-- `M_SIZE`. -/
theorem size_eq :
    (h.mem x).size = b.size - 8 := by
  have hle := (h₁.split_le hx).2
  have hlt := h₁.top_lt
  exact (h₁.at_split hx).size_eq (by omega)

/-- The last block, and no other, ends at the top. -/
theorem end_eq_top_iff :
    x + b.size = h.heaptop ↔ post = [] := by
  have htop := h₁.top
  rw [stop_append, ← hx, stop_cons] at htop
  constructor
  · intro hend
    cases post with
    | nil => rfl
    | cons d post =>
      have := h₁.size_pos d (by simp)
      have hle : x + b.size + d.size ≤ stop size (x + b.size + d.size) post := le_stop
      rw [stop_cons] at htop
      omega
  · rintro rfl
    exact htop

end

end

end TiledBy

/-! ## The search -/

theorem Head.inuse_ne_zero {mem : ℕ → Mheader} {p : Option Block} (ha : Head least mem x p b) :
    (mem x).inuse ≠ 0 ↔ b.used = true := by
  rw [ha.inuse]
  cases b.used <;> decide

/-- **The search finds a free block that is large enough, or the top.** -/
theorem wp_findFrom {fuel i right : ℕ} {p : Option Block}
    (hl : Laid size (Head least h.mem) i p bs) (htop : stop size i bs = h.heaptop)
    (hlt : h.heaptop < 2 ^ 32) (hright : right = prevField p) (hfuel : bs.length < fuel) :
    wp (findFrom n fuel i right)
      (fun r h' => h' = h ∧ match r with
        | .inl mh => ∃ b, Placed size i bs mh b ∧ b.used = false ∧ n ≤ b.size - 8
        | .inr (j, right') => j = h.heaptop ∧ right' = prevField (bs.getLast?.or p) ∧
          ∀ b ∈ bs, b.used = true ∨ b.size - 8 < n)
      (fun _ _ => False) h := by
  induction bs generalizing fuel i right p with
  | nil =>
    obtain ⟨fuel, rfl⟩ : ∃ k, fuel = k + 1 := ⟨fuel - 1, by omega⟩
    unfold findFrom
    have hge : ¬ i < h.heaptop := by
      rw [← htop, stop_nil]
      exact Nat.lt_irrefl i
    simp only [wp_bind, wp_get, if_neg hge, wp_pure]
    exact ⟨trivial, htop, hright, nofun⟩
  | cons b bs ih =>
    rw [List.length_cons] at hfuel
    obtain ⟨fuel, rfl⟩ : ∃ k, fuel = k + 1 := ⟨fuel - 1, by omega⟩
    obtain ⟨ha, hrest⟩ := hl
    rw [stop_cons] at htop
    have hle : i + b.size ≤ h.heaptop := htop ▸ le_stop
    have h8 := ha.pos
    have hin : i < h.heaptop := by omega
    have hnext : add32 i (h.mem i).nextOff = i + b.size := by
      rw [ha.nextOff, add32]
      omega
    have hsize := ha.size_eq (by omega)
    have hfield : (h.mem i).nextblock = prevField (some b) := by
      show _ = b.size / 8
      have := ha.next
      omega
    unfold findFrom
    simp only [wp_bind, wp_get, if_pos hin, wp_failIf, ha.ok, ha.prev, hright, not_true_eq_false,
      ne_eq, if_false, hnext, hsize]
    by_cases hskip : (h.mem i).inuse ≠ 0 ∨ b.size - 8 < n
    · rw [if_pos hskip]
      refine wp_mono (ih hrest htop hfield (by omega)) (fun r h' hr => ⟨hr.1, ?_⟩) fun _ _ h => h
      rcases r with mh | ⟨j, right'⟩
      · obtain ⟨d, hd, hrest'⟩ := hr.2
        exact ⟨d, Placed.cons_iff.2 (.inr hd), hrest'⟩
      · have hlast : (b :: bs).getLast?.or p = bs.getLast?.or (some b) := by
          rw [List.getLast?_cons]
          cases bs.getLast? <;> rfl
        rw [hlast]
        obtain ⟨-, hj, hright', hsmall⟩ := hr
        refine ⟨hj, hright', List.forall_mem_cons.2 ⟨?_, hsmall⟩⟩
        exact hskip.imp_left ha.inuse_ne_zero.1
    · rw [if_neg hskip]
      obtain ⟨hfree, hbig⟩ := not_or.1 hskip
      refine wp_pure.2 ⟨rfl, b, Placed.cons_iff.2 (.inl ⟨rfl, rfl⟩), ?_, by omega⟩
      have hinuse := ha.inuse
      cases hu : b.used with
      | false => rfl
      | true =>
        rw [hu] at hinuse
        exact absurd (hinuse.trans (if_pos rfl)) (by rw [not_not.1 hfree]; decide)

/-! ## Changes of neighbouring blocks -/

/-- **A block is marked, and its data is written.** -/
theorem TiledBy.mark (h₁ : TiledBy least h (pre ++ b :: post)) (hx : x = stop size h.heapbase pre)
    (used : Bool) {mem' : ℕ → Mheader}
    (hmem : mem' x = { h.mem x with inuse := if used then 1 else 0 })
    (hout : ∀ a, a < x ∨ x + b.size ≤ a → mem' a = h.mem a) :
    TiledBy least { h with mem := mem' } (pre ++ { b with used := used } :: post) := by
  have ha := h₁.at_split hx
  have h8 := ha.pos
  have hsplit : pre ++ b :: post = pre ++ [b] ++ post := by simp
  have hgoal : pre ++ { b with used := used } :: post = pre ++ [{ b with used := used }] ++
    post := by
    simp
  have hnext : post ≠ [] → (h.mem (x + b.size)).prevblock = b.size / 8 := by
    intro hpost
    obtain ⟨c, post, rfl⟩ := List.exists_cons_of_ne_nil hpost
    exact (h₁.at_second hx).prev
  rw [hsplit] at h₁
  rw [hgoal]
  refine h₁.splice hx rfl ⟨?_, trivial⟩ rfl (fun a hax => hout a (.inl hax)) (fun a hax => ?_)
    fun hpost => ?_
  · refine ⟨?_, ?_, ?_, ?_, h8, ha.le⟩ <;> rw [hmem]
    · exact ha.ok
    · exact ha.prev
    · exact ha.next
  · rw [stop_cons, stop_nil] at hax
    exact hout a (.inr (by omega))
  · have hfield : b.size / 8 = prevField (([{ b with used := used }] : List Block).getLast?.or
        (pre.getLast?.or none)) := rfl
    rw [stop_cons, stop_nil, hout _ (.inr (Nat.le_refl _)), ← hfield, ← hnext hpost]

/-- **`__malloc_split` splits a block if a header and a cell are left.** -/
theorem wp_mallocSplit (h₁ : TiledBy least h (pre ++ b :: post)) (hx : x = stop size h.heapbase pre)
    (hfree : b.used = false) (hmod : n % 8 = 0) (hleast : least ≤ 16) (hpos : least ≤ n + 8)
    (hle : n ≤ b.size - 8) :
    wp (mallocSplit x n)
      (fun _ h' => (∃ mem', h' = { h with mem := mem' }) ∧
        TiledBy least h' (pre ++ splitBlock b n ++ post))
      (fun _ _ => False) h := by
  have ha := h₁.at_split hx
  have h8 := ha.pos
  have hb8 := ha.mod
  have hend := (h₁.split_le hx).2
  have hlt := h₁.top_lt
  have hsize := h₁.size_eq hx
  have hroom : sub32 (b.size - 8) n = b.size - 8 - n := by
    rw [sub32]
    omega
  have hsplit : pre ++ b :: post = pre ++ [b] ++ post := by simp
  unfold mallocSplit splitBlock
  have hm8 : ¬n % mblocksize ≠ 0 := by
    exact not_not.2 hmod
  rw [wp_bind, wp_failIf, if_neg hm8, wp_get_bind]
  simp only [mblocksize, Nat.reduceMul, hsize, hroom]
  by_cases hno : b.size - 8 - n < 16
  · rw [if_pos hno, if_pos hno, wp_pure]
    exact ⟨⟨h.mem, rfl⟩, by rwa [← hsplit]⟩
  rw [if_neg hno, if_neg hno]
  -- the numbers that are computed on the way
  have hfield : mkfield (add32 n 8) = (n + 8) / 8 := by
    rw [mkfield, add32, mblocksize, Nat.mod_eq_of_lt (by omega)]
  have hrest : mkfield (b.size - 8 - n) = (b.size - 8 - n) / 8 := by
    rw [mkfield, mblocksize]
  have hnext := h₁.next_eq hx
  simp only [wp_bind, wp_setHeader, wp_get, wp_failIf, hnext, hfield, hrest]
  have hnew : add32 x (update h.mem x { h.mem x with nextblock := (n + 8) / 8 } x).nextOff =
      x + (n + 8) := by
    rw [update_self, Mheader.nextOff, add32, mblocksize]
    simp only
    omega
  simp only [Heap.next, hnew]
  rw [if_neg (by omega)]
  have hxn : x + (n + 8) ≠ x := by omega
  have hyx : x + b.size ≠ x := by omega
  have hyn : x + b.size ≠ x + (n + 8) := by omega
  rw [hsplit] at h₁
  have hsum : stop size x [(⟨n + 8, false⟩ : Block), ⟨b.size - 8 - n, false⟩] = x + b.size := by
    simp only [stop_cons, stop_nil]
    omega
  -- a memory with the two headers, and the size of the second one behind them
  have hdone : ∀ m : ℕ → Mheader, m x = { h.mem x with nextblock := (n + 8) / 8 } →
      m (x + (n + 8)) = ⟨(n + 8) / 8, 0, mmagic, (b.size - 8 - n) / 8, 0, mmagic⟩ →
      (∀ a, a < x ∨ x + b.size < a → m a = h.mem a) →
      (post ≠ [] →
        m (x + b.size) = { h.mem (x + b.size) with prevblock := (b.size - 8 - n) / 8 }) →
      TiledBy least { h with mem := m }
        (pre ++ [⟨n + 8, false⟩, ⟨b.size - 8 - n, false⟩] ++ post) := by
    intro m hmx hmn hma hmz
    have hfirst := ha.resize hmx (by omega) (by omega) hpos
    rw [hfree] at hfirst
    exact h₁.splice hx rfl ⟨hfirst, .new hmn (by omega) (by omega) (by omega), trivial⟩ hsum
      (fun a hax => hma a (.inl hax)) (fun a hax => hma a (.inr hax)) hmz
  by_cases hlastb : x + b.size ≠ h.heaptop
  · rw [if_pos hlastb, wp_setHeader, update_self]
    dsimp only
    refine ⟨⟨_, rfl⟩, hdone _ ?_ ?_ (fun a hax => ?_) fun _ => ?_⟩
    · rw [update_of_ne (Ne.symm hyx), update_of_ne (Ne.symm hxn), update_self]
    · rw [update_of_ne (Ne.symm hyn), update_self]
    · rw [update_of_ne (by omega), update_of_ne (by omega), update_of_ne (by omega)]
    · rw [update_self, update_of_ne hyn, update_of_ne hyx]
  · rw [if_neg hlastb, wp_pure]
    refine ⟨⟨_, rfl⟩, hdone _ ?_ ?_ (fun a hax => ?_) fun hpost => ?_⟩
    · rw [update_of_ne (Ne.symm hxn), update_self]
    · rw [update_self]
    · rw [update_of_ne (by omega), update_of_ne (by omega)]
    · rw [← hsplit] at h₁
      exact absurd ((h₁.end_eq_top_iff hx).1 (not_not.1 hlastb)) hpost

/-- **`__malloc_trymerge` merges two free neighbours.** -/
theorem wp_mallocTrymerge (h₁ : TiledBy least h (pre ++ b :: c :: post))
    (hx : x = stop size h.heapbase pre) (hy : y = x + b.size) :
    wp (mallocTrymerge x y)
      (fun _ h' => (∃ mem', h' = { h with mem := mem' }) ∧
        TiledBy least h' (pre ++ mergeBlocks b c ++ post))
      (fun _ _ => False) h := by
  subst hy
  have ha := h₁.at_split hx
  have hc := h₁.at_second hx
  have hb8 := ha.pos
  have hc8 := hc.pos
  have hle := ha.le
  have hlt := h₁.top_lt
  have hxy : stop size h.heapbase (pre ++ [b]) = x + b.size := by
    rw [stop_append, ← hx, stop_cons, stop_nil]
  have hsecond : pre ++ b :: c :: post = (pre ++ [b]) ++ c :: post := by simp
  have h₂ := h₁
  rw [hsecond] at h₂
  have hend := (h₂.split_le hxy.symm).2
  have hsame : ¬ (h.mem x).nextblock ≠ (h.mem (x + b.size)).prevblock := by
    have h1 := ha.next
    have h2 : (h.mem (x + b.size)).prevblock = b.size / 8 := hc.prev
    omega
  have hsplit : pre ++ b :: c :: post = pre ++ [b, c] ++ post := by simp
  unfold mallocTrymerge mergeBlocks
  rw [wp_get_bind, wp_bind, wp_failIf, if_neg hsame]
  simp only [ha.inuse_ne_zero, hc.inuse_ne_zero]
  by_cases hused : b.used = true ∨ c.used = true
  · rw [if_pos hused, if_pos hused, wp_pure]
    exact ⟨⟨h.mem, rfl⟩, by rwa [← hsplit]⟩
  rw [if_neg hused, if_neg hused]
  -- the size of both blocks together, and where they end
  have hsum : mkfield (add32 (add32 (add32 mblocksize (h.mem x).size) mblocksize)
      (h.mem (x + b.size)).size) = (b.size + c.size) / 8 := by
    rw [h₁.size_eq hx, h₂.size_eq hxy.symm]
    simp only [mkfield, add32, mblocksize]
    omega
  have htop := h₂.end_eq_top_iff hxy.symm
  simp only [wp_bind, wp_setHeader, wp_get, hsum, h₂.next_eq hxy.symm]
  rw [hsplit] at h₁
  obtain ⟨z, hz⟩ : ∃ z, x + b.size + c.size = z := ⟨_, rfl⟩
  rw [hz] at htop hend ⊢
  have hstop : stop size x [b, c] = z := by
    rw [stop_cons, stop_cons, stop_nil, hz]
  have hmod := ha.mod
  have hmod' := hc.mod
  -- a memory with the new header, whatever is in the cell of the old one
  have hdone : ∀ m : ℕ → Mheader, m x = { h.mem x with nextblock := (b.size + c.size) / 8 } →
      (∀ a, a < x ∨ z < a → m a = h.mem a) →
      (post ≠ [] → m z = { h.mem z with prevblock := (b.size + c.size) / 8 }) →
      TiledBy least { h with mem := m } (pre ++ [⟨b.size + c.size, false⟩] ++ post) := by
    intro m hmx hma hmz
    have hhead := ha.resize hmx (by omega) (by omega) (by omega)
    rw [Bool.eq_false_iff.2 (not_or.1 hused).1] at hhead
    refine h₁.splice hx hstop.symm ⟨hhead, trivial⟩ ?_ (fun a hax => hma a (.inl hax))
      (fun a hax => hma a (.inr hax)) hmz
    rw [stop_cons, stop_nil, ← Nat.add_assoc, hz]
  by_cases hlastb : z ≠ h.heaptop
  · rw [if_pos hlastb, wp_bind, wp_setHeader, wp_mallocDeadbeef]
    refine ⟨⟨_, rfl⟩, hdone _ ?_ (fun a hax => ?_) fun _ => ?_⟩
    · dsimp only
      rw [if_neg (by rw [mblocksize]; omega), update_of_ne (by omega), update_self]
    · dsimp only
      rw [if_neg (by rw [mblocksize]; omega), update_of_ne (by omega), update_of_ne (by omega)]
    · dsimp only
      rw [if_neg (by rw [mblocksize]; omega), update_self, update_self,
        update_of_ne (by omega)]
  · rw [if_neg hlastb, wp_mallocDeadbeef]
    refine ⟨⟨_, rfl⟩, hdone _ ?_ (fun a hax => ?_) fun hpost => ?_⟩
    · dsimp only
      rw [if_neg (by rw [mblocksize]; omega), update_self]
    · dsimp only
      rw [if_neg (by rw [mblocksize]; omega), update_of_ne (by omega)]
    · exact absurd (htop.1 (not_not.1 hlastb)) hpost

end Libc

end Os161
