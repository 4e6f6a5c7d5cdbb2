import Os161.Common.Layout
import Os161.Common.Wp
import Os161.Libc.Model.Malloc
import Mathlib.Data.List.Chain
/-!
# The headers of the heap as a list of blocks

`TiledBy least h bs` says that the headers in memory are those of the blocks `bs`,
one behind the other from `heapbase` up to `heaptop`: each with the size of its
block and of the one before it. What `malloc` and `free` do to headers is then
a change of a few neighbouring blocks (`TiledBy.splice`), which leaves memory
below them alone, and above them all but one `mh_prevblock`. A block has at least
its header, 8 bytes; where no area is empty it has a cell more.
-/

namespace Os161

namespace Libc

open Layout Prog

/-- A block of the heap: its size with the header, and whether it is in use. -/
structure Block where
  size : ℕ
  used : Bool
  deriving DecidableEq, Repr

/-- The `mh_prevblock` behind a block, 0 at the bottom of the heap. -/
def prevField (p : Option Block) : ℕ := (p.map fun b => b.size / 8).getD 0

/-- **The header at `x` is that of the block `b`**, behind the block `p`, and no block is
smaller than `least`. -/
structure Head (least : ℕ) (mem : ℕ → Mheader) (x : ℕ) (p : Option Block) (b : Block) : Prop where
  ok : (mem x).Ok
  prev : (mem x).prevblock = prevField p
  next : (mem x).nextblock * 8 = b.size
  inuse : (mem x).inuse = if b.used then 1 else 0
  pos : 8 ≤ b.size
  le : least ≤ b.size

/-- **The headers tile the heap**, with blocks of `least` bytes or more. -/
structure TiledBy (least : ℕ) (h : Heap) (bs : List Block) : Prop where
  base_pos : 0 < h.heapbase
  base_mod : h.heapbase % 8 = 0
  laid : Laid Block.size (Head least h.mem) h.heapbase none bs
  top : stop Block.size h.heapbase bs = h.heaptop
  brk : h.brk = h.heaptop
  top_lt : h.heaptop < 2 ^ 32

variable {mem mem' : ℕ → Mheader} {h : Heap} {least x y lo : ℕ} {p q : Option Block} {b : Block}
  {bs pre mid mid' post : List Block}

section

variable (ha : Head least mem x p b)

include ha

theorem Head.congr (hx : mem' x = mem x) : Head least mem' x p b := by
  obtain ⟨h1, h2, h3, h4, h5, h6⟩ := ha
  rw [← hx] at h1 h2 h3 h4
  exact ⟨h1, h2, h3, h4, h5, h6⟩

theorem Head.mod : b.size % 8 = 0 := by
  have := ha.next
  omega

/-- `M_NEXTOFF`. -/
theorem Head.nextOff : (mem x).nextOff = b.size := ha.next

/-- `M_SIZE`. -/
theorem Head.size_eq (hlt : b.size < 2 ^ 32) : (mem x).size = b.size - 8 := by
  have := ha.pos
  rw [Mheader.size, ha.nextOff, sub32, mblocksize]
  omega

/-- Only the size is written. -/
theorem Head.resize (hx : mem' x = { mem x with nextblock := y / 8 }) (hmod : y % 8 = 0)
    (hpos : 8 ≤ y) (hle : least ≤ y) : Head least mem' x p ⟨y, b.used⟩ := by
  refine ⟨?_, ?_, ?_, ?_, hpos, hle⟩ <;> rw [hx]
  · exact ha.ok
  · exact ha.prev
  · exact Nat.div_mul_cancel (Nat.dvd_of_mod_eq_zero hmod)
  · exact ha.inuse

end

/-- A new header. -/
theorem Head.new {used : Bool}
    (hx : mem x = ⟨prevField p, 0, mmagic, y / 8, if used then 1 else 0, mmagic⟩)
    (hmod : y % 8 = 0) (hpos : 8 ≤ y) (hle : least ≤ y) : Head least mem x p ⟨y, used⟩ := by
  refine ⟨?_, ?_, ?_, ?_, hpos, hle⟩ <;> rw [hx]
  · exact ⟨rfl, rfl⟩
  · exact Nat.div_mul_cancel (Nat.dvd_of_mod_eq_zero hmod)

/-- **Some neighbouring blocks are replaced by others** that fill the same
place. -/
theorem laid_splice (hl : Laid Block.size (Head least mem) lo p (pre ++ mid ++ post))
    (hx : x = stop Block.size lo pre) (hy : y = stop Block.size x mid)
    (hmid : Laid Block.size (Head least mem') x (pre.getLast?.or p) mid')
    (hstop : stop Block.size x mid' = y) (hlow : ∀ a < x, mem' a = mem a)
    (hhigh : ∀ a, y < a → mem' a = mem a)
    (hnext : post ≠ [] →
      mem' y = { mem y with prevblock := prevField (mid'.getLast?.or (pre.getLast?.or p)) }) :
    Laid Block.size (Head least mem') lo p (pre ++ mid' ++ post) := by
  subst hx hy
  rw [laid_append, laid_append, stop_append] at hl ⊢
  obtain ⟨⟨hpre, -⟩, hpost⟩ := hl
  refine ⟨⟨hpre.imp fun a r d hlo hhi ha => ha.congr (hlow a ?_), hmid⟩, ?_⟩
  · have := ha.pos
    omega
  rw [hstop]
  refine hpost.imp_head (fun d ds hd ha => ?_) (fun a r d hlo _ ha => ha.congr (hhigh a hlo))
    (hpost.forall_mem fun _ _ d ha => Nat.lt_of_lt_of_le (by omega) ha.pos)
  have hm := hnext (by rw [hd]; exact List.cons_ne_nil _ _)
  obtain ⟨h1, -, h3, h4, h5, h6⟩ := ha
  have hlast : (pre ++ mid').getLast?.or p = mid'.getLast?.or (pre.getLast?.or p) := by
    rw [List.getLast?_append, Option.or_assoc]
  rw [hlast]
  refine ⟨?_, ?_, ?_, ?_, h5, h6⟩ <;> rw [hm]
  · exact h1
  · exact h3
  · exact h4

theorem stop_mod (hlo : lo % 8 = 0) (hbs : ∀ b ∈ bs, b.size % 8 = 0) :
    stop Block.size lo bs % 8 = 0 := by
  induction bs generalizing lo with
  | nil => exact hlo
  | cons b bs ih =>
    obtain ⟨hb, hbs⟩ := List.forall_mem_cons.1 hbs
    rw [stop_cons]
    exact ih (by omega) hbs

/-- Each block takes some room. -/
theorem add_length_le_stop (hbs : ∀ b ∈ bs, 8 ≤ b.size) :
    lo + bs.length ≤ stop Block.size lo bs := by
  induction bs generalizing lo with
  | nil => exact Nat.le_refl lo
  | cons b bs ih =>
    obtain ⟨hb, hbs⟩ := List.forall_mem_cons.1 hbs
    have hrest : lo + b.size + bs.length ≤ stop Block.size (lo + b.size) bs := ih hbs
    rw [stop_cons, List.length_cons]
    omega

namespace TiledBy

section

variable (h₁ : TiledBy least h bs)

include h₁

/-- A block ends below the top. -/
theorem placed_le (hx : Placed Block.size h.heapbase bs x b) :
    h.heapbase ≤ x ∧ x + b.size ≤ h.heaptop := by
  rw [← h₁.top]
  exact hx.bounds

/-- The header of a block. -/
theorem header (hx : Placed Block.size h.heapbase bs x b) :
    ∃ q, Head least h.mem x q b := h₁.laid.placed hx

theorem size_pos : ∀ b ∈ bs, 8 ≤ b.size :=
  h₁.laid.forall_mem fun _ _ _ ha => ha.pos

theorem size_le : ∀ b ∈ bs, least ≤ b.size :=
  h₁.laid.forall_mem fun _ _ _ ha => ha.le

theorem mod : ∀ b ∈ bs, b.size % 8 = 0 :=
  h₁.laid.forall_mem fun _ _ _ ha => ha.mod

/-- The address of a header is a multiple of 8. -/
theorem placed_mod (hx : Placed Block.size h.heapbase bs x b) : x % 8 = 0 := by
  obtain ⟨pre, post, rfl, rfl⟩ := hx
  exact stop_mod h₁.base_mod fun d hd => h₁.mod d (List.mem_append_left _ hd)

/-- So is the top of the heap. -/
theorem top_mod : h.heaptop % 8 = 0 := by
  rw [← h₁.top]
  exact stop_mod h₁.base_mod h₁.mod

/-- There are fewer blocks than rounds in a search. -/
theorem length_lt : bs.length < 2 ^ 32 := by
  have h1 : h.heapbase + bs.length ≤ stop Block.size h.heapbase bs :=
    add_length_le_stop h₁.size_pos
  have h2 := h₁.top
  have h3 := h₁.top_lt
  omega

end

/-- **Some neighbouring blocks are replaced by others** that fill the same
place, and the rest of the heap is left alone. -/
theorem splice (h₁ : TiledBy least h (pre ++ mid ++ post)) (hx : x = stop Block.size h.heapbase pre)
    (hy : y = stop Block.size x mid)
    (hmid : Laid Block.size (Head least mem') x (pre.getLast?.or none) mid')
    (hstop : stop Block.size x mid' = y) (hlow : ∀ a < x, mem' a = h.mem a)
    (hhigh : ∀ a, y < a → mem' a = h.mem a)
    (hnext : post ≠ [] →
      mem' y = { h.mem y with prevblock := prevField (mid'.getLast?.or (pre.getLast?.or none)) }) :
    TiledBy least { h with mem := mem' } (pre ++ mid' ++ post) where
  base_pos := h₁.base_pos
  base_mod := h₁.base_mod
  laid := laid_splice h₁.laid hx hy hmid hstop hlow hhigh hnext
  top := by
    have htop := h₁.top
    rw [stop_append, stop_append, ← hx] at htop ⊢
    rw [hstop, hy]
    exact htop
  brk := h₁.brk
  top_lt := h₁.top_lt

end TiledBy

end Libc

end Os161
