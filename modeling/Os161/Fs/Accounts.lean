import Os161.Fs.View
/-!
# Block accounting

Which inodes are in use: the root, those that a slot of the directory names and
those that are loaded as vnodes (`Live`). `Accounts` is the statement that the
freemap and the pointers of these inodes agree; for a file system in working
order it is the accounting `Core` over the live inodes.
-/

namespace Os161

namespace Fs

variable {s : Sfs}

namespace Sfs

/-! ## The directory -/

/-- The number of slots of the directory. -/
def nslots (s : Sfs) : ℕ := (s.inode rootIno).size.toNat / 64

/-- `sfd_ino` of a slot. -/
def slotIno (s : Sfs) (k : ℕ) : UInt32 := wordFrom (s.byte rootIno) (64 * k)

/-- The inode is named in the directory. -/
def Named (s : Sfs) (x : UInt32) : Prop := x ≠ 0 ∧ ∃ k < s.nslots, s.slotIno k = x

/-- **The inodes in use.** -/
def Live (s : Sfs) (x : UInt32) : Prop :=
  x = rootIno ∨ s.Named x ∨ ∃ v, s.vnode? x = some v

/-! ## The accounts -/

/-- A place of an inode in use holds the block number. -/
def Holds (s : Sfs) (r : Ref) (b : UInt32) : Prop := s.Live r.ino ∧ s.raw r = b ∧ b ≠ 0

/-- **The block accounting.** No block number is held twice, what is held lies
between the freemap and the end, and a bit is set exactly for the superblock,
the root inode, the freemap, what is past the end and what is held. -/
structure Accounts (s : Sfs) : Prop where
  once : ∀ r r' b, s.Holds r b → s.Holds r' b → r = r'
  range : ∀ r b, s.Holds r b → r ≠ .inode rootIno →
    2 + bitBlocks s.super.nblocks ≤ b.toNat ∧ b.toNat < s.super.nblocks.toNat
  bits : ∀ b : UInt32, b.toNat < s.freemap.nbits →
    (s.freemap.IsSet b.toNat ↔ b = 0 ∨ b = rootIno ∨
      (2 ≤ b.toNat ∧ b.toNat < 2 + bitBlocks s.super.nblocks) ∨
      s.super.nblocks.toNat ≤ b.toNat ∨ ∃ r, s.Holds r b)

theorem live_root (s : Sfs) : s.Live rootIno := .inl rfl

theorem live_of_loaded {x : UInt32} {v : SfsVnode} (h : s.vnode? x = some v) : s.Live x :=
  .inr (.inr ⟨v, h⟩)

theorem holds_iff {r : Ref} {b : UInt32} : s.Holds r b ↔ s.ref s.Live r = some b :=
  ref_eq_some.symm

/-- The accounting over the live inodes says this. -/
theorem Core.accounts (h : s.Core s.Live) : s.Accounts where
  once r r' b hr hr' := h.exact.once r r' b (holds_iff.1 hr) (holds_iff.1 hr')
  range _ _ hr hne := h.range (holds_iff.1 hr) hne s.live_root
  bits b hb := by
    have hmarked := h.exact.marked_iff b
    have hroot : s.Holds (.inode rootIno) rootIno := ⟨s.live_root, rfl, by decide⟩
    have hset : s.freemap.IsSet b.toNat ↔ s.Marked b := by
      exact ⟨.inr, fun h => h.resolve_left (by omega)⟩
    rw [hset, hmarked]
    simp only [← holds_iff]
    constructor
    · rintro ((h0 | hf | hge) | hr)
      · exact .inl h0
      · exact .inr (.inr (.inl hf))
      · exact .inr (.inr (.inr (.inl hge)))
      · exact .inr (.inr (.inr (.inr hr)))
    · rintro (h0 | rfl | hf | hge | hr)
      · exact .inl (.inl h0)
      · exact .inr ⟨_, hroot⟩
      · exact .inl (.inr (.inl hf))
      · exact .inl (.inr (.inr hge))
      · exact .inr hr

/-- **The accounts of a file system in working order are the accounting over its
live inodes.** -/
theorem Accounts.core (h : s.Accounts) (hready : s.Ready) : s.Core s.Live where
  ready := hready
  loaded _ _ hv := live_of_loaded hv
  exact := by
    have hroom := hready.room
    have hle := hready.nblocks_le
    have hone : rootIno.toNat = 1 := rfl
    refine ⟨fun r r' b hr hr' => h.once r r' b (holds_iff.2 hr) (holds_iff.2 hr'),
      fun r b hr => ?_, fun b => ?_⟩
    · have hne : b.toNat ≠ 0 := fun e => (ref_eq_some.1 hr).2.2 (UInt32.toNat_inj.1 e)
      have hne' : b ≠ 0 := (ref_eq_some.1 hr).2.2
      unfold Fixed
      push Not
      by_cases hroot : r = .inode rootIno
      · subst hroot
        obtain rfl : rootIno = b := (ref_eq_some.1 hr).2.1
        exact ⟨hne', by omega, by omega⟩
      · have hrange := h.range r b (holds_iff.2 hr) hroot
        exact ⟨hne', by omega, by omega⟩
    · simp only [← holds_iff]
      unfold Marked Fixed
      by_cases hb : b.toNat < s.freemap.nbits
      · rw [h.bits b hb]
        constructor
        · rintro (hge | h0 | rfl | hf | hge | hr)
          · omega
          · exact .inl (.inl h0)
          · exact .inr ⟨.inode rootIno, s.live_root, rfl, by decide⟩
          · exact .inl (.inr (.inl hf))
          · exact .inl (.inr (.inr hge))
          · exact .inr hr
        · rintro ((h0 | hf | hge) | hr)
          · exact .inr (.inl h0)
          · exact .inr (.inr (.inr (.inl hf)))
          · exact .inr (.inr (.inr (.inr (.inl hge))))
          · exact .inr (.inr (.inr (.inr (.inr hr))))
      · exact ⟨fun _ => .inl (.inr (.inr (by omega))), fun _ => .inl (by omega)⟩

end Sfs

end Fs

end Os161
