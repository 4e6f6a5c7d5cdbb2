import Os161.Fs.Model.Vnode
import Os161.Fs.Format
import Os161.Lib.Bitmap
import Os161.Common.Refs
/-!
# The files of a file system, and the blocks they are made of

What a state says about its files: the inode of a file is the one of its vnode
if it is loaded and the one on the disk otherwise, and its blocks and bytes are
those that its pointers lead to (`inode`, `ptr`, `block`, `byte`).

`Core s L` is the accounting over a set `L` of inodes: every block number that
an inode of `L` has somewhere is there only, and the freemap marks exactly those
and the fixed blocks. The lemmas below say what a write to a sector, a vnode or
the freemap does to the view.
-/

namespace Os161

namespace Fs

open Prog Function Sector SfsInode

/-! ## The view -/

namespace Sfs

/-- What a block of the disk holds. -/
def sector (s : Sfs) (b : UInt32) : Sector := s.device.sectors b.toNat

/-- The inode of a file. -/
def inode (s : Sfs) (x : UInt32) : SfsInode :=
  match s.vnode? x with
  | some v => v.i
  | none => .ofSector (s.sector x)

/-- Entry `j` of the indirect block of a file. -/
def entry (s : Sfs) (x : UInt32) (j : ℕ) : UInt32 :=
  if (s.inode x).indirect = 0 then 0 else (s.sector (s.inode x).indirect).word j

/-- The pointer to a block of a file: 15 in the inode, 128 in the indirect
block. -/
def ptr (s : Sfs) (x : UInt32) (fb : ℕ) : UInt32 :=
  if h : fb < 15 then (s.inode x).direct ⟨fb, h⟩
  else if fb < 143 then s.entry x (fb - 15)
  else 0

/-- A block of a file; a hole is a block of zeros. -/
def block (s : Sfs) (x : UInt32) (fb : ℕ) : Sector :=
  if s.ptr x fb = 0 then zero else s.sector (s.ptr x fb)

/-- A byte of a file, at any position. -/
def byte (s : Sfs) (x : UInt32) (p : ℕ) : UInt8 := (s.block x (p / 512)).byte (p % 512)

end Sfs

/-- The places that hold block numbers: an inode holds its own, the number of
its indirect block, and the numbers of its data blocks, the first 15 in its
direct pointers and the others in the entries of the indirect block. -/
inductive Ref where
  | inode (x : UInt32)
  | indirect (x : UInt32)
  | block (x : UInt32) (fb : ℕ)
  deriving DecidableEq

/-- The inode that a place belongs to. -/
def Ref.ino : Ref → UInt32
  | .inode x => x
  | .indirect x => x
  | .block x _ => x

/-- The indirect block of a file, if there has been none. -/
def setIndirect (idblock : UInt32) (sv : SfsVnode) : SfsVnode :=
  { sv with i := { sv.i with indirect := idblock }, dirty := true }

/-- A block in one of the direct pointers. -/
def setDirect (k : Fin 15) (block : UInt32) (sv : SfsVnode) : SfsVnode :=
  { sv with i := { sv.i with direct := update sv.i.direct k block }, dirty := true }

namespace Sfs

/-- What a place holds; 0 is no block. -/
def raw (s : Sfs) : Ref → UInt32
  | .inode x => x
  | .indirect x => (s.inode x).indirect
  | .block x fb => s.ptr x fb

open Classical in
/-- The block that a place of the inodes in `L` references. -/
noncomputable def ref (s : Sfs) (L : UInt32 → Prop) (r : Ref) : Option UInt32 :=
  if L r.ino ∧ s.raw r ≠ 0 then some (s.raw r) else none

/-- The block is marked in use, or there is no bit for it. -/
def Marked (s : Sfs) (b : UInt32) : Prop :=
  s.freemap.nbits ≤ b.toNat ∨ s.freemap.IsSet b.toNat

/-- The superblock, the freemap and what lies past the end. -/
def Fixed (s : Sfs) (b : UInt32) : Prop :=
  b = 0 ∨ (2 ≤ b.toNat ∧ b.toNat < 2 + bitBlocks s.super.nblocks) ∨
    s.super.nblocks.toNat ≤ b.toNat

/-- **The machine works and the file system is one that `mksfs` makes**: no disk
error and no failed `kmalloc` is to come, and the sizes fit. -/
structure Ready (s : Sfs) : Prop where
  clean : s.device.Clean
  mem : s.mem = fun _ => true
  nsect : s.super.nblocks.toNat ≤ s.device.nsect.toNat
  small : s.super.nblocks.toNat ≤ 32 * 4096
  room : 2 + bitBlocks s.super.nblocks ≤ s.super.nblocks.toNat
  nbits : s.freemap.nbits = bitmapSize s.super.nblocks

/-- **The accounting over the inodes in `L`.** -/
structure Core (s : Sfs) (L : UInt32 → Prop) : Prop where
  ready : s.Ready
  loaded : ∀ x v, s.vnode? x = some v → L x
  exact : Refs.Exact (s.ref L) s.Marked s.Fixed

end Sfs

variable {s s' : Sfs} {L : UInt32 → Prop} {x y b c : UInt32} {fb : ℕ} {r : Ref}

namespace Sfs

theorem ref_eq_some : s.ref L r = some b ↔ L r.ino ∧ s.raw r = b ∧ b ≠ 0 := by
  unfold ref
  constructor
  · intro h
    split at h <;> rename_i hr
    · cases h
      exact ⟨hr.1, rfl, hr.2⟩
    · cases h
  · rintro ⟨hL, rfl, hne⟩
    rw [if_pos ⟨hL, hne⟩]

theorem ref_eq_none (h : s.raw r = 0) : s.ref L r = none := by
  unfold ref
  rw [if_neg fun hr => hr.2 h]

/-- References are determined by what the places of `L` hold. -/
theorem ref_congr (h : L r.ino → s'.raw r = s.raw r) : s'.ref L r = s.ref L r := by
  unfold ref
  by_cases hL : L r.ino
  · rw [h hL]
  · rw [if_neg fun hr => hL hr.1, if_neg fun hr => hL hr.1]

theorem vnode?_ino {v : SfsVnode} (h : s.vnode? x = some v) : v.ino = x := by
  simpa using List.find?_some h

theorem vnode?_congr (h : s'.vnodes = s.vnodes) (x : UInt32) : s'.vnode? x = s.vnode? x := by
  unfold vnode?
  rw [h]

theorem inode_of_loaded {v : SfsVnode} (h : s.vnode? x = some v) : s.inode x = v.i := by
  unfold inode
  rw [h]

theorem ptr_of_lt (h : fb < 15) : s.ptr x fb = (s.inode x).direct ⟨fb, h⟩ := by
  unfold ptr
  rw [dif_pos h]

theorem ptr_of_entry (h : ¬ fb < 15) (h' : fb < 143) : s.ptr x fb = s.entry x (fb - 15) := by
  unfold ptr
  rw [dif_neg h, if_pos h']

theorem ptr_of_ge (h : 143 ≤ fb) : s.ptr x fb = 0 := by
  unfold ptr
  rw [dif_neg (by omega), if_neg (by omega)]

theorem block_of_ptr_eq_zero (h : s.ptr x fb = 0) : s.block x fb = zero := if_pos h

theorem block_of_ptr_ne_zero (h : s.ptr x fb ≠ 0) : s.block x fb = s.sector (s.ptr x fb) :=
  if_neg h

/-- The pointers of a file come from its inode and its indirect block. -/
theorem ptr_congr (hinode : s'.inode x = s.inode x) (hentry : ∀ j, s'.entry x j = s.entry x j)
    (fb : ℕ) : s'.ptr x fb = s.ptr x fb := by
  unfold ptr
  rw [hinode]
  simp only [hentry]

theorem raw_congr (hi : (s'.inode r.ino).indirect = (s.inode r.ino).indirect)
    (hp : ∀ fb, s'.ptr r.ino fb = s.ptr r.ino fb) : s'.raw r = s.raw r := by
  cases r with
  | inode y => rfl
  | indirect y => exact hi
  | block y fb => exact hp fb

theorem fixed_congr (h : s'.super = s.super) : s'.Fixed = s.Fixed := by
  unfold Sfs.Fixed
  rw [h]

/-! ## Consequences of the accounting -/

theorem Ready.nblocks_le (h : s.Ready) : s.super.nblocks.toNat ≤ s.freemap.nbits := by
  have hbits := h.nbits
  have hsmall := h.small
  unfold bitmapSize bitBlocks at hbits
  omega

namespace Core

section

variable (h : s.Core L)

include h

theorem ref_indirect {v : SfsVnode} (hv : s.vnode? x = some v)
    (hi : v.i.indirect ≠ 0) : s.ref L (.indirect x) = some v.i.indirect :=
  ref_eq_some.2 ⟨h.loaded x v hv, congrArg indirect (inode_of_loaded hv), hi⟩

section

variable (hr : s.ref L r = some b)

include hr

/-- A block that a place of `L` holds is a data block: above the freemap and
below the end. -/
theorem range (hne : r ≠ .inode rootIno) (hroot : L rootIno) :
    2 + bitBlocks s.super.nblocks ≤ b.toNat ∧ b.toNat < s.super.nblocks.toNat := by
  have hfixed := h.exact.apart r b hr
  have hone : b ≠ rootIno := by
    rintro rfl
    exact hne (h.exact.once r (.inode rootIno) rootIno hr (ref_eq_some.2 ⟨hroot, rfl, by decide⟩))
  have hzero : b ≠ 0 := (ref_eq_some.1 hr).2.2
  have hb0 : b.toNat ≠ 0 := fun e => hzero (UInt32.toNat_inj.1 e)
  have hb1 : b.toNat ≠ 1 := fun e => hone (UInt32.toNat_inj.1 e)
  unfold Fixed at hfixed
  omega

theorem lt_nblocks : b.toNat < s.super.nblocks.toNat := by
  have hfixed := h.exact.apart r b hr
  unfold Fixed at hfixed
  omega

/-- What is referenced has a bit, and it is set. -/
theorem lt_nbits : b.toNat < s.freemap.nbits :=
  (h.lt_nblocks hr).trans_le h.ready.nblocks_le

theorem isSet : s.freemap.IsSet b.toNat :=
  (h.exact.marked_of_ref hr).resolve_left (not_le.2 (h.lt_nbits hr))

/-- What one place holds, no other place of `L` does. -/
theorem raw_ne (r' : Ref) (hne : r' ≠ r) (hL : L r'.ino) : s.raw r' ≠ b := fun he =>
  hne (h.exact.once r' r b (ref_eq_some.2 ⟨hL, he, (ref_eq_some.1 hr).2.2⟩) hr)

theorem ref_ne_fixed (hc : s.Fixed c) : c ≠ b := by
  rintro rfl
  exact h.exact.apart r c hr hc

end

theorem ne_of_fixed (hb : ¬ s.Marked b) (hc : s.Fixed c) : c ≠ b := by
  rintro rfl
  exact h.exact.not_fixed hb hc

end

end Core

/-! ## A write to a sector -/

def setSector (s : Sfs) (b : UInt32) (d : Sector) : Sfs :=
  { s with device := s.device.put b.toNat d }

section SetSector

variable {d : Sector}

@[simp] theorem vnode?_setSector : (s.setSector b d).vnode? x = s.vnode? x := rfl

theorem sector_setSector (s : Sfs) (b c : UInt32) (d : Sector) :
    (s.setSector b d).sector c = if c = b then d else s.sector c := by
  show update s.device.sectors b.toNat d c.toNat = _
  rw [update_apply]
  simp only [UInt32.toNat_inj]
  rfl

theorem Ready.setSector (h : s.Ready) (b : UInt32) (d : Sector) : (s.setSector b d).Ready where
  clean := h.clean
  mem := h.mem
  nsect := h.nsect
  small := h.small
  room := h.room
  nbits := h.nbits

theorem inode_setSector (h : x ≠ b) : (s.setSector b d).inode x = s.inode x := by
  unfold inode
  rw [vnode?_setSector, sector_setSector, if_neg h]

theorem entry_setSector (hx : x ≠ b) (hi : (s.inode x).indirect ≠ b) (j : ℕ) :
    (s.setSector b d).entry x j = s.entry x j := by
  unfold entry
  rw [inode_setSector hx, sector_setSector, if_neg hi]

/-- The block is neither an inode nor an indirect block. -/
def DataOnly (s : Sfs) (L : UInt32 → Prop) (b : UInt32) : Prop :=
  b ≠ 0 ∧ ∀ r, s.ref L r = some b → ∃ x fb, r = .block x fb

/-- A block without a mark is not in use for anything. -/
theorem Core.dataOnly_of_not_marked (h : s.Core L) (hb : ¬ s.Marked b) : s.DataOnly L b :=
  ⟨fun e => h.exact.not_fixed hb (.inl e), fun r hr => absurd hr (h.exact.ref_ne hb r)⟩

/-- A data block of a file is not in use for anything else. -/
theorem Core.dataOnly_of_block (h : s.Core L) (hr : s.ref L (.block x fb) = some b) :
    s.DataOnly L b :=
  ⟨(ref_eq_some.1 hr).2.2, fun r' hr' => ⟨x, fb, h.exact.once r' _ b hr' hr⟩⟩

namespace DataOnly

variable (hd : s.DataOnly L b) (hx : L x)
include hd hx

theorem ino_ne : x ≠ b := by
  rintro rfl
  obtain ⟨y, fb, hr⟩ := hd.2 (.inode x) (ref_eq_some.2 ⟨hx, rfl, hd.1⟩)
  cases hr

theorem indirect_ne : (s.inode x).indirect ≠ b := by
  rintro rfl
  obtain ⟨y, fb, hr⟩ := hd.2 (.indirect x) (ref_eq_some.2 ⟨hx, rfl, hd.1⟩)
  cases hr

/-- **A write to a data block leaves inodes and pointers alone.** -/
theorem inode_eq : (s.setSector b d).inode x = s.inode x := inode_setSector (hd.ino_ne hx)

theorem ptr_eq (fb : ℕ) : (s.setSector b d).ptr x fb = s.ptr x fb :=
  ptr_congr (hd.inode_eq hx) (entry_setSector (hd.ino_ne hx) (hd.indirect_ne hx)) fb

/-- A block of a file changes if it is this one. -/
theorem block_eq (fb : ℕ) :
    (s.setSector b d).block x fb = if s.ptr x fb = b then d else s.block x fb := by
  unfold block
  rw [hd.ptr_eq hx, sector_setSector]
  by_cases hb : s.ptr x fb = b
  · rw [if_pos hb, if_pos hb, if_neg (hb ▸ hd.1)]
  · rw [if_neg hb, if_neg hb]

end DataOnly

theorem DataOnly.ref_eq (hd : s.DataOnly L b) (r : Ref) :
    (s.setSector b d).ref L r = s.ref L r :=
  ref_congr fun hL => raw_congr (congrArg indirect (hd.inode_eq hL)) (hd.ptr_eq hL)

/-- **The accounting goes on over a write to a data block.** -/
theorem Core.setData (h : s.Core L) (hd : s.DataOnly L b) : (s.setSector b d).Core L where
  ready := h.ready.setSector b d
  loaded := h.loaded
  exact := h.exact.congr hd.ref_eq fun _ => Iff.rfl

end SetSector

/-! ## A write to a vnode -/

section ModifyVnode

variable {f : SfsVnode → SfsVnode} {v : SfsVnode}

@[simp] theorem sector_modifyVnode : (s.modifyVnode x f).sector b = s.sector b := rfl

theorem Ready.modifyVnode (h : s.Ready) (x : UInt32) (f : SfsVnode → SfsVnode) :
    (s.modifyVnode x f).Ready where
  clean := h.clean
  mem := h.mem
  nsect := h.nsect
  small := h.small
  room := h.room
  nbits := h.nbits

section

variable (hf : ∀ v, (f v).ino = v.ino)

include hf

theorem vnode?_modifyVnode (s : Sfs) (x y : UInt32) :
    (s.modifyVnode x f).vnode? y = if y = x then (s.vnode? x).map f else s.vnode? y := by
  have hino : ∀ v : SfsVnode, (if v.ino = x then f v else v).ino = v.ino := fun v => by
    split
    · exact hf v
    · rfl
  show (s.vnodes.map _).find? _ = _
  rw [List.find?_map]
  have hp : ((fun v : SfsVnode => decide (v.ino = y)) ∘ fun v => if v.ino = x then f v else v) =
      fun v => decide (v.ino = y) := by
    funext v
    simp only [comp_apply, hino]
  rw [hp]
  unfold vnode?
  by_cases hy : y = x
  · subst hy
    rw [if_pos rfl]
    cases hv : s.vnodes.find? fun v => decide (v.ino = y) with
    | none => rfl
    | some v =>
      have : v.ino = y := by simpa using List.find?_some hv
      simp [this]
  · rw [if_neg hy]
    cases hv : s.vnodes.find? fun v => decide (v.ino = y) with
    | none => rfl
    | some v =>
      have : v.ino = y := by simpa using List.find?_some hv
      simp [this, hy]

theorem vnode?_modifyVnode_self (hv : s.vnode? x = some v) :
    (s.modifyVnode x f).vnode? x = some (f v) := by
  rw [vnode?_modifyVnode hf, if_pos rfl, hv]
  rfl

theorem vnode?_modifyVnode_of_ne (h : y ≠ x) :
    (s.modifyVnode x f).vnode? y = s.vnode? y := by
  rw [vnode?_modifyVnode hf, if_neg h]

/-- No other file becomes loaded. -/
theorem exists_of_modifyVnode
    (h : (s.modifyVnode x f).vnode? y = some v) : ∃ w, s.vnode? y = some w := by
  rw [vnode?_modifyVnode hf] at h
  split at h
  · rename_i hy
    obtain ⟨w, hw, -⟩ := Option.map_eq_some_iff.1 h
    exact ⟨w, hy ▸ hw⟩
  · exact ⟨v, h⟩

theorem inos_modifyVnode (s : Sfs) (x : UInt32) :
    (s.modifyVnode x f).vnodes.map (·.ino) = s.vnodes.map (·.ino) := by
  show (s.vnodes.map _).map _ = _
  rw [List.map_map]
  refine List.map_congr_left fun v _ => ?_
  simp only [comp_apply]
  split
  · exact hf v
  · rfl

theorem inode_modifyVnode_of_ne (h : y ≠ x) :
    (s.modifyVnode x f).inode y = s.inode y := by
  unfold inode
  rw [vnode?_modifyVnode_of_ne hf h]
  rfl

theorem inode_modifyVnode (hv : s.vnode? x = some v) :
    (s.modifyVnode x f).inode x = (f v).i :=
  inode_of_loaded (vnode?_modifyVnode_self hf hv)

end

theorem entry_congr (hi : (s'.inode x).indirect = (s.inode x).indirect)
    (hs : ∀ b, s'.sector b = s.sector b) (j : ℕ) : s'.entry x j = s.entry x j := by
  unfold entry
  rw [hi, hs]

theorem block_congr (hp : s'.ptr x fb = s.ptr x fb) (hs : ∀ b, s'.sector b = s.sector b) :
    s'.block x fb = s.block x fb := by
  unfold block
  rw [hp, hs]

theorem block_byte_congr (h : ∀ fb, s'.block x fb = s.block x fb) : s'.byte x = s.byte x := by
  funext p
  unfold byte
  rw [h]

/-- What the other files hold stays. -/
theorem raw_modifyVnode_of_ne (hf : ∀ v, (f v).ino = v.ino) (h : r.ino ≠ x) :
    (s.modifyVnode x f).raw r = s.raw r := by
  have hinode := inode_modifyVnode_of_ne (s := s) hf h
  have hindirect := congrArg indirect hinode
  exact raw_congr hindirect (ptr_congr hinode (entry_congr hindirect fun _ => rfl))

/-- **One direct pointer of a file is set.** -/
theorem raw_setDirect (hv : s.vnode? x = some v) (k : Fin 15) (c : UInt32) (r : Ref) :
    (s.modifyVnode x (setDirect k c)).raw r = if r = .block x k then c else s.raw r := by
  by_cases hr : r.ino = x
  swap
  · rw [raw_modifyVnode_of_ne (f := setDirect k c) (fun _ => rfl) hr, if_neg]
    rintro rfl
    exact hr rfl
  have hnew : (s.modifyVnode x (setDirect k c)).inode x = (setDirect k c v).i :=
    inode_modifyVnode (fun _ => rfl) hv
  have hold : s.inode x = v.i := inode_of_loaded hv
  cases r with
  | inode y => rfl
  | indirect y =>
    obtain rfl : y = x := hr
    show ((s.modifyVnode y (setDirect k c)).inode y).indirect = (s.inode y).indirect
    rw [hnew, hold]
    rfl
  | block y fb =>
    obtain rfl : y = x := hr
    show (s.modifyVnode y (setDirect k c)).ptr y fb =
      if Ref.block y fb = .block y k then c else s.ptr y fb
    by_cases hlt : fb < 15
    · rw [ptr_of_lt hlt, ptr_of_lt hlt, hnew, hold]
      show update v.i.direct k c ⟨fb, hlt⟩ = _
      rw [update_apply]
      exact if_congr (by simp [Fin.ext_iff]) rfl rfl
    · have hentry : ∀ j, (s.modifyVnode y (setDirect k c)).entry y j = s.entry y j :=
        entry_congr (by rw [hnew, hold]; rfl) fun _ => rfl
      have hne : Ref.block y fb ≠ .block y k := by
        simp only [ne_eq, Ref.block.injEq, true_and]
        omega
      rw [if_neg hne]
      unfold ptr
      rw [dif_neg hlt, dif_neg hlt]
      simp only [hentry]

/-- **The indirect block of a file is set**, to one that has the same entries. -/
theorem raw_setIndirect (hv : s.vnode? x = some v)
    (hentry : ∀ j < 128, (if c = 0 then 0 else (s.sector c).word j) = s.entry x j) (r : Ref) :
    (s.modifyVnode x (setIndirect c)).raw r = if r = .indirect x then c else s.raw r := by
  by_cases hr : r.ino = x
  swap
  · rw [raw_modifyVnode_of_ne (f := setIndirect c) (fun _ => rfl) hr, if_neg]
    rintro rfl
    exact hr rfl
  have hnew : (s.modifyVnode x (setIndirect c)).inode x = (setIndirect c v).i :=
    inode_modifyVnode (fun _ => rfl) hv
  cases r with
  | inode y => rfl
  | indirect y =>
    obtain rfl : y = x := hr
    rw [if_pos rfl]
    exact congrArg indirect hnew
  | block y fb =>
    obtain rfl : y = x := hr
    show (s.modifyVnode y (setIndirect c)).ptr y fb = s.ptr y fb
    by_cases hlt : fb < 15
    · rw [ptr_of_lt hlt, ptr_of_lt hlt, hnew, inode_of_loaded hv]
      rfl
    by_cases hfb : fb < 143
    · rw [ptr_of_entry hlt hfb, ptr_of_entry hlt hfb, ← hentry _ (by omega)]
      unfold entry
      rw [hnew]
      rfl
    · rw [ptr_of_ge (by omega), ptr_of_ge (by omega)]

/-- **One entry of the indirect block of a file is set**, and the block is written. -/
theorem raw_setEntry {w : ℕ → UInt32} {j : ℕ} (hj : j < 128) (hi : (s.inode x).indirect ≠ 0)
    (hw : ∀ i < 128, w i = (s.sector (s.inode x).indirect).word i)
    (hinode : ∀ y, L y → s'.inode y = s.inode y)
    (hsec : s'.sector (s.inode x).indirect = ofWords (update w j c))
    (hother : ∀ y, L y → y ≠ x → s'.sector (s.inode y).indirect = s.sector (s.inode y).indirect)
    (hr : L r.ino) : s'.raw r = if r = .block x (15 + j) then c else s.raw r := by
  cases r with
  | inode y => rfl
  | indirect y => exact congrArg indirect (hinode y hr)
  | block y fb =>
    have heq : Ref.block y fb = .block x (15 + j) ↔ y = x ∧ fb = 15 + j := by simp
    show s'.ptr y fb = if Ref.block y fb = .block x (15 + j) then c else s.ptr y fb
    by_cases hlt : fb < 15
    · rw [if_neg (by rw [heq]; omega), ptr_of_lt hlt, ptr_of_lt hlt, hinode y hr]
    by_cases hfb : fb < 143
    · rw [ptr_of_entry hlt hfb, ptr_of_entry hlt hfb]
      unfold entry
      rw [hinode y hr]
      by_cases hyx : y = x
      · rw [hyx, if_neg hi, if_neg hi, hsec, word_ofWords _ (by omega),
          update_apply, hw _ (by omega)]
        exact if_congr (by simp only [Ref.block.injEq, true_and]; omega) rfl rfl
      · rw [hother y hr hyx, if_neg fun e => hyx (heq.1 e).1]
    · rw [if_neg (by rw [heq]; omega), ptr_of_ge (by omega), ptr_of_ge (by omega)]

/-- What a write to a vnode leaves alone. -/
theorem field_modifyVnode {β : Type} {g : SfsInode → β} (hf : ∀ v, (f v).ino = v.ino)
    (hg : ∀ v, g (f v).i = g v.i) (s : Sfs) (x y : UInt32) :
    g ((s.modifyVnode x f).inode y) = g (s.inode y) := by
  by_cases hy : y = x
  · subst hy
    cases hv : s.vnode? y with
    | some v => rw [inode_modifyVnode hf hv, inode_of_loaded hv, hg]
    | none =>
      have hv' : (s.modifyVnode y f).vnode? y = none := by
        rw [vnode?_modifyVnode hf, if_pos rfl, hv]
        rfl
      unfold inode
      rw [hv, hv']
      rfl
  · rw [inode_modifyVnode_of_ne hf hy]

section SamePointers

variable (hf : ∀ v, (f v).ino = v.ino) (hd : ∀ v, (f v).i.direct = v.i.direct)
  (hi : ∀ v, (f v).i.indirect = v.i.indirect)
include hf hd hi

/-- A write to a vnode that leaves its pointers alone. -/
theorem pointers_modifyVnode (s : Sfs) (x y : UInt32) :
    ((s.modifyVnode x f).inode y).direct = (s.inode y).direct ∧
      ((s.modifyVnode x f).inode y).indirect = (s.inode y).indirect :=
  ⟨field_modifyVnode (g := direct) hf hd s x y, field_modifyVnode (g := indirect) hf hi s x y⟩

theorem ptr_modifyVnode (s : Sfs) (x y : UInt32) (fb : ℕ) :
    (s.modifyVnode x f).ptr y fb = s.ptr y fb := by
  have hentry : ∀ j, (s.modifyVnode x f).entry y j = s.entry y j :=
    entry_congr (pointers_modifyVnode hf hd hi s x y).2 fun _ => rfl
  unfold ptr
  rw [(pointers_modifyVnode hf hd hi s x y).1]
  simp only [hentry]

theorem byte_modifyVnode (s : Sfs) (x y : UInt32) : (s.modifyVnode x f).byte y = s.byte y :=
  block_byte_congr fun fb => block_congr (ptr_modifyVnode hf hd hi s x y fb) fun _ => rfl

/-- **The accounting goes on over a write to a vnode** that leaves its pointers
alone. -/
theorem Core.modifyVnode (h : s.Core L) (x : UInt32) : (s.modifyVnode x f).Core L where
  ready := h.ready.modifyVnode x f
  loaded y w hw := by
    obtain ⟨v, hv⟩ := exists_of_modifyVnode hf hw
    exact h.loaded y v hv
  exact := h.exact.congr (fun r => ref_congr fun _ =>
    raw_congr (pointers_modifyVnode hf hd hi s x r.ino).2 (ptr_modifyVnode hf hd hi s x r.ino))
    fun _ => Iff.rfl

end SamePointers

end ModifyVnode

/-! ## Marks -/

/-- A block comes into use, cleared. -/
def alloc (s : Sfs) (b : UInt32) : Sfs :=
  Sfs.setSector { s with freemap := s.freemap.mark b.toNat, freemapdirty := true } b zero

/-- A block goes out of use. -/
def free (s : Sfs) (b : UInt32) : Sfs :=
  { s with freemap := s.freemap.unmark b.toNat, freemapdirty := true }

theorem marked_alloc (s : Sfs) (b c : UInt32) : (s.alloc b).Marked c ↔ s.Marked c ∨ c = b := by
  unfold Marked
  show s.freemap.nbits ≤ c.toNat ∨ (s.freemap.mark b.toNat).IsSet c.toNat ↔ _
  rw [Lib.Bitmap.isSet_mark, UInt32.toNat_inj, or_assoc]

theorem Ready.free (h : s.Ready) (b : UInt32) : (s.free b).Ready :=
  ⟨h.clean, h.mem, h.nsect, h.small, h.room, h.nbits⟩

theorem marked_free (hb : b.toNat < s.freemap.nbits) (c : UInt32) :
    (s.free b).Marked c ↔ s.Marked c ∧ c ≠ b := by
  show s.freemap.nbits ≤ c.toNat ∨ (s.freemap.unmark b.toNat).IsSet c.toNat ↔ _
  rw [Lib.Bitmap.isSet_unmark, ne_eq, ne_eq, UInt32.toNat_inj]
  constructor
  · rintro (h | h)
    · exact ⟨.inl h, fun e => by rw [e] at h; omega⟩
    · exact ⟨.inr h.1, h.2⟩
  · rintro ⟨h | h, hne⟩
    · exact .inl h
    · exact .inr ⟨h, hne⟩

end Sfs

end Fs

end Os161
