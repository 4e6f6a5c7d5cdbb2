import Os161.Fs.View
/-!
# `sfs_bmap`

The four ways in which `sfs_bmap` allocates all keep the accounting, and none
of them changes a byte of a file: a block that is allocated has been cleared,
and takes the place of a hole (`wp_sfsBmap`).
-/

namespace Os161

namespace Fs

open Prog Function Sfs Sector UInt32

variable {s s' s'' : Sfs} {L : UInt32 → Prop} {x y b c : UInt32} {fb : ℕ} {r : Ref} {v : SfsVnode}

/-! ## The building blocks -/

section Runs

variable {E : Stop Errno → Sfs → Prop}

theorem Sfs.Ready.lt (h : s.Ready) (hb : b.toNat < s.super.nblocks.toNat) :
    b.toNat < 2 ^ 22 ∧ b.toNat < s.device.nsect.toNat := by
  have := h.small
  have := h.nsect
  omega

theorem run_rblock_of_clean (h : s.device.Clean) (hb : b.toNat < 2 ^ 22)
    (hsect : b.toNat < s.device.nsect.toNat) : rblock b s = .ok (s.sector b) s :=
  zoom_of_ok (run_sfsRblock h hb hsect)

theorem run_rblock (h : s.Ready) (hb : b.toNat < s.super.nblocks.toNat) :
    rblock b s = .ok (s.sector b) s :=
  run_rblock_of_clean h.clean (h.lt hb).1 (h.lt hb).2

theorem run_wblock (h : s.Ready) (hb : b.toNat < s.super.nblocks.toNat) (d : Sector) :
    wblock d b s = .ok () (s.setSector b d) :=
  zoom_of_ok (run_sfsWblock h.clean (h.lt hb).1 (h.lt hb).2 d)

theorem wp_getVnode {Q : SfsVnode → Sfs → Prop} (hv : s.vnode? x = some v) :
    wp (getVnode x) Q E s ↔ Q v s := by
  unfold getVnode
  rw [wp_get_bind, hv]
  exact wp_pure

variable {f : SfsVnode → SfsVnode}

theorem wp_modifyVnode {Q : Unit → Sfs → Prop} :
    wp (modifyVnode x f) Q E s ↔ Q () (s.modifyVnode x f) := wp_modify

/-- `sfs_bused` panics for a block that is not in use. -/
theorem wp_checkUsed_iff {Q : Unit → Sfs → Prop} :
    wp (checkUsed b) Q E s ↔
      if b.toNat < s.super.nblocks.toNat ∧ s.freemap.IsSet b.toNat then Q () s else E .halt s := by
  unfold checkUsed
  rw [wp_get_bind, wp_bind, wp_assert, wp_assert, ite_and]
  exact Iff.rfl

theorem wp_checkUsed {Q : Unit → Sfs → Prop} (hlt : b.toNat < s.super.nblocks.toNat)
    (hset : s.freemap.IsSet b.toNat) : wp (checkUsed b) Q E s ↔ Q () s := by
  rw [wp_checkUsed_iff, if_pos ⟨hlt, hset⟩]

/-- A block that is in use, or none, is handed back. -/
theorem wp_handBack {Q : UInt32 → Sfs → Prop}
    (h : b ≠ 0 → b.toNat < s.super.nblocks.toNat ∧ s.freemap.IsSet b.toNat) :
    wp (handBack b) Q E s ↔ Q b s := by
  unfold handBack
  by_cases hb : b = 0
  · rw [if_neg (by simpa using hb)]
    exact wp_pure
  · rw [if_pos hb, wp_bind, wp_checkUsed (h hb).1 (h hb).2, wp_pure]

theorem Sfs.Ready.padded (h : s.Ready) : s.freemap.Padded := by
  intro i hi hlt
  have hbits := h.nbits
  unfold Lib.Bitmap.words at hlt
  unfold bitmapSize bitBlocks at hbits
  omega

/-- **`sfs_balloc`** hands out the first block without a mark, or there is none. -/
theorem wp_sfsBalloc_first (h : s.Ready)
    (hend : ∀ i, s.super.nblocks.toNat ≤ i → i < s.freemap.nbits → s.freemap.IsSet i) :
    wp sfsBalloc
      (fun b s' => b.toNat < s.super.nblocks.toNat ∧ ¬ s.freemap.IsSet b.toNat ∧
        (∀ j < b.toNat, s.freemap.IsSet j) ∧ s' = s.alloc b)
      (fun e s' => e = .error .ENOSPC ∧ s' = s ∧ ∀ i < s.freemap.nbits, s.freemap.IsSet i) s := by
  have hnbits := h.nbits
  have hsmall := h.small
  unfold bitmapSize bitBlocks at hnbits
  unfold sfsBalloc
  rw [wp_bind, wp_zoom]
  refine wp_mono (Lib.Bitmap.wp_bitmapAlloc h.padded) ?_ ?_
  · rintro i freemap ⟨hlt, hunset, hfirst, rfl⟩
    have hi : i < s.super.nblocks.toNat := by
      by_contra hge
      exact hunset (hend i (by omega) hlt)
    have htoNat : (ofNat i).toNat = i :=
      toNat_ofNat_of_lt' (show i < 2 ^ 32 by omega)
    have hlt' : (ofNat i).toNat < s.super.nblocks.toNat := by rwa [htoNat]
    rw [wp_bind, wp_modify, wp_get_bind, wp_assert_bind (lt_iff_toNat_lt.2 (by exact hlt')),
      wp_bind]
    let s₁ : Sfs := { s with freemap := s.freemap.mark i, freemapdirty := true }
    have hready : s₁.Ready := ⟨h.clean, h.mem, h.nsect, h.small, h.room, h.nbits⟩
    show wp (wblock zero (ofNat i)) _ _ s₁
    rw [wp_of_ok (run_wblock (s := s₁) hready hlt' zero), wp_pure]
    unfold alloc
    rw [htoNat]
    exact ⟨hi, hunset, hfirst, rfl⟩
  · rintro e freemap ⟨rfl, rfl, hall⟩
    refine ⟨rfl, rfl, fun i hi => hall i ?_⟩
    show i < Lib.Bitmap.words s.freemap.nbits * 8
    unfold Lib.Bitmap.words
    omega

/-- What lies past the end is marked. -/
theorem Sfs.Core.isSet_of_ge (h : s.Core L) {i : ℕ} (hge : s.super.nblocks.toNat ≤ i)
    (hlt : i < s.freemap.nbits) : s.freemap.IsSet i := by
  have hnbits := h.ready.nbits
  have hsmall := h.ready.small
  unfold bitmapSize bitBlocks at hnbits
  have htoNat : (ofNat i).toNat = i :=
    toNat_ofNat_of_lt' (show i < 2 ^ 32 by omega)
  have hmarked : s.Marked (ofNat i) :=
    (h.exact.marked_iff _).2 (.inl (.inr (.inr (by rw [htoNat]; exact hge))))
  unfold Sfs.Marked at hmarked
  rw [htoNat] at hmarked
  exact hmarked.resolve_left (by omega)

/-- There is no space left. -/
def Sfs.Full (s : Sfs) : Prop := ∀ b, s.Marked b

/-- `sfs_balloc` hands out a block that had no mark, or there is none. -/
theorem wp_sfsBalloc (h : s.Core L) :
    wp sfsBalloc (fun b s' => ¬ s.Marked b ∧ s' = s.alloc b)
      (fun e s' => e = .error .ENOSPC ∧ s' = s ∧ s.Full) s := by
  refine wp_mono (wp_sfsBalloc_first h.ready fun i => h.isSet_of_ge) ?_ ?_
  · rintro b s' ⟨hlt, hunset, -, rfl⟩
    exact ⟨not_or.2 ⟨not_le.2 (hlt.trans_le h.ready.nblocks_le), hunset⟩, rfl⟩
  · rintro e s' ⟨rfl, hs', hall⟩
    exact ⟨rfl, hs', fun b => or_iff_not_imp_left.2 fun hb => hall _ (not_le.1 hb)⟩

theorem run_sfsBfree (hlt : b.toNat < s.freemap.nbits) (hset : s.freemap.IsSet b.toNat) :
    sfsBfree b s = .ok () (s.free b) := by
  unfold sfsBfree
  rw [bind_of_ok (zoom_of_ok (p := freemapPart) (Lib.Bitmap.run_bitmapUnmark hlt hset))]
  rfl

end Runs

/-! ## What work on the blocks of a file leaves alone -/

/-- A vnode of which at most the size and the pointers have changed, and which
is dirty if they have. -/
structure Keeps (v v' : SfsVnode) : Prop where
  ops : v'.ops = v.ops
  refcount : v'.refcount = v.refcount
  type : v'.i.type = v.i.type
  linkcount : v'.i.linkcount = v.i.linkcount
  dirty : v' = v ∨ v'.dirty = true

/-- The superblock and the freemap on the disk are as they were, and a freemap in
memory that is not is dirty. -/
structure Durable (s s' : Sfs) : Prop where
  superdirty : s'.superdirty = s.superdirty
  fixed : ∀ b, s.Fixed b → s'.sector b = s.sector b
  map : s'.freemapdirty = true ∨ s'.freemap = s.freemap ∧ s'.freemapdirty = s.freemapdirty

/-- **`s'` is `s` after work on the blocks of file `x`**: the accounting goes on,
no other vnode and no sector of an inode has changed. -/
structure Effect (s s' : Sfs) (L : UInt32 → Prop) (x : UInt32) : Prop where
  core : s'.Core L
  super : s'.super = s.super
  inos : s'.vnodes.map (·.ino) = s.vnodes.map (·.ino)
  others : ∀ y ≠ x, s'.vnode? y = s.vnode? y
  self : ∀ v, s.vnode? x = some v → ∃ v', s'.vnode? x = some v' ∧ Keeps v v'
  sectors : ∀ y, L y → s'.sector y = s.sector y
  durable : Durable s s'

theorem Keeps.refl (v : SfsVnode) : Keeps v v := ⟨rfl, rfl, rfl, rfl, .inl rfl⟩

theorem Keeps.trans {v v' v'' : SfsVnode} (h : Keeps v v') (h' : Keeps v' v'') : Keeps v v'' where
  ops := h'.ops.trans h.ops
  refcount := h'.refcount.trans h.refcount
  type := h'.type.trans h.type
  linkcount := h'.linkcount.trans h.linkcount
  dirty := by
    rcases h'.dirty with rfl | hd
    · exact h.dirty
    · exact .inr hd

theorem Durable.refl : Durable s s := ⟨rfl, fun _ _ => rfl, .inr ⟨rfl, rfl⟩⟩

theorem Durable.trans (h : Durable s s') (h' : Durable s' s'') (hsuper : s'.super = s.super) :
    Durable s s'' where
  superdirty := h'.superdirty.trans h.superdirty
  fixed b hb := by
    have hb' : s'.Fixed b := by rwa [fixed_congr hsuper]
    exact (h'.fixed b hb').trans (h.fixed b hb)
  map := by
    rcases h'.map with hd | ⟨hm, hd⟩
    · exact .inl hd
    · rw [hm, hd]
      exact h.map

theorem Effect.refl (h : s.Core L) : Effect s s L x :=
  ⟨h, rfl, rfl, fun _ _ => rfl, fun v hv => ⟨v, hv, .refl v⟩, fun _ _ => rfl, .refl⟩

theorem Effect.trans (h : Effect s s' L x) (h' : Effect s' s'' L x) : Effect s s'' L x where
  core := h'.core
  super := h'.super.trans h.super
  inos := h'.inos.trans h.inos
  others y hy := (h'.others y hy).trans (h.others y hy)
  self v hv := by
    obtain ⟨v', hv', hk⟩ := h.self v hv
    obtain ⟨v'', hv'', hk'⟩ := h'.self v' hv'
    exact ⟨v'', hv'', hk.trans hk'⟩
  sectors y hy := (h'.sectors y hy).trans (h.sectors y hy)
  durable := h.durable.trans h'.durable h.super

/-- A write to the vnode of the file that leaves the pointers alone. -/
theorem Effect.modifyVnode (h : s.Core L) (hf : ∀ v, (f v).ino = v.ino)
    (hd : ∀ v, (f v).i.direct = v.i.direct) (hi : ∀ v, (f v).i.indirect = v.i.indirect)
    (hkeeps : ∀ v, Keeps v (f v)) : Effect s (s.modifyVnode x f) L x where
  core := h.modifyVnode hf hd hi x
  super := rfl
  inos := inos_modifyVnode hf s x
  others y hy := vnode?_modifyVnode_of_ne hf hy
  self v hv := ⟨f v, vnode?_modifyVnode_self hf hv, hkeeps v⟩
  sectors _ _ := rfl
  durable := ⟨rfl, fun _ _ => rfl, .inr ⟨rfl, rfl⟩⟩

/-- A write to a data block, or to one that is not in use. -/
theorem Effect.setData {d : Sector} (h : s.Core L) (hd : s.DataOnly L b) (hb : ¬ s.Fixed b) :
    Effect s (s.setSector b d) L x where
  core := h.setData hd
  super := rfl
  inos := rfl
  others _ _ := rfl
  self v hv := ⟨v, hv, .refl v⟩
  sectors y hy := by rw [sector_setSector, if_neg (hd.ino_ne hy)]
  durable := by
    refine ⟨rfl, fun c hc => ?_, .inr ⟨rfl, rfl⟩⟩
    have hne : c ≠ b := fun e => hb (e ▸ hc)
    rw [sector_setSector, if_neg hne]

/-- The files of `L` have the same sizes and the same blocks, and holes at most
where they had some. -/
def SameFiles (s s' : Sfs) (L : UInt32 → Prop) : Prop :=
  ∀ y, L y → (s'.inode y).size = (s.inode y).size ∧ ∀ fb, s'.block y fb = s.block y fb ∧
    (s.ptr y fb ≠ 0 → s'.ptr y fb ≠ 0)

theorem SameFiles.refl : SameFiles s s L := fun _ _ => ⟨rfl, fun _ => ⟨rfl, id⟩⟩

theorem SameFiles.trans (h : SameFiles s s' L) (h' : SameFiles s' s'' L) : SameFiles s s'' L :=
  fun y hy => ⟨((h' y hy).1).trans (h y hy).1, fun fb =>
    ⟨((h' y hy).2 fb).1.trans ((h y hy).2 fb).1, fun hp =>
      ((h' y hy).2 fb).2 (((h y hy).2 fb).2 hp)⟩⟩

/-! ## A block for a hole -/

/-- **The accounting goes on over an allocation**: one place that held nothing
holds a block that had no mark. -/
theorem Sfs.Core.grow (h : s.Core L) (hb : ¬ s.Marked b) (hL : L r.ino) (hr : s.raw r = 0)
    (hready : s'.Ready) (hloaded : ∀ y v, s'.vnode? y = some v → L y)
    (hsuper : s'.super = s.super) (hmarked : ∀ c, s'.Marked c ↔ s.Marked c ∨ c = b)
    (hself : s'.raw r = b) (hother : ∀ r' ≠ r, L r'.ino → s'.raw r' = s.raw r') : s'.Core L where
  ready := hready
  loaded := hloaded
  exact := by
    have hne : b ≠ 0 := (h.dataOnly_of_not_marked hb).1
    rw [fixed_congr hsuper]
    exact h.exact.set hb (ref_eq_none hr) (ref_eq_some.2 ⟨hL, hself, hne⟩)
      (fun r' hr' => ref_congr (hother r' hr')) hmarked

theorem Sfs.Ready.alloc (hready : s.Ready) (b : UInt32) : (s.alloc b).Ready :=
  ⟨hready.clean, hready.mem, hready.nsect, hready.small, hready.room, hready.nbits⟩

theorem Sfs.sector_alloc (s : Sfs) (b c : UInt32) :
    (s.alloc b).sector c = if c = b then zero else s.sector c :=
  sector_setSector _ b c _

/-- **No byte of a file changes** when a block that has been cleared comes into
one of the holes. -/
theorem SameFiles.of_grow (hr : s.raw r = 0) (hself : s'.raw r = b)
    (hother : ∀ r' ≠ r, L r'.ino → s'.raw r' = s.raw r')
    (hsize : ∀ y, L y → (s'.inode y).size = (s.inode y).size) (hzero : s'.sector b = zero)
    (hsector : ∀ y fb, L y → s'.sector (s.ptr y fb) = s.sector (s.ptr y fb)) :
    SameFiles s s' L := by
  intro y hy
  refine ⟨hsize y hy, fun fb => ?_⟩
  unfold block
  by_cases he : r = .block y fb
  · subst he
    rw [show s'.ptr y fb = b from hself, show s.ptr y fb = 0 from hr, hzero, if_pos rfl, ite_self]
    exact ⟨rfl, absurd rfl⟩
  · rw [show s'.ptr y fb = s.ptr y fb from hother (.block y fb) (Ne.symm he) hy, hsector y fb hy]
    exact ⟨rfl, id⟩

section Alloc

variable (h : s.Core L) (hb : ¬ s.Marked b)
include h hb

theorem inode_alloc (hy : L y) : (s.alloc b).inode y = s.inode y :=
  (h.dataOnly_of_not_marked hb).inode_eq hy

theorem ptr_alloc (hy : L y) (fb : ℕ) : (s.alloc b).ptr y fb = s.ptr y fb :=
  (h.dataOnly_of_not_marked hb).ptr_eq hy fb

/-- No pointer leads to a block without a mark. -/
theorem ptr_ne_of_not_marked (hy : L y) (fb : ℕ) : s.ptr y fb ≠ b := fun he =>
  h.exact.ref_ne hb (.block y fb)
    (ref_eq_some.2 ⟨hy, he, (h.dataOnly_of_not_marked hb).1⟩)

theorem raw_alloc (hr : L r.ino) : (s.alloc b).raw r = s.raw r :=
  raw_congr (congrArg SfsInode.indirect (inode_alloc h hb hr)) (ptr_alloc h hb hr)

/-- A vnode takes the block up: the accounting goes on and no byte changes if one
place of the file has come to hold it. -/
theorem grow_vnode (hf : ∀ v, (f v).ino = v.ino)
    (hkeeps : ∀ v, Keeps v (f v)) (hsize : ∀ v, (f v).i.size = v.i.size)
    (hv : s.vnode? x = some v) (hrx : r.ino = x) (hr : s.raw r = 0)
    (hself : ((s.alloc b).modifyVnode x f).raw r = b)
    (hother : ∀ r' ≠ r, ((s.alloc b).modifyVnode x f).raw r' = (s.alloc b).raw r') :
    Effect s ((s.alloc b).modifyVnode x f) L x ∧
      SameFiles s ((s.alloc b).modifyVnode x f) L := by
  have hx : L x := h.loaded x v hv
  have hd : s.DataOnly L b := h.dataOnly_of_not_marked hb
  have hraw : ∀ r' ≠ r, L r'.ino → ((s.alloc b).modifyVnode x f).raw r' = s.raw r' :=
    fun r' hne hL => (hother r' hne).trans (raw_alloc h hb hL)
  have hcore : ((s.alloc b).modifyVnode x f).Core L := by
    refine h.grow hb (hrx ▸ hx) hr ((h.ready.alloc b).modifyVnode x f) (fun y w hw => ?_) rfl
      (marked_alloc s b) hself hraw
    obtain ⟨w', hw'⟩ := exists_of_modifyVnode hf hw
    exact h.loaded y w' hw'
  refine ⟨⟨hcore, rfl, inos_modifyVnode hf (s.alloc b) x, ?_, ?_, ?_, rfl, ?_, .inl rfl⟩,
    .of_grow hr hself hraw ?_ ?_ ?_⟩
  · exact fun y hy => vnode?_modifyVnode_of_ne hf hy
  · exact fun w hw => ⟨f w, vnode?_modifyVnode_self hf hw, hkeeps w⟩
  · intro y hy
    rw [sector_modifyVnode, sector_alloc, if_neg (hd.ino_ne hy)]
  · intro c hc
    rw [sector_modifyVnode, sector_alloc, if_neg (h.ne_of_fixed hb hc)]
  · intro y hy
    by_cases hyx : y = x
    · have hnew : ((s.alloc b).modifyVnode x f).inode x = (f v).i := inode_modifyVnode hf hv
      rw [hyx, hnew, hsize, inode_of_loaded hv]
    · rw [inode_modifyVnode_of_ne hf hyx, inode_alloc h hb hy]
  · rw [sector_modifyVnode, sector_alloc, if_pos rfl]
  · intro y fb hy
    rw [sector_modifyVnode, sector_alloc, if_neg (ptr_ne_of_not_marked h hb hy fb)]

/-- The block becomes a direct block. -/
theorem grow_direct (hv : s.vnode? x = some v) {k : Fin 15} (hk : v.i.direct k = 0) :
    let s' := (s.alloc b).modifyVnode x fun sv =>
      { sv with i := { sv.i with direct := update sv.i.direct k b }, dirty := true }
    Effect s s' L x ∧ SameFiles s s' L ∧ s'.ptr x k = b := by
  intro s'
  have hv₁ : (s.alloc b).vnode? x = some v := hv
  have hself : s'.ptr x k = b := (raw_setDirect hv₁ k b (.block x k)).trans (if_pos rfl)
  have hzero : s.ptr x k = 0 := by
    rw [ptr_of_lt k.2, inode_of_loaded hv]
    exact hk
  obtain ⟨heffect, hfiles⟩ := grow_vnode h hb (f := setDirect k b) (fun _ => rfl)
    (fun v => ⟨rfl, rfl, rfl, rfl, .inr rfl⟩) (fun _ => rfl) hv (r := .block x k) rfl hzero hself
    fun r' hne => (raw_setDirect hv₁ k b r').trans (if_neg hne)
  exact ⟨heffect, hfiles, hself⟩

/-- The block becomes the indirect block of a file that had none: it has no
entries yet. -/
theorem grow_indirect (hv : s.vnode? x = some v) (hi : v.i.indirect = 0) :
    let s' := (s.alloc b).modifyVnode x fun sv =>
      { sv with i := { sv.i with indirect := b }, dirty := true }
    Effect s s' L x ∧ SameFiles s s' L ∧ (s'.inode x).indirect = b ∧
      s'.sector b = zero := by
  intro s'
  have hold : (s.alloc b).inode x = v.i := inode_of_loaded hv
  have hclear : (s.alloc b).sector b = zero := by
    rw [sector_alloc, if_pos rfl]
  have hraw : ∀ r, s'.raw r = if r = .indirect x then b else (s.alloc b).raw r :=
    raw_setIndirect (s := s.alloc b) hv fun j _ => by
      unfold entry
      rw [hold, if_pos hi, hclear, word_zero, ite_self]
  have hself : s'.raw (.indirect x) = b := (hraw _).trans (if_pos rfl)
  obtain ⟨heffect, hfiles⟩ := grow_vnode h hb (f := setIndirect b) (fun _ => rfl)
    (fun v => ⟨rfl, rfl, rfl, rfl, .inr rfl⟩) (fun _ => rfl) hv (r := .indirect x) rfl
    ((congrArg SfsInode.indirect (inode_of_loaded hv)).trans hi) hself
    fun r' hne => (hraw r').trans (if_neg hne)
  exact ⟨heffect, hfiles, hself, hclear⟩

/-- The block becomes an entry of the indirect block, which is written. -/
theorem grow_entry (hv : s.vnode? x = some v) (hi : v.i.indirect ≠ 0) {w : ℕ → UInt32}
    (hw : ∀ j < 128, w j = (s.sector v.i.indirect).word j) {j : ℕ} (hj : j < 128) (h0 : w j = 0) :
    let s' := (s.alloc b).setSector v.i.indirect (ofWords (update w j b))
    Effect s s' L x ∧ SameFiles s s' L ∧ s'.ptr x (15 + j) = b := by
  intro s'
  have hx : L x := h.loaded x v hv
  have hd : s.DataOnly L b := h.dataOnly_of_not_marked hb
  have hinode : s.inode x = v.i := inode_of_loaded hv
  have hid : s.ref L (.indirect x) = some v.i.indirect := h.ref_indirect hv hi
  have hidb : v.i.indirect ≠ b := by
    rw [← hinode]
    exact hd.indirect_ne hx
  have hino : ∀ y, L y → y ≠ v.i.indirect := fun y hy =>
    h.raw_ne hid (.inode y) (by simp) hy
  have hsame : ∀ y, L y → s'.inode y = s.inode y := fun y hy =>
    (inode_setSector (hino y hy)).trans (inode_alloc h hb hy)
  have hsector : ∀ c, s'.sector c = if c = v.i.indirect then
      ofWords (update w j b) else (s.alloc b).sector c :=
    fun c => sector_setSector _ _ c _
  have hset : ∀ r', L r'.ino → s'.raw r' = if r' = .block x (15 + j) then b else s.raw r' := by
    refine fun r' => raw_setEntry (w := w) hj (by rwa [hinode]) (by rwa [hinode]) hsame ?_ ?_
    · rw [hinode, hsector, if_pos rfl]
    · intro y hy hyx
      have hne : (s.inode y).indirect ≠ v.i.indirect :=
        h.raw_ne hid (.indirect y) (fun e => hyx (Ref.indirect.inj e)) hy
      rw [hsector, if_neg hne, sector_alloc, if_neg (hd.indirect_ne hy)]
  have hself : s'.ptr x (15 + j) = b := (hset (.block x (15 + j)) hx).trans (if_pos rfl)
  have hhole : s.ptr x (15 + j) = 0 := by
    rw [ptr_of_entry (by omega) (by omega), show 15 + j - 15 = j by omega]
    unfold entry
    rw [hinode, if_neg hi, ← hw j hj, h0]
  have hraw : ∀ r' ≠ Ref.block x (15 + j), L r'.ino → s'.raw r' = s.raw r' :=
    fun r' hne hL => (hset r' hL).trans (if_neg hne)
  have hcore : s'.Core L :=
    h.grow hb (r := .block x (15 + j)) hx hhole ((h.ready.alloc b).setSector _ _) h.loaded rfl
      (marked_alloc s b)
      hself hraw
  refine ⟨⟨hcore, rfl, rfl, fun _ _ => rfl, fun v hv => ⟨v, hv, .refl v⟩, ?_, rfl, ?_, .inl rfl⟩,
    .of_grow (r := .block x (15 + j)) hhole hself hraw (fun y hy => by rw [hsame y hy]) ?_ ?_,
      hself⟩
  · intro y hy
    rw [hsector, if_neg (hino y hy), sector_alloc, if_neg (hd.ino_ne hy)]
  · intro c hc
    rw [hsector, if_neg (h.ref_ne_fixed hid hc), sector_alloc, if_neg (h.ne_of_fixed hb hc)]
  · rw [hsector, if_neg (Ne.symm hidb), sector_alloc, if_pos rfl]
  · intro y fb hy
    have hne : s.ptr y fb ≠ v.i.indirect := h.raw_ne hid (.block y fb) (by simp) hy
    rw [hsector, if_neg hne, sector_alloc, if_neg (ptr_ne_of_not_marked h hb hy fb)]

end Alloc

/-! ## `sfs_bmap` -/

/-- What `sfs_bmap` returns for a block of file `x`: the pointer to it, and a
block instead of a hole if it was to allocate one. -/
structure Mapped (s s' : Sfs) (L : UInt32 → Prop) (x : UInt32) (fb : ℕ) (doalloc : Bool)
    (b : UInt32) : Prop where
  effect : Effect s s' L x
  files : SameFiles s s' L
  ptr : s'.ptr x fb = b
  lt : fb < 143
  look : doalloc = false → s' = s
  alloc : doalloc = true → b ≠ 0

/-- How `sfs_bmap` fails: there is no space, or no such block in a file. -/
inductive Unmapped (s s' : Sfs) (L : UInt32 → Prop) (x : UInt32) (fb : ℕ) (doalloc : Bool) :
    Stop Errno → Prop
  | full (effect : Effect s s' L x) (files : SameFiles s s' L) (alloc : doalloc = true)
      (hole : s.ptr x fb = 0) (full : s'.Full) :
    Unmapped s s' L x fb doalloc (.error .ENOSPC)
  | past (ge : 143 ≤ fb) (same : s' = s) : Unmapped s s' L x fb doalloc (.error .EINVAL)

section

variable (h : s.Core L)

include h

/-- A pointer of a file can be handed back. -/
theorem wp_handBack_ptr {Q : UInt32 → Sfs → Prop} {E : Stop Errno → Sfs → Prop}
    (hx : L x) (hp : s.ptr x fb = b) : wp (handBack b) Q E s ↔ Q b s := by
  refine wp_handBack fun hb => ?_
  have hr : s.ref L (.block x fb) = some b := ref_eq_some.2 ⟨hx, hp, hb⟩
  exact ⟨h.lt_nblocks hr, h.isSet hr⟩

theorem wp_sfsBmapDirect (hv : s.vnode? x = some v) (k : Fin 15) (doalloc : Bool) :
    wp (sfsBmapDirect x k doalloc) (fun b s' => Mapped s s' L x k doalloc b)
      (fun e s' => Unmapped s s' L x k doalloc e) s := by
  have hx : L x := h.loaded x v hv
  have hlt : k.val < 143 := by omega
  have hp : s.ptr x k = v.i.direct k := by rw [ptr_of_lt k.2, inode_of_loaded hv]
  unfold sfsBmapDirect
  rw [wp_bind, wp_getVnode hv, wp_ite]
  split
  · rename_i hc
    refine wp_seq (wp_sfsBalloc h) ?_ ?_
    · rintro b _ ⟨hb, rfl⟩
      obtain ⟨heffect, hfiles, hptr⟩ := grow_direct h hb hv hc.1
      rw [wp_bind, wp_modifyVnode, wp_handBack_ptr heffect.core hx hptr]
      exact ⟨heffect, hfiles, hptr, hlt, fun e => by rw [e] at hc; exact absurd hc.2 (by simp),
        fun _ => (h.dataOnly_of_not_marked hb).1⟩
    · rintro e _ ⟨rfl, rfl, hfull⟩
      exact .full (.refl h) .refl hc.2 (hp.trans hc.1) hfull
  · rename_i hc
    rw [wp_handBack_ptr h hx hp]
    exact ⟨.refl h, .refl, hp, hlt, fun _ => rfl, fun e h0 => hc ⟨h0, e⟩⟩

/-- The indirect block is there afterwards, and `idbuf` is what it holds. -/
theorem wp_indirectBlock (hv : s.vnode? x = some v) :
    wp (indirectBlock x v.i.indirect)
      (fun p s' => Effect s s' L x ∧ SameFiles s s' L ∧ (v.i.indirect ≠ 0 → s' = s) ∧
        ∃ v', s'.vnode? x = some v' ∧ v'.i.indirect = p.1 ∧ v'.i.indirect ≠ 0 ∧
          ∀ j, p.2 j = (s'.sector v'.i.indirect).word j)
      (fun e s' => e = .error .ENOSPC ∧ s' = s ∧ v.i.indirect = 0 ∧ s.Full) s := by
  unfold indirectBlock
  split
  · rename_i hi
    refine wp_seq (wp_sfsBalloc h) ?_ fun e s' h => ⟨h.1, h.2.1, hi, h.2.2⟩
    rintro b _ ⟨hb, rfl⟩
    obtain ⟨heffect, hfiles, hind, hclear⟩ := grow_indirect h hb hv hi
    rw [wp_bind, wp_modifyVnode, wp_pure]
    obtain ⟨v', hv', -⟩ := heffect.self v hv
    rw [inode_of_loaded hv'] at hind
    refine ⟨heffect, hfiles, absurd hi, v', hv', hind, ?_, fun j => ?_⟩
    · rw [hind]
      exact (h.dataOnly_of_not_marked hb).1
    · rw [hind, hclear, word_zero]
  · rename_i hi
    have hlt := h.lt_nblocks (h.ref_indirect hv hi)
    rw [wp_bind, wp_of_ok (run_rblock h.ready hlt), wp_pure]
    exact ⟨.refl h, .refl, fun _ => rfl, v, hv, rfl, hi, fun _ => rfl⟩

/-- A block becomes an entry of the indirect block of a file and is handed
back. -/
theorem wp_takeEntry (hb : ¬ s.Marked b) (hv : s.vnode? x = some v)
    (hi : v.i.indirect ≠ 0) {w : ℕ → UInt32}
    (hw : ∀ j < 128, w j = (s.sector v.i.indirect).word j) {j : ℕ} (hj : j < 128) (h0 : w j = 0) :
    wp (do wblock (ofWords (update w j b)) v.i.indirect
           handBack b)
      (fun b' s' => b' = b ∧ Effect s s' L x ∧ SameFiles s s' L ∧ s'.ptr x (15 + j) = b)
      (fun _ _ => False) (s.alloc b) := by
  have hgrow := grow_entry h hb hv hi hw hj h0
  have hlt := h.lt_nblocks (h.ref_indirect hv hi)
  have hrun := run_wblock (h.ready.alloc b) hlt (ofWords (update w j b))
  rw [wp_bind, wp_of_ok hrun, wp_handBack_ptr hgrow.1.core (h.loaded x v hv) hgrow.2.2]
  exact ⟨rfl, hgrow⟩

theorem wp_sfsBmapIndirect (hv : s.vnode? x = some v) (n : ℕ) (doalloc : Bool) :
    wp (sfsBmapIndirect x n doalloc) (fun b s' => Mapped s s' L x (15 + n) doalloc b)
      (fun e s' => Unmapped s s' L x (15 + n) doalloc e) s := by
  have hx : L x := h.loaded x v hv
  unfold sfsBmapIndirect
  rw [wp_bind, wp_getVnode hv, wp_bind, wp_failIf]
  split
  · exact .past (by omega) rfl
  have hlt : n < 128 := by omega
  split
  · rename_i hc
    have hp : s.ptr x (15 + n) = 0 := by
      rw [ptr_of_entry (by omega) (by omega)]
      unfold entry
      rw [inode_of_loaded hv, if_pos hc.1]
    rw [wp_pure]
    exact ⟨.refl h, .refl, hp, by omega, fun _ => rfl, fun e => absurd e hc.2⟩
  rename_i hc
  have hlook : doalloc = false → v.i.indirect ≠ 0 := fun e h0 => hc ⟨h0, by simp [e]⟩
  refine wp_seq (wp_indirectBlock h hv) ?_ ?_
  · rintro ⟨_, idbuf⟩ s₁ ⟨heffect, hfiles, hsame, v₁, hv₁, rfl, hne, hbuf⟩
    have hbuf : ∀ j, idbuf j = (s₁.sector v₁.i.indirect).word j := hbuf
    have hp : s₁.ptr x (15 + n) = idbuf n := by
      rw [ptr_of_entry (by omega) (by omega), Nat.add_sub_cancel_left, hbuf]
      unfold entry
      rw [inode_of_loaded hv₁, if_neg hne]
    rw [wp_ite, Nat.mod_eq_of_lt hlt]
    split
    · rename_i hz
      refine wp_seq (wp_sfsBalloc heffect.core) ?_ ?_
      · rintro b _ ⟨hb, rfl⟩
        refine wp_returns (wp_takeEntry heffect.core hb hv₁ hne (fun j _ => hbuf j) hlt hz.1) ?_
        rintro _ s₃ ⟨rfl, heffect', hfiles', hptr⟩
        exact ⟨heffect.trans heffect', hfiles.trans hfiles', hptr, by omega,
          fun e => absurd hz.2 (by simp [e]), fun _ =>
            (heffect.core.dataOnly_of_not_marked hb).1⟩
      · rintro e _ ⟨rfl, rfl, hfull⟩
        refine .full heffect hfiles hz.2 ?_ hfull
        by_contra hne'
        exact ((hfiles x hx).2 (15 + n)).2 hne' (hp.trans hz.1)
    · rename_i hz
      rw [wp_handBack_ptr heffect.core hx hp]
      exact ⟨heffect, hfiles, hp, by omega, fun e => hsame (hlook e), fun e h0 => hz ⟨h0, e⟩⟩
  · rintro e _ ⟨rfl, rfl, hi, hfull⟩
    refine .full (.refl h) .refl (not_not.1 fun hn => hc ⟨hi, hn⟩) ?_ hfull
    rw [ptr_of_entry (by omega) (by omega)]
    unfold entry
    rw [inode_of_loaded hv, if_pos hi]

/-- **`sfs_bmap`.** -/
theorem wp_sfsBmap (hv : s.vnode? x = some v) (fb : ℕ) (doalloc : Bool) :
    wp (sfsBmap x fb doalloc) (fun b s' => Mapped s s' L x fb doalloc b)
      (fun e s' => Unmapped s s' L x fb doalloc e) s := by
  unfold sfsBmap
  split
  · exact wp_sfsBmapDirect h hv ⟨fb, _⟩ doalloc
  · have := wp_sfsBmapIndirect h hv (fb - 15) doalloc
    rwa [show 15 + (fb - 15) = fb by omega] at this

end

end Fs

end Os161
