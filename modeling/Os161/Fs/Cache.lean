import Os161.Fs.Truncate
import Os161.Fs.Mount
import Os161.Fs.Accounts
/-!
# The vnodes in memory

The vnodes of a file system are a cache of the inodes on the disk, with dirty
bits. `Sane s L` is what holds of the cache and of the disk at all times, also in
the middle of an operation: the accounting over a set `L` of inodes, one vnode
for an inode, a vnode that is not dirty as it is on the disk, and types and
operations as they should be.

Loading and reclaiming a vnode do not change the view of any file (`SameView`);
a file without links goes with its last reference (`wp_vnodeDecref`).
-/

namespace Os161

namespace Fs

open Prog Sfs SfsInode List

variable {s s' s'' : Sfs} {L L' : UInt32 → Prop} {x y b : UInt32} {v w : SfsVnode}

/-! ## What holds at all times -/

/-- The superblock and the freemap in memory are those on the disk, unless they
are dirty; the superblock never is. -/
structure Stored (s : Sfs) : Prop where
  superdirty : s.superdirty = false
  magic : (SfsSuper.ofSector (s.sector 0)).magic = sfsMagic
  super : s.super = { SfsSuper.ofSector (s.sector 0) with
    volname := (SfsSuper.ofSector (s.sector 0)).volname.take 31 ++ [0] }
  map : s.freemapdirty = true ∨ ∀ ix < bitBlocks s.super.nblocks * 512,
    s.freemap.v ix = (s.device.sectors (2 + ix / 512)).byte (ix % 512)

/-- **The cache is sane**, over the inodes in `L`. -/
structure Sane (s : Sfs) (L : UInt32 → Prop) : Prop where
  core : s.Core L
  root : L rootIno
  nonzero : ∀ x, L x → x ≠ 0
  nodup : (s.vnodes.map (·.ino)).Nodup
  type : ∀ x, L x → (s.inode x).type = if x = rootIno then typeDir else typeFile
  ops : ∀ x v, s.vnode? x = some v → v.ops = if x = rootIno then .dir else .file
  synced : ∀ x v, s.vnode? x = some v → v.dirty = false → ofSector (s.sector x) = v.i
  stored : Stored s

/-- All files look the same. -/
structure SameView (s s' : Sfs) (L : UInt32 → Prop) : Prop where
  super : s'.super = s.super
  inode : ∀ y, L y → s'.inode y = s.inode y
  ptr : ∀ y, L y → ∀ fb, s'.ptr y fb = s.ptr y fb
  byte : ∀ y, L y → s'.byte y = s.byte y

theorem SameView.refl : SameView s s L :=
  ⟨rfl, fun _ _ => rfl, fun _ _ _ => rfl, fun _ _ => rfl⟩

theorem SameView.trans (h : SameView s s' L) (h' : SameView s' s'' L) : SameView s s'' L :=
  ⟨h'.super.trans h.super, fun y hy => (h'.inode y hy).trans (h.inode y hy),
    fun y hy fb => (h'.ptr y hy fb).trans (h.ptr y hy fb),
    fun y hy => (h'.byte y hy).trans (h.byte y hy)⟩

theorem SameView.mono (h : SameView s s' L) (hL : ∀ y, L' y → L y) : SameView s s' L' :=
  ⟨h.super, fun y hy => h.inode y (hL y hy), fun y hy => h.ptr y (hL y hy),
    fun y hy => h.byte y (hL y hy)⟩

/-- **A view is made of the inodes and of the sectors that they refer to.** -/
theorem SameView.of_sectors (hsuper : s'.super = s.super)
    (hinode : ∀ y, L y → s'.inode y = s.inode y)
    (hsector : ∀ r c, s.ref L r = some c → (∀ z, r ≠ .inode z) → s'.sector c = s.sector c) :
    SameView s s' L := by
  have hptr : ∀ y, L y → ∀ fb, s'.ptr y fb = s.ptr y fb := by
    intro y hy
    refine ptr_congr (hinode y hy) fun j => ?_
    unfold entry
    rw [hinode y hy]
    split
    · rfl
    · rename_i hi
      rw [hsector (.indirect y) (s.inode y).indirect (ref_eq_some.2 ⟨hy, rfl, hi⟩) nofun]
  refine ⟨hsuper, hinode, hptr, fun y hy => block_byte_congr fun fb => ?_⟩
  unfold block
  rw [hptr y hy fb]
  split
  · rfl
  · rename_i hp
    exact hsector (.block y fb) _ (ref_eq_some.2 ⟨hy, rfl, hp⟩) nofun

theorem SameView.raw {r : Ref} (h : SameView s s' L) (hL : L r.ino) : s'.raw r = s.raw r :=
  raw_congr (congrArg indirect (h.inode _ hL)) (h.ptr _ hL)

/-- The cache of a file system that looks the same. -/
theorem Sane.of_view (h : Sane s L) (hview : SameView s s' L) (hready : s'.Ready)
    (hfree : s'.freemap = s.freemap) (hnodup : (s'.vnodes.map (·.ino)).Nodup)
    (hvnode : ∀ y v, s'.vnode? y = some v → L y ∧ v.ops = (if y = rootIno then .dir else .file) ∧
      (v.dirty = false → ofSector (s'.sector y) = v.i)) (hstored : Stored s') : Sane s' L where
  core := by
    refine ⟨hready, fun y v hv => (hvnode y v hv).1, ?_⟩
    rw [fixed_congr hview.super]
    refine h.core.exact.congr (fun r => ref_congr hview.raw) fun c => ?_
    unfold Marked
    rw [hfree]
  root := h.root
  nonzero := h.nonzero
  nodup := hnodup
  type y hy := by
    rw [hview.inode y hy]
    exact h.type y hy
  ops y v hv := (hvnode y v hv).2.1
  synced y v hv := (hvnode y v hv).2.2
  stored := hstored

/-- An inode in use holds its own block. -/
theorem Sane.ref_inode (h : Sane s L) (hx : L x) : s.ref L (.inode x) = some x :=
  ref_eq_some.2 ⟨hx, rfl, h.nonzero x hx⟩

theorem Sane.lt_nblocks (h : Sane s L) (hx : L x) : x.toNat < s.super.nblocks.toNat :=
  h.core.lt_nblocks (h.ref_inode hx)

theorem Sfs.vnode?_isSome_iff : (∃ v, s.vnode? x = some v) ↔ x ∈ s.vnodes.map (·.ino) := by
  unfold vnode?
  rw [← Option.isSome_iff_exists, find?_isSome, mem_map]
  simp only [decide_eq_true_iff]

theorem Sfs.inode_of_not_loaded (h : s.vnode? x = none) :
    s.inode x = ofSector (s.sector x) := by
  unfold inode
  rw [h]

/-- The inode of a file is the one on the disk or the one of its vnode. -/
theorem Sfs.inode_congr (hv : s'.vnode? x = s.vnode? x) (hs : s'.sector x = s.sector x) :
    s'.inode x = s.inode x := by
  unfold inode
  rw [hv, hs]

/-! ## Work on the blocks of a file -/

theorem Effect.inode_eq (h : Effect s s' L x) (hy : L y) (hne : y ≠ x) : s'.inode y = s.inode y :=
  inode_congr (h.others y hne) (h.sectors y hy)

theorem Effect.not_loaded (h : Effect s s' L x) (hv : s.vnode? x = none) : s'.vnode? x = none := by
  cases hv' : s'.vnode? x with
  | none => rfl
  | some v' =>
    have hmem := vnode?_isSome_iff.1 ⟨v', hv'⟩
    rw [h.inos] at hmem
    obtain ⟨v, hv₁⟩ := vnode?_isSome_iff.2 hmem
    rw [hv] at hv₁
    cases hv₁

/-- Types and link counts stay. -/
theorem Effect.type_linkcount (h : Effect s s' L x) (hy : L y) :
    (s'.inode y).type = (s.inode y).type ∧ (s'.inode y).linkcount = (s.inode y).linkcount := by
  by_cases hne : y = x
  · subst hne
    cases hv : s.vnode? y with
    | none =>
      rw [inode_congr ((h.not_loaded hv).trans hv.symm) (h.sectors y hy)]
      exact ⟨rfl, rfl⟩
    | some v =>
      obtain ⟨v', hv', hkeeps⟩ := h.self v hv
      rw [inode_of_loaded hv, inode_of_loaded hv']
      exact ⟨hkeeps.type, hkeeps.linkcount⟩
  · rw [h.inode_eq hy hne]
    exact ⟨rfl, rfl⟩

/-- A vnode in memory is one of before, written at most. -/
theorem Effect.kept (h : Effect s s' L x) {v' : SfsVnode} (hv' : s'.vnode? y = some v') :
    ∃ v, s.vnode? y = some v ∧ v'.ops = v.ops ∧ (v' = v ∨ v'.dirty = true) := by
  by_cases hne : y = x
  · subst hne
    cases hv : s.vnode? y with
    | none =>
      rw [h.not_loaded hv] at hv'
      cases hv'
    | some v =>
      obtain ⟨v₁, hv₁, hkeeps⟩ := h.self v hv
      rw [hv'] at hv₁
      cases hv₁
      exact ⟨v, rfl, hkeeps.ops, hkeeps.dirty⟩
  · rw [h.others y hne] at hv'
    exact ⟨v', hv', rfl, .inl rfl⟩

theorem Stored.durable (h : Stored s) (hd : Durable s s') (hsuper : s'.super = s.super)
    (hroom : 2 + bitBlocks s.super.nblocks < 2 ^ 32) : Stored s' := by
  have h0 : s'.sector 0 = s.sector 0 := hd.fixed 0 (.inl rfl)
  refine ⟨hd.superdirty.trans h.superdirty, by rw [h0]; exact h.magic,
    by rw [hsuper, h0]; exact h.super, ?_⟩
  rcases hd.map with hdirty | ⟨hmap, hdirty⟩
  · exact .inl hdirty
  refine h.map.imp (fun hd' => hdirty.trans hd') fun hdisk ix hix => ?_
  rw [hsuper] at hix
  have hblock : (UInt32.ofNat (2 + ix / 512)).toNat = 2 + ix / 512 :=
    UInt32.toNat_ofNat_of_lt' (show 2 + ix / 512 < 2 ^ 32 by omega)
  have hsector := hd.fixed (UInt32.ofNat (2 + ix / 512))
    (.inr (.inl (by rw [hblock]; exact ⟨by omega, by omega⟩)))
  unfold sector at hsector
  rw [hblock] at hsector
  rw [hmap, hsector]
  exact hdisk ix hix

theorem Sane.room (h : Sane s L) : 2 + bitBlocks s.super.nblocks < 2 ^ 32 := by
  have := h.core.ready.room
  have := h.core.ready.small
  omega

/-- **The cache stays sane.** -/
theorem Sane.effect (h : Sane s L) (he : Effect s s' L x) : Sane s' L where
  core := he.core
  root := h.root
  nonzero := h.nonzero
  nodup := by
    rw [he.inos]
    exact h.nodup
  type y hy := (he.type_linkcount hy).1.trans (h.type y hy)
  ops y v' hv' := by
    obtain ⟨v, hv, hops, -⟩ := he.kept hv'
    rw [hops]
    exact h.ops y v hv
  synced y v' hv' hclean := by
    rw [he.sectors y (he.core.loaded y v' hv')]
    obtain ⟨v, hv, -, rfl | hdirty⟩ := he.kept hv'
    · exact h.synced y _ hv hclean
    · rw [hclean] at hdirty
      cases hdirty
  stored := h.stored.durable he.durable he.super h.room

/-! ## A write to a vnode -/

/-- **A vnode is written** without its pointers, its type and its operations, and it
is dirty if its inode has changed. -/
theorem Sane.modifyVnode {f : SfsVnode → SfsVnode} (h : Sane s L) (x : UInt32)
    (hf : ∀ v, (f v).ino = v.ino) (hd : ∀ v, (f v).i.direct = v.i.direct)
    (hi : ∀ v, (f v).i.indirect = v.i.indirect) (htype : ∀ v, (f v).i.type = v.i.type)
    (hops : ∀ v, (f v).ops = v.ops)
    (hdirty : ∀ v, (f v).dirty = true ∨ (f v).i = v.i ∧ (f v).dirty = v.dirty) :
    Sane (s.modifyVnode x f) L where
  core := h.core.modifyVnode hf hd hi x
  root := h.root
  nonzero := h.nonzero
  nodup := by
    rw [inos_modifyVnode hf]
    exact h.nodup
  type y hy := (field_modifyVnode (g := SfsInode.type) hf htype s x y).trans (h.type y hy)
  ops y v' hv' := by
    rw [vnode?_modifyVnode hf] at hv'
    split at hv'
    · rename_i hyx
      obtain ⟨v, hv, rfl⟩ := Option.map_eq_some_iff.1 hv'
      rw [hops, hyx]
      exact h.ops x v hv
    · exact h.ops y v' hv'
  synced y v' hv' hclean := by
    rw [vnode?_modifyVnode hf] at hv'
    split at hv'
    · rename_i hyx
      obtain ⟨v, hv, rfl⟩ := Option.map_eq_some_iff.1 hv'
      rcases hdirty v with hd' | ⟨hi', hd'⟩
      · rw [hclean] at hd'
        cases hd'
      · rw [hi', hyx]
        exact h.synced x v hv (hd' ▸ hclean)
    · exact h.synced y v' hv' hclean
  stored := ⟨h.stored.superdirty, h.stored.magic, h.stored.super, h.stored.map⟩

/-- What is not the inode does not show. -/
theorem SameView.modifyVnode {f : SfsVnode → SfsVnode} (hf : ∀ v, (f v).ino = v.ino)
    (hi : ∀ v, (f v).i = v.i) (s : Sfs) (x : UInt32) : SameView s (s.modifyVnode x f) L where
  super := rfl
  inode y _ := field_modifyVnode (g := id) hf hi s x y
  ptr y _ := ptr_modifyVnode hf (fun v => by rw [hi]) (fun v => by rw [hi]) s x y
  byte y _ := byte_modifyVnode hf (fun v => by rw [hi]) (fun v => by rw [hi]) s x y

theorem Sane.refcount (h : Sane s L) (x : UInt32) (g : ℤ → ℤ) :
    Sane (s.modifyVnode x fun sv => { sv with refcount := g sv.refcount }) L :=
  h.modifyVnode x (fun _ => rfl) (fun _ => rfl) (fun _ => rfl) (fun _ => rfl) (fun _ => rfl)
    fun _ => .inr ⟨rfl, rfl⟩

/-! ## An inode is written to the disk -/

/-- The inode of a loaded file is not read from the disk. -/
theorem Sfs.inode_setInode {d : Sector} (hv : s.vnode? x = some v) (y : UInt32) :
    (s.setSector x d).inode y = s.inode y := by
  by_cases hne : y = x
  · subst hne
    rw [inode_of_loaded (s := s.setSector y d) hv, inode_of_loaded hv]
  · exact inode_setSector hne

/-- **`sfs_sync_inode`.** -/
theorem wp_sfsSyncInode (h : Sane s L) (hv : s.vnode? x = some v) :
    wp (sfsSyncInode x)
      (fun _ s' => Sane s' L ∧ SameView s s' L ∧ (∀ y ≠ x, s'.vnode? y = s.vnode? y) ∧
        s'.vnode? x = some { v with dirty := false })
      (fun _ _ => False) s := by
  have hx : L x := h.core.loaded x v hv
  unfold sfsSyncInode
  rw [wp_bind, wp_getVnode hv, wp_ite]
  split
  · rw [wp_bind, wp_of_ok (run_wblock h.core.ready (h.lt_nblocks hx) _), wp_modifyVnode]
    let f : SfsVnode → SfsVnode := fun sv => { sv with dirty := false }
    have hf : ∀ v, (f v).ino = v.ino := fun _ => rfl
    obtain ⟨s', hs'⟩ : ∃ s', (s.setSector x v.i.toSector).modifyVnode x f = s' := ⟨_, rfl⟩
    have hvnode : ∀ y, s'.vnode? y =
        if y = x then some { v with dirty := false } else s.vnode? y := by
      intro y
      rw [← hs', vnode?_modifyVnode hf, vnode?_setSector, hv]
      rfl
    have hsector : ∀ c, s'.sector c = if c = x then v.i.toSector else s.sector c := by
      rw [← hs']
      exact fun c => sector_setSector s x c _
    have hview : SameView s s' L := by
      refine .of_sectors (by rw [← hs']; rfl) (fun y _ => ?_) fun r c hr hne => ?_
      · rw [← hs']
        exact (field_modifyVnode (g := id) hf (fun _ => rfl) _ x y).trans (inode_setInode hv y)
      · rw [hsector, if_neg]
        rintro rfl
        exact hne c (h.core.exact.once _ _ c hr (h.ref_inode hx))
    rw [hs']
    refine ⟨h.of_view hview ?_ (by rw [← hs']; rfl) ?_ (fun y v' hv' => ?_) ?_, hview,
      fun y hne => by rw [hvnode, if_neg hne], by rw [hvnode, if_pos rfl]⟩
    · rw [← hs']
      exact (h.core.ready.setSector x _).modifyVnode x f
    · rw [← hs', inos_modifyVnode hf]
      exact h.nodup
    · rw [hsector]
      rw [hvnode] at hv'
      split at hv'
      · rename_i hyx
        cases hv'
        rw [hyx, if_pos rfl]
        exact ⟨hx, h.ops x v hv, fun _ => ofSector_toSector v.i⟩
      · rename_i hyx
        rw [if_neg hyx]
        exact ⟨h.core.loaded y v' hv', h.ops y v' hv', h.synced y v' hv'⟩
    · refine h.stored.durable ⟨by rw [← hs']; rfl, fun c hc => ?_,
        .inr (by rw [← hs']; exact ⟨rfl, rfl⟩)⟩
        hview.super h.room
      rw [hsector, if_neg (h.core.ref_ne_fixed (h.ref_inode hx) hc)]
  · rename_i hdirty
    rw [Bool.not_eq_true] at hdirty
    rw [wp_pure, hv, ← hdirty]
    exact ⟨h, .refl, fun _ _ => rfl, rfl⟩

/-! ## Loading a vnode -/

namespace Sfs

/-- One more vnode. -/
def load (s : Sfs) (w : SfsVnode) : Sfs := { s with vnodes := s.vnodes ++ [w] }

theorem vnode?_load (hw : s.vnode? w.ino = none) (y : UInt32) :
    (s.load w).vnode? y = if y = w.ino then some w else s.vnode? y := by
  show (s.vnodes ++ [w]).find? _ = _
  rw [find?_append, find?_singleton]
  by_cases hy : y = w.ino
  · subst hy
    rw [show s.vnodes.find? _ = none from hw, if_pos rfl, if_pos (by simp)]
    rfl
  · rw [if_neg hy, if_neg (by simpa using fun e => hy e.symm), Option.or_none]
    rfl

theorem inos_load (s : Sfs) (w : SfsVnode) :
    (s.load w).vnodes.map (·.ino) = s.vnodes.map (·.ino) ++ [w.ino] := map_append

theorem nodup_load (h : (s.vnodes.map (·.ino)).Nodup) (hw : s.vnode? w.ino = none) :
    ((s.load w).vnodes.map (·.ino)).Nodup := by
  rw [inos_load, nodup_append]
  refine ⟨h, nodup_cons.2 ⟨not_mem_nil, nodup_nil⟩, fun a ha c hc e => ?_⟩
  rw [mem_singleton] at hc
  obtain ⟨v, hv⟩ := vnode?_isSome_iff.2 ha
  rw [e, hc, hw] at hv
  cases hv

end Sfs

/-- **Vnode `x` has one more reference**, and it is loaded. -/
structure Loaded (s s' : Sfs) (L : UInt32 → Prop) (x : UInt32) : Prop where
  sane : Sane s' L
  view : SameView s s' L
  others : ∀ y ≠ x, s'.vnode? y = s.vnode? y
  self : ∃ v', s'.vnode? x = some v' ∧ v'.refcount =
    match s.vnode? x with
    | some v => off32 (v.refcount + 1)
    | none => 1

/-- The search finds a vnode if there is one, unless it comes by an inode that is not in
use. -/
theorem wp_findLoaded (x : UInt32) (l : List SfsVnode) :
    wp (findLoaded x l) (fun r s' => s' = s ∧ r = (l.find? (·.ino = x)).isSome)
      (fun e _ => e = .halt ∧ ∃ v ∈ l,
        ¬ (v.ino.toNat < s.super.nblocks.toNat ∧ s.freemap.IsSet v.ino.toNat)) s := by
  induction l with
  | nil => exact wp_pure.2 ⟨rfl, rfl⟩
  | cons w l ih =>
    rw [findLoaded, wp_bind, wp_checkUsed_iff]
    split
    swap
    · rename_i hno
      exact ⟨rfl, w, .head _, hno⟩
    rw [wp_ite]
    split
    · rename_i hx
      refine wp_pure.2 ⟨rfl, ?_⟩
      rw [find?_cons_of_pos (by simpa using hx)]
      rfl
    · rename_i hx
      rw [find?_cons_of_neg (by simpa using hx)]
      refine wp_mono ih (fun _ _ h => h) ?_
      rintro e s' ⟨he, v, hv, hno⟩
      exact ⟨he, v, .tail _ hv, hno⟩

theorem Sane.mem_vnodes (h : Sane s L) {v : SfsVnode} (hv : v ∈ s.vnodes) :
    v.ino.toNat < s.super.nblocks.toNat ∧ s.freemap.IsSet v.ino.toNat := by
  obtain ⟨w, hw⟩ := vnode?_isSome_iff.2 (mem_map.2 ⟨v, hv, rfl⟩)
  have hL : L v.ino := h.core.loaded _ w hw
  exact ⟨h.lt_nblocks hL, h.core.isSet (h.ref_inode hL)⟩

theorem wp_vnodeIncref {Q : Unit → Sfs → Prop} {E : Stop Errno → Sfs → Prop} :
    wp (vnodeIncref x) Q E s ↔ Q () (s.modifyVnode x fun sv =>
      { sv with refcount := off32 (sv.refcount + 1) }) := wp_modifyVnode

/-- One more reference to a loaded vnode. -/
theorem Sane.incref (h : Sane s L) (hv : s.vnode? x = some v) :
    Loaded s (s.modifyVnode x fun sv => { sv with refcount := off32 (sv.refcount + 1) }) L x := by
  let f : SfsVnode → SfsVnode := fun sv => { sv with refcount := off32 (sv.refcount + 1) }
  have hf : ∀ v, (f v).ino = v.ino := fun _ => rfl
  refine ⟨h.refcount x fun n => off32 (n + 1), .modifyVnode hf (fun _ => rfl) s x,
    fun _ hy => vnode?_modifyVnode_of_ne hf hy, f v, vnode?_modifyVnode_self hf hv, ?_⟩
  rw [hv]

/-- **Vnodes come and go**, and no file looks different. -/
theorem Sane.recache {vs : List SfsVnode} (h : Sane s L) (hs : { s with vnodes := vs } = s')
    (hnodup : (vs.map (·.ino)).Nodup) (hinode : ∀ y, s'.inode y = s.inode y)
    (hvnode : ∀ y v', s'.vnode? y = some v' → s.vnode? y = some v' ∨
      L y ∧ v'.ops = (if y = rootIno then .dir else .file) ∧ v'.i = ofSector (s.sector y)) :
    Sane s' L ∧ SameView s s' L := by
  subst hs
  have hview : SameView s { s with vnodes := vs } L :=
    .of_sectors rfl (fun y _ => hinode y) fun _ _ _ _ => rfl
  have hready := h.core.ready
  refine ⟨h.of_view hview ⟨hready.clean, hready.mem, hready.nsect, hready.small, hready.room,
    hready.nbits⟩ rfl hnodup (fun y v' hv' => ?_) ⟨h.stored.superdirty, h.stored.magic,
    h.stored.super, h.stored.map⟩, hview⟩
  rcases hvnode y v' hv' with hv | hnew
  · exact ⟨h.core.loaded y v' hv, h.ops y v' hv, h.synced y v' hv⟩
  · exact ⟨hnew.1, hnew.2.1, fun _ => hnew.2.2.symm⟩

/-- A vnode comes from the disk. -/
theorem Sane.load (h : Sane s L) (hx : L w.ino) (hnone : s.vnode? w.ino = none)
    (hi : w.i = ofSector (s.sector w.ino))
    (hops : w.ops = if w.ino = rootIno then .dir else .file) :
    Sane (s.load w) L ∧ SameView s (s.load w) L := by
  have hvnode := vnode?_load hnone
  refine h.recache rfl (nodup_load h.nodup hnone) (fun y => ?_) fun y v' hv' => ?_
  · unfold inode
    rw [hvnode]
    by_cases hy : y = w.ino
    · subst hy
      rw [if_pos rfl, hnone]
      exact hi
    · rw [if_neg hy]
      rfl
  · rw [hvnode] at hv'
    split at hv'
    · rename_i hy
      cases hv'
      rw [hy]
      exact .inr ⟨hx, hops, hi⟩
    · exact .inl hv'

/-- **`sfs_loadvnode`** of an inode in use. -/
theorem wp_sfsLoadvnode (h : Sane s L) (hx : L x) :
    wp (sfsLoadvnode x typeInval) (fun _ s' => Loaded s s' L x) (fun _ _ => False) s := by
  have hmem : s.mem = fun _ => true := h.core.ready.mem
  unfold sfsLoadvnode
  rw [wp_get_bind]
  refine wp_seq (wp_findLoaded x s.vnodes) ?_ ?_
  swap
  · rintro e s' ⟨-, v, hv, hno⟩
    exact hno (h.mem_vnodes hv)
  rintro r s₁ ⟨hs₁, hr⟩
  have hr : r = (s.vnode? x).isSome := hr
  rw [hs₁, wp_ite, hr]
  cases hnone : s.vnode? x with
  | some v =>
    rw [Option.isSome_some, if_pos rfl, wp_assert_bind rfl, wp_vnodeIncref]
    exact h.incref hnone
  | none =>
    rw [Option.isSome_none, if_neg Bool.false_ne_true]
    have htype := h.type x hx
    rw [inode_of_not_loaded hnone] at htype
    have htype' : (ofSector (s.sector x)).type = typeFile ∨
        (ofSector (s.sector x)).type = typeDir := by
      rw [htype]
      split
      · exact .inr rfl
      · exact .inl rfl
    rw [wp_bind, wp_kmalloc hmem, wp_bind,
      wp_checkUsed (h.lt_nblocks hx) (h.core.isSet (h.ref_inode hx)), wp_bind,
      wp_of_ok (run_rblock h.core.ready (h.lt_nblocks hx))]
    rw [wp_assert_bind (.inl rfl), if_pos rfl, wp_assert_bind htype',
      wp_bind, wp_kmalloc hmem, wp_bind, wp_kmalloc hmem, wp_bind, wp_kmalloc hmem, wp_modify]
    obtain ⟨w, hw⟩ : ∃ w : SfsVnode, w = ⟨x, ofSector (s.sector x), typeInval ≠ typeInval,
      if (ofSector (s.sector x)).type = typeFile then .file else .dir, 1⟩ := ⟨_, rfl⟩
    have hino : w.ino = x := by rw [hw]
    have hops : w.ops = if w.ino = rootIno then .dir else .file := by
      rw [hw]
      rw [htype]
      by_cases hroot : x = rootIno
      · rw [if_pos hroot, if_pos hroot]
        rfl
      · rw [if_neg hroot, if_neg hroot]
        rfl
    have hload := h.load (w := w) (hino ▸ hx) (by rw [hino]; exact hnone) (by rw [hw]) hops
    have hvnode := vnode?_load (w := w) (s := s) (by rw [hino]; exact hnone)
    rw [← hw]
    refine ⟨hload.1, hload.2, fun y hy => ?_, w, ?_, ?_⟩
    · exact (hvnode y).trans (if_neg (by rw [hino]; exact hy))
    · exact (hvnode x).trans (if_pos hino.symm)
    · rw [hnone, hw]

/-! ## A new file -/

/-- The vnode of the new file. -/
def newVnode (b : UInt32) : SfsVnode := ⟨b, ⟨0, typeFile, 0, fun _ => 0, 0⟩, true, .file, 1⟩

/-- **Block `b` has become the inode of an empty file** that nothing names. -/
structure Made (s s' : Sfs) (L : UInt32 → Prop) (b : UInt32) : Prop where
  fresh : ¬ L b
  sane : Sane s' fun y => L y ∨ y = b
  view : SameView s s' L
  others : ∀ y ≠ b, s'.vnode? y = s.vnode? y
  self : s'.vnode? b = some (newVnode b)

/-- The file has no blocks. -/
def Sfs.NoBlocks (s : Sfs) (x : UInt32) : Prop :=
  (∀ k, (s.inode x).direct k = 0) ∧ (s.inode x).indirect = 0

theorem Sfs.NoBlocks.ptr_eq (h : s.NoBlocks x) (fb : ℕ) : s.ptr x fb = 0 := by
  unfold ptr entry
  split
  · exact h.1 _
  · rw [if_pos h.2, ite_self]

/-- It holds its own block only. -/
theorem Sfs.NoBlocks.raw_eq {r : Ref} (h : s.NoBlocks x) (hino : r.ino = x) (hr : r ≠ .inode x) :
    s.raw r = 0 := by
  subst hino
  cases r with
  | inode y => exact absurd rfl hr
  | indirect y => exact h.2
  | block y fb => exact h.ptr_eq fb

theorem Sfs.ref_of_not {r : Ref} (h : ¬ L r.ino) : s.ref L r = none := by
  unfold ref
  rw [if_neg fun hr => h hr.1]

theorem Sane.made (h : Sane s L) (hb : ¬ s.Marked b) :
    Made s ((s.alloc b).load (newVnode b)) L b := by
  have hdata := h.core.dataOnly_of_not_marked hb
  have hfresh : ¬ L b := fun hL => h.core.exact.ref_ne hb (.inode b) (h.ref_inode hL)
  have hne : ∀ y, L y → y ≠ b := fun y hy e => hfresh (e ▸ hy)
  have hroot : b ≠ rootIno := fun e => hfresh (e ▸ h.root)
  have hnone : s.vnode? b = none := by
    cases hv : s.vnode? b with
    | none => rfl
    | some v => exact absurd (h.core.loaded b v hv) hfresh
  obtain ⟨s', hs'⟩ : ∃ s', (s.alloc b).load (newVnode b) = s' := ⟨_, rfl⟩
  have hvnode : ∀ y, s'.vnode? y = if y = b then some (newVnode b) else s.vnode? y := by
    rw [← hs']
    exact vnode?_load (s := s.alloc b) (w := newVnode b) hnone
  have hsector : ∀ c, s'.sector c = if c = b then Sector.zero else s.sector c := by
    rw [← hs']
    exact sector_alloc s b
  have hinode : ∀ y, L y → s'.inode y = s.inode y := by
    intro y hy
    refine inode_congr ?_ ?_
    · rw [hvnode, if_neg (hne y hy)]
    · rw [hsector, if_neg (hne y hy)]
  have hself : s'.inode b = ⟨0, typeFile, 0, fun _ => 0, 0⟩ := by
    refine (inode_of_loaded (v := newVnode b) ?_).trans rfl
    rw [hvnode, if_pos rfl]
  have hempty : s'.NoBlocks b := ⟨fun k => by rw [hself], by rw [hself]⟩
  have hsuper : s'.super = s.super := by
    rw [← hs']
    rfl
  have hview : SameView s s' L := by
    refine .of_sectors hsuper hinode fun r c hr _ => ?_
    rw [hsector, if_neg]
    rintro rfl
    exact h.core.exact.ref_ne hb r hr
  have hready : s'.Ready := by
    rw [← hs']
    have hr := h.core.ready.alloc b
    exact ⟨hr.clean, hr.mem, hr.nsect, hr.small, hr.room, hr.nbits⟩
  have hmarked : ∀ c, s'.Marked c ↔ s.Marked c ∨ c = b := by
    rw [← hs']
    exact marked_alloc s b
  have hcore : s'.Core fun y => L y ∨ y = b := by
    refine ⟨hready, fun y v hv => ?_, ?_⟩
    · rw [hvnode] at hv
      split at hv
      · rename_i hy
        exact .inr hy
      · exact .inl (h.core.loaded y v hv)
    · rw [fixed_congr hsuper]
      refine h.core.exact.set hb (r := .inode b) (ref_of_not hfresh)
        (ref_eq_some.2 ⟨.inr rfl, rfl, hdata.1⟩) (fun r hr => ?_) hmarked
      by_cases hino : r.ino = b
      · rw [ref_of_not (s := s) (L := L) (by rw [hino]; exact hfresh)]
        exact ref_eq_none (hempty.raw_eq hino hr)
      · by_cases hL : L r.ino
        · unfold ref
          rw [hview.raw hL]
          simp only [hL, hino, or_false]
        · rw [ref_of_not hL, ref_of_not fun hc => hc.elim hL hino]
  rw [hs']
  refine ⟨hfresh, ⟨hcore, .inl h.root, ?_, ?_, ?_, ?_, ?_, ?_⟩, hview, fun y hy => ?_, ?_⟩
  · rintro y (hy | rfl)
    · exact h.nonzero y hy
    · exact hdata.1
  · rw [← hs']
    exact nodup_load (s := s.alloc b) (w := newVnode b) h.nodup hnone
  · rintro y (hy | rfl)
    · rw [hinode y hy]
      exact h.type y hy
    · rw [hself, if_neg hroot]
  · intro y v hv
    rw [hvnode] at hv
    split at hv
    · rename_i hy
      cases hv
      rw [hy, if_neg hroot]
      rfl
    · exact h.ops y v hv
  · intro y v hv hclean
    rw [hvnode] at hv
    split at hv
    · cases hv
      cases hclean
    · rename_i hy
      rw [hsector, if_neg hy]
      exact h.synced y v hv hclean
  · refine h.stored.durable ⟨?_, fun c hc => ?_, .inl ?_⟩ hsuper h.room
    · rw [← hs']
      rfl
    · rw [hsector, if_neg (h.core.ne_of_fixed hb hc)]
    · rw [← hs']
      rfl
  · rw [hvnode, if_neg hy]
  · rw [hvnode, if_pos rfl]

/-- **`sfs_makeobj`.** -/
theorem wp_sfsMakeobj (h : Sane s L) :
    wp (sfsMakeobj typeFile) (fun b s' => Made s s' L b)
      (fun e s' => e = .error .ENOSPC ∧ s' = s ∧ s.Full) s := by
  unfold sfsMakeobj
  refine wp_then (wp_sfsBalloc h.core) ?_
  rintro b s₁ ⟨hb, hs₁⟩
  have hmade := h.made hb
  have hdata := h.core.dataOnly_of_not_marked hb
  have hfixed := h.core.exact.not_fixed hb
  unfold Sfs.Fixed at hfixed
  push Not at hfixed
  have hready : s₁.Ready := hs₁ ▸ h.core.ready.alloc b
  have hlt : b.toNat < s₁.super.nblocks.toNat := by
    rw [hs₁]
    exact hfixed.2.2
  have hset : s₁.freemap.IsSet b.toNat := by
    rw [hs₁]
    exact Lib.Bitmap.isSet_mark.2 (.inr rfl)
  have hsector : s₁.sector b = Sector.zero := by
    rw [hs₁, sector_alloc, if_pos rfl]
  have hvnodes : s₁.vnodes = s.vnodes := by rw [hs₁]; rfl
  have hused : ∀ v ∈ s₁.vnodes, v.ino.toNat < s₁.super.nblocks.toNat ∧
      s₁.freemap.IsSet v.ino.toNat := by
    intro v hv
    rw [hvnodes] at hv
    obtain ⟨h₁, h₂⟩ := h.mem_vnodes hv
    rw [hs₁]
    exact ⟨h₁, Lib.Bitmap.isSet_mark.2 (.inl h₂)⟩
  have hmem : s₁.mem = fun _ => true := hready.mem
  unfold sfsLoadvnode
  rw [wp_bind, wp_get_bind, wp_bind]
  refine wp_mono (wp_findLoaded b s₁.vnodes) ?_ ?_
  swap
  · rintro e s₂ ⟨-, v, hv, hno⟩
    exact absurd (hused v hv) hno
  rintro r s₂ ⟨hs₂, hr⟩
  have hfalse : ¬ r = true := by
    rw [hr, hvnodes]
    intro hc
    obtain ⟨v, hv⟩ := Option.isSome_iff_exists.1 hc
    exact hmade.fresh (h.core.loaded b v hv)
  have hforce : typeFile ≠ typeInval := by decide
  rw [hs₂, if_neg hfalse, wp_bind, wp_kmalloc hmem, wp_bind, wp_checkUsed hlt hset, wp_bind,
    wp_of_ok (run_rblock hready hlt), hsector, ofSector_zero]
  rw [wp_assert_bind (.inr rfl), if_neg hforce, wp_assert_bind (.inl rfl),
    wp_bind, wp_kmalloc hmem, wp_bind, wp_kmalloc hmem, wp_bind, wp_kmalloc hmem, wp_modify,
      wp_pure]
  rw [hs₁]
  exact hmade

/-! ## A vnode goes -/

namespace Sfs

/-- The vnode of an inode is taken out of the table. -/
def unload (s : Sfs) (x : UInt32) : Sfs := { s with vnodes := s.vnodes.eraseP (·.ino = x) }

theorem find?_eraseP {l : List SfsVnode} (h : (l.map (·.ino)).Nodup) (x y : UInt32) :
    (l.eraseP (·.ino = x)).find? (·.ino = y) = if y = x then none else l.find? (·.ino = y) := by
  induction l with
  | nil => simp
  | cons w l ih =>
    obtain ⟨hw, hl⟩ := nodup_cons.1 h
    by_cases hx : w.ino = x
    · rw [eraseP_cons_of_pos (by simpa using hx)]
      by_cases hy : y = x
      · rw [if_pos hy, find?_eq_none]
        intro w' hw' he
        exact hw (mem_map.2 ⟨w', hw', (of_decide_eq_true he).trans (hy.trans hx.symm)⟩)
      · rw [if_neg hy, find?_cons_of_neg]
        simpa [hx] using fun e => hy e.symm
    · rw [eraseP_cons_of_neg (by simpa using hx)]
      by_cases hwy : w.ino = y
      · rw [find?_cons_of_pos (by simpa using hwy), find?_cons_of_pos (by simpa using hwy),
          if_neg fun e => hx (hwy.trans e)]
      · rw [find?_cons_of_neg (by simpa using hwy), find?_cons_of_neg (by simpa using hwy)]
        exact ih hl

theorem vnode?_unload (h : (s.vnodes.map (·.ino)).Nodup) (x y : UInt32) :
    (s.unload x).vnode? y = if y = x then none else s.vnode? y := find?_eraseP h x y

theorem nodup_unload (h : (s.vnodes.map (·.ino)).Nodup) (x : UInt32) :
    ((s.unload x).vnodes.map (·.ino)).Nodup :=
  h.sublist (eraseP_sublist.map _)

end Sfs

/-- **A clean vnode goes**, and nothing is lost. -/
theorem Sane.unload (h : Sane s L) (hv : s.vnode? x = some v) (hclean : v.dirty = false) :
    Sane (s.unload x) L ∧ SameView s (s.unload x) L := by
  have hvnode := vnode?_unload h.nodup x
  refine h.recache rfl (nodup_unload h.nodup x) (fun y => ?_) fun y w hw => ?_
  · unfold inode
    rw [hvnode]
    by_cases hy : y = x
    · subst hy
      rw [if_pos rfl, hv]
      exact h.synced y v hv hclean
    · rw [if_neg hy]
      rfl
  · rw [hvnode] at hw
    split at hw
    · cases hw
    · exact .inl hw

/-- **An inode without blocks is freed**, and its vnode goes. -/
theorem Sane.erase (h : Sane s L) (hv : s.vnode? x = some v) (hroot : x ≠ rootIno)
    (hempty : s.NoBlocks x) :
    Sane ((s.free x).unload x) (fun y => L y ∧ y ≠ x) ∧
      SameView s ((s.free x).unload x) fun y => L y ∧ y ≠ x := by
  have hx : L x := h.core.loaded x v hv
  obtain ⟨s', hs'⟩ : ∃ s', (s.free x).unload x = s' := ⟨_, rfl⟩
  have hvnode : ∀ y, s'.vnode? y = if y = x then none else s.vnode? y := by
    rw [← hs']
    exact vnode?_unload (s := s.free x) h.nodup x
  have hsector : ∀ c, s'.sector c = s.sector c := by
    rw [← hs']
    exact fun _ => rfl
  have hinode : ∀ y ≠ x, s'.inode y = s.inode y := by
    intro y hy
    refine inode_congr ?_ (hsector y)
    rw [hvnode, if_neg hy]
  have hold : ∀ y w, s'.vnode? y = some w → y ≠ x ∧ s.vnode? y = some w := by
    intro y w hw
    rw [hvnode] at hw
    split at hw
    · cases hw
    · rename_i hy
      exact ⟨hy, hw⟩
  have hsuper : s'.super = s.super := by
    rw [← hs']
    rfl
  have hready : s'.Ready := by
    rw [← hs']
    have hr := h.core.ready.free x
    exact ⟨hr.clean, hr.mem, hr.nsect, hr.small, hr.room, hr.nbits⟩
  have hmarked : ∀ c, s'.Marked c ↔ s.Marked c ∧ c ≠ x := by
    rw [← hs']
    exact marked_free (h.core.lt_nbits (h.ref_inode hx))
  have hview : SameView s s' fun y => L y ∧ y ≠ x :=
    .of_sectors hsuper (fun y hy => hinode y hy.2) fun _ c _ _ => hsector c
  rw [hs']
  refine ⟨⟨⟨hready, fun y w hw => ⟨h.core.loaded y w (hold y w hw).2, (hold y w hw).1⟩, ?_⟩,
    ⟨h.root, Ne.symm hroot⟩, fun y hy => h.nonzero y hy.1, ?_, fun y hy => ?_,
    fun y w hw => h.ops y w (hold y w hw).2, fun y w hw hc => ?_, ?_⟩, hview⟩
  · rw [fixed_congr hsuper]
    refine h.core.exact.clear (h.ref_inode hx) (ref_of_not fun hc => hc.2 rfl) (fun r hr => ?_)
      hmarked
    by_cases hino : r.ino = x
    · rw [ref_of_not fun hc => hc.2 hino]
      exact (ref_eq_none (hempty.raw_eq hino hr)).symm
    · by_cases hL : L r.ino
      · unfold ref
        rw [hview.raw ⟨hL, hino⟩]
        simp only [hL, hino, ne_eq, not_false_eq_true, and_true]
      · rw [ref_of_not hL, ref_of_not fun hc => hL hc.1]
  · rw [← hs']
    exact nodup_unload (s := s.free x) h.nodup x
  · rw [hinode y hy.2]
    exact h.type y hy.1
  · rw [hsector]
    exact h.synced y w (hold y w hw).2 hc
  · refine h.stored.durable ⟨?_, fun c _ => hsector c, .inl ?_⟩ hsuper h.room
    · rw [← hs']
      rfl
    · rw [← hs']
      rfl

/-- With this reference the file goes. -/
def SfsVnode.Last (v : SfsVnode) : Prop := v.refcount = 1 ∧ v.i.linkcount = 0

/-- **A reference to vnode `x` has been dropped.** -/
structure Dropped (s s' : Sfs) (L : UInt32 → Prop) (x : UInt32) (v : SfsVnode) : Prop where
  sane : Sane s' fun y => L y ∧ ¬ (y = x ∧ v.Last)
  view : SameView s s' fun y => L y ∧ ¬ (y = x ∧ v.Last)
  others : ∀ y ≠ x, s'.vnode? y = s.vnode? y
  self : v.refcount ≠ 1 → s'.vnode? x = some { v with refcount := v.refcount - 1 }
  gone : v.refcount = 1 → s'.vnode? x = none

theorem blocklenOf_zero : blocklenOf 0 = 0 := by decide

/-- The file is erased, and its blocks go. -/
theorem wp_eraseBlocks (h : Sane s L) (hv : s.vnode? x = some v) (hroot : x ≠ rootIno) :
    wp (vopTruncate x 0)
      (fun _ s' => Effect s s' L x ∧ s'.NoBlocks x ∧ SameView s s' fun y => L y ∧ y ≠ x)
      (fun _ _ => False) s := by
  have hops := h.ops x v hv
  rw [if_neg hroot] at hops
  unfold vopTruncate
  rw [wp_bind, wp_getVnode hv, hops]
  refine wp_imp (wp_sfsTruncate h.core hv 0) ?_
  intro _ s₁ ht
  have hcut : ∀ fb, s₁.ptr x fb = 0 := fun fb => ht.cut fb (by
    unfold keepsBlock
    rw [blocklenOf_zero]
    split <;> omega)
  refine ⟨ht.effect, ⟨fun k => ?_, ht.indirect (by rw [blocklenOf_zero]; omega)⟩,
    ht.effect.super, fun y hy => ht.effect.inode_eq hy.1 hy.2,
    fun y hy fb => (ht.others y hy.1 hy.2 fb).1, fun y hy => ?_⟩
  · have := hcut k
    rwa [ptr_of_lt k.2] at this
  · exact block_byte_congr fun fb => (ht.others y hy.1 hy.2 fb).2

/-- **`vnode_decref`.** A vnode without references goes, and the file with it if
nothing names it. -/
theorem wp_vnodeDecref (h : Sane s L) (hv : s.vnode? x = some v)
    (hroot : x = rootIno → v.i.linkcount ≠ 0) :
    wp (vnodeDecref x) (fun _ s' => Dropped s s' L x v) (fun e _ => e = .halt ∧ v.refcount ≤ 0)
      s := by
  have hkeep : ¬ v.Last → (fun y => L y ∧ ¬ (y = x ∧ v.Last)) = L := fun hnot => by
    funext y
    simp [hnot]
  unfold vnodeDecref
  rw [wp_bind, wp_getVnode hv, wp_bind, wp_assert]
  split
  swap
  · rename_i hle
    exact ⟨rfl, not_lt.1 hle⟩
  split
  · rename_i hone
    have hnot : ¬ v.Last := fun hl => by
      have := hl.1
      omega
    let f : SfsVnode → SfsVnode := fun sv => { sv with refcount := sv.refcount - 1 }
    have hf : ∀ v, (f v).ino = v.ino := fun _ => rfl
    rw [wp_modifyVnode]
    refine ⟨?_, .modifyVnode hf (fun _ => rfl) s x, fun _ hy => vnode?_modifyVnode_of_ne hf hy,
      fun _ => vnode?_modifyVnode_self hf hv, fun h1 => absurd hone (by omega)⟩
    rw [hkeep hnot]
    exact h.refcount x fun n => n - 1
  have hrc : v.refcount = 1 := by omega
  suffices hreclaim : wp (sfsReclaim x) (fun _ s' => Dropped s s' L x v) (fun _ _ => False) s by
    rw [wp_bind, wp_result]
    refine wp_returns hreclaim fun _ s' hs' => ?_
    exact wp_pure.2 hs'
  unfold sfsReclaim
  rw [wp_bind, wp_getVnode hv, wp_ite, if_neg (by simpa using hrc)]
  by_cases hlink : v.i.linkcount = 0
  · have hx : x ≠ rootIno := fun e => hroot e hlink
    have hlast : v.Last := ⟨hrc, hlink⟩
    have hL : (fun y => L y ∧ ¬ (y = x ∧ v.Last)) = fun y => L y ∧ y ≠ x := by
      funext y
      simp [hlast]
    rw [if_pos hlink]
    refine wp_then (wp_eraseBlocks h hv hx) ?_
    rintro _ s₁ ⟨heffect, hempty, hview⟩
    obtain ⟨v₁, hv₁, hkeeps⟩ := heffect.self v hv
    have hsane₁ := h.effect heffect
    refine wp_then (wp_sfsSyncInode hsane₁ hv₁) ?_
    rintro _ s₂ ⟨hsane₂, hview₂, hothers₂, hv₂⟩
    have hx₂ : L x := hsane₂.core.loaded x _ hv₂
    have hempty₂ : s₂.NoBlocks x := by
      unfold Sfs.NoBlocks
      rw [hview₂.inode x hx₂]
      exact hempty
    have hlink₂ : v₁.i.linkcount = 0 := hkeeps.linkcount.trans hlink
    rw [wp_bind, wp_getVnode hv₂, if_pos hlink₂, wp_bind,
      wp_of_ok (hsane₂.core.run_sfsBfree (hsane₂.ref_inode hx₂)), wp_modify]
    obtain ⟨hsane₃, hview₃⟩ := hsane₂.erase hv₂ hx hempty₂
    have hvnode : ∀ y, ((s₂.free x).unload x).vnode? y = if y = x then none else s₂.vnode? y :=
      vnode?_unload (s := s₂.free x) hsane₂.nodup x
    refine ⟨?_, ?_, fun y hy => ?_, fun h1 => absurd hrc h1, fun _ => ?_⟩
    · rw [hL]
      exact hsane₃
    · rw [hL]
      exact (hview.trans (hview₂.mono fun y hy => hy.1)).trans hview₃
    · exact (hvnode y).trans ((if_neg hy).trans ((hothers₂ y hy).trans (heffect.others y hy)))
    · exact (hvnode x).trans (if_pos rfl)
  · rw [if_neg hlink]
    refine wp_then (wp_sfsSyncInode h hv) ?_
    rintro _ s₁ ⟨hsane₁, hview₁, hothers₁, hv₁⟩
    rw [wp_bind, wp_getVnode hv₁, if_neg hlink, wp_modify]
    obtain ⟨hsane₂, hview₂⟩ := hsane₁.unload hv₁ rfl
    have hvnode := vnode?_unload hsane₁.nodup x
    refine ⟨?_, hview₁.trans hview₂ |>.mono fun _ hy => hy.1, fun y hy => ?_,
      fun h1 => absurd hrc h1, fun _ => ?_⟩
    · rw [hkeep fun hl => hlink hl.2]
      exact hsane₂
    · exact (hvnode y).trans ((if_neg hy).trans (hothers₁ y hy))
    · exact (hvnode x).trans (if_pos rfl)

end Fs

end Os161
