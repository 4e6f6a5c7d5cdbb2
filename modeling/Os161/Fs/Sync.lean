import Os161.Fs.Bmap
import Os161.Fs.Model.Mount
import Mathlib.Data.List.Nodup
/-!
# Sync

What `sfs_sync` does on a drive that may fail. It writes the inodes of the dirty
vnodes, then the freemap and the superblock if they are dirty, and marks all of
them clean (`run_sfsSync`). The drive is asked once for each write, and whatever
it answers `sfs_sync` returns 0: a write that has failed is as good as one that
has not, and what `VOP_FSYNC` returns is not looked at either. So all is on the
disk exactly if every write has landed and what was clean was there
before (`sync_settled_iff`).
-/

namespace Os161

namespace Fs

open Prog List
open Userprog (UioRw)

variable {s : Sfs} {d : Lhd} {ws : List (ℕ × Sector)} {t k : ℕ}

/-! ## Writes to a drive that may fail -/

/-- What is in the sector after a write. -/
def Outcome.lands (data : Sector) : Outcome → Sector
  | .ok => data
  | .media left => left

namespace Lhd

/-- One write, of a sector below 2 GB. -/
def write (d : Lhd) (w : ℕ × Sector) : Lhd := d.tick.put w.1 ((d.pattern 0).lands w.2)

/-- Writes, one after the other. -/
def writeAll (d : Lhd) (ws : List (ℕ × Sector)) : Lhd := ws.foldl write d

theorem write_sectors (d : Lhd) (w : ℕ × Sector) (t : ℕ) :
    (d.write w).sectors t = if t = w.1 then (d.pattern 0).lands w.2 else d.sectors t :=
  Function.update_apply ..

theorem writeAll_append (d : Lhd) (ws ws' : List (ℕ × Sector)) :
    d.writeAll (ws ++ ws') = (d.writeAll ws).writeAll ws' := foldl_append

theorem writeAll_nsect (d : Lhd) (ws : List (ℕ × Sector)) : (d.writeAll ws).nsect = d.nsect := by
  induction ws generalizing d with
  | nil => rfl
  | cons w ws ih => exact ih (d.write w)

theorem writeAll_sectors_of_ne (h : ∀ w ∈ ws, t ≠ w.1) :
    (d.writeAll ws).sectors t = d.sectors t := by
  induction ws generalizing d with
  | nil => rfl
  | cons w ws ih =>
    refine (ih (d := d.write w) fun w' hw' => h w' (.tail _ hw')).trans ?_
    rw [write_sectors, if_neg (h w (.head _))]

/-- **The answer to each write is what counts for its sector**, if no sector is
written twice. -/
theorem writeAll_sectors (hws : (ws.map Prod.fst).Nodup) (hk : k < ws.length) :
    (d.writeAll ws).sectors (ws[k]).1 = (d.pattern k).lands (ws[k]).2 := by
  induction ws generalizing d k with
  | nil => exact absurd hk (Nat.not_lt_zero _)
  | cons w ws ih =>
    obtain ⟨hw, hnodup⟩ := nodup_cons.1 hws
    cases k with
    | zero =>
      have hother : ∀ w' ∈ ws, w.1 ≠ w'.1 := fun w' hw' e =>
        hw (e ▸ mem_map.2 ⟨w', hw', rfl⟩)
      refine (writeAll_sectors_of_ne (d := d.write w) hother).trans ?_
      exact if_pos rfl
    | succ k => exact ih (d := d.write w) hnodup (Nat.lt_of_succ_lt_succ hk)

/-- All of them are on the disk if every one of them has landed. -/
theorem writeAll_iff (hws : (ws.map Prod.fst).Nodup) :
    (∀ w ∈ ws, (d.writeAll ws).sectors w.1 = w.2) ↔
      ∀ k, (hk : k < ws.length) → (d.pattern k).lands (ws[k]).2 = (ws[k]).2 := by
  constructor
  · intro h k hk
    rw [← writeAll_sectors hws hk]
    exact h _ (getElem_mem hk)
  · intro h w hw
    obtain ⟨k, hk, rfl⟩ := getElem_of_mem hw
    rw [writeAll_sectors hws hk]
    exact h k hk

end Lhd

/-- **A block is written**, on any drive: the call returns 0. -/
theorem run_sfsWblock_any {block : UInt32} (hlt : block.toNat + 1 < 2 ^ 22)
    (hsect : block.toNat < d.nsect.toNat) (data : Sector) :
    sfsWblock data block d = .ok () (d.write (block.toNat, data)) := by
  obtain ⟨htarget, hnext⟩ := target_eq hlt
  refine run_of_wp ?_
  rw [wp_sfsWblock, htarget, hnext, if_neg (not_le.2 hsect)]
  unfold Lhd.write Outcome.lands
  cases d.pattern 0 with
  | ok => exact ⟨rfl, rfl⟩
  | media left =>
    dsimp only
    rw [if_neg (by omega)]
    exact ⟨rfl, rfl⟩

theorem run_wblock_any (block : UInt32) (hlt : block.toNat + 1 < 2 ^ 22)
    (hsect : block.toNat < s.device.nsect.toNat) (data : Sector) :
    wblock data block s = .ok () { s with device := s.device.write (block.toNat, data) } :=
  zoom_of_ok (p := Sfs.devicePart) (run_sfsWblock_any hlt hsect data)

/-! ## What `sfs_sync` writes -/

/-- The vnode after it has been written. -/
def SfsVnode.clean (v : SfsVnode) : SfsVnode := { v with dirty := false }

/-- The inodes of the dirty vnodes. -/
def inodeWrites (l : List SfsVnode) : List (ℕ × Sector) :=
  (l.filter (·.dirty)).map fun v => (v.ino.toNat, v.i.toSector)

namespace Sfs

/-- Blocks `j`, `j + 1`, ... of the freemap, `n` of them. -/
def mapWrites (s : Sfs) (j n : ℕ) : List (ℕ × Sector) :=
  (range' j n).map fun i => (2 + i, mapBlock s.freemap.v i)

/-- **All that `sfs_sync` writes.** -/
def writes (s : Sfs) : List (ℕ × Sector) :=
  inodeWrites s.vnodes ++
    ((if s.freemapdirty then s.mapWrites 0 (bitBlocks s.super.nblocks) else []) ++
      if s.superdirty then [(0, s.super.toSector)] else [])

/-- The file system after it. -/
def synced (s : Sfs) : Sfs :=
  { s with
    vnodes := s.vnodes.map SfsVnode.clean
    device := s.device.writeAll s.writes
    freemapdirty := false
    superdirty := false }

/-- The disk and what is loaded fit together: the superblock, the freemap and
the inodes in memory all have blocks of their own. -/
structure Fit (s : Sfs) : Prop where
  nodup : (s.vnodes.map (·.ino)).Nodup
  inodes : ∀ v ∈ s.vnodes, ¬ s.Fixed v.ino
  nsect : s.super.nblocks.toNat ≤ s.device.nsect.toNat
  small : s.super.nblocks.toNat ≤ 32 * 4096
  room : 2 + bitBlocks s.super.nblocks ≤ s.super.nblocks.toNat

end Sfs

theorem inos_clean (l : List SfsVnode) : (l.map SfsVnode.clean).map (·.ino) = l.map (·.ino) := by
  rw [map_map]
  rfl

section Loop

variable {pre l : List SfsVnode} {v : SfsVnode}

theorem inodeWrites_append (l l' : List SfsVnode) :
    inodeWrites (l ++ l') = inodeWrites l ++ inodeWrites l' := by
  unfold inodeWrites
  rw [filter_append, map_append]

theorem inodeWrites_singleton (v : SfsVnode) :
    inodeWrites [v] = if v.dirty then [(v.ino.toNat, v.i.toSector)] else [] := by
  unfold inodeWrites
  rw [filter_cons]
  split <;> rfl

/-- The vnode that is next. -/
theorem vnode?_of_split (hs : s.vnodes = pre ++ v :: l) (h : (s.vnodes.map (·.ino)).Nodup) :
    s.vnode? v.ino = some v := by
  unfold Sfs.vnode?
  rw [hs, find?_append, find?_cons_of_pos (by simp), Option.or_eq_some_iff]
  refine .inr ⟨?_, rfl⟩
  rw [find?_eq_none]
  intro w hw he
  rw [hs, map_append, nodup_append] at h
  exact h.2.2 _ (mem_map.2 ⟨w, hw, rfl⟩) _ (mem_map.2 ⟨v, .head _, rfl⟩)
    (of_decide_eq_true he)

/-- A write to the vnode that is next touches no other. -/
theorem modifyVnode_of_split (f : SfsVnode → SfsVnode) (hs : s.vnodes = pre ++ v :: l)
    (h : (s.vnodes.map (·.ino)).Nodup) :
    (s.modifyVnode v.ino f).vnodes = pre ++ f v :: l := by
  rw [hs, map_append, map_cons, nodup_append, nodup_cons] at h
  obtain ⟨-, ⟨hl, -⟩, hpre⟩ := h
  have hother : ∀ l' : List SfsVnode, v.ino ∉ l'.map (·.ino) →
      (l'.map fun w => if w.ino = v.ino then f w else w) = l' := by
    intro l' hl'
    refine (map_congr_left fun w hw => ?_).trans (map_id l')
    exact if_neg fun e => hl' (mem_map.2 ⟨w, hw, e⟩)
  unfold Sfs.modifyVnode
  rw [hs, map_append, map_cons, if_pos rfl, hother l hl, hother pre ?_]
  intro hmem
  exact hpre _ hmem _ (.head _) rfl

/-- `VOP_FSYNC` of the vnode that is next. -/
theorem run_vopFsync (hs : s.vnodes = pre ++ v :: l) (h : (s.vnodes.map (·.ino)).Nodup)
    (hlt : v.ino.toNat + 1 < 2 ^ 22) (hsect : v.ino.toNat < s.device.nsect.toNat) :
    vopFsync v.ino s = .ok () { s with
      vnodes := pre ++ v.clean :: l
      device := s.device.writeAll (inodeWrites [v]) } := by
  refine run_of_wp ?_
  unfold vopFsync sfsSyncInode
  rw [wp_bind, wp_getVnode (vnode?_of_split hs h), wp_ite, inodeWrites_singleton]
  split
  · rw [wp_bind, wp_of_ok (run_wblock_any _ hlt hsect _), wp_modifyVnode]
    refine ⟨rfl, ?_⟩
    have hnext := modifyVnode_of_split (s := { s with
      device := s.device.write (v.ino.toNat, v.i.toSector) }) SfsVnode.clean hs h
    rw [← hnext]
    rfl
  · rename_i hdirty
    have hclean : v.clean = v := by
      unfold SfsVnode.clean
      rw [← Bool.eq_false_iff.2 hdirty]
    rw [wp_pure, hclean, ← hs]
    exact ⟨rfl, rfl⟩

/-- **The loop over the vnodes.** -/
theorem run_syncVnodes (pre : List SfsVnode) (hs : s.vnodes = pre.map SfsVnode.clean ++ l)
    (h : (s.vnodes.map (·.ino)).Nodup)
    (hl : ∀ v ∈ l, v.ino.toNat + 1 < 2 ^ 22 ∧ v.ino.toNat < s.device.nsect.toNat) :
    syncVnodes l s = .ok () { s with
      vnodes := (pre ++ l).map SfsVnode.clean
      device := s.device.writeAll (inodeWrites l) } := by
  induction l generalizing s pre with
  | nil =>
    rw [append_nil] at hs ⊢
    rw [← hs]
    rfl
  | cons v l ih =>
    obtain ⟨hlt, hsect⟩ := hl v (.head _)
    obtain ⟨s₁, hs₁⟩ : ∃ s₁ : Sfs, { s with
      vnodes := pre.map SfsVnode.clean ++ v.clean :: l
      device := s.device.writeAll (inodeWrites [v]) } = s₁ := ⟨_, rfl⟩
    have hvnodes : s₁.vnodes = (pre ++ [v]).map SfsVnode.clean ++ l := by
      rw [← hs₁, map_append, append_assoc]
      rfl
    have hinos : s₁.vnodes.map (·.ino) = s.vnodes.map (·.ino) := by
      rw [← hs₁, hs, map_append, map_append]
      rfl
    have hdevice : s₁.device.nsect = s.device.nsect := by
      rw [← hs₁]
      exact Lhd.writeAll_nsect _ _
    have hrest := ih _ hvnodes (by rw [hinos]; exact h) fun w hw => by
      rw [hdevice]
      exact hl w (.tail _ hw)
    refine run_of_wp ?_
    rw [syncVnodes, wp_bind, wp_result, wp_of_ok (run_vopFsync hs h hlt hsect), hs₁, wp_of_ok hrest,
      ← hs₁]
    have hwrites : inodeWrites (v :: l) = inodeWrites [v] ++ inodeWrites l :=
      inodeWrites_append [v] l
    rw [hwrites, Lhd.writeAll_append, append_cons pre v l]
    exact ⟨rfl, rfl⟩

end Loop

/-- **The blocks of the freemap.** -/
theorem run_sfsMapioFrom_write {n j : ℕ} (hlt : 2 + j + n < 2 ^ 22)
    (hsect : 2 + j + n ≤ s.device.nsect.toNat) :
    sfsMapioFrom .write n j s =
      .ok () { s with device := s.device.writeAll (s.mapWrites j n) } := by
  induction n generalizing s j with
  | zero => rfl
  | succ n ih =>
    have hj : (UInt32.ofNat (2 + j)).toNat = 2 + j :=
      UInt32.toNat_ofNat_of_lt' (show 2 + j < 2 ^ 32 by omega)
    have hwrite := run_wblock_any (s := s) (UInt32.ofNat (2 + j)) (by omega) (by omega)
      (mapBlock s.freemap.v j)
    rw [hj] at hwrite
    refine run_of_wp ?_
    rw [sfsMapioFrom]
    rw [wp_get_bind, wp_bind, wp_of_ok hwrite, wp_of_ok (ih (j := j + 1) (by omega) (by
      show 2 + (j + 1) + n ≤ s.device.nsect.toNat
      omega))]
    exact ⟨rfl, rfl⟩

/-- The end of `sfs_sync`, about the superblock. -/
theorem wp_syncSuper {Q : Unit → Sfs → Prop} {E : Stop Errno → Sfs → Prop}
    (hsect : 0 < s.device.nsect.toNat) :
    wp (do
        let s ← get
        if s.superdirty then do
          wblock s.super.toSector 0
          modify fun s => { s with superdirty := false }
        else pure ()) Q E s ↔
      Q () { s with
        device := s.device.writeAll (if s.superdirty then [(0, s.super.toSector)] else [])
        superdirty := false } := by
  rw [wp_get_bind, wp_ite]
  split
  · rw [wp_bind, wp_of_ok (run_wblock_any 0 (by decide) hsect _), wp_modify]
    rfl
  · rename_i hclean
    rw [wp_pure, ← Bool.eq_false_iff.2 hclean]
    rfl

/-- **`sfs_sync` returns 0**, and everything is marked clean. -/
theorem run_sfsSync (h : s.Fit) : sfsSync s = .ok () s.synced := by
  have hnsect := h.nsect
  have hsmall := h.small
  have hroom := h.room
  have hinodes : ∀ v ∈ s.vnodes, v.ino.toNat + 1 < 2 ^ 22 ∧ v.ino.toNat < s.device.nsect.toNat := by
    intro v hv
    have hlt : v.ino.toNat < s.super.nblocks.toNat := not_le.1 fun hge =>
      h.inodes v hv (.inr (.inr hge))
    omega
  have hvnodes := run_syncVnodes (s := s) [] (l := s.vnodes) rfl h.nodup hinodes
  rw [nil_append] at hvnodes
  obtain ⟨s₁, hs₁⟩ : ∃ s₁ : Sfs, { s with
    vnodes := s.vnodes.map SfsVnode.clean
    device := s.device.writeAll (inodeWrites s.vnodes) } = s₁ := ⟨_, rfl⟩
  have hsect₁ : s₁.device.nsect.toNat = s.device.nsect.toNat := by
    rw [← hs₁]
    exact congrArg _ (Lhd.writeAll_nsect _ _)
  have hsuper₁ : s₁.super = s.super := by rw [← hs₁]
  have hdirty₁ : s₁.freemapdirty = s.freemapdirty := by rw [← hs₁]
  rw [hs₁] at hvnodes
  refine run_of_wp ?_
  unfold sfsSync
  rw [wp_get_bind, wp_bind, wp_of_ok hvnodes, wp_get_bind, wp_ite]
  unfold Sfs.synced Sfs.writes
  split
  · rename_i hdirty
    have hwrite := run_sfsMapioFrom_write (s := s₁) (n := bitBlocks s₁.super.nblocks) (j := 0)
      (by rw [hsuper₁]; omega) (by rw [hsuper₁, hsect₁]; omega)
    unfold sfsMapio
    rw [wp_bind, wp_get_bind, wp_of_ok hwrite, wp_bind, wp_modify, wp_syncSuper]
    · rw [hdirty₁] at hdirty
      rw [if_pos hdirty, Lhd.writeAll_append, Lhd.writeAll_append, ← hs₁]
      exact ⟨rfl, rfl⟩
    · rw [Lhd.writeAll_nsect, hsect₁]
      omega
  · rename_i hdirty
    rw [wp_syncSuper (by rw [hsect₁]; omega)]
    rw [hdirty₁] at hdirty
    rw [if_neg hdirty, nil_append, Lhd.writeAll_append, ← Bool.eq_false_iff.2 hdirty, ← hs₁]
    exact ⟨rfl, rfl⟩

/-! ## What is on the disk after it -/

namespace Sfs

/-- **All is on the disk**: the inode of every vnode, none of which is dirty, the
freemap and the superblock. -/
structure Settled (s : Sfs) : Prop where
  inodes : ∀ v ∈ s.vnodes, v.dirty = false ∧ s.device.sectors v.ino.toNat = v.i.toSector
  map : ∀ j < bitBlocks s.super.nblocks, s.device.sectors (2 + j) = mapBlock s.freemap.v j
  super : s.device.sectors 0 = s.super.toSector

/-- What is not dirty is on the disk. -/
structure Honest (s : Sfs) : Prop where
  inodes : ∀ v ∈ s.vnodes, v.dirty = false → s.device.sectors v.ino.toNat = v.i.toSector
  map : s.freemapdirty = false →
    ∀ j < bitBlocks s.super.nblocks, s.device.sectors (2 + j) = mapBlock s.freemap.v j
  super : s.superdirty = false → s.device.sectors 0 = s.super.toSector

/-- Each of the writes lands: the drive answers it with no media error, or what it
leaves in the sector happens to be the data. -/
def WritesLand (s : Sfs) : Prop :=
  ∀ k, (hk : k < s.writes.length) →
    (s.device.pattern k).lands (s.writes[k]).2 = (s.writes[k]).2

theorem mem_writes {w : ℕ × Sector} :
    w ∈ s.writes ↔ (∃ v ∈ s.vnodes, v.dirty = true ∧ w = (v.ino.toNat, v.i.toSector)) ∨
      (s.freemapdirty = true ∧ ∃ j < bitBlocks s.super.nblocks,
        w = (2 + j, mapBlock s.freemap.v j)) ∨
      s.superdirty = true ∧ w = (0, s.super.toSector) := by
  unfold writes inodeWrites mapWrites
  rw [mem_append, mem_append]
  refine or_congr ?_ (or_congr ?_ ?_)
  · simp only [mem_map, mem_filter, and_assoc, eq_comm]
  · split
    · rename_i hd
      simp [mem_range', hd, eq_comm]
    · rename_i hd
      simp [hd]
  · split
    · rename_i hd
      simp [hd]
    · rename_i hd
      simp [hd]

namespace Fit

variable (h : s.Fit)
include h

/-- The inodes have blocks of their own. -/
theorem ino_range {v : SfsVnode} (hv : v ∈ s.vnodes) : 0 < v.ino.toNat ∧
    (v.ino.toNat < 2 ∨ 2 + bitBlocks s.super.nblocks ≤ v.ino.toNat) := by
  have hnot := h.inodes v hv
  unfold Fixed at hnot
  push Not at hnot
  have h0 : v.ino.toNat ≠ 0 := fun e => hnot.1 (UInt32.toNat_inj.1 e)
  have := hnot.2.1
  omega

theorem ino_inj {v w : SfsVnode} (hv : v ∈ s.vnodes) (hw : w ∈ s.vnodes)
    (he : v.ino.toNat = w.ino.toNat) : v = w :=
  inj_on_of_nodup_map h.nodup hv hw (UInt32.toNat_inj.1 he)

/-- No sector is written twice. -/
theorem writes_nodup : (s.writes.map Prod.fst).Nodup := by
  have hinodes : ((inodeWrites s.vnodes).map Prod.fst).Nodup := by
    have htoNat : (s.vnodes.map fun v => v.ino.toNat).Nodup := by
      have := h.nodup.map (f := UInt32.toNat) fun a b => UInt32.toNat_inj.1
      rwa [map_map] at this
    unfold inodeWrites
    rw [map_map]
    exact htoNat.sublist (filter_sublist.map _)
  have hmap : ((s.mapWrites 0 (bitBlocks s.super.nblocks)).map Prod.fst).Nodup := by
    unfold mapWrites
    rw [map_map]
    exact (nodup_range' ..).map fun a b (e : 2 + a = 2 + b) => by omega
  have hinode : ∀ t ∈ (inodeWrites s.vnodes).map Prod.fst, 0 < t ∧
      (t < 2 ∨ 2 + bitBlocks s.super.nblocks ≤ t) := by
    intro t ht
    obtain ⟨w, hw, rfl⟩ := mem_map.1 ht
    obtain ⟨v, hv, rfl⟩ := mem_map.1 hw
    exact h.ino_range (mem_filter.1 hv).1
  have hblock : ∀ t ∈ (s.mapWrites 0 (bitBlocks s.super.nblocks)).map Prod.fst,
      2 ≤ t ∧ t < 2 + bitBlocks s.super.nblocks := by
    intro t ht
    obtain ⟨w, hw, rfl⟩ := mem_map.1 ht
    obtain ⟨j, hj, rfl⟩ := mem_map.1 hw
    rw [mem_range'_1] at hj
    omega
  have hmaps : ∀ t ∈ (if s.freemapdirty then s.mapWrites 0 (bitBlocks s.super.nblocks)
      else []).map Prod.fst, 2 ≤ t ∧ t < 2 + bitBlocks s.super.nblocks := by
    intro t ht
    split at ht
    · exact hblock t ht
    · cases ht
  have hsuper : ∀ t ∈ (if s.superdirty then [(0, s.super.toSector)] else []).map Prod.fst,
      t = 0 := by
    intro t ht
    split at ht
    · exact mem_singleton.1 ht
    · cases ht
  unfold writes
  rw [map_append, map_append, nodup_append, nodup_append]
  refine ⟨hinodes, ⟨?_, ?_, ?_⟩, ?_⟩
  · split
    · exact hmap
    · exact nodup_nil
  · split
    · exact nodup_singleton _
    · exact nodup_nil
  · intro t ht t' ht' e
    have := hmaps t ht
    have := hsuper t' ht'
    omega
  · intro t ht t' ht' e
    have hrange := hinode t ht
    rcases mem_append.1 ht' with ht' | ht'
    · have := hmaps t' ht'
      omega
    · have := hsuper t' ht'
      omega

theorem inode_synced {v : SfsVnode} (hv : v ∈ s.vnodes) (hd : v.dirty = false) :
    s.synced.device.sectors v.ino.toNat = s.device.sectors v.ino.toNat := by
  refine Lhd.writeAll_sectors_of_ne fun w hmem e => ?_
  have hrange := h.ino_range hv
  rcases mem_writes.1 hmem with ⟨v', hv', hd', rfl⟩ | ⟨-, j, hj, rfl⟩ | ⟨-, rfl⟩
  · rw [h.ino_inj hv hv' e, hd'] at hd
    cases hd
  · omega
  · omega

theorem map_synced {j : ℕ} (hj : j < bitBlocks s.super.nblocks) (hd : s.freemapdirty = false) :
    s.synced.device.sectors (2 + j) = s.device.sectors (2 + j) := by
  refine Lhd.writeAll_sectors_of_ne fun w hmem e => ?_
  rcases mem_writes.1 hmem with ⟨v', hv', -, rfl⟩ | ⟨hd', -⟩ | ⟨-, rfl⟩
  · have hrange := h.ino_range hv'
    omega
  · rw [hd'] at hd
    cases hd
  · omega

theorem super_synced (hd : s.superdirty = false) :
    s.synced.device.sectors 0 = s.device.sectors 0 := by
  refine Lhd.writeAll_sectors_of_ne fun w hmem e => ?_
  rcases mem_writes.1 hmem with ⟨v', hv', -, rfl⟩ | ⟨-, j, hj, rfl⟩ | ⟨hd', -⟩
  · have hrange := h.ino_range hv'
    omega
  · omega
  · rw [hd'] at hd
    cases hd

/-- **All is on the disk if every write has landed**, and what was not written was
there before. -/
theorem settled_iff : s.synced.Settled ↔ s.WritesLand ∧ s.Honest := by
  have hland : s.WritesLand ↔ ∀ w ∈ s.writes, s.synced.device.sectors w.1 = w.2 :=
    (Lhd.writeAll_iff h.writes_nodup).symm
  rw [hland]
  constructor
  · intro hs
    have hinode : ∀ v ∈ s.vnodes, s.synced.device.sectors v.ino.toNat = v.i.toSector :=
      fun v hv => (hs.inodes v.clean (mem_map.2 ⟨v, hv, rfl⟩)).2
    refine ⟨fun w hw => ?_, fun v hv hd => ?_, fun hd j hj => ?_, fun hd => ?_⟩
    · rcases mem_writes.1 hw with ⟨v, hv, -, rfl⟩ | ⟨-, j, hj, rfl⟩ | ⟨-, rfl⟩
      · exact hinode v hv
      · exact hs.map j hj
      · exact hs.super
    · rw [← h.inode_synced hv hd]
      exact hinode v hv
    · rw [← h.map_synced hj hd]
      exact hs.map j hj
    · rw [← h.super_synced hd]
      exact hs.super
  · rintro ⟨hw, hhonest⟩
    refine ⟨fun v' hv' => ?_, fun j hj => ?_, ?_⟩
    · obtain ⟨v, hv, rfl⟩ := mem_map.1 hv'
      refine ⟨rfl, ?_⟩
      show s.synced.device.sectors v.ino.toNat = v.i.toSector
      cases hd : v.dirty with
      | true => exact hw _ (mem_writes.2 (.inl ⟨v, hv, hd, rfl⟩))
      | false => rw [h.inode_synced hv hd, hhonest.inodes v hv hd]
    · show s.synced.device.sectors (2 + j) = mapBlock s.freemap.v j
      have hj' : j < bitBlocks s.super.nblocks := hj
      cases hd : s.freemapdirty with
      | true => exact hw _ (mem_writes.2 (.inr (.inl ⟨hd, j, hj, rfl⟩)))
      | false => rw [h.map_synced hj' hd, hhonest.map hd j hj]
    · show s.synced.device.sectors 0 = s.super.toSector
      cases hd : s.superdirty with
      | true => exact hw _ (mem_writes.2 (.inr (.inr ⟨hd, rfl⟩)))
      | false => rw [h.super_synced hd, hhonest.super hd]

theorem synced : s.synced.Fit where
  nodup := by
    show ((s.vnodes.map SfsVnode.clean).map (·.ino)).Nodup
    rw [inos_clean]
    exact h.nodup
  inodes v' hv' := by
    obtain ⟨v, hv, rfl⟩ := mem_map.1 hv'
    exact h.inodes v hv
  nsect := by
    show _ ≤ (s.device.writeAll s.writes).nsect.toNat
    rw [Lhd.writeAll_nsect]
    exact h.nsect
  small := h.small
  room := h.room

end Fit

end Sfs

/-- **When a sync that returns 0 has lost nothing.** `sfs_sync` returns 0 whatever
the drive answers; then all is on the disk exactly if every one of its writes
lands and what it does not write, because it is not dirty, was there before. -/
theorem sync_settled_iff (s : Sfs) (hfit : s.Fit) :
    (∃ s', sfsSync s = .ok () s') ∧
      ((∀ s', sfsSync s = .ok () s' → s'.Settled) ↔ s.WritesLand ∧ s.Honest) := by
  have hrun := run_sfsSync hfit
  refine ⟨⟨_, hrun⟩, ?_⟩
  rw [← hfit.settled_iff]
  refine ⟨fun h => h _ hrun, fun h s' hs' => ?_⟩
  rw [hrun] at hs'
  cases hs'
  exact h

/-- A file system of which nothing has been written yet, with one inode, on a
drive that fails the first operation and no other. -/
def unwrittenSfs : Sfs where
  super := ⟨sfsMagic, 8, []⟩
  superdirty := true
  device := flakyDrive
  vnodes := [⟨3, ⟨1, typeFile, 1, fun _ => 0, 0⟩, true, .file, 1⟩]
  freemap := ⟨4096, fun _ => 0⟩
  freemapdirty := true
  mem := fun _ => true

theorem unwrittenSfs_fit : unwrittenSfs.Fit where
  nodup := by decide
  inodes v hv := by
    obtain rfl := mem_singleton.1 hv
    unfold Sfs.Fixed
    decide
  nsect := by decide
  small := by decide
  room := by decide

/-- What the drive has left in the sector of the inode is not the inode. -/
theorem unwrittenSfs_lost : unwrittenSfs.synced.device.sectors 3 ≠
    SfsInode.toSector ⟨1, typeFile, 1, fun _ => 0, 0⟩ := by
  have hbyte : unwrittenSfs.synced.device.sectors 3 3 ≠
      SfsInode.toSector ⟨1, typeFile, 1, fun _ => 0, 0⟩ 3 := by decide +kernel
  exact fun h => hbyte (congrFun h 3)

/-- The same on a drive that has failed the first of the writes already: the inode is
clean and is not on the disk. A sync that meets no failure does not bring it there. -/
theorem sync_settled_iff_unwritten :
    (∃ s', sfsSync unwrittenSfs.synced = .ok () s') ∧ ¬ unwrittenSfs.synced.Honest ∧
      ¬ ∀ s', sfsSync unwrittenSfs.synced = .ok () s' → s'.Settled := by
  have hfit : unwrittenSfs.synced.Fit := unwrittenSfs_fit.synced
  obtain ⟨hrun, hiff⟩ := sync_settled_iff unwrittenSfs.synced hfit
  have hlost : ¬ unwrittenSfs.synced.Honest := fun hhonest =>
    unwrittenSfs_lost (hhonest.inodes _ (mem_singleton.2 rfl) rfl)
  exact ⟨hrun, hlost, fun h => hlost (hiff.1 h).2⟩

/-- The inode is lost: `sfs_sync` returns 0, the vnode is clean, and the sector is
what it was. -/
theorem sync_loses_inode :
    ∃ s', sfsSync unwrittenSfs = .ok () s' ∧ (∀ v ∈ s'.vnodes, v.dirty = false) ∧
      ¬ s'.Settled := by
  refine ⟨_, run_sfsSync unwrittenSfs_fit, by decide, fun h => ?_⟩
  exact unwrittenSfs_lost (h.inodes _ (mem_singleton.2 rfl)).2

end Fs

end Os161
