import Os161.Fs.Ops
import Os161.Fs.Sync
import Os161.Fs.Forget
/-!
# The states of a file system

Every operation keeps a file system whole, so that a file system that has been
made by `mksfs` and mounted is whole in every state that it comes to; with no
error of the disk and with enough memory, that is. `Accounts` is what this says
about its blocks.
-/

namespace Os161

namespace Fs

open Prog Sfs

variable {s s' : Sfs} {L : UInt32 → Prop} {x y : UInt32} {v : SfsVnode} {d : Lhd}
variable {ws : List (ℕ × Sector)}

/-! ## Sync -/

theorem Lhd.Clean.write (h : d.Clean) (w : ℕ × Sector) : d.write w = d.put w.1 w.2 := by
  have h0 : d.pattern 0 = .ok := by rw [show d.pattern = _ from h]
  unfold Lhd.write
  rw [h.tick_eq, h0]
  rfl

theorem Lhd.Clean.writeAll (h : d.Clean) (ws : List (ℕ × Sector)) : (d.writeAll ws).Clean := by
  induction ws generalizing d with
  | nil => exact h
  | cons w ws ih =>
    refine ih (d := d.write w) ?_
    rw [h.write]
    exact h.put _ _

/-- A drive without errors takes every write. -/
theorem Lhd.Clean.writesLand (h : s.device.Clean) : s.WritesLand := by
  intro k hk
  rw [show s.device.pattern = _ from h]
  rfl

theorem Sfs.vnode?_synced (s : Sfs) (y : UInt32) :
    s.synced.vnode? y = (s.vnode? y).map SfsVnode.clean := by
  show (s.vnodes.map SfsVnode.clean).find? _ = _
  rw [List.find?_map]
  rfl

namespace Sane

variable (h : Sane s L)
include h

theorem not_fixed (hx : L x) : ¬ s.Fixed x := fun hf => h.core.ref_ne_fixed (h.ref_inode hx) hf rfl

theorem fit : s.Fit where
  nodup := h.nodup
  inodes v hv := by
    obtain ⟨w, hw⟩ := vnode?_isSome_iff.2 (List.mem_map.2 ⟨v, hv, rfl⟩)
    exact h.not_fixed (h.core.loaded _ w hw)
  nsect := h.core.ready.nsect
  small := h.core.ready.small
  room := h.core.ready.room

/-- Only the inodes of dirty vnodes and a dirty freemap are written. -/
theorem sectors_synced {t : ℕ} (hvnode : ∀ v ∈ s.vnodes, v.dirty = true → t ≠ v.ino.toNat)
    (hmap : s.freemapdirty = true → ¬ (2 ≤ t ∧ t < 2 + bitBlocks s.super.nblocks)) :
    s.synced.device.sectors t = s.device.sectors t := by
  refine Lhd.writeAll_sectors_of_ne fun w hw => ?_
  rcases mem_writes.1 hw with ⟨v, hv, hd, rfl⟩ | ⟨hd, j, hj, rfl⟩ | ⟨hd, -⟩
  · exact hvnode v hv hd
  · intro (e : t = 2 + j)
    exact hmap hd (by omega)
  · rw [h.stored.superdirty] at hd
    cases hd

/-- A block is left alone that is no inode of a dirty vnode. -/
theorem sector_synced {c : UInt32} (hc : ∀ v, s.vnode? c = some v → v.dirty = false)
    (hmap : ¬ (2 ≤ c.toNat ∧ c.toNat < 2 + bitBlocks s.super.nblocks)) :
    s.synced.sector c = s.sector c := by
  refine h.sectors_synced (fun v hv hd e => ?_) fun _ => hmap
  obtain ⟨v', hv'⟩ := vnode?_isSome_iff.2 (List.mem_map.2 ⟨v, hv, rfl⟩)
  have hino : v'.ino = v.ino := vnode?_ino hv'
  have hvv : v' = v := h.fit.ino_inj (List.mem_of_find?_eq_some hv') hv (by rw [hino])
  rw [← UInt32.toNat_inj.1 e, hvv] at hv'
  rw [hc v hv'] at hd
  cases hd

/-- The blocks of the files are not written. -/
theorem sector_synced_of_ref {r : Ref} {c : UInt32} (hr : s.ref L r = some c)
    (hne : ∀ z, r ≠ .inode z) : s.synced.sector c = s.sector c := by
  refine h.sector_synced (fun v hv => ?_) fun hc => h.core.ref_ne_fixed hr (.inr (.inl hc)) rfl
  exact absurd (h.core.exact.once _ _ c hr (h.ref_inode (h.core.loaded c v hv))) (hne c)

/-- **`sfs_sync` changes no file.** -/
theorem sync : Sane s.synced L ∧ SameView s s.synced L := by
  have hvnode := s.vnode?_synced
  have hinode : ∀ y, L y → s.synced.inode y = s.inode y := by
    intro y hy
    cases hv : s.vnode? y with
    | some v => rw [inode_of_loaded hv, inode_of_loaded (by rw [hvnode, hv]; rfl)]; rfl
    | none =>
      refine inode_congr (by rw [hvnode, hv]; rfl) (h.sector_synced (fun v hv' => ?_) fun hc => ?_)
      · rw [hv] at hv'
        cases hv'
      · exact h.not_fixed hy (.inr (.inl hc))
  have hview : SameView s s.synced L :=
    .of_sectors rfl hinode fun _ _ hr hne => h.sector_synced_of_ref hr hne
  have hold : ∀ y w, s.synced.vnode? y = some w → ∃ v, s.vnode? y = some v ∧ v.clean = w := by
    intro y w hw
    rw [hvnode] at hw
    exact Option.map_eq_some_iff.1 hw
  have hland := (Lhd.writeAll_iff h.fit.writes_nodup).2 (Lhd.Clean.writesLand h.core.ready.clean)
  have hzero : s.synced.sector 0 = s.sector 0 := by
    refine h.sector_synced (fun v hv => ?_) fun hc => absurd hc.1 (by decide)
    exact absurd rfl (h.nonzero 0 (h.core.loaded 0 v hv))
  refine ⟨h.of_view hview ⟨?_, h.core.ready.mem, ?_, h.core.ready.small, h.core.ready.room,
    h.core.ready.nbits⟩ rfl ?_ (fun y w hw => ?_) ⟨rfl, ?_, ?_, .inr fun ix hix => ?_⟩, hview⟩
  · exact h.core.ready.clean.writeAll _
  · show _ ≤ (s.device.writeAll _).nsect.toNat
    rw [Lhd.writeAll_nsect]
    exact h.core.ready.nsect
  · show ((s.vnodes.map SfsVnode.clean).map (·.ino)).Nodup
    rw [inos_clean]
    exact h.nodup
  · obtain ⟨v, hv, rfl⟩ := hold y w hw
    have hino := vnode?_ino hv
    refine ⟨h.core.loaded y v hv, h.ops y v hv, fun _ => ?_⟩
    cases hd : v.dirty with
    | true =>
      have hwrite := hland _ (mem_writes.2 (.inl ⟨v, List.mem_of_find?_eq_some hv, hd, rfl⟩))
      rw [hino] at hwrite
      exact (congrArg SfsInode.ofSector hwrite).trans (SfsInode.ofSector_toSector v.i)
    | false =>
      rw [h.sector_synced (fun v' hv' => by rw [hv] at hv'; cases hv'; exact hd)
        fun hc => h.not_fixed (h.core.loaded y v hv) (.inr (.inl hc))]
      exact h.synced y v hv hd
  · rw [hzero]
    exact h.stored.magic
  · rw [hzero]
    exact h.stored.super
  · have hix' : ix < bitBlocks s.super.nblocks * 512 := hix
    show s.freemap.v ix = (s.synced.device.sectors (2 + ix / 512)).byte (ix % 512)
    cases hd : s.freemapdirty with
    | true =>
      have hwrite := hland _ (mem_writes.2 (.inr (.inl ⟨hd, ix / 512, by omega, rfl⟩)))
      rw [show s.synced.device.sectors (2 + ix / 512) = _ from hwrite, mapBlock_byte]
    | false =>
      rw [h.sectors_synced (fun v hv _ e => ?_) fun hd' => by rw [hd] at hd'; cases hd']
      · exact h.stored.map.resolve_left (by rw [hd]; exact Bool.false_ne_true) ix hix
      · have := h.fit.ino_range hv
        omega

end Sane

theorem Whole.sync (h : Whole s) : Whole s.synced := by
  obtain ⟨hsane, hview⟩ := h.sane.sync
  have hdir := hview.dir_eq s.live_root
  refine Mid.whole ?_ hdir
  refine h.of_view hsane hview (fun _ hy => hy) fun y => ?_
  rw [live_iff, live_iff, hdir, vnode?_isSome_iff, vnode?_isSome_iff]
  show _ ∨ _ ∨ y ∈ (s.vnodes.map SfsVnode.clean).map (·.ino) ↔ _
  rw [inos_clean]

/-! ## Operations on a vnode -/

theorem wp_getVnode_none {Q : SfsVnode → Sfs → Prop} {E : Stop Errno → Sfs → Prop}
    (hv : s.vnode? x = none) : wp (getVnode x) Q E s ↔ E .halt s := by
  unfold getVnode
  rw [wp_get_bind, hv]
  exact wp_halt

variable {α : Type}

/-- An operation that only the directory has. -/
theorem wp_vop_dir {p : Prog Sfs Errno α} {Q : α → Sfs → Prop}
    {E : Stop Errno → Sfs → Prop} (h : Sane s L) (hhalt : E .halt s)
    (hfile : E (.error .ENOTDIR) s)
    (hroot : ∀ v, s.vnode? rootIno = some v → x = rootIno → wp p Q E s) :
    wp (vop .dir x p) Q E s := by
  unfold vop
  rw [wp_bind]
  cases hv : s.vnode? x with
  | none => exact (wp_getVnode_none hv).2 hhalt
  | some v =>
    rw [wp_getVnode hv, wp_ite]
    have hops := h.ops x v hv
    by_cases hx : x = rootIno
    · rw [if_pos hx] at hops
      rw [if_pos hops]
      exact hroot v (hx ▸ hv) hx
    · rw [if_neg hx] at hops
      rw [hops, if_neg (by decide)]
      exact wp_fail.2 hfile

/-- A file is read, written or truncated. -/
theorem Whole.file (h : Whole s) (hx : x ≠ rootIno) (he : Effect s s' s.Live x)
    (hbyte : s'.byte rootIno = s.byte rootIno) : Whole s' ∧ s'.dir = s.dir := by
  have hinode := he.inode_eq s.live_root hx.symm
  have hdir : s'.dir = s.dir := dir_congr (by rw [hinode]) hbyte
  refine ⟨Mid.whole ?_ hdir, hdir⟩
  exact Mid.effect h he (h.dirOk.congr (by rw [hinode]) (by rw [hinode]) hbyte) hdir
    fun _ => .inr rfl

/-- The operations on vnodes that are given a request with a buffer that holds
what is asked for. -/
def Op.Ok : Op → Prop
  | .io _ uio => uio.Ok
  | _ => True

/-- A return, with an error or without, leaves the file system whole. -/
def KeepsWhole {α : Type} (p : Prog Sfs Errno α) (s : Sfs) : Prop :=
  wp p (fun _ s' => Whole s') (fun e s' => (∃ err, e = .error err) → Whole s') s

/-- What is handed back does not matter. -/
theorem KeepsWhole.drop {p : Prog Sfs Errno α} (hp : KeepsWhole p s) :
    KeepsWhole (do let _ ← p) s := by
  unfold KeepsWhole
  exact wp_then hp fun _ _ hw => wp_pure.2 hw

/-- A return, with an error or without, leaves the file system whole and the
directory as it is. -/
def KeepsDir {α : Type} (p : Prog Sfs Errno α) (s : Sfs) : Prop :=
  wp p (fun _ s' => Whole s' ∧ s'.dir = s.dir)
    (fun e s' => (∃ err, e = .error err) → Whole s' ∧ s'.dir = s.dir) s

theorem KeepsDir.whole {p : Prog Sfs Errno α} (hp : KeepsDir p s) : KeepsWhole p s :=
  wp_mono hp (fun _ _ hw => hw.1) fun _ _ he herr => (he herr).1

section Steps

variable (h : Whole s)
include h

theorem keepsDir_getroot : KeepsDir sfsGetroot s := by
  unfold KeepsDir sfsGetroot
  rw [wp_bind, wp_result]
  refine wp_returns (wp_sfsLoadvnode h.sane s.live_root) ?_
  intro _ s₁ hl
  obtain ⟨hmid, hdir⟩ := h.loaded s.live_root hl
  rw [wp_pure]
  exact ⟨hmid.whole hdir, hdir⟩

theorem keepsDir_lookup (path : CString) : KeepsDir (vopLookup x path) s := by
  refine wp_vop_dir h.sane (fun _ => ⟨h, rfl⟩) (fun _ => ⟨h, rfl⟩) fun v hv hx => ?_
  rw [hx]
  refine wp_mono (wp_sfsLookup h hv path) (fun _ _ hw => ⟨hw.2.2, hw.2.1⟩) fun _ _ he _ => ?_
  rw [he.2.2]
  exact ⟨h, rfl⟩

theorem keepsWhole_creat (name : CString) (excl : Bool) : KeepsWhole (vopCreat x name excl) s := by
  refine wp_vop_dir h.sane (fun _ => h) (fun _ => h) fun v hv hx => ?_
  rw [hx]
  exact wp_mono (wp_sfsCreat h hv name excl) (fun _ _ hw => hw.1) fun _ _ he _ => he.1

theorem keepsWhole_link (name : CString) : KeepsWhole (vopLink x name y) s := by
  unfold KeepsWhole vopLink
  rw [wp_bind]
  cases hw : s.vnode? y with
  | none => exact (wp_getVnode_none hw).2 fun _ => h
  | some w =>
    rw [wp_getVnode hw]
    refine wp_vop_dir h.sane (fun _ => h) (fun _ => h) fun v hv hx => ?_
    rw [hx]
    exact wp_mono (wp_sfsLink h hv name hw) (fun _ _ hw => hw.1) fun _ _ he _ => he.1

theorem keepsWhole_remove (name : CString) : KeepsWhole (vopRemove x name) s := by
  refine wp_vop_dir h.sane (fun _ => h) (fun _ => h) fun v hv hx => ?_
  rw [hx]
  refine wp_mono (wp_sfsRemove h hv name) (fun _ _ hw => hw.1) ?_
  rintro e s' (⟨-, -, rfl⟩ | ⟨rfl, -⟩) ⟨err, he⟩
  · exact h
  · cases he

theorem keepsWhole_rename (n1 n2 : CString) : KeepsWhole (vopRename x n1 n2) s := by
  refine wp_vop_dir h.sane (fun _ => h) (fun _ => h) fun v hv hx => ?_
  rw [hx]
  refine wp_mono (wp_sfsRename h hv n1 n2) (fun _ _ hw => hw.1) ?_
  rintro e s' (⟨-, -, rfl⟩ | ⟨hw, -⟩ | ⟨rfl, -⟩) ⟨err, he⟩
  · exact h
  · exact hw
  · cases he

theorem keepsWhole_io {u : Uio} (hok : u.Ok) : KeepsWhole (withUio u (vopIo x)) s := by
  unfold KeepsWhole
  rw [wp_withUio]
  cases hv : s.vnode? x with
  | none => exact (wp_vopIo_none (r := ⟨s, u⟩) hv).2 fun _ => h
  | some v =>
    have hops := h.sane.ops x v hv
    by_cases hx : x = rootIno
    · rw [if_pos hx] at hops
      exact (wp_vopIo_dir (r := ⟨s, u⟩) hv hops).2 fun _ => h
    · rw [if_neg hx] at hops
      have hdone : ∀ r k, Done s.Live x ⟨s, u⟩ r k → Whole r.fs := fun r k hd =>
        (h.file hx hd.effect
          ((hd.data _ s.live_root).trans (if_neg fun hc => hx hc.2.symm))).1
      rw [wp_vopIo_file (r := ⟨s, u⟩) hv hops]
      exact wp_mono (wp_sfsIo (r := ⟨s, u⟩) h.sane.core hv hok) (fun _ r hr => hdone r _ hr.1)
        fun e r ⟨k, n, _, hd, _⟩ _ => hdone r k hd

theorem keepsDir_truncate (len : ℤ) : KeepsDir (vopTruncate x len) s := by
  unfold KeepsDir vopTruncate
  rw [wp_bind]
  cases hv : s.vnode? x with
  | none => exact (wp_getVnode_none hv).2 fun _ => ⟨h, rfl⟩
  | some v =>
    rw [wp_getVnode hv]
    have hops := h.sane.ops x v hv
    by_cases hx : x = rootIno
    · rw [if_pos hx] at hops
      rw [hops]
      exact wp_fail.2 fun _ => ⟨h, rfl⟩
    · rw [if_neg hx] at hops
      rw [hops]
      refine wp_returns (wp_sfsTruncate h.sane.core hv len) ?_
      intro _ s₁ ht
      exact h.file hx ht.effect
        (block_byte_congr fun fb => (ht.others _ s.live_root (Ne.symm hx) fb).2)

/-- One more reference to a vnode that is loaded. -/
theorem wp_vnodeIncref_dir (hv : s.vnode? x = some v) :
    wp (vnodeIncref x) (fun _ s' => Whole s' ∧ s'.dir = s.dir) (fun _ _ => False) s := by
  obtain ⟨hmid, hdir⟩ := h.loaded (s.live_of_loaded hv) (h.sane.incref hv)
  rw [wp_vnodeIncref]
  exact ⟨hmid.whole hdir, hdir⟩

theorem keepsDir_incref : KeepsDir (do let _ ← getVnode x; vnodeIncref x) s := by
  unfold KeepsDir
  rw [wp_bind]
  cases hv : s.vnode? x with
  | none => exact (wp_getVnode_none hv).2 fun _ => ⟨h, rfl⟩
  | some v =>
    rw [wp_getVnode hv]
    exact wp_returns (wp_vnodeIncref_dir h hv) fun _ _ hw => hw

theorem keepsDir_decref : KeepsDir (vnodeDecref x) s := by
  cases hv : s.vnode? x with
  | none =>
    unfold KeepsDir vnodeDecref
    rw [wp_bind]
    exact (wp_getVnode_none hv).2 fun _ => ⟨h, rfl⟩
  | some v =>
    refine wp_mono (wp_vnodeDecref h.sane hv (h.linkcount_root hv)) ?_ ?_
    · exact fun _ s₁ hd => h.dropped hv hd
    · rintro e s₁ ⟨rfl, -⟩ ⟨err, he⟩
      cases he

theorem keepsDir_fsync : KeepsDir (vopFsync x) s := by
  cases hv : s.vnode? x with
  | none =>
    unfold KeepsDir vopFsync sfsSyncInode
    rw [wp_bind]
    exact (wp_getVnode_none hv).2 fun _ => ⟨h, rfl⟩
  | some v =>
    refine wp_returns (wp_sfsSyncInode h.sane hv) ?_
    rintro _ s₁ ⟨hsane, hview, hothers, hself⟩
    have hdir := hview.dir_eq s.live_root
    refine ⟨Mid.whole ?_ hdir, hdir⟩
    refine h.of_view hsane hview (fun _ hy => hy) fun y => ?_
    by_cases hy : y = x
    · rw [hy]
      exact ⟨fun _ => s.live_of_loaded hv, fun _ => s₁.live_of_loaded hself⟩
    · rw [live_iff, live_iff, hdir, hothers y hy]

theorem keepsWhole_sync : KeepsWhole sfsSync s :=
  (wp_of_ok (run_sfsSync h.sane.fit)).2 h.sync

/-- **Every operation keeps the file system whole.** -/
theorem Whole.op (op : Op) (hok : op.Ok) : KeepsWhole op.run s := by
  cases op with
  | getroot => exact .drop (keepsDir_getroot h).whole
  | lookup v path => exact .drop (keepsDir_lookup h path).whole
  | creat v name excl => exact .drop (keepsWhole_creat h name excl)
  | link dir name file => exact keepsWhole_link h name
  | remove dir name => exact keepsWhole_remove h name
  | rename dir n1 n2 => exact keepsWhole_rename h n1 n2
  | io v uio => exact .drop (keepsWhole_io h hok)
  | truncate v len => exact (keepsDir_truncate h len).whole
  | incref v => exact (keepsDir_incref h).whole
  | decref v => exact (keepsDir_decref h).whole
  | fsync v => exact (keepsDir_fsync h).whole
  | sync => exact keepsWhole_sync h

theorem Whole.step {op : Op} (hok : op.Ok) (hs : s.step op = some s') : Whole s' := by
  have hwp := h.op op hok
  unfold Sfs.step at hs
  rcases cases_of_wp hwp with ⟨_, s₁, hr, hw⟩ | ⟨e, s₁, hr, hw⟩
  · rw [hr] at hs
    cases hs
    exact hw
  · rw [hr] at hs
    cases e with
    | error err =>
      cases hs
      exact hw ⟨err, rfl⟩
    | longjmp | halt => cases hs

end Steps

/-! ## A new file system -/

/-- **A file system that `mksfs` has just made, mounted.** The disk has as many
sectors as the file system has blocks. -/
def Sfs.Fresh (s : Sfs) : Prop :=
  ∃ (volname : CString) (n : UInt32) (sectors : ℕ → Sector) (m : Mksfs),
    mksfs volname n ⟨sectors, fun _ => 0⟩ = .ok () m ∧
      sfsDomount (newSfs ⟨n, m.sectors, fun _ => .ok⟩ fun _ => true) = .ok () s

/-- **The states of a file system.** -/
def Sfs.Reachable (s : Sfs) : Prop :=
  ∃ s₀, Sfs.Fresh s₀ ∧ Runs.Reachable step (fun _ op => op.Ok) s₀ s

section Fresh

variable {n : UInt32} (hm : Mounted d s) (himage : Image n d.sectors)
include hm himage

theorem Mounted.inode_root : s.inode rootIno = ⟨0, typeDir, 1, fun _ => 0, 0⟩ := by
  have hnone : s.vnode? rootIno = none := by
    unfold vnode?
    rw [hm.vnodes]
    rfl
  rw [inode_of_not_loaded hnone]
  unfold sector
  rw [hm.device]
  exact himage.root

/-- There is nothing but the root. -/
theorem Mounted.live_iff : s.Live x ↔ x = rootIno := by
  refine ⟨?_, .inl⟩
  rintro (hx | ⟨-, k, hk, -⟩ | ⟨v, hv⟩)
  · exact hx
  · unfold nslots at hk
    rw [hm.inode_root himage] at hk
    exact absurd hk (Nat.not_lt_zero k)
  · unfold vnode? at hv
    rw [hm.vnodes] at hv
    cases hv

theorem Mounted.holds_iff {r : Ref} {b : UInt32} :
    s.Holds r b ↔ r = .inode rootIno ∧ b = rootIno := by
  have hroot := hm.inode_root himage
  have hempty : s.NoBlocks rootIno := ⟨fun k => by rw [hroot], by rw [hroot]⟩
  unfold Sfs.Holds
  rw [hm.live_iff himage]
  cases r with
  | inode y =>
    constructor
    · rintro ⟨rfl, hb, -⟩
      exact ⟨rfl, hb.symm⟩
    · rintro ⟨hr, rfl⟩
      cases hr
      exact ⟨rfl, rfl, by decide⟩
  | indirect y =>
    refine ⟨?_, fun hc => by cases hc.1⟩
    rintro ⟨hy, hb, h0⟩
    have hy' : y = rootIno := hy
    rw [hy'] at hb
    exact absurd (hb.symm.trans hempty.2) h0
  | block y fb =>
    refine ⟨?_, fun hc => by cases hc.1⟩
    rintro ⟨hy, hb, h0⟩
    have hy' : y = rootIno := hy
    rw [hy'] at hb
    exact absurd (hb.symm.trans (hempty.ptr_eq fb)) h0

theorem Mounted.accounts : s.Accounts where
  once r r' b hr hr' :=
    ((hm.holds_iff himage).1 hr).1.trans ((hm.holds_iff himage).1 hr').1.symm
  range r b hr hne := absurd ((hm.holds_iff himage).1 hr).1 hne
  bits b hb := by
    have hn : s.super.nblocks = n := hm.nblocks.trans himage.nblocks
    rw [hm.nbits, hn] at hb
    rw [hm.isSet_iff himage hb, hn]
    simp only [hm.holds_iff himage, exists_eq_left]
    unfold Reserved
    have h0 : b = 0 ↔ b.toNat = 0 := UInt32.toNat_inj.symm
    have h1 : b = rootIno ↔ b.toNat = 1 := UInt32.toNat_inj.symm
    rw [h0, h1]
    omega

theorem Mounted.dir_size : s.dir.size = 0 := by
  show s.nslots = 0
  unfold nslots
  rw [hm.inode_root himage]
  rfl

/-- The directory is empty. -/
theorem Mounted.dirOk : DirOk s where
  type := by rw [hm.inode_root himage]
  aligned := by
    rw [hm.inode_root himage]
    rfl
  max := by
    rw [hm.inode_root himage]
    exact Nat.zero_le _
  unique i _ _ _ _ hi _ := by
    have hlt := Slots.lt_size hi
    rw [hm.dir_size himage] at hlt
    exact absurd hlt (Nat.not_lt_zero i)

theorem Mounted.links (hx : s.Live x) :
    (s.inode x).linkcount.toNat = s.dir.count x + if x = rootIno then 1 else 0 := by
  obtain rfl := (hm.live_iff himage).1 hx
  have hcount : s.dir.count rootIno = 0 :=
    Nat.le_zero.1 (Slots.count_le.trans (hm.dir_size himage).le)
  rw [hm.inode_root himage, hcount, if_pos rfl]
  rfl

/-- **A new file system is whole.** -/
theorem Mounted.whole (hclean : d.Clean) (hfits : Fits n) (hsect : n.toNat ≤ d.nsect.toNat) :
    Whole s := by
  have hready := hm.ready hclean himage.nblocks hfits hsect
  have hnone : ∀ y v, s.vnode? y ≠ some v := by
    intro y v hv
    unfold vnode? at hv
    rw [hm.vnodes] at hv
    cases hv
  have hsector : s.sector 0 = d.sectors 0 := by
    unfold sector
    rw [hm.device]
    rfl
  refine ⟨⟨(hm.accounts himage).core hready, s.live_root, fun y hy => ?_, ?_, fun y hy => ?_,
    fun y v hv => absurd hv (hnone y v), fun y v hv => absurd hv (hnone y v), ?_⟩,
    hm.dirOk himage, fun y hy => hm.links himage hy⟩
  · rw [(hm.live_iff himage).1 hy]
    decide
  · rw [hm.vnodes]
    exact List.nodup_nil
  · rw [(hm.live_iff himage).1 hy, hm.inode_root himage, if_pos rfl]
  · refine ⟨hm.superdirty, ?_, ?_, .inr fun ix hix => ?_⟩
    · rw [hsector]
      exact himage.magic
    · rw [hsector]
      have hmagic := hm.magic
      have hnblocks := hm.nblocks
      have hvolname := hm.volname
      cases hsuper : s.super
      rw [hsuper] at hmagic hnblocks hvolname
      cases hmagic
      cases hnblocks
      cases hvolname
      rfl
    · rw [hm.device]
      exact hm.map ix hix

end Fresh

/-! ## A file system whose bitmap has no blocks -/

/-- With no bit for the root nothing works: a file system that `mksfs` has made on
a disk so large that the number of bitmap blocks has wrapped around to 0. -/
structure Dull (s : Sfs) : Prop where
  vnodes : s.vnodes = []
  unset : s.freemap.v 0 = 0
  mem : s.mem = fun _ => true
  freemapdirty : s.freemapdirty = false
  superdirty : s.superdirty = false

/-- The program comes back only if it has done nothing. -/
def Idle {α : Type} (p : Prog Sfs Errno α) (s : Sfs) : Prop :=
  wp p (fun _ s' => s' = s) (fun e _ => e = .halt) s

theorem Idle.drop {p : Prog Sfs Errno α} (hp : Idle p s) : Idle (do let _ ← p) s := by
  unfold Idle
  exact wp_then hp fun _ _ hs => wp_pure.2 hs

namespace Dull

variable (h : Dull s)
include h

theorem vnode?_eq (x : UInt32) : s.vnode? x = none := by
  unfold vnode?
  rw [h.vnodes]
  rfl

theorem idle_getVnode (f : SfsVnode → Prog Sfs Errno α) (x : UInt32) :
    Idle (getVnode x >>= f) s := by
  unfold Idle
  rw [wp_bind]
  exact (wp_getVnode_none (h.vnode?_eq x)).2 rfl

theorem idle_getroot : Idle sfsGetroot s := by
  unfold Idle sfsGetroot sfsLoadvnode checkUsed
  rw [wp_bind, wp_result, wp_get_bind, wp_bind, h.vnodes, findLoaded, wp_pure, wp_ite,
    if_neg Bool.false_ne_true, wp_bind, wp_kmalloc h.mem, wp_bind, wp_get_bind, wp_bind,
    wp_assert]
  split
  · rw [wp_assert, if_neg]
    unfold Lib.Bitmap.IsSet
    rw [show rootIno.toNat / 8 = 0 from rfl, h.unset]
    decide
  · rfl

theorem idle_sync : Idle sfsSync s := by
  unfold Idle sfsSync
  rw [wp_get_bind, wp_bind, h.vnodes, syncVnodes, wp_pure, wp_get_bind, wp_ite,
    if_neg (by rw [h.freemapdirty]; decide), wp_get_bind, wp_ite,
    if_neg (by rw [h.superdirty]; decide)]
  exact wp_pure.2 rfl

/-- **No operation does anything.** -/
theorem idle_op (op : Op) : Idle op.run s := by
  cases op with
  | getroot => exact .drop h.idle_getroot
  | lookup v path | creat v name excl => exact .drop (h.idle_getVnode _ v)
  | link dir name file => exact h.idle_getVnode _ file
  | remove dir name | rename dir n1 n2 => exact h.idle_getVnode _ dir
  | io v uio =>
    refine .drop ?_
    unfold Idle
    rw [wp_withUio]
    exact (wp_vopIo_none (r := ⟨s, uio⟩) (h.vnode?_eq v)).2 rfl
  | truncate v len | incref v | decref v | fsync v => exact h.idle_getVnode _ v
  | sync => exact h.idle_sync

theorem step_eq {op : Op} (hs : s.step op = some s') : s' = s := by
  unfold step at hs
  rcases cases_of_wp (h.idle_op op) with ⟨_, s₁, hr, hw⟩ | ⟨e, s₁, hr, rfl⟩
  · rw [hr] at hs
    cases hs
    exact hw
  · rw [hr] at hs
    cases hs

end Dull

/-- A disk without sectors cannot be mounted: the first request is out of range. -/
theorem nsect_pos_of_domount {mem : ℕ → Bool} (h : sfsDomount (newSfs d mem) = .ok () s) :
    0 < d.nsect.toNat := by
  by_contra hzero
  suffices hstop : wp sfsDomount (fun _ _ => False) (fun _ _ => True) (newSfs d mem) by
    exact (wp_of_ok h).1 hstop
  have hread : ∀ (t : Sfs) (Q : Sector → Sfs → Prop), t.device.nsect.toNat = 0 →
      wp (rblock 0) Q (fun _ _ => True) t := by
    intro t Q ht
    unfold rblock sfsRblock
    rw [wp_zoom, wp_bind, wp_withUio]
    unfold sfsRwblock
    rw [sfsRwblockFrom, wp_sfsRwblockTry, wp_lhdIo_one rfl (Sector.length_toList _), if_pos]
    · trivial
    · show t.device.nsect.toNat < 1
      omega
  have hkmalloc : ∀ (t : Sfs) (Q : Unit → Sfs → Prop), (∀ mem, Q () { t with mem := mem }) →
      wp kmalloc Q (fun _ _ => True) t := by
    intro t Q hQ
    unfold kmalloc
    rw [wp_get_bind, wp_bind, wp_set, wp_failIf]
    split
    · trivial
    · exact hQ _
  unfold sfsDomount
  rw [wp_bind]
  refine hkmalloc _ _ fun _ => ?_
  rw [wp_bind]
  refine hkmalloc _ _ fun _ => ?_
  rw [wp_bind]
  exact hread _ _ (by
    show d.nsect.toNat = 0
    omega)

/-- **A new file system is whole or dull**, and nothing is in it. -/
theorem Sfs.Fresh.cases (h : s.Fresh) :
    ∃ n d, Mounted d s ∧ Image n d.sectors ∧ d.Clean ∧
      (Fits n ∧ Whole s ∨ bitBlocks n = 0 ∧ Dull s) := by
  obtain ⟨volname, n, sectors, m, hmk, hmount⟩ := h
  obtain ⟨htakes, hvol⟩ := takes_of_mksfs rfl hmk
  have himage : Image n m.sectors :=
    (wp_of_ok hmk).1 (wp_mksfs (m := ⟨sectors, fun _ => 0⟩) htakes _ hvol rfl)
  have hclean : Lhd.Clean ⟨n, m.sectors, fun _ => .ok⟩ := rfl
  have hpos : 0 < n.toNat := nsect_pos_of_domount hmount
  have hroom : 2 + bitBlocks n ≤ n.toNat := by
    have hlt := n.toNat_lt
    rcases htakes.cases with hfits | h0
    · exact hfits.room.2.1
    · unfold bitBlocks at h0 ⊢
      omega
  have hm : Mounted ⟨n, m.sectors, fun _ => .ok⟩ s := (wp_of_ok hmount).1
    (wp_sfsDomount hclean himage.magic himage.nblocks htakes.blocks hroom)
  refine ⟨n, _, hm, himage, hclean, ?_⟩
  rcases htakes.cases with hfits | h0
  · exact .inl ⟨hfits, hm.whole himage hclean hfits (le_refl _)⟩
  · have hn : s.super.nblocks = n := hm.nblocks.trans himage.nblocks
    exact .inr ⟨h0, hm.vnodes, hm.rest 0 (by rw [hn, h0]), hm.mem, hm.freemapdirty, hm.superdirty⟩

/-- **In every state the file system is whole**, unless it is a dull one. -/
theorem Sfs.Reachable.whole (h : s.Reachable) : Whole s ∨ s.Fresh ∧ Dull s := by
  obtain ⟨s₀, hfresh, hr⟩ := h
  refine hr.invariant (I := fun s => Whole s ∨ s.Fresh ∧ Dull s) ?_ ?_
  · obtain ⟨n, d, -, -, -, ⟨-, hw⟩ | ⟨-, hd⟩⟩ := hfresh.cases
    · exact .inl hw
    · exact .inr ⟨hfresh, hd⟩
  · rintro s op s' (hw | ⟨hf, hd⟩) hok hs
    · exact .inl (hw.step hok hs)
    · rw [hd.step_eq hs]
      exact .inr ⟨hf, hd⟩

/-- What `mksfs` makes on a disk of `n` sectors, mounted. -/
def makeVolume (volname : CString) (n : UInt32) : Option Sfs :=
  match mksfs volname n ⟨fun _ => Sector.zero, fun _ => 0⟩ with
  | .ok () m =>
    match sfsDomount (newSfs ⟨n, m.sectors, fun _ => .ok⟩ fun _ => true) with
    | .ok () s => some s
    | .error _ _ => none
  | .error _ _ => none

theorem fresh_of_makeVolume {volname : CString} {n : UInt32} (h : makeVolume volname n = some s) :
    s.Fresh := by
  unfold makeVolume at h
  cases hm : mksfs volname n ⟨fun _ => Sector.zero, fun _ => 0⟩ with
  | error e m =>
    rw [hm] at h
    cases h
  | ok a m =>
    rw [hm] at h
    dsimp only at h
    cases hs : sfsDomount (newSfs ⟨n, m.sectors, fun _ => .ok⟩ fun _ => true) with
    | error e s' =>
      rw [hs] at h
      cases h
    | ok a s' =>
      rw [hs] at h
      cases h
      exact ⟨volname, n, _, m, hm, hs⟩

/-- What can be seen of a value that is there. -/
theorem exists_of_elim {o : Option α} {p : α → Bool} (h : o.elim false p = true) :
    ∃ a, o = some a ∧ p a = true := by
  cases o with
  | none => cases h
  | some a => exact ⟨a, rfl, h⟩

/-- What can be reached from a new volume of 4096 blocks. -/
theorem exists_reachable (ops : List Op) (hok : ∀ op ∈ ops, op.Ok) (p : Sfs → Prop)
    [DecidablePred p] (h : (makeVolume ⟨[100], by decide⟩ 4096).elim false (fun s =>
      (Runs.exec step s ops).elim false fun s => decide (p s)) = true) :
    ∃ s : Sfs, s.Reachable ∧ p s := by
  obtain ⟨s₀, hs₀, h⟩ := exists_of_elim h
  obtain ⟨s, hs, h⟩ := exists_of_elim h
  exact ⟨s, ⟨s₀, fresh_of_makeVolume hs₀, .exec .refl (fun _ => hok) hs⟩, of_decide_eq_true h⟩

/-- A file with a byte behind its indirect block, and two names for it. -/
def filledOps : List Op :=
  [.getroot, .creat rootIno ⟨[97], by decide⟩ true, .io 3 (mkKuio [65] (15 * 512) .write),
    .link rootIno ⟨[98], by decide⟩ 3]

theorem filledOps_ok : ∀ op ∈ filledOps, op.Ok := by
  simp only [filledOps, List.forall_mem_cons, List.not_mem_nil, false_implies, implies_true,
    and_true, Op.Ok, true_and]
  exact ⟨by decide, by decide, by decide, by decide⟩

/-- **The block accounting is right in every state.** No block number is held
twice, what is held lies between the freemap and the end, and a bit is set
exactly for what is in use. -/
theorem accounts_of_reachable (s : Sfs) (h : s.Reachable) : s.Accounts := by
  rcases h.whole with hw | ⟨hf, -⟩
  · exact hw.sane.core.accounts
  · obtain ⟨n, d, hm, himage, -⟩ := hf.cases
    exact hm.accounts himage

theorem accounts_of_reachable_filled : ∃ s : Sfs, s.Reachable ∧ (s.inode 3).linkcount = 2 ∧
    (s.inode 3).indirect ≠ 0 ∧ s.Accounts := by
  obtain ⟨s, hr, hlinks, hind⟩ := exists_reachable filledOps filledOps_ok
    (fun s => (s.inode 3).linkcount = 2 ∧ (s.inode 3).indirect ≠ 0) (by decide +kernel)
  exact ⟨s, hr, hlinks, hind, accounts_of_reachable s hr⟩

/-- A file system with a freemap is whole in every state. -/
theorem Sfs.Reachable.whole_of_map (h : s.Reachable) (hmap : 0 < bitBlocks s.super.nblocks) :
    Whole s := by
  rcases h.whole with hw | ⟨hf, -⟩
  · exact hw
  obtain ⟨n, d, hm, himage, -, ⟨-, hw⟩ | ⟨h0, -⟩⟩ := hf.cases
  · exact hw
  · rw [hm.nblocks, himage.nblocks, h0] at hmap
    exact absurd hmap (lt_irrefl 0)

/-- **Names, links and vnodes in every state.** No name is there twice and no inode has two
vnodes, a link count is the number of names, and a vnode that is not dirty is as on the
disk. -/
theorem links_of_reachable (s : Sfs) (h : s.Reachable) (hmap : 0 < bitBlocks s.super.nblocks) :
    s.dir.Unique ∧ (s.vnodes.map (·.ino)).Nodup ∧ ∀ x, s.Live x →
      (s.inode x).linkcount.toNat = s.dir.count x + (if x = rootIno then 1 else 0) ∧
        ∀ v, s.vnode? x = some v → v.dirty = false → SfsInode.ofSector (s.sector x) = v.i := by
  have hw := h.whole_of_map hmap
  exact ⟨hw.dirOk.unique, hw.sane.nodup, fun x hx => ⟨hw.links x hx, hw.sane.synced x⟩⟩

theorem links_of_reachable_filled : ∃ s : Sfs, s.Reachable ∧
    (s.inode 3).linkcount = 2 ∧ s.dir.count 3 = 2 := by
  obtain ⟨s, hr, hlinks, hv, hmap⟩ := exists_reachable filledOps filledOps_ok
    (fun s => (s.inode 3).linkcount = 2 ∧ (s.vnode? 3).isSome ∧ 0 < bitBlocks s.super.nblocks)
    (by decide +kernel)
  have hcount := ((links_of_reachable s hr hmap).2.2 3 (.inr (.inr
    (Option.isSome_iff_exists.1 hv)))).1
  rw [hlinks] at hcount
  exact ⟨s, hr, hlinks, hcount.symm⟩

/-! ## Unmounting -/

/-- **A file system without loaded files can be unmounted and mounted again**, and it is
what it has been. One with loaded files stays. -/
def Remounts (s : Sfs) : Prop :=
  wp vfsUnmount
    (fun _ s₁ => s.vnodes = [] ∧ wp sfsDomount
      (fun _ s₂ => SameView s s₂ s.Live ∧ s₂.dir = s.dir ∧ ∀ b, s₂.Marked b ↔ s.Marked b)
      (fun _ _ => False) (newSfs s₁.device fun _ => true))
    (fun e s₁ => e = .error .EBUSY ∧ s.vnodes ≠ [] ∧ SameView s s₁ s.Live) s

theorem remounts_of_reachable (s : Sfs) (h : s.Reachable) (hmap : 0 < bitBlocks s.super.nblocks) :
    Remounts s := by
  have hw := h.whole_of_map hmap
  obtain ⟨hsane, hview⟩ := hw.sane.sync
  have hready := hsane.core.ready
  have hsuper := hsane.stored.super
  unfold Remounts vfsUnmount sfsUnmount
  rw [wp_bind, wp_of_ok (run_sfsSync hw.sane.fit), wp_get_bind, wp_bind, wp_failIf]
  split
  · rename_i hpos
    refine ⟨rfl, fun h0 => ?_, hview⟩
    rw [synced, h0] at hpos
    exact absurd hpos (lt_irrefl 0)
  rename_i hzero
  have hnone : s.synced.vnodes = [] := List.length_eq_zero_iff.1 (by omega)
  have hclean : s.synced.freemapdirty = false := rfl
  rw [wp_assert_bind hsane.stored.superdirty, wp_assert, if_pos hclean]
  refine ⟨List.map_eq_nil_iff.1 hnone, wp_imp (wp_sfsDomount hready.clean hsane.stored.magic
    (congrArg SfsSuper.nblocks hsuper).symm ?_ ?_) fun _ s₂ hm => ?_⟩
  · have := hready.small
    unfold bitBlocks
    omega
  · exact hready.room.trans hready.nsect
  have hsuper₂ : s₂.super = s.synced.super := by
    rw [hsuper]
    show (⟨s₂.super.magic, s₂.super.nblocks, s₂.super.volname⟩ : SfsSuper) = _
    rw [hm.magic, hm.nblocks, hm.volname]
    rfl
  have hsector : ∀ c, s₂.sector c = s.synced.sector c := fun c => by
    unfold sector
    rw [hm.device]
  have hview₂ : SameView s s₂ s.Live := by
    refine hview.trans (.of_sectors hsuper₂ (fun y _ => ?_) fun _ c _ _ => hsector c)
    exact inode_congr (vnode?_congr (hm.vnodes.trans hnone.symm) y) (hsector y)
  refine ⟨hview₂, hview₂.dir_eq s.live_root, fun b => ?_⟩
  unfold Marked
  rw [hm.nbits, hsuper₂, ← hready.nbits]
  refine or_congr_right' fun hlt => ?_
  have hix : b.toNat / 8 < bitBlocks s.synced.super.nblocks * 512 := by
    rw [hready.nbits, bitmapSize] at hlt
    omega
  have hdisk := hsane.stored.map.resolve_left (by rw [hclean]; exact Bool.false_ne_true) _ hix
  unfold Lib.Bitmap.IsSet
  rw [hm.map _ (by rw [hsuper₂]; exact hix), ← hdisk]
  rfl

/-- The same volume when its file and the root are closed. -/
theorem remounts_of_reachable_filled : ∃ s : Sfs, s.Reachable ∧ s.vnodes.isEmpty ∧
    (s.inode 3).linkcount = 2 ∧ (s.inode 3).indirect ≠ 0 ∧ Remounts s := by
  obtain ⟨s, hr, hclosed, hlinks, hind, hmap⟩ := exists_reachable
    (filledOps ++ [.decref 3, .decref rootIno])
    (List.forall_mem_append.2 ⟨filledOps_ok, by
      simp only [List.forall_mem_cons, List.not_mem_nil, false_implies, implies_true, Op.Ok,
        and_true]⟩)
    (fun s => s.vnodes.isEmpty ∧ (s.inode 3).linkcount = 2 ∧ (s.inode 3).indirect ≠ 0 ∧
      0 < bitBlocks s.super.nblocks) (by decide +kernel)
  exact ⟨s, hr, hclosed, hlinks, hind, remounts_of_reachable s hr hmap⟩

end Fs

end Os161
