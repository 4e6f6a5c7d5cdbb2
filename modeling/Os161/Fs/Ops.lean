import Os161.Fs.Cache
import Os161.Fs.Directory
/-!
# The operations on the directory

What `sfs_lookup`, `sfs_creat`, `sfs_link`, `sfs_remove` and `sfs_rename` do to
the directory and to the rest of the file system. Between two operations the
file system is `Whole`: the accounting covers the inodes that are named or
loaded, and the link count of an inode is the number of slots that name it.
Within an operation the link counts may be those of another directory (`Mid`):
an entry is written before the count goes up.
-/

namespace Os161

namespace Fs

open Prog Sfs Slots

variable {s s' : Sfs} {L : UInt32 → Prop} {x y b : UInt32} {v w : SfsVnode}
variable {d d' : Slots (List UInt8) UInt32}

/-! ## A whole file system -/

/-- In the middle of an operation: the link counts are those of `d`. The root has
one link more than there are slots for it. -/
structure Mid (s : Sfs) (d : Slots (List UInt8) UInt32) : Prop where
  sane : Sane s s.Live
  dirOk : DirOk s
  links : ∀ x, s.Live x →
    (s.inode x).linkcount.toNat = d.count x + if x = rootIno then 1 else 0

/-- **The file system is whole.** -/
def Whole (s : Sfs) : Prop := Mid s s.dir

theorem Mid.whole (h : Mid s d) (hdir : s.dir = d) : Whole s := by
  unfold Whole
  rw [hdir]
  exact h

theorem Sfs.live_iff : s.Live x ↔ x = rootIno ∨ 0 < s.dir.count x ∨ ∃ v, s.vnode? x = some v := by
  unfold Sfs.Live
  rw [named_iff]

variable {name : List UInt8} {k : ℕ}

theorem Sfs.live_of_slot (hk : s.dir.slot k = some (name, x)) :
    s.Live x :=
  live_iff.2 (.inr (.inl (count_pos_iff.2 ⟨k, name, hk⟩)))

theorem DirOk.congr (h : DirOk s) (htype : (s'.inode rootIno).type = (s.inode rootIno).type)
    (hsize : (s'.inode rootIno).size = (s.inode rootIno).size)
    (hbyte : s'.byte rootIno = s.byte rootIno) : DirOk s' := by
  have hdir : s'.dir = s.dir := dir_congr hsize hbyte
  refine ⟨htype.trans h.type, ?_, ?_, ?_⟩
  · rw [hsize]
    exact h.aligned
  · rw [hsize]
    exact h.max
  · rw [hdir]
    exact h.unique

theorem SameView.dir_eq (h : SameView s s' L) (hroot : L rootIno) : s'.dir = s.dir :=
  dir_congr (by rw [h.inode _ hroot]) (h.byte _ hroot)

theorem SameView.dirOk (h : SameView s s' L) (hroot : L rootIno) (hd : DirOk s) : DirOk s' :=
  hd.congr (by rw [h.inode _ hroot]) (by rw [h.inode _ hroot]) (h.byte _ hroot)

/-- A vnode of a whole file system has a link if it is the root. -/
theorem Mid.linkcount_root (h : Mid s d) (hv : s.vnode? x = some v) (hx : x = rootIno) :
    v.i.linkcount ≠ 0 := by
  intro h0
  have hlinks := h.links x (s.live_of_loaded hv)
  rw [inode_of_loaded hv, h0, if_pos hx] at hlinks
  have : (0 : UInt16).toNat = 0 := rfl
  omega

/-! ## The steps of an operation -/

/-- The view of the inodes in use has not changed. -/
theorem Mid.of_view (h : Mid s d) (hsane : Sane s' L) (hview : SameView s s' L)
    (hL : ∀ y, L y → s.Live y) (hlive : ∀ y, s'.Live y ↔ L y) : Mid s' d := by
  have heq : s'.Live = L := funext fun y => propext (hlive y)
  refine ⟨by rw [heq]; exact hsane, hview.dirOk hsane.root h.dirOk, fun y hy => ?_⟩
  rw [heq] at hy
  rw [hview.inode y hy]
  exact h.links y (hL y hy)

/-- A reference. -/
theorem Mid.loaded (h : Mid s d) (hx : s.Live x) (hl : Loaded s s' s.Live x) :
    Mid s' d ∧ s'.dir = s.dir := by
  have hdir := hl.view.dir_eq s.live_root
  have hlive : ∀ y, s'.Live y ↔ s.Live y := by
    intro y
    by_cases hy : y = x
    · subst hy
      obtain ⟨v', hv', -⟩ := hl.self
      exact ⟨fun _ => hx, fun _ => s'.live_of_loaded hv'⟩
    · rw [live_iff, live_iff, hdir, hl.others y hy]
  exact ⟨h.of_view hl.sane hl.view (fun _ hy => hy) hlive, hdir⟩

theorem Effect.loaded_iff (h : Effect s s' L x) (y : UInt32) :
    (∃ v, s'.vnode? y = some v) ↔ ∃ v, s.vnode? y = some v := by
  rw [vnode?_isSome_iff, vnode?_isSome_iff, h.inos]

section

variable (h : Mid s d)

include h

/-- Work on the blocks of a file, which leaves alone how many names a file has,
unless the file is loaded. -/
theorem Mid.effect (he : Effect s s' s.Live x) (hok : DirOk s') (hdir : s'.dir = d')
    (hcount : ∀ y, (∃ v, s.vnode? y = some v) ∨ d'.count y = s.dir.count y) : Mid s' d := by
  have heq : s'.Live = s.Live := by
    funext y
    rw [eq_iff_iff, live_iff, live_iff, hdir, he.loaded_iff]
    rcases hcount y with hv | hsame
    · exact ⟨fun _ => .inr (.inr hv), fun _ => .inr (.inr hv)⟩
    · rw [hsame]
  refine ⟨by rw [heq]; exact h.sane.effect he, hok, fun y hy => ?_⟩
  rw [heq] at hy
  rw [(he.type_linkcount hy).2]
  exact h.links y hy

/-- An entry for a loaded file. -/
theorem Mid.put (hx : s.vnode? x = some v)
    (hk : s.dir.slot k = none) (hd : DirDone s s' s.Live (s.dir.put k (name, x))) : Mid s' d := by
  refine h.effect hd.effect hd.ok hd.dir fun y => ?_
  by_cases hy : y = x
  · exact .inl ⟨v, hy ▸ hx⟩
  · rw [count_put hk, if_neg hy, Nat.add_zero]
    exact .inr rfl

/-- The entry of a loaded file goes. -/
theorem Mid.clear (hx : s.vnode? x = some v)
    (hk : s.dir.slot k = some (name, x)) (hd : DirDone s s' s.Live (s.dir.clear k)) : Mid s' d := by
  refine h.effect hd.effect hd.ok hd.dir fun y => ?_
  by_cases hy : y = x
  · exact .inl ⟨v, hy ▸ hx⟩
  · have hcount := count_clear (w := y) hk
    rw [if_neg hy, Nat.add_zero] at hcount
    exact .inr hcount

/-- The entry has not come to be. -/
theorem Mid.kept (hd : DirDone s s' s.Live s.dir) : Mid s' d :=
  h.effect hd.effect hd.ok hd.dir fun _ => .inr rfl

/-- A link count changes, and so the directory that it is the count of. -/
theorem Mid.relink {f : SfsVnode → SfsVnode}
    (d' : Slots (List UInt8) UInt32) (hv : s.vnode? x = some v)
    (hf : ∀ v, f v = { v with i := { v.i with linkcount := (f v).i.linkcount }, dirty := true })
    (hother : ∀ y ≠ x, d'.count y = d.count y)
    (hself : (f v).i.linkcount.toNat = d'.count x + if x = rootIno then 1 else 0) :
    Mid (s.modifyVnode x f) d' ∧ (s.modifyVnode x f).dir = s.dir := by
  have hino : ∀ v, (f v).ino = v.ino := fun v => by rw [hf]
  have hdirect : ∀ v, (f v).i.direct = v.i.direct := fun v => by rw [hf]
  have hindirect : ∀ v, (f v).i.indirect = v.i.indirect := fun v => by rw [hf]
  have hsize := field_modifyVnode (g := SfsInode.size) hino (fun v => by rw [hf]) s x rootIno
  have htype : ∀ v, (f v).i.type = v.i.type := fun v => by rw [hf]
  have hbyte := byte_modifyVnode hino hdirect hindirect s x
  have hdir : (s.modifyVnode x f).dir = s.dir := dir_congr hsize (hbyte _)
  have heq : (s.modifyVnode x f).Live = s.Live := by
    funext y
    rw [eq_iff_iff, live_iff, live_iff, hdir, vnode?_isSome_iff, vnode?_isSome_iff,
      inos_modifyVnode hino]
  refine ⟨⟨?_, h.dirOk.congr (field_modifyVnode (g := SfsInode.type) hino htype s x _) hsize
    (hbyte _), fun y hy => ?_⟩, hdir⟩
  · rw [heq]
    refine h.sane.modifyVnode x hino hdirect hindirect htype (fun v => ?_) fun v => .inl ?_
    · rw [hf]
    · rw [hf]
  · by_cases hyx : y = x
    · rw [hyx, inode_modifyVnode hino hv]
      exact hself
    · rw [inode_modifyVnode_of_ne hino hyx, hother y hyx]
      rw [heq] at hy
      exact h.links y hy

end

theorem Sfs.refcount_modifyVnode {f : SfsVnode → SfsVnode} (hf : ∀ v, (f v).ino = v.ino)
    (hrc : ∀ v, (f v).refcount = v.refcount) (x : UInt32) (hv : s.vnode? y = some v) :
    ∃ v', (s.modifyVnode x f).vnode? y = some v' ∧ v'.refcount = v.refcount := by
  rw [vnode?_modifyVnode hf, ← hrc]
  split
  · rename_i hy
    rw [← hy, hv]
    exact ⟨f v, rfl, rfl⟩
  · exact ⟨v, hv, (hrc v).symm⟩

theorem DirOk.count_le (h : DirOk s) (x : UInt32) : s.dir.count x ≤ 1144 :=
  Slots.count_le.trans h.nslots_le

/-- `linkcount++`, after the entry: it does not wrap. -/
theorem Mid.link (h : Mid s d) (hv : s.vnode? x = some v)
    (hk : d.slot k = none) (hdir : s.dir = d.put k (name, x)) :
    let s' := s.modifyVnode x fun sv =>
      { sv with i := { sv.i with linkcount := sv.i.linkcount + 1 }, dirty := true }
    Whole s' ∧ s'.dir = s.dir := by
  intro s'
  have hlinks := h.links x (s.live_of_loaded hv)
  have hle := h.dirOk.count_le x
  have hcount := count_put (k := name) (v := x) (w := x) hk
  rw [if_pos rfl, ← hdir] at hcount
  have hone : (1 : UInt16).toNat = 1 := rfl
  obtain ⟨hmid, hdir'⟩ := h.relink s.dir (f := fun sv =>
    { sv with i := { sv.i with linkcount := sv.i.linkcount + 1 }, dirty := true }) hv (fun _ => rfl)
    (fun y hy => by rw [hdir, count_put hk, if_neg hy, Nat.add_zero]) (by
      rw [inode_of_loaded hv] at hlinks
      rw [UInt16.toNat_add, hone, hlinks, Nat.mod_eq_of_lt (by split <;> omega)]
      omega)
  exact ⟨hmid.whole hdir', hdir'⟩

/-- `linkcount--`, after the entry: it was not 0. -/
theorem wp_dropLink (h : Mid s d) (hv : s.vnode? x = some v)
    (hk : d.slot k = some (name, x)) (hdir : s.dir = d.clear k) :
    wp (dropLink x)
      (fun _ s' => Whole s' ∧ s'.dir = s.dir ∧
        ∃ v', s'.vnode? x = some v' ∧ v'.refcount = v.refcount)
      (fun _ _ => False) s := by
  have hlinks := h.links x (s.live_of_loaded hv)
  rw [inode_of_loaded hv] at hlinks
  have hcount := count_clear (w := x) hk
  rw [if_pos rfl, ← hdir] at hcount
  have hone : (1 : UInt16).toNat = 1 := rfl
  have hle : (1 : UInt16) ≤ v.i.linkcount := by
    rw [UInt16.le_iff_toNat_le, hone]
    omega
  have hpos : 0 < v.i.linkcount := by
    rw [UInt16.lt_iff_toNat_lt]
    show 0 < _
    omega
  unfold dropLink
  rw [wp_bind, wp_getVnode hv, wp_assert_bind hpos, wp_modifyVnode]
  let f : SfsVnode → SfsVnode := fun sv =>
    { sv with i := { sv.i with linkcount := sv.i.linkcount - 1 }, dirty := true }
  obtain ⟨hmid, hdir'⟩ := h.relink s.dir (f := f) hv (fun _ => rfl)
    (fun y hy => by
      have := count_clear (w := y) hk
      rw [if_neg hy, Nat.add_zero] at this
      rw [hdir, this]) (by
      rw [UInt16.toNat_sub_of_le _ _ hle, hone]
      omega)
  exact ⟨hmid.whole hdir', hdir', refcount_modifyVnode (f := f) (fun _ => rfl) (fun _ => rfl) x hv⟩

/-- **A reference is dropped.** A file that goes has no name, and one that keeps
its name is still in use. -/
theorem Whole.dropped (h : Whole s) (hv : s.vnode? x = some v) (hd : Dropped s s' s.Live x v) :
    Whole s' ∧ s'.dir = s.dir := by
  have hdir := hd.view.dir_eq hd.sane.root
  have hlast : v.Last → s.dir.count x = 0 ∧ x ≠ rootIno := by
    intro hl
    refine ⟨?_, fun e => h.linkcount_root hv e hl.2⟩
    have hlinks := h.links x (s.live_of_loaded hv)
    rw [inode_of_loaded hv, hl.2] at hlinks
    have : (0 : UInt16).toNat = 0 := rfl
    omega
  have hlive : ∀ y, s'.Live y ↔ s.Live y ∧ ¬ (y = x ∧ v.Last) := by
    intro y
    by_cases hy : y = x
    swap
    · rw [live_iff, live_iff, hdir, hd.others y hy]
      exact (and_iff_left fun hc => hy hc.1).symm
    subst hy
    have hx : s.Live y := s.live_of_loaded hv
    by_cases hl : v.Last
    · obtain ⟨hcount, hne⟩ := hlast hl
      rw [live_iff, hdir, hd.gone hl.1]
      simp [hl, hcount, hne]
    · refine ⟨fun _ => ⟨hx, fun hc => hl hc.2⟩, fun _ => ?_⟩
      by_cases hone : v.refcount = 1
      · have hlink : v.i.linkcount.toNat ≠ 0 := fun e => hl ⟨hone, UInt16.toNat_inj.1 e⟩
        have hlinks := h.links y hx
        rw [inode_of_loaded hv] at hlinks
        rw [live_iff, hdir]
        by_cases hroot : y = rootIno
        · exact .inl hroot
        · rw [if_neg hroot] at hlinks
          exact .inr (.inl (by omega))
      · exact s'.live_of_loaded (hd.self hone)
  refine ⟨?_, hdir⟩
  unfold Whole
  rw [hdir]
  exact h.of_view hd.sane hd.view (fun _ hy => hy.1) hlive

/-- A new file, which has no name yet. -/
theorem Whole.made (h : Whole s) (hm : Made s s' s.Live b) :
    Mid s' s.dir ∧ s'.dir = s.dir := by
  have hdir := hm.view.dir_eq s.live_root
  have hlive : ∀ y, s'.Live y ↔ s.Live y ∨ y = b := by
    intro y
    by_cases hy : y = b
    · subst hy
      exact ⟨fun _ => .inr rfl, fun _ => s'.live_of_loaded hm.self⟩
    · rw [live_iff, live_iff, hdir, hm.others y hy, or_iff_left hy]
  have heq : s'.Live = fun y => s.Live y ∨ y = b := funext fun y => propext (hlive y)
  refine ⟨⟨by rw [heq]; exact hm.sane, hm.view.dirOk s.live_root h.dirOk, fun y hy => ?_⟩, hdir⟩
  rcases (hlive y).1 hy with hold | rfl
  · rw [hm.view.inode y hold]
    exact h.links y hold
  · have hnot := hm.fresh
    rw [live_iff, not_or, not_or] at hnot
    rw [inode_of_loaded hm.self, if_neg hnot.1]
    show 0 = _
    omega

/-! ## The operations -/

/-- Every reference count is one that one more reference does not overflow. -/
def Sfs.Tame (s : Sfs) : Prop :=
  ∀ x v, s.vnode? x = some v → 0 < v.refcount ∧ v.refcount < 2 ^ 31 - 1

/-- After one more reference the count is positive, unless there are too many. -/
theorem Loaded.refcount_pos (h : Loaded s s' L x) (ht : s.Tame) (hv : s'.vnode? x = some v) :
    0 < v.refcount := by
  obtain ⟨v', hv', hrc⟩ := h.self
  rw [hv'] at hv
  cases hv
  rw [hrc]
  cases hold : s.vnode? x with
  | none => exact Int.one_pos
  | some v =>
    have := ht x v hold
    show 0 < off32 (v.refcount + 1)
    rw [off32_eq (by omega) (by omega)]
    omega

theorem Loaded.still (h : Loaded s s' L x) (hv : s.vnode? y = some v) :
    ∃ v', s'.vnode? y = some v' := by
  by_cases hy : y = x
  · obtain ⟨v', hv', -⟩ := h.self
    exact ⟨v', hy ▸ hv'⟩
  · exact ⟨v, (h.others y hy).trans hv⟩

theorem Effect.refcount (h : Effect s s' L x) (hv : s.vnode? y = some v) :
    ∃ v', s'.vnode? y = some v' ∧ v'.refcount = v.refcount := by
  by_cases hy : y = x
  · subst hy
    obtain ⟨v', hv', hkeeps⟩ := h.self v hv
    exact ⟨v', hv', hkeeps.refcount⟩
  · exact ⟨v, (h.others y hy).trans hv, rfl⟩

/-- The free blocks of a file system that has been full are those of a file that
has gone. -/
theorem Dropped.marked {c : UInt32} (h : Sane s L) (hd : Dropped s s' L x v) (hc : s.Marked c) :
    s'.Marked c ∨ v.Last ∧ ∃ r : Ref, r.ino = x ∧ s.ref L r = some c := by
  rw [h.core.exact.marked_iff] at hc
  rw [hd.sane.core.exact.marked_iff, fixed_congr hd.view.super]
  rcases hc with hc | ⟨r, hr⟩
  · exact .inl (.inl hc)
  by_cases hl : r.ino = x ∧ v.Last
  · exact .inr ⟨hl.2, r, hl.1, hr⟩
  obtain ⟨hL, hraw, h0⟩ := ref_eq_some.1 hr
  refine .inl (.inr ⟨r, ref_eq_some.2 ⟨⟨hL, hl⟩, ?_, h0⟩⟩)
  rw [← hraw]
  exact raw_congr (congrArg SfsInode.indirect (hd.view.inode r.ino ⟨hL, hl⟩))
    (hd.view.ptr r.ino ⟨hL, hl⟩)

section Root

variable (h : Whole s) (hv : s.vnode? rootIno = some v) (name : CString)
include h hv

/-- **`sfs_lookonce`.** A file that has a name has a link. -/
theorem wp_sfsLookonce :
    wp (sfsLookonce rootIno name)
      (fun p s' => s.dir.slot p.2 = some (name.bytes, p.1) ∧
        s.dir.lookup name.bytes = some p.1 ∧ Loaded s s' s.Live p.1)
      (fun e s' => e = .error .ENOENT ∧ s.dir.lookup name.bytes = none ∧ s' = s) s := by
  unfold sfsLookonce
  rw [wp_bind]
  refine wp_returns (wp_sfsDirFindname h.sane.core hv h.dirOk name) ?_
  rintro f s₁ ⟨hs₁, hf⟩
  have hlookup := hf.lookup_eq h.dirOk.unique
  rw [hs₁]
  cases hentry : f.entry with
  | none =>
    rw [hentry] at hlookup
    exact wp_fail.2 ⟨rfl, hlookup, rfl⟩
  | some p =>
    obtain ⟨k, file⟩ := p
    obtain ⟨-, hk⟩ := (hf.entry k file).1 hentry
    have hlive : s.Live file := live_of_slot hk
    rw [hentry] at hlookup
    rw [wp_bind]
    refine wp_returns (wp_sfsLoadvnode h.sane hlive) ?_
    intro _ s₂ hl
    obtain ⟨v', hv', -⟩ := hl.self
    have hlink : v'.i.linkcount ≠ 0 := by
      intro h0
      have hlinks := h.links file hlive
      have hcount := count_pos_iff.2 ⟨k, name.bytes, hk⟩
      rw [← hl.view.inode file hlive, inode_of_loaded hv', h0] at hlinks
      have : (0 : UInt16).toNat = 0 := rfl
      omega
    rw [wp_bind, wp_getVnode hv', wp_assert_bind hlink, wp_pure]
    exact ⟨hk, hlookup, hl⟩

/-- **`sfs_lookup`.** -/
theorem wp_sfsLookup :
    wp (sfsLookup rootIno name)
      (fun x s' => s.dir.lookup name.bytes = some x ∧ s'.dir = s.dir ∧ Whole s')
      (fun e s' => e = .error .ENOENT ∧ s.dir.lookup name.bytes = none ∧ s' = s) s := by
  have htype := h.dirOk.type
  rw [inode_of_loaded hv] at htype
  unfold sfsLookup
  rw [wp_bind, wp_getVnode hv, wp_bind, wp_failIf, if_neg (not_not.2 htype)]
  refine wp_then (wp_sfsLookonce h hv name) ?_
  rintro ⟨x, k⟩ s₁ ⟨hk, hlookup, hl⟩
  obtain ⟨hmid, hdir⟩ := h.loaded (live_of_slot hk) hl
  rw [wp_pure]
  refine ⟨hlookup, hdir, ?_⟩
  exact hmid.whole hdir

/-- How `sfs_creat` can fail. -/
def CreatError (d : Slots (List UInt8) UInt32) (name : List UInt8) (excl : Bool) (full : Prop)
    (e : Stop Errno) : Prop :=
  e = .error .EEXIST ∧ d.lookup name ≠ none ∧ excl = true ∨
    d.lookup name = none ∧ (e = .error .ENAMETOOLONG ∧ 59 < name.length ∨
      e = .error .ENOSPC ∧ full ∨ e = .error .EINVAL ∧ DirFull d)

/-- **`sfs_creat`.** -/
theorem wp_sfsCreat (excl : Bool) :
    wp (sfsCreat rootIno name excl)
      (fun x s' => Whole s' ∧ (s.dir.lookup name.bytes = some x ∧ excl = false ∧ s'.dir = s.dir ∨
        s.dir.lookup name.bytes = none ∧ name.bytes.length ≤ 59 ∧ ¬ s.Live x ∧
          ∃ k, s.dir.slot k = none ∧ s'.dir = s.dir.put k (name.bytes, x)))
      (fun e s' => Whole s' ∧ s'.dir = s.dir ∧
        CreatError s.dir name.bytes excl (∃ b, ∀ c ≠ b, s'.Marked c) e) s := by
  unfold sfsCreat
  rw [wp_bind]
  refine wp_returns (wp_sfsDirFindname h.sane.core hv h.dirOk name) ?_
  rintro f s₁ ⟨hs₁, hf⟩
  have hlookup := hf.lookup_eq h.dirOk.unique
  rw [hs₁]
  cases hentry : f.entry with
  | some p =>
    obtain ⟨k, file⟩ := p
    obtain ⟨-, hk⟩ := (hf.entry k file).1 hentry
    have hlive := live_of_slot hk
    rw [hentry] at hlookup
    rw [wp_bind, wp_failIf]
    split
    · rename_i hexcl
      refine ⟨h, rfl, .inl ⟨rfl, ?_, hexcl⟩⟩
      rw [hlookup]
      exact Option.some_ne_none _
    rename_i hexcl
    rw [wp_bind]
    refine wp_returns (wp_sfsLoadvnode h.sane hlive) ?_
    intro _ s₂ hl
    obtain ⟨hmid, hdir⟩ := h.loaded hlive hl
    rw [wp_pure]
    refine ⟨?_, .inl ⟨hlookup, by simpa using hexcl, hdir⟩⟩
    exact hmid.whole hdir
  | none =>
    rw [hentry] at hlookup
    refine wp_seq (wp_sfsMakeobj h.sane) ?_ ?_
    swap
    · rintro e s₂ ⟨rfl, rfl, hfull⟩
      exact ⟨h, rfl, .inr ⟨hlookup, .inr (.inl ⟨rfl, 0, fun c _ => hfull c⟩)⟩⟩
    intro b s₂ hm
    obtain ⟨hmid₂, hdir₂⟩ := h.made hm
    have hne : rootIno ≠ b := fun e => hm.fresh (e ▸ s.live_root)
    have hroot₂ : s₂.vnode? rootIno = some v := (hm.others _ hne).trans hv
    have hb0 : b ≠ 0 := hmid₂.sane.nonzero b (s₂.live_of_loaded hm.self)
    rw [wp_bind, wp_result]
    refine wp_mono (wp_sfsDirLink hmid₂.sane.core hroot₂ hmid₂.dirOk name hb0) ?_ ?_
    · rintro k s₃ ⟨-, hlen, hk, hd⟩
      have hself₃ : s₃.vnode? b = some (newVnode b) :=
        (hd.effect.others b hne.symm).trans hm.self
      have hmid₃ := hmid₂.put hm.self hk hd
      have hdir₃ : s₃.dir = s.dir.put k (name.bytes, b) := hd.dir.trans (by rw [hdir₂])
      rw [hdir₂] at hk
      obtain ⟨hwhole, hdir₄⟩ := hmid₃.link hself₃ hk hdir₃
      rw [wp_bind, wp_modifyVnode, wp_pure]
      exact ⟨hwhole, .inr ⟨hlookup, hlen, hm.fresh, k, hk, hdir₄.trans hdir₃⟩⟩
    · rintro e s₃ ⟨herr, hd⟩
      obtain ⟨err, rfl⟩ := herr.error
      have hmid₃ := hmid₂.kept hd
      have hdir₃ : s₃.dir = s.dir := hd.dir.trans hdir₂
      have hwhole₃ : Whole s₃ := by
        exact hmid₃.whole hdir₃
      have hself₃ : s₃.vnode? b = some (newVnode b) :=
        (hd.effect.others b hne.symm).trans hm.self
      dsimp only
      refine wp_seq (wp_vnodeDecref hwhole₃.sane hself₃ fun e => absurd e hne.symm) ?_ ?_
      swap
      · rintro e s₄ ⟨-, hle⟩
        have hone : (newVnode b).refcount = 1 := rfl
        omega
      intro _ s₄ hdrop
      obtain ⟨hwhole₄, hdir₄⟩ := hwhole₃.dropped hself₃ hdrop
      rw [wp_fail]
      refine ⟨hwhole₄, hdir₄.trans hdir₃, ?_⟩
      rw [hdir₂] at herr
      rcases herr with ⟨-, hsome⟩ | ⟨-, hlong | ⟨-, ⟨he, hfull⟩ | hdfull⟩⟩
      · exact absurd hlookup hsome
      · exact .inr ⟨hlookup, .inl hlong⟩
      · refine .inr ⟨hlookup, .inr (.inl ⟨he, b, fun c hc => ?_⟩)⟩
        rcases hdrop.marked hwhole₃.sane (hfull c) with hmarked | ⟨-, r, hr, href⟩
        · exact hmarked
        -- the new file has no blocks
        obtain ⟨-, hraw, h0⟩ := ref_eq_some.1 href
        have hinode := inode_of_loaded hself₃
        have hempty : s₃.NoBlocks b := ⟨fun k => by rw [hinode]; rfl, by rw [hinode]; rfl⟩
        refine absurd (hraw.symm.trans (hempty.raw_eq hr ?_)) h0
        rintro rfl
        exact hc hraw.symm
      · exact .inr ⟨hlookup, .inr (.inr hdfull)⟩

/-- **`sfs_link`.** -/
theorem wp_sfsLink (hw : s.vnode? x = some w) :
    wp (sfsLink rootIno name x)
      (fun _ s' => Whole s' ∧ s.dir.lookup name.bytes = none ∧ name.bytes.length ≤ 59 ∧
        ∃ k, s.dir.slot k = none ∧ s'.dir = s.dir.put k (name.bytes, x))
      (fun e s' => Whole s' ∧ s'.dir = s.dir ∧ LinkError s.dir name.bytes s'.Full e) s := by
  have hx0 : x ≠ 0 := h.sane.nonzero x (s.live_of_loaded hw)
  unfold sfsLink
  refine wp_seq (wp_sfsDirLink h.sane.core hv h.dirOk name hx0) ?_ ?_
  · rintro k s₁ ⟨hnone, hlen, hk, hd⟩
    have hmid := Mid.put h hw hk hd
    obtain ⟨w', hw'⟩ := (hd.effect.loaded_iff x).2 ⟨w, hw⟩
    obtain ⟨hwhole, hdir⟩ := hmid.link hw' hk hd.dir
    rw [wp_modifyVnode]
    exact ⟨hwhole, hnone, hlen, k, hk, hdir.trans hd.dir⟩
  · rintro e s₁ ⟨herr, hd⟩
    have hmid := Mid.kept h hd
    refine ⟨?_, hd.dir, herr⟩
    exact hmid.whole hd.dir

/-- **`sfs_remove`.** -/
theorem wp_sfsRemove :
    wp (sfsRemove rootIno name)
      (fun _ s' => Whole s' ∧ ∃ x k, s.dir.slot k = some (name.bytes, x) ∧
        s'.dir = s.dir.clear k)
      (fun e s' => e = .error .ENOENT ∧ s.dir.lookup name.bytes = none ∧ s' = s ∨
        e = .halt ∧ ¬ s.Tame) s := by
  unfold sfsRemove
  refine wp_seq (wp_sfsLookonce h hv name) ?_ fun _ _ he => .inl he
  rintro ⟨x, k⟩ s₁ ⟨hk, -, hl⟩
  obtain ⟨hmid₁, hdir₁⟩ := h.loaded (live_of_slot hk) hl
  obtain ⟨v₁, hv₁⟩ := hl.still hv
  obtain ⟨w₁, hw₁, -⟩ := hl.self
  have hk₁ : s₁.dir.slot k = some (name.bytes, x) := by rw [hdir₁]; exact hk
  rw [wp_bind, wp_result]
  refine wp_returns (wp_sfsDirUnlink hmid₁.sane.core hv₁ hmid₁.dirOk hk₁) ?_
  intro _ s₂ hd
  have hmid₂ := hmid₁.clear hw₁ hk₁ hd
  obtain ⟨w₂, hw₂, hrc₂⟩ := hd.effect.refcount hw₁
  have hdir₂ : s₂.dir = s.dir.clear k := hd.dir.trans (by rw [hdir₁])
  rw [wp_bind]
  refine wp_returns (wp_dropLink hmid₂ hw₂ hk hdir₂) ?_
  rintro _ s₃ ⟨hwhole₃, hdir₃, w₃, hw₃, hrc₃⟩
  refine wp_seq (wp_vnodeDecref hwhole₃.sane hw₃ (hwhole₃.linkcount_root hw₃)) ?_ ?_
  · intro _ s₄ hdrop
    obtain ⟨hwhole₄, hdir₄⟩ := hwhole₃.dropped hw₃ hdrop
    rw [wp_ofExcept]
    exact ⟨hwhole₄, x, k, hk, hdir₄.trans (hdir₃.trans hdir₂)⟩
  · rintro e s₄ ⟨rfl, hle⟩
    refine .inr ⟨rfl, fun ht => ?_⟩
    have hpos := hl.refcount_pos ht hw₁
    omega

/-- **`sfs_rename`.** -/
theorem wp_sfsRename (n1 n2 : CString) :
    wp (sfsRename rootIno n1 n2)
      (fun _ s' => Whole s' ∧ ∃ x k j, s.dir.slot k = some (n1.bytes, x) ∧
        s.dir.lookup n2.bytes = none ∧ n2.bytes.length ≤ 59 ∧ s.dir.slot j = none ∧
        s'.dir = (s.dir.put j (n2.bytes, x)).clear k)
      (fun e s' => e = .error .ENOENT ∧ s.dir.lookup n1.bytes = none ∧ s' = s ∨
        Whole s' ∧ s'.dir = s.dir ∧ s.dir.lookup n1.bytes ≠ none ∧
          LinkError s.dir n2.bytes s'.Full e ∨
        e = .halt ∧ (¬ s.Tame ∨ s.dir.lookup n1.bytes = some rootIno)) s := by
  unfold sfsRename
  rw [wp_assert_bind rfl]
  refine wp_seq (wp_sfsLookonce h hv n1) ?_ fun _ _ he => .inl he
  rintro ⟨x, k⟩ s₁ ⟨hk, hlookup, hl⟩
  dsimp only at hk hlookup hl ⊢
  have hx : s.Live x := live_of_slot hk
  obtain ⟨hmid₁, hdir₁⟩ := h.loaded hx hl
  obtain ⟨v₁, hv₁⟩ := hl.still hv
  obtain ⟨w₁, hw₁, -⟩ := hl.self
  have htype := hmid₁.sane.type x (s₁.live_of_loaded hw₁)
  rw [inode_of_loaded hw₁] at htype
  rw [wp_bind, wp_getVnode hw₁, wp_bind, wp_assert]
  split
  swap
  · rename_i hnot
    refine .inr (.inr ⟨rfl, .inr ?_⟩)
    by_cases hroot : x = rootIno
    · rw [hlookup, hroot]
    · rw [if_neg hroot] at htype
      exact absurd htype hnot
  rw [wp_bind, wp_result]
  have hx0 : x ≠ 0 := h.sane.nonzero x hx
  refine wp_mono (wp_sfsDirLink hmid₁.sane.core hv₁ hmid₁.dirOk n2 hx0) ?_ ?_
  · rintro j s₂ ⟨hnone, hlen, hj, hd⟩
    have hmid₂ := hmid₁.put hw₁ hj hd
    obtain ⟨w₂, hw₂, hrc₂⟩ := hd.effect.refcount hw₁
    obtain ⟨v₂, hv₂, -⟩ := hd.effect.refcount hv₁
    have hdir₂ : s₂.dir = s.dir.put j (n2.bytes, x) := hd.dir.trans (by rw [hdir₁])
    rw [hdir₁] at hj hnone
    obtain ⟨hwhole₃, hdir₃⟩ := hmid₂.link hw₂ hj hdir₂
    rw [wp_bind, wp_modifyVnode]
    let f : SfsVnode → SfsVnode := fun sv =>
      { sv with i := { sv.i with linkcount := sv.i.linkcount + 1 }, dirty := true }
    obtain ⟨w₃, hw₃, hrc₃⟩ := refcount_modifyVnode (f := f) (fun _ => rfl) (fun _ => rfl) x hw₂
    obtain ⟨v₃, hv₃, -⟩ := refcount_modifyVnode (f := f) (fun _ => rfl) (fun _ => rfl) x hv₂
    obtain ⟨s₃, hs₃⟩ : ∃ s₃, s₂.modifyVnode x f = s₃ := ⟨_, rfl⟩
    rw [hs₃] at hw₃ hv₃
    rw [show s₂.modifyVnode x _ = s₃ from hs₃] at hwhole₃ hdir₃ ⊢
    have hdir₃' : s₃.dir = s.dir.put j (n2.bytes, x) := hdir₃.trans hdir₂
    have hkj : k ≠ j := by
      rintro rfl
      rw [hk] at hj
      cases hj
    have hk₃ : s₃.dir.slot k = some (n1.bytes, x) := by
      rw [hdir₃', slot_put_eq_some, if_neg hkj]
      exact hk
    rw [wp_bind, wp_result]
    refine wp_returns (wp_sfsDirUnlink hwhole₃.sane.core hv₃ hwhole₃.dirOk hk₃) ?_
    intro _ s₄ hd₄
    have hmid₄ := hwhole₃.clear hw₃ hk₃ hd₄
    obtain ⟨w₄, hw₄, hrc₄⟩ := hd₄.effect.refcount hw₃
    rw [wp_bind]
    refine wp_returns (wp_dropLink hmid₄ hw₄ hk₃ hd₄.dir) ?_
    rintro _ s₅ ⟨hwhole₅, hdir₅, w₅, hw₅, hrc₅⟩
    refine wp_mono (wp_vnodeDecref hwhole₅.sane hw₅ (hwhole₅.linkcount_root hw₅)) ?_ ?_
    · intro _ s₆ hdrop
      obtain ⟨hwhole₆, hdir₆⟩ := hwhole₅.dropped hw₅ hdrop
      refine ⟨hwhole₆, x, k, j, hk, hnone, hlen, hj, ?_⟩
      rw [hdir₆, hdir₅, hd₄.dir, hdir₃']
    · rintro e s₆ ⟨rfl, hle⟩
      refine .inr (.inr ⟨rfl, .inl fun ht => ?_⟩)
      have hpos := hl.refcount_pos ht hw₁
      omega
  · rintro e s₂ ⟨herr, hd⟩
    obtain ⟨err, rfl⟩ := herr.error
    have hmid₂ := hmid₁.kept hd
    have hdir₂ : s₂.dir = s.dir := hd.dir.trans hdir₁
    have hwhole₂ : Whole s₂ := hmid₂.whole hdir₂
    obtain ⟨w₂, hw₂, hrc₂⟩ := hd.effect.refcount hw₁
    dsimp only
    refine wp_seq (wp_vnodeDecref hwhole₂.sane hw₂ (hwhole₂.linkcount_root hw₂)) ?_ ?_
    · intro _ s₃ hdrop
      obtain ⟨hwhole₃, hdir₃⟩ := hwhole₂.dropped hw₂ hdrop
      rw [wp_fail]
      refine .inr (.inl ⟨hwhole₃, hdir₃.trans hdir₂, by rw [hlookup]; exact Option.some_ne_none _,
        ?_⟩)
      rw [hdir₁] at herr
      refine herr.mono fun hfull c => ?_
      -- the file has a name still
      rcases hdrop.marked hwhole₂.sane (hfull c) with hmarked | ⟨hlast, -⟩
      · exact hmarked
      · have hlinks := hwhole₂.links x (s₂.live_of_loaded hw₂)
        have hcount := count_pos_iff.2 ⟨k, n1.bytes, hk⟩
        rw [inode_of_loaded hw₂, hlast.2, hdir₂] at hlinks
        have : (0 : UInt16).toNat = 0 := rfl
        omega
    · rintro e s₃ ⟨rfl, hle⟩
      refine .inr (.inr ⟨rfl, .inl fun ht => ?_⟩)
      have hpos := hl.refcount_pos ht hw₁
      omega

end Root

end Fs

end Os161
