import Os161.Fs.Model.Vfs
import Os161.Fs.Reachable
import Os161.Fs.Quiet
/-!
# What the slots of the directory name

`sfs_link` writes a slot for whatever vnode it is given. A path that is only the
name of a device leads to the root directory, so `vfs_link` can give the root
directory a name in itself, and `sfs_rename` of that name fails its assertion.
No other call does: as long as no link to the directory is made, every used slot
names a regular file.
-/

namespace Os161

namespace Fs

open Prog Slots

variable {s s' : Sfs} {x : UInt32} {v : SfsVnode} {out : Outside}

/-- **Every used slot of the directory refers to a regular file.** -/
def Sfs.NamesFiles (s : Sfs) : Prop :=
  ∀ k name x, s.dir.slot k = some (name, x) → (s.inode x).type = typeFile

/-- The assertion of `sfs_rename` on the type of the file that it has looked up. -/
def Sfs.RenamePasses (s : Sfs) : Prop :=
  ∀ n1 g1 slot1 s₁ sv, sfsLookonce rootIno n1 s = .ok (g1, slot1) s₁ →
    s₁.vnode? g1 = some sv → sv.i.type = typeFile

/-- **The call makes a link to the directory**: the old path of a `vfs_link` leads
to the root, which is the only directory, and the call returns 0. -/
def LinksDir (s : Sfs) (call : Outside × VfsOp) : Prop :=
  ∃ oldpath newpath s₁ s', call.2 = .link oldpath newpath ∧
    vfsLookup call.1 oldpath s = .ok (.ours rootIno) s₁ ∧
    vfsLink call.1 oldpath newpath s = .ok () s'

/-! ## The invariant -/

/-- A whole file system in which the root has no name. -/
structure OnlyFiles (s : Sfs) : Prop where
  whole : Whole s
  nameless : ∀ k name, s.dir.slot k ≠ some (name, rootIno)

/-- A file system that is whole and without a name for the root, or a dull one. -/
def Filed (s : Sfs) : Prop := OnlyFiles s ∨ s.Fresh ∧ Dull s

theorem Whole.namesFiles_iff (h : Whole s) :
    s.NamesFiles ↔ ∀ k name, s.dir.slot k ≠ some (name, rootIno) := by
  constructor
  · intro hfiles k name hk
    have htype := h.sane.type rootIno s.live_root
    rw [if_pos rfl, hfiles k name rootIno hk] at htype
    exact absurd htype (by decide)
  · intro hno k name x hk
    have hx : x ≠ rootIno := fun hx => hno k name (hx ▸ hk)
    rw [h.sane.type x (Sfs.live_of_slot hk), if_neg hx]

theorem Filed.namesFiles (h : Filed s) : s.NamesFiles := by
  rcases h with h | ⟨hfresh, -⟩
  · exact h.whole.namesFiles_iff.2 h.nameless
  · obtain ⟨n, d, hm, himage, -⟩ := hfresh.cases
    intro k name x hk
    have hlt := lt_size hk
    rw [hm.dir_size himage] at hlt
    exact absurd hlt (Nat.not_lt_zero k)

theorem Filed.renamePasses (h : Filed s) : s.RenamePasses := by
  intro n1 g1 slot1 s₁ sv hr hsv
  cases hv : s.vnode? rootIno with
  | none =>
    have hwp : wp (sfsLookonce rootIno n1) (fun _ _ => False) (fun _ _ => True) s := by
      unfold sfsLookonce sfsDirFindname sfsDirNentries
      rw [wp_bind, wp_bind, wp_bind]
      exact (wp_getVnode_none hv).2 trivial
    exact ((wp_of_ok hr).1 hwp).elim
  | some v =>
    rcases h with h | ⟨-, hd⟩
    · obtain ⟨hk, -, hl⟩ := (wp_of_ok hr).1 (wp_sfsLookonce h.whole hv n1)
      have hlive := Sfs.live_of_slot hk
      have hne : g1 ≠ rootIno := fun hne => h.nameless slot1 n1.bytes (hne ▸ hk)
      rw [← Sfs.inode_of_loaded hsv, hl.view.inode g1 hlive, h.whole.sane.type g1 hlive, if_neg hne]
    · rw [hd.vnode?_eq] at hv
      cases hv

/-! ## The operations of a vnode -/

theorem Idle.returns {α : Type} {p : Prog Sfs Errno α} (hp : Idle p s) (h : Filed s) :
    wp p (fun _ s' => Filed s') (OnError Filed) s := by
  refine wp_mono hp (fun _ s₁ hs => ?_) ?_
  · rw [hs]
    exact h
  · rintro e s₁ rfl
    exact OnError.halt

/-- The directory is left as it is. -/
theorem OnlyFiles.kept (h : OnlyFiles s) (hw : Whole s') (hdir : s'.dir = s.dir) : OnlyFiles s' :=
  ⟨hw, fun k name => by rw [hdir]; exact h.nameless k name⟩

/-- What does nothing to a dull file system and leaves the directory alone. -/
theorem returns_of_keepsDir {α : Type} {p : Prog Sfs Errno α} (hdull : ∀ s, Dull s → Idle p s)
    (hdir : ∀ s, Whole s → KeepsDir p s) : Returns Filed p := by
  rintro s (h | hd)
  · have hkeep : ∀ s', Whole s' ∧ s'.dir = s.dir → Filed s' := by
      rintro s' ⟨hw, he⟩
      exact .inl (h.kept hw he)
    exact wp_mono (hdir s h.whole) (fun _ s' hs => hkeep s' hs) fun e s' hs herr =>
      hkeep s' (hs herr)
  · exact (hdull s hd.2).returns (.inr hd)

theorem returns_getroot : Returns Filed sfsGetroot :=
  returns_of_keepsDir (fun _ hd => hd.idle_getroot) fun _ h => keepsDir_getroot h

theorem returns_incref (vn : Vn) : Returns Filed vn.incref := by
  cases vn with
  | ours v =>
    exact returns_of_keepsDir (fun _ hd => hd.idle_getVnode _ v) fun _ h => keepsDir_incref h
  | other => exact .pure

theorem returns_decref (vn : Vn) : Returns Filed vn.decref := by
  cases vn with
  | ours v =>
    exact returns_of_keepsDir (fun _ hd => hd.idle_getVnode _ v) fun _ h => keepsDir_decref h
  | other => exact .pure

theorem returns_lookup (vn : Vn) (path : CString) : Returns Filed (vn.lookup out path) := by
  cases vn with
  | ours v =>
    refine .bind (returns_of_keepsDir (fun _ hd => hd.idle_getVnode _ v) fun _ h => ?_)
      fun _ => .pure
    exact keepsDir_lookup h path
  | other => exact .bind (.ofExcept _) fun _ => .pure

theorem keepsDir_lookparent (h : Whole s) (path : CString) (buflen : ℕ) :
    KeepsDir (vop .dir x (sfsLookparent x path buflen)) s := by
  refine wp_vop_dir h.sane (fun _ => ⟨h, rfl⟩) (fun _ => ⟨h, rfl⟩) fun v hv hx => ?_
  rw [hx]
  unfold sfsLookparent
  rw [wp_bind, wp_getVnode hv, wp_bind, wp_failIf]
  split
  · exact fun _ => ⟨h, rfl⟩
  rw [wp_bind, wp_failIf]
  split
  · exact fun _ => ⟨h, rfl⟩
  rw [wp_bind]
  exact wp_returns (wp_vnodeIncref_dir h hv) fun _ _ hw => wp_pure.2 hw

theorem returns_vnLookparent (vn : Vn) (path : CString) (buflen : ℕ) :
    Returns Filed (vn.lookparent out path buflen) := by
  cases vn with
  | ours v =>
    refine .bind (returns_of_keepsDir (fun _ hd => hd.idle_getVnode _ v) fun _ h => ?_)
      fun _ => .pure
    exact keepsDir_lookparent h path buflen
  | other => exact .bind (.ofExcept _) fun _ => .pure

theorem returns_truncate (vn : Vn) (len : ℤ) : Returns Filed (vn.truncate out len) := by
  cases vn with
  | ours v =>
    exact returns_of_keepsDir (fun _ hd => hd.idle_getVnode _ v) fun _ h => keepsDir_truncate h len
  | other => exact .ofExcept _

theorem returns_decopen (vn : Vn) : Returns Filed (vn.decopen out) := by
  cases vn with
  | ours v =>
    refine .ite (.bind (.result ?_) fun _ => .pure) .pure
    exact returns_of_keepsDir (fun _ hd => hd.idle_getVnode _ v) fun _ h => keepsDir_fsync h
  | other => exact .pure

theorem returns_open (vn : Vn) (openflags : UInt32) : Returns Filed (vn.open out openflags) := by
  cases vn with
  | ours v =>
    refine .bind (returns_getVnode v) fun sv => ?_
    cases sv.ops with
    | file => exact .failIf _ _
    | dir => exact .bind (.failIf _ _) fun _ => .failIf _ _
  | other => exact .ofExcept _

/-- A slot is written, but not for the root. -/
theorem OnlyFiles.put {k : ℕ} {name : List UInt8} (h : OnlyFiles s) (hw : Whole s')
    (hx : x ≠ rootIno) (hdir : s'.dir = s.dir.put k (name, x)) : OnlyFiles s' := by
  refine ⟨hw, fun j n hj => ?_⟩
  rw [hdir, slot_put_eq_some] at hj
  split at hj
  · cases hj
    exact hx rfl
  · exact h.nameless j n hj

theorem returns_creat (vn : Vn) (name : CString) (excl : Bool) :
    Returns Filed (vn.creat out name excl) := by
  cases vn with
  | ours d =>
    refine .bind ?_ fun _ => .pure
    rintro s (h | hd)
    · refine wp_vop_dir h.whole.sane (fun _ => .inl h) (fun _ => .inl h) fun v hv hd => ?_
      rw [hd]
      refine wp_mono (wp_sfsCreat h.whole hv name excl) ?_ ?_
      · rintro x s' ⟨hw, ⟨-, -, hdir⟩ | ⟨-, -, hnew, k, -, hdir⟩⟩
        · exact .inl (h.kept hw hdir)
        · have hx : x ≠ rootIno := by
            rintro rfl
            exact hnew s.live_root
          exact .inl (h.put hw hx hdir)
      · rintro e s' ⟨hw, hdir, -⟩ -
        exact .inl (h.kept hw hdir)
    · exact (hd.2.idle_getVnode _ d).returns (.inr hd)
  | other => exact .bind (.ofExcept _) fun _ => .pure

/-- A slot is cleared. -/
theorem OnlyFiles.clear {k : ℕ} (h : OnlyFiles s) (hw : Whole s')
    (hdir : s'.dir = s.dir.clear k) : OnlyFiles s' := by
  refine ⟨hw, fun j n hj => ?_⟩
  rw [hdir, slot_clear_eq_some] at hj
  exact h.nameless j n hj.2

theorem returns_remove (vn : Vn) (name : CString) : Returns Filed (vn.remove out name) := by
  cases vn with
  | ours d =>
    rintro s (h | hd)
    · refine wp_vop_dir h.whole.sane (fun _ => .inl h) (fun _ => .inl h) fun v hv hd => ?_
      rw [hd]
      refine wp_mono (wp_sfsRemove h.whole hv name) ?_ ?_
      · rintro _ s' ⟨hw, x, k, -, hdir⟩
        exact .inl (h.clear hw hdir)
      · rintro e s' (⟨-, -, rfl⟩ | ⟨rfl, -⟩) ⟨err, he⟩
        · exact .inl h
        · cases he
    · exact (hd.2.idle_getVnode _ d).returns (.inr hd)
  | other => exact .ofExcept _

/-- A slot takes the place of another one. -/
theorem OnlyFiles.moved {j k : ℕ} {n1 n2 : List UInt8} (h : OnlyFiles s) (hw : Whole s')
    (hk : s.dir.slot k = some (n1, x)) (hdir : s'.dir = (s.dir.put j (n2, x)).clear k) :
    OnlyFiles s' := by
  have hx : x ≠ rootIno := by
    rintro rfl
    exact h.nameless k n1 hk
  refine ⟨hw, fun i n hi => ?_⟩
  rw [hdir, slot_clear_eq_some, slot_put_eq_some] at hi
  obtain ⟨-, hi⟩ := hi
  split at hi
  · cases hi
    exact hx rfl
  · exact h.nameless i n hi

theorem returns_rename (olddir newdir : Vn) (oldname newname : CString) :
    Returns Filed (olddir.rename out oldname newdir newname) := by
  cases olddir with
  | ours d1 =>
    cases newdir with
    | ours d2 =>
      rintro s (h | hd)
      · refine wp_vop_dir h.whole.sane (fun _ => .inl h) (fun _ => .inl h) fun v hv hd => ?_
        rw [wp_bind, wp_assert, hd]
        split
        · refine wp_mono (wp_sfsRename h.whole hv oldname newname) ?_ ?_
          · rintro _ s' ⟨hw, x, k, j, hk, -, -, -, hdir⟩
            exact .inl (h.moved hw hk hdir)
          · rintro e s' (⟨-, -, rfl⟩ | ⟨hw, hdir, -⟩ | ⟨rfl, -⟩) ⟨err, he⟩
            · exact .inl h
            · exact .inl (h.kept hw hdir)
            · cases he
        · exact fun _ => .inl h
      · exact (hd.2.idle_getVnode _ d1).returns (.inr hd)
    | other => exact .fail
  | other =>
    cases newdir with
    | ours d2 => exact .fail
    | other => exact .ofExcept _

/-- A whole file system in which the root has a name. -/
def RootNamed (s : Sfs) : Prop := Whole s ∧ ∃ k name, s.dir.slot k = some (name, rootIno)

theorem RootNamed.not_namesFiles (h : RootNamed s) : ¬ s.NamesFiles := by
  obtain ⟨hw, k, name, hk⟩ := h
  exact fun hfiles => hw.namesFiles_iff.1 hfiles k name hk

/-- **`VOP_LINK`**: the slot names the vnode, whatever it is. -/
theorem wp_vnLink (h : Filed s) (newdir : Vn) (name : CString) (oldfile : Vn) :
    wp (newdir.link out name oldfile)
      (fun _ s' => if oldfile = .ours rootIno then RootNamed s' else Filed s')
      (OnError Filed) s := by
  cases newdir with
  | ours d =>
    cases oldfile with
    | ours x =>
      unfold Vn.link vopLink
      rw [wp_bind]
      cases hx : s.vnode? x with
      | none => exact (wp_getVnode_none hx).2 fun _ => h
      | some w =>
        rw [wp_getVnode hx]
        rcases h with h | hd
        · refine wp_vop_dir h.whole.sane (fun _ => .inl h) (fun _ => .inl h) fun v hv hd => ?_
          rw [hd]
          refine wp_mono (wp_sfsLink h.whole hv name hx) ?_ ?_
          · rintro _ s' ⟨hw, -, -, k, -, hdir⟩
            by_cases hroot : x = rootIno
            · rw [if_pos (by rw [hroot])]
              refine ⟨hw, k, name.bytes, ?_⟩
              rw [hdir, slot_put_eq_some, if_pos rfl, hroot]
            · rw [if_neg fun he => hroot (Vn.ours.inj he)]
              exact .inl (h.put hw hroot hdir)
          · rintro e s' ⟨hw, hdir, -⟩ -
            exact .inl (h.kept hw hdir)
        · rw [hd.2.vnode?_eq] at hx
          cases hx
    | other => exact wp_fail.2 fun _ => h
  | other =>
    cases oldfile with
    | ours x => exact wp_fail.2 fun _ => h
    | other =>
      refine wp_imp (Returns.ofExcept _ s h) fun _ s' hs => ?_
      exact hs

theorem returns_link {oldfile : Vn} (hne : oldfile ≠ .ours rootIno) (newdir : Vn)
    (name : CString) : Returns Filed (newdir.link out name oldfile) := by
  intro s hs
  refine wp_imp (wp_vnLink hs newdir name oldfile) fun _ s' h => ?_
  rwa [if_neg hne] at h

/-- A reference that is dropped takes no name away. -/
theorem wp_decref_rootNamed (h : RootNamed s) (vn : Vn) :
    wp vn.decref (fun _ s' => RootNamed s') (fun e _ => e = .halt) s := by
  obtain ⟨hw, k, name, hk⟩ := h
  cases vn with
  | ours x =>
    cases hv : s.vnode? x with
    | none =>
      unfold Vn.decref vnodeDecref
      rw [wp_bind]
      exact (wp_getVnode_none hv).2 rfl
    | some v =>
      refine wp_mono (wp_vnodeDecref hw.sane hv (hw.linkcount_root hv)) ?_ fun _ _ he => he.1
      intro _ s' hd
      obtain ⟨hw', hdir⟩ := hw.dropped hv hd
      exact ⟨hw', k, name, by rw [hdir]; exact hk⟩
  | other => exact wp_pure.2 ⟨hw, k, name, hk⟩

/-! ## Paths -/

theorem returns_getcurdir : Returns Filed (vfsGetcurdir out) := by
  unfold vfsGetcurdir
  cases out.cwd with
  | none => exact .fail
  | some vn => exact .bind (returns_incref vn) fun _ => .pure

theorem returns_fsopGetroot (vn : Vn) : Returns Filed (fsopGetroot vn) := by
  cases vn with
  | ours v => exact .bind returns_getroot fun _ => .pure
  | other => exact .pure

theorem returns_vfsGetroot (devname : List UInt8) : Returns Filed (vfsGetroot out devname) := by
  refine .bind (.ofExcept _) fun here => ?_
  exact .ite (.bind returns_getroot fun _ => .pure) .pure

theorem returns_getdevice (path : CString) : Returns Filed (getdevice out path) := by
  refine .ite ?_ (.ite ?_ (.ite ?_ ?_))
  · exact .bind returns_getcurdir fun _ => .pure
  · exact .bind (returns_vfsGetroot _) fun _ => .pure
  · cases out.bootfs with
    | none => exact .fail
    | some vn => exact .bind (returns_incref vn) fun _ => .pure
  · refine .bind returns_getcurdir fun vn => ?_
    refine .bind (returns_fsopGetroot vn) fun root => ?_
    exact .bind (returns_decref vn) fun _ => .pure

theorem returns_vfsLookparent (path : CString) : Returns Filed (vfsLookparent out path) := by
  refine .bind (returns_getdevice path) fun ⟨startvn, path⟩ => ?_
  refine .bind (.ite .pure (.result (returns_vnLookparent startvn path 256))) fun result => ?_
  exact .bind (returns_decref startvn) fun _ => .ofExcept result

theorem returns_vfsLookup (path : CString) : Returns Filed (vfsLookup out path) := by
  refine .bind (returns_getdevice path) fun ⟨startvn, path⟩ => ?_
  refine .ite .pure ?_
  refine .bind (.result (returns_lookup startvn path)) fun result => ?_
  exact .bind (returns_decref startvn) fun _ => .ofExcept result

/-! ## Calls -/

theorem returns_vfsOpenVnode (vn : Vn) (openflags : UInt32) :
    Returns Filed (vfsOpenVnode out vn openflags) := by
  refine .bind (.result (returns_open vn openflags)) fun result => ?_
  cases result with
  | error e => exact .bind (returns_decref vn) fun _ => .fail
  | ok _ =>
    refine .bind (.ite .pure (.ite .pure (.result (returns_truncate vn 0)))) fun result => ?_
    cases result with
    | error e =>
      exact .bind (returns_decopen vn) fun _ => .bind (returns_decref vn) fun _ => .fail
    | ok _ => exact .pure

theorem returns_vfsCreat (path : CString) (excl : Bool) :
    Returns Filed (vfsCreat out path excl) := by
  refine .bind (returns_vfsLookparent path) fun ⟨dir, name⟩ => ?_
  refine .bind (.result (returns_creat dir name excl)) fun result => ?_
  exact .bind (returns_decref dir) fun _ => .ofExcept result

theorem returns_vfsOpen (path : CString) (openflags : UInt32) :
    Returns Filed (vfsOpen out path openflags) := by
  refine .bind (.failIf _ _) fun _ => ?_
  refine .bind (.ite (returns_vfsCreat path _) (returns_vfsLookup path)) fun vn => ?_
  exact .bind (returns_vfsOpenVnode vn openflags) fun _ => .pure

theorem returns_vfsRemove (path : CString) : Returns Filed (vfsRemove out path) := by
  refine .bind (returns_vfsLookparent path) fun ⟨dir, name⟩ => ?_
  refine .bind (.result (returns_remove dir name)) fun result => ?_
  exact .bind (returns_decref dir) fun _ => .ofExcept result

theorem returns_vfsRename (oldpath newpath : CString) :
    Returns Filed (vfsRename out oldpath newpath) := by
  refine .bind (returns_vfsLookparent oldpath) fun ⟨olddir, oldname⟩ => ?_
  refine .bind (.result (returns_vfsLookparent newpath)) fun result => ?_
  cases result with
  | error e => exact .bind (returns_decref olddir) fun _ => .fail
  | ok p =>
    obtain ⟨newdir, newname⟩ := p
    refine .bind (.result (returns_rename olddir newdir oldname newname)) fun result => ?_
    exact .bind (returns_decref newdir) fun _ => .bind (returns_decref olddir) fun _ =>
      .ofExcept result

/-- A link to something else than the root. -/
theorem returns_vfsLinkVnode {oldfile : Vn} (hne : oldfile ≠ .ours rootIno) (newpath : CString) :
    Returns Filed (vfsLinkVnode out oldfile newpath) := by
  refine .bind (.result (returns_vfsLookparent newpath)) fun result => ?_
  cases result with
  | error e => exact .bind (returns_decref oldfile) fun _ => .fail
  | ok p =>
    obtain ⟨newdir, newname⟩ := p
    refine .bind (.result (returns_link hne newdir newname)) fun result => ?_
    exact .bind (returns_decref newdir) fun _ => .bind (returns_decref oldfile) fun _ =>
      .ofExcept result

/-- **A link to the root**: if it is made the root has a name. -/
theorem wp_vfsLinkVnode_root (h : Filed s) (newpath : CString) :
    wp (vfsLinkVnode out (.ours rootIno) newpath) (fun _ s' => RootNamed s') (OnError Filed) s := by
  unfold vfsLinkVnode
  refine wp_then ((returns_vfsLookparent newpath).result s h) fun result s₁ h₁ => ?_
  cases result with
  | error e =>
    exact wp_then (returns_decref _ s₁ h₁) fun _ s₂ h₂ => wp_fail.2 fun _ => h₂
  | ok p =>
    obtain ⟨newdir, newname⟩ := p
    rw [wp_bind, wp_result]
    refine wp_mono (wp_vnLink h₁ newdir newname (.ours rootIno)) (fun _ s₂ h₂ => ?_)
      fun e s₂ he => ?_
    · have hhalt : ∀ (e : Stop Errno) (s' : Sfs), e = .halt →
          (∃ err, e = .error err) → Filed s' := by
        rintro e s' rfl
        exact OnError.halt
      refine wp_seq (wp_decref_rootNamed h₂ newdir) (fun _ s₃ h₃ => ?_) hhalt
      exact wp_seq (wp_decref_rootNamed h₃ _) (fun _ s₄ h₄ => wp_ofExcept.2 h₄) hhalt
    · cases e with
      | error err =>
        have h₂ := he ⟨err, rfl⟩
        dsimp only
        refine wp_then (returns_decref newdir s₂ h₂) fun _ s₃ h₃ => ?_
        exact wp_then (returns_decref _ s₃ h₃) fun _ s₄ h₄ => wp_ofExcept.2 fun _ => h₄
      | longjmp | halt => exact he

/-- **Every call but a link to the directory keeps the invariant.** -/
theorem returns_run {op : VfsOp} (hop : ∀ oldpath newpath, op ≠ .link oldpath newpath) :
    Returns Filed (op.run out) := by
  cases op with
  | «open» path openflags => exact .bind (returns_vfsOpen path openflags) fun _ => .pure
  | close vn => exact .bind (returns_decopen vn) fun _ => returns_decref vn
  | link oldpath newpath => exact absurd rfl (hop oldpath newpath)
  | remove path => exact returns_vfsRemove path
  | rename oldpath newpath => exact returns_vfsRename oldpath newpath

/-- A call that comes back has returned 0 or an error. -/
theorem Sfs.vfsStep_cases {call : Outside × VfsOp} (hs : s.vfsStep call = some s') :
    call.2.run call.1 s = .ok () s' ∨ ∃ e, call.2.run call.1 s = .error (.error e) s' := by
  unfold Sfs.vfsStep at hs
  cases hr : call.2.run call.1 s with
  | ok _ s₁ =>
    rw [hr] at hs
    cases hs
    exact .inl rfl
  | error e s₁ =>
    rw [hr] at hs
    cases e with
    | error err =>
      cases hs
      exact .inr ⟨err, rfl⟩
    | longjmp | halt => cases hs

/-- **`vfs_link` that returns 0.** -/
theorem Filed.linked {oldpath newpath : CString} (h : Filed s)
    (hr : vfsLink out oldpath newpath s = .ok () s') :
    LinksDir s (out, .link oldpath newpath) ∧ RootNamed s' ∨
      ¬ LinksDir s (out, .link oldpath newpath) ∧ Filed s' := by
  obtain ⟨oldfile, s₁, hlookup, hrest⟩ := bind_eq_ok.1 hr
  have h₁ := (returns_vfsLookup oldpath).of_ok h hlookup
  by_cases hroot : oldfile = .ours rootIno
  · rw [hroot] at hlookup hrest
    exact .inl ⟨⟨oldpath, newpath, s₁, s', rfl, hlookup, hr⟩,
      (wp_of_ok hrest).1 (wp_vfsLinkVnode_root h₁ newpath)⟩
  · refine .inr ⟨?_, (returns_vfsLinkVnode hroot newpath).of_ok h₁ hrest⟩
    rintro ⟨_, _, s₂, _, hcall, hlookup', -⟩
    cases hcall
    rw [hlookup] at hlookup'
    cases hlookup'
    exact hroot rfl

/-- `vfs_link` that returns an error has not made the link. -/
theorem Filed.not_linked {oldpath newpath : CString} {e : Errno} (h : Filed s)
    (hr : vfsLink out oldpath newpath s = .error (.error e) s') :
    ¬ LinksDir s (out, .link oldpath newpath) ∧ Filed s' := by
  refine ⟨?_, ?_⟩
  · rintro ⟨_, _, _, _, hcall, -, hok⟩
    cases hcall
    rw [hr] at hok
    cases hok
  · rcases bind_eq_error.1 hr with hlookup | ⟨oldfile, s₁, hlookup, hrest⟩
    · exact (returns_vfsLookup oldpath).of_error h hlookup
    · have h₁ := (returns_vfsLookup oldpath).of_ok h hlookup
      by_cases hroot : oldfile = .ours rootIno
      · rw [hroot] at hrest
        exact (wp_of_error hrest).1 (wp_vfsLinkVnode_root h₁ newpath) ⟨e, rfl⟩
      · exact (returns_vfsLinkVnode hroot newpath).of_error h₁ hrest

/-- **What a call leaves behind.** -/
theorem Filed.step {call : Outside × VfsOp} (h : Filed s) (hs : s.vfsStep call = some s') :
    LinksDir s call ∧ RootNamed s' ∨ ¬ LinksDir s call ∧ Filed s' := by
  obtain ⟨out, op⟩ := call
  by_cases hop : ∃ oldpath newpath, op = .link oldpath newpath
  · obtain ⟨oldpath, newpath, rfl⟩ := hop
    rcases Sfs.vfsStep_cases hs with hr | ⟨e, hr⟩
    · exact h.linked hr
    · exact .inr (h.not_linked hr)
  · have hne : ∀ oldpath newpath, op ≠ .link oldpath newpath :=
      fun oldpath newpath he => hop ⟨oldpath, newpath, he⟩
    refine .inr ⟨fun ⟨oldpath, newpath, _, _, hlink, _⟩ => hne oldpath newpath hlink, ?_⟩
    rcases Sfs.vfsStep_cases hs with hr | ⟨e, hr⟩
    · exact (returns_run hne).of_ok h hr
    · exact (returns_run hne).of_error h hr

theorem Sfs.Fresh.filed (h : s.Fresh) : Filed s := by
  obtain ⟨n, d, hm, himage, -, ⟨-, hw⟩ | ⟨-, hd⟩⟩ := h.cases
  · refine .inl ⟨hw, fun k name hk => ?_⟩
    have hlt := lt_size hk
    rw [hm.dir_size himage] at hlt
    exact absurd hlt (Nat.not_lt_zero k)
  · exact .inr ⟨h, hd⟩

/-- **The slots name regular files as long as no call makes a link to the
directory**, and the first call that does makes a slot that does not. -/
theorem slots_name_files_iff (s₀ s : Sfs) (h₀ : s₀.Fresh)
    (hr : Runs.Reachable Sfs.vfsStep (fun s call => ¬ LinksDir s call) s₀ s) :
    s.NamesFiles ∧ s.RenamePasses ∧
      ∀ call s', s.vfsStep call = some s' → (s'.NamesFiles ↔ ¬ LinksDir s call) := by
  have hfiled : Filed s := by
    refine hr.invariant (I := Filed) h₀.filed ?_
    rintro s call s' h hnot hs
    rcases h.step hs with ⟨hlinks, -⟩ | ⟨-, h'⟩
    · exact absurd hlinks hnot
    · exact h'
  refine ⟨hfiled.namesFiles, hfiled.renamePasses, fun call s' hs => ?_⟩
  rcases hfiled.step hs with ⟨hlinks, hnamed⟩ | ⟨hnot, h'⟩
  · exact ⟨fun hfiles => absurd hfiles hnamed.not_namesFiles, fun hnot => absurd hlinks hnot⟩
  · exact ⟨fun _ => hnot, fun _ => h'.namesFiles⟩

/-! ## A file system on device `a` -/

/-- A kernel in which every device name leads to this file system. -/
def onlyOurs : Outside where
  getroot _ := .ok true
  cwd := none
  bootfs := none
  lookup _ := .error .ENOENT
  lookparent _ := .error .ENOENT
  vop _ := .error .ENOSYS
  lastOpen := true

/-- The path `a:`. -/
def deviceA : CString := ⟨[97, 58], by decide⟩

/-- The path `a:`, with a name of one letter. -/
def onDeviceA (c : UInt8) (hc : c ≠ 0) : CString :=
  ⟨[97, 58, c], by simpa using hc.symm⟩

/-- A file is created, and then a link to the directory is made. -/
theorem slots_name_files_create :
    ∃ s₀ s₁ s₂ : Sfs, s₀.Fresh ∧
      s₀.vfsStep (onlyOurs, .open (onDeviceA 102 (by decide)) 6) = some s₁ ∧
      s₁.vfsStep (onlyOurs, .link deviceA (onDeviceA 100 (by decide))) = some s₂ ∧
      s₁.NamesFiles ∧ s₁.RenamePasses ∧
      (s₂.NamesFiles ↔ ¬ LinksDir s₁ (onlyOurs, .link deviceA (onDeviceA 100 (by decide)))) := by
  have hsee : (makeVolume ⟨[100], by decide⟩ 4096).elim false (fun s₀ =>
      (s₀.vfsStep (onlyOurs, .open (onDeviceA 102 (by decide)) 6)).elim false fun s₁ =>
        (s₁.vfsStep (onlyOurs, .link deviceA (onDeviceA 100 (by decide)))).elim false
          fun _ => true) = true := by decide +kernel
  obtain ⟨s₀, hs₀, h⟩ := exists_of_elim hsee
  obtain ⟨s₁, hs₁, h⟩ := exists_of_elim h
  obtain ⟨s₂, hs₂, -⟩ := exists_of_elim h
  have hfresh := fresh_of_makeVolume hs₀
  have hrun : Runs.Reachable Sfs.vfsStep (fun s call => ¬ LinksDir s call) s₀ s₁ := by
    refine .tail .refl ?_ hs₁
    rintro ⟨_, _, _, _, hcall, -⟩
    cases hcall
  obtain ⟨hfiles, hrename, hiff⟩ := slots_name_files_iff s₀ s₁ hfresh hrun
  exact ⟨s₀, s₁, s₂, hfresh, hs₁, hs₂, hfiles, hrename, hiff _ s₂ hs₂⟩

/-- **The root directory gets a name in itself**: a link from `a:` to `a:d`. The
slot names a directory, and a rename of `a:d` panics. -/
theorem root_linked :
    ∃ s₀ s₁ : Sfs, s₀.Fresh ∧
      s₀.vfsStep (onlyOurs, .link deviceA (onDeviceA 100 (by decide))) = some s₁ ∧
      s₁.dir.slot 0 = some ([100], rootIno) ∧ (s₁.inode rootIno).type = typeDir ∧
      ¬ s₁.NamesFiles ∧
      s₁.vfsStep (onlyOurs,
        .rename (onDeviceA 100 (by decide)) (onDeviceA 101 (by decide))) = none := by
  have hsee : (makeVolume ⟨[100], by decide⟩ 4096).elim false (fun s₀ =>
      (s₀.vfsStep (onlyOurs, .link deviceA (onDeviceA 100 (by decide)))).elim false fun s₁ =>
        decide (s₁.dir.slot 0 = some ([100], rootIno) ∧ (s₁.inode rootIno).type = typeDir ∧
          (s₁.vfsStep (onlyOurs,
            .rename (onDeviceA 100 (by decide)) (onDeviceA 101 (by decide)))).isNone = true)) =
      true := by decide +kernel
  obtain ⟨s₀, hs₀, h⟩ := exists_of_elim hsee
  obtain ⟨s₁, hs₁, h⟩ := exists_of_elim h
  obtain ⟨hslot, htype, hrename⟩ := of_decide_eq_true h
  refine ⟨s₀, s₁, fresh_of_makeVolume hs₀, hs₁, hslot, htype, fun hfiles => ?_,
    Option.isNone_iff_eq_none.1 hrename⟩
  have hfile := hfiles 0 [100] rootIno hslot
  rw [htype] at hfile
  exact absurd hfile (by decide)

end Fs

end Os161
