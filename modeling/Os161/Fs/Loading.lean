import Os161.Fs.Model.Loading
import Os161.Fs.AnyDrive
/-!
# One vnode for each inode

As long as no thread begins to load an inode that another one is loading, the table
has one vnode for each inode, all users of a file share it, and it has what they last
made of the inode. Two loads that overlap make two vnodes (`one_vnode_each`): each
has its own users, and what is written back from the one is lost when the other is
written back after it (`root_loaded_twice`).
-/

namespace Os161

namespace Fs

open Prog Function SfsInode Sfs List

variable {s s' s₁ : Sfs} {x y : UInt32} {p : ℕ} {v w : SfsVnode} {forcetype : UInt16}

/-- **No two vnodes of the table are of one inode.** -/
def Sfs.OneEach (s : Sfs) : Prop := (s.vnodes.map SfsVnode.ino).Nodup

instance : Decidable s.OneEach := inferInstanceAs (Decidable (List.Nodup _))

/-! ## An uninterrupted call -/

/-- The first vnode of the inode is the one of it. -/
theorem modify_findIdx {l : List SfsVnode} {f : SfsVnode → SfsVnode}
    (h : (l.map SfsVnode.ino).Nodup) :
    l.modify (l.findIdx fun sv => sv.ino = x) f =
      l.map fun sv => if sv.ino = x then f sv else sv := by
  induction l with
  | nil => rfl
  | cons v l ih =>
    rw [map_cons, nodup_cons] at h
    by_cases hv : v.ino = x
    · have hrest : l.map (fun sv => if sv.ino = x then f sv else sv) = l := by
        refine (map_congr_left fun sv hsv => if_neg fun hx => h.1 ?_).trans (map_id l)
        exact mem_map.2 ⟨sv, hsv, hx.trans hv.symm⟩
      rw [findIdx_cons, decide_eq_true hv, cond_true, modify_zero_cons, map_cons,
        if_pos hv, hrest]
    · rw [findIdx_cons, decide_eq_false hv, cond_false, modify_succ_cons, map_cons,
        if_neg hv, ih h.2]

theorem Sfs.OneEach.modifyAt_eq (h : s.OneEach) (f : SfsVnode → SfsVnode) :
    s.modifyAt (s.vnodes.findIdx fun sv => sv.ino = x) f = s.modifyVnode x f := by
  unfold modifyAt
  rw [modify_findIdx h]
  rfl

/-- **A call that nothing comes between is `sfs_loadvnode`.** -/
theorem sfsLoadvnode_eq (h : s.OneEach) (x : UInt32) (forcetype : UInt16) :
    sfsLoadvnode x forcetype s = (do
      match ← loadSearch x forcetype with
      | some _ => pure ()
      | none => do
        let _ ← loadRest x forcetype
        pure () : Prog Sfs Errno Unit) s := by
  unfold sfsLoadvnode loadSearch loadRest
  simp only [bind_assoc]
  show (findLoaded x s.vnodes >>= _) s = (findLoaded x s.vnodes >>= _) s
  cases hf : findLoaded x s.vnodes s with
  | error e s₁ => rw [bind_of_error hf, bind_of_error hf]
  | ok found s₁ =>
    obtain ⟨rfl, -⟩ := (wp_of_ok hf).1 (wp_findLoaded (s := s) x s.vnodes)
    rw [bind_of_ok hf, bind_of_ok hf]
    cases found with
    | true =>
      simp only [if_pos, bind_assoc, pure_bind, bind_pure_unit]
      unfold Prog.assert
      split
      · exact congrArg (EStateM.Result.ok ()) (h.modifyAt_eq _).symm
      · rfl
    | false => simp only [Bool.false_eq_true, if_false, bind_assoc, pure_bind, bind_pure_unit]

/-! ## What a step does -/

/-- The inodes in memory, with the numbers they are known by. -/
def Sfs.copies (s : Sfs) : List (UInt32 × SfsInode) := s.vnodes.map fun sv => (sv.ino, sv.i)

theorem Sfs.oneEach_iff : s.OneEach ↔ (s.copies.map Prod.fst).Nodup := by
  unfold Sfs.OneEach copies
  rw [map_map]
  rfl

theorem Sfs.not_mem_inos : (∀ c ∈ s.copies, c.1 ≠ x) ↔ x ∉ s.copies.map Prod.fst := by
  rw [mem_map]
  exact ⟨fun h ⟨c, hc, he⟩ => h c hc he, fun h c hc he => h ⟨c, hc, he⟩⟩

/-- A copy is known by its number. -/
theorem Sfs.OneEach.place (h : s.OneEach) {p q : ℕ} {c c' : UInt32 × SfsInode}
    (hp : s.copies[p]? = some c) (hq : s.copies[q]? = some c') (hino : c.1 = c'.1) : p = q := by
  have hlt : p < (s.copies.map Prod.fst).length := by
    rw [length_map]
    exact (List.getElem?_eq_some_iff.1 hp).1
  refine (getElem?_inj hlt (oneEach_iff.1 h)).1 ?_
  rw [getElem?_map, getElem?_map, hp, hq]
  exact congrArg some hino

theorem Sfs.OneEach.vnode? (h : s.OneEach) (hv : v ∈ s.vnodes) : s.vnode? v.ino = some v := by
  cases hw : s.vnode? v.ino with
  | none =>
    exact absurd (decide_eq_true rfl) (find?_eq_none.1 hw v hv)
  | some w =>
    have hino : w.ino = v.ino := by simpa using find?_some hw
    rw [inj_on_of_nodup_map h (mem_of_find?_eq_some hw) hv hino]

theorem Sfs.vnode?_eq_none_iff : s.vnode? x = none ↔ ∀ c ∈ s.copies, c.1 ≠ x := by
  unfold vnode? copies
  simp

theorem Sfs.copies_of_vnode (h : s.vnodes[p]? = some v) : s.copies[p]? = some (v.ino, v.i) := by
  unfold copies
  rw [getElem?_map, h]
  rfl

/-- A change at one place that `g` does not see. -/
theorem map_modify {α β : Type} {f : α → α} {g : α → β} (hg : ∀ a, g (f a) = g a) (l : List α)
    (p : ℕ) : (l.modify p f).map g = l.map g := by
  refine ext_getElem? fun k => ?_
  rw [getElem?_map, getElem?_map]
  by_cases hk : p = k
  · rw [hk, getElem?_modify_eq]
    cases l[k]? with
    | none => rfl
    | some a => exact congrArg some (hg a)
  · rw [getElem?_modify_ne _ _ hk]

/-- A change to a vnode that is not one to the inode. -/
theorem Sfs.copies_modifyAt {f : SfsVnode → SfsVnode}
    (hf : ∀ v, ((f v).ino, (f v).i) = (v.ino, v.i)) (s : Sfs) (p : ℕ) :
    (s.modifyAt p f).copies = s.copies :=
  map_modify hf s.vnodes p

/-- The inode at one place gets other contents. -/
theorem Sfs.copies_change (h : s.vnodes[p]? = some v) (i : SfsInode) :
    (s.modifyAt p fun sv => { sv with i := i, dirty := true }).copies =
      s.copies.set p (v.ino, i) := by
  unfold copies modifyAt
  refine ext_getElem? fun k => ?_
  rw [getElem?_map, getElem?_set, getElem?_map, length_map]
  by_cases hk : p = k
  · subst hk
    obtain ⟨hlt, -⟩ := List.getElem?_eq_some_iff.1 h
    rw [getElem?_modify_eq, if_pos rfl, if_pos hlt, h]
    rfl
  · rw [getElem?_modify_ne _ _ hk, if_neg hk]

theorem Quiet.copies (h : Quiet s s') : s'.copies = s.copies := by
  unfold Sfs.copies
  rw [h.vnodes]

/-- **The search** finds the vnode, or there is none. -/
theorem wp_loadSearch (x : UInt32) (forcetype : UInt16) :
    wp (loadSearch x forcetype)
      (fun found s' => match found with
        | some p => (∃ i, s.copies[p]? = some (x, i)) ∧ s'.super = s.super ∧
            s'.copies = s.copies ∧ s'.device = s.device
        | none => Quiet s s' ∧ (∀ c ∈ s.copies, c.1 ≠ x) ∧ x.toNat < s.super.nblocks.toNat)
      (OnError (Quiet s)) s := by
  unfold loadSearch
  rw [wp_get_bind]
  refine wp_seq (wp_findLoaded x s.vnodes) ?_ ?_
  swap
  · rintro e s' ⟨rfl, -⟩
    exact OnError.halt
  rintro found s' ⟨rfl, hfound⟩
  cases found with
  | true =>
    rw [if_pos rfl, wp_bind, wp_assert]
    split
    swap
    · exact OnError.halt
    rw [wp_bind, wp_modify, wp_pure]
    refine ⟨?_, rfl, copies_modifyAt (f := fun sv =>
      { sv with refcount := off32 (sv.refcount + 1) }) (fun _ => rfl) _ _, rfl⟩
    have hex : ∃ v ∈ s'.vnodes, decide (v.ino = x) = true := by
      rw [← find?_isSome]
      exact hfound.symm
    have hlt := findIdx_lt_length.2 hex
    obtain ⟨v, hv⟩ : ∃ v, s'.vnodes[s'.vnodes.findIdx fun sv => sv.ino = x]? = some v :=
      ⟨_, getElem?_eq_getElem hlt⟩
    have hino : v.ino = x := by
      obtain ⟨_, rfl⟩ := List.getElem?_eq_some_iff.1 hv
      exact of_decide_eq_true (findIdx_getElem (w := hlt))
    exact ⟨v.i, by rw [copies_of_vnode hv, hino]⟩
  | false =>
    have hnone : ∀ c ∈ s'.copies, c.1 ≠ x :=
      vnode?_eq_none_iff.1 (Option.isNone_iff_eq_none.1 (Option.isSome_eq_false_iff.1 hfound.symm))
    refine returns_kmalloc.wp_bind (.refl s') fun _ s₁ h₁ => ?_
    rw [wp_bind, wp_checkUsed_iff]
    split
    swap
    · exact OnError.halt
    rename_i hused
    rw [wp_pure, ← h₁.super]
    exact ⟨h₁, hnone, hused.1⟩

/-- **The rest** adds a vnode with what is on disk, or does nothing. -/
theorem wp_loadRest (hx : x.toNat + 1 < 2 ^ 22) (forcetype : UInt16) :
    wp (loadRest x forcetype)
      (fun sv s' => sv.ino = x ∧
        (forcetype = typeInval → sv.i = ofSector (s.sector x)) ∧
        ∃ s₁, Quiet s s₁ ∧ s' = { s₁ with vnodes := s.vnodes ++ [sv] })
      (OnError (Quiet s)) s := by
  unfold loadRest
  refine wp_then (wp_rblock_any x) ?_
  rintro d s₁ ⟨h₁, hd⟩
  refine (Returns.assert _).wp_bind h₁ fun _ s₂ h₂ => ?_
  refine (Returns.assert _).wp_bind h₂ fun _ s₃ h₃ => ?_
  refine returns_kmalloc.wp_bind h₃ fun _ s₄ h₄ => ?_
  refine returns_kmalloc.wp_bind h₄ fun _ s₅ h₅ => ?_
  refine returns_kmalloc.wp_bind h₅ fun _ s₆ h₆ => ?_
  rw [wp_bind, wp_modify, wp_pure]
  refine ⟨rfl, fun htype => ?_, s₆, h₆, by rw [h₆.vnodes]⟩
  rw [if_pos htype, hd hx]

/-! ## Loads that do not overlap -/

namespace Loads

variable {s s' : Loads} {t : ℕ}

/-- **A thread begins to load an inode that another one is loading.** -/
def Overlaps (s : Loads) (e : LoadEvent) : Prop :=
  ∃ t x forcetype t' forcetype', e = .call t x forcetype ∧ s.threads t' = .reading x forcetype'

/-- **Before the threads begin.** -/
structure Start (s : Loads) : Prop where
  small : s.fs.super.nblocks.toNat ≤ 32 * 4096
  once : s.fs.OneEach
  lt : ∀ c ∈ s.fs.copies, c.1.toNat < s.fs.super.nblocks.toNat
  away : ∀ t, s.threads t = .away
  got : s.got = []
  latest : s.latest = s.fs.inode

/-- **Each inode is in memory once, or being loaded once, or on disk only.** -/
structure Single (s : Loads) : Prop where
  small : s.fs.super.nblocks.toNat ≤ 32 * 4096
  once : s.fs.OneEach
  lt : ∀ c ∈ s.fs.copies, c.1.toNat < s.fs.super.nblocks.toNat
  alone : ∀ t t' x forcetype forcetype', s.threads t = .reading x forcetype →
    s.threads t' = .reading x forcetype' → t = t'
  absent : ∀ t x forcetype, s.threads t = .reading x forcetype →
    x.toNat < s.fs.super.nblocks.toNat ∧ ∀ c ∈ s.fs.copies, c.1 ≠ x
  got : ∀ q ∈ s.got, ∃ i, s.fs.copies[q.2]? = some (q.1, i)
  current : ∀ c ∈ s.fs.copies, c.2 = s.latest c.1
  stored : ∀ x : UInt32, x.toNat < s.fs.super.nblocks.toNat → (∀ c ∈ s.fs.copies, c.1 ≠ x) →
    ofSector (s.fs.sector x) = s.latest x

theorem Start.single (h : s.Start) : Single s where
  small := h.small
  once := h.once
  lt := h.lt
  alone t t' x forcetype forcetype' ht := by
    rw [h.away] at ht
    cases ht
  absent t x forcetype ht := by
    rw [h.away] at ht
    cases ht
  got q hq := by
    rw [h.got] at hq
    cases hq
  current c hc := by
    obtain ⟨v, hv, rfl⟩ := mem_map.1 hc
    rw [h.latest]
    exact (inode_of_loaded (h.once.vnode? hv)).symm
  stored x _ hx := by
    rw [h.latest]
    exact (inode_of_not_loaded (vnode?_eq_none_iff.2 hx)).symm

namespace Single

section

variable (h : Single s)

include h

/-- The copies are the same, and so is what is on disk of the other inodes. -/
theorem same {fs : Sfs} (hsuper : fs.super = s.fs.super) (hcopies : fs.copies = s.fs.copies)
    (hsec : ∀ x, (∀ c ∈ s.fs.copies, c.1 ≠ x) → fs.sector x = s.fs.sector x) :
    Single { s with fs := fs } where
  small := by rw [hsuper]; exact h.small
  once := by
    rw [oneEach_iff, hcopies, ← oneEach_iff]
    exact h.once
  lt := by rw [hcopies, hsuper]; exact h.lt
  alone := h.alone
  absent := by rw [hcopies, hsuper]; exact h.absent
  got := by rw [hcopies]; exact h.got
  current := by rw [hcopies]; exact h.current
  stored x hlt hx := by
    rw [hsuper] at hlt
    rw [hcopies] at hx
    rw [hsec x hx]
    exact h.stored x hlt hx

theorem quiet {fs : Sfs} (hq : Quiet s.fs fs) : Single { s with fs := fs } :=
  h.same hq.super hq.copies fun x _ => hq.sector x

/-- A thread is not in `sfs_loadvnode` any more, or not yet. -/
theorem leave {phase : Phase} (hphase : ∀ x forcetype, phase ≠ .reading x forcetype) :
    Single (s.enter t phase) := by
  have hold : ∀ {t' x forcetype}, (s.enter t phase).threads t' = .reading x forcetype →
      s.threads t' = .reading x forcetype := by
    intro t' x forcetype ht
    unfold enter at ht
    dsimp only at ht
    rw [update_apply] at ht
    split at ht
    · exact absurd ht (hphase x forcetype)
    · exact ht
  exact ⟨h.small, h.once, h.lt, fun t t' x _ _ ht ht' => h.alone t t' x _ _ (hold ht) (hold ht'),
    fun t x _ ht => h.absent t x _ (hold ht), h.got, h.current, h.stored⟩

/-- A thread begins to load an inode. -/
theorem start (hno : ∀ t' forcetype', s.threads t' ≠ .reading x forcetype')
    (hlt : x.toNat < s.fs.super.nblocks.toNat) (hx : ∀ c ∈ s.fs.copies, c.1 ≠ x)
    (forcetype : UInt16) : Single (s.enter t (.reading x forcetype)) := by
  have hold : ∀ {t' y forcetype'}, (s.enter t (.reading x forcetype)).threads t' =
      .reading y forcetype' → t' = t ∧ y = x ∨ y ≠ x ∧ s.threads t' = .reading y forcetype' := by
    intro t' y forcetype' ht
    unfold enter at ht
    dsimp only at ht
    rw [update_apply] at ht
    split at ht
    · cases ht
      exact .inl ⟨‹_›, rfl⟩
    · refine .inr ⟨?_, ht⟩
      rintro rfl
      exact hno _ _ ht
  refine ⟨h.small, h.once, h.lt, fun t₁ t₂ y _ _ ht₁ ht₂ => ?_, fun t' y _ ht => ?_, h.got,
    h.current, h.stored⟩
  · rcases hold ht₁ with ⟨rfl, hy⟩ | ⟨hne, ht₁⟩ <;> rcases hold ht₂ with ⟨rfl, hy'⟩ | ⟨hne', ht₂⟩
    · rfl
    · exact absurd hy hne'
    · exact absurd hy' hne
    · exact h.alone t₁ t₂ y _ _ ht₁ ht₂
  · rcases hold ht with ⟨-, rfl⟩ | ⟨-, ht⟩
    · exact ⟨hlt, hx⟩
    · exact h.absent t' y _ ht

/-- A thread has loaded the inode. -/
theorem add (ht : s.threads t = .reading x forcetype) {fs : Sfs} {sv : SfsVnode}
    (hino : sv.ino = x) (hsuper : fs.super = s.fs.super)
    (hcopies : fs.copies = s.fs.copies ++ [(x, sv.i)])
    (hsec : ∀ y, fs.sector y = s.fs.sector y)
    (hread : forcetype = typeInval → sv.i = ofSector (s.fs.sector x)) :
    Single ((s.added sv forcetype fs).enter t .away) := by
  have hlen : s.fs.vnodes.length = s.fs.copies.length := (length_map _).symm
  unfold added
  rw [hino, hlen]
  obtain ⟨hlt, hx⟩ := h.absent t x _ ht
  obtain ⟨latest, hlatest⟩ : ∃ l, l = if forcetype = typeInval then s.latest
    else update s.latest x sv.i := ⟨_, rfl⟩
  have hself : sv.i = latest x := by
    rw [hlatest]
    split
    · rw [hread ‹_›, h.stored x hlt hx]
    · rw [update_self]
  have hother : ∀ y ≠ x, latest y = s.latest y := by
    intro y hy
    rw [hlatest]
    split
    · rfl
    · exact update_of_ne hy _ _
  have hold : ∀ {t' y forcetype'}, update s.threads t .away t' = .reading y forcetype' →
      t' ≠ t ∧ s.threads t' = .reading y forcetype' := by
    intro t' y forcetype' ht'
    rw [update_apply] at ht'
    split at ht'
    · cases ht'
    · exact ⟨‹_›, ht'⟩
  rw [← hlatest]
  refine ⟨by show fs.super.nblocks.toNat ≤ _; rw [hsuper]; exact h.small, ?_, ?_, ?_, ?_, ?_, ?_,
    ?_⟩
  · show fs.OneEach
    rw [oneEach_iff, hcopies, map_append, nodup_append]
    refine ⟨oneEach_iff.1 h.once, nodup_singleton _, ?_⟩
    rintro y hy z hz rfl
    obtain ⟨c, hc, rfl⟩ := mem_map.1 hy
    exact hx c hc (mem_singleton.1 hz)
  · show ∀ c ∈ fs.copies, _ < fs.super.nblocks.toNat
    rw [hcopies, hsuper]
    intro c hc
    rcases mem_append.1 hc with hc | hc
    · exact h.lt c hc
    · rw [mem_singleton.1 hc]
      exact hlt
  · intro t₁ t₂ y _ _ ht₁ ht₂
    exact h.alone t₁ t₂ y _ _ (hold ht₁).2 (hold ht₂).2
  · intro t' y _ ht'
    obtain ⟨hne, ht'⟩ := hold ht'
    obtain ⟨hylt, hy⟩ := h.absent t' y _ ht'
    show y.toNat < fs.super.nblocks.toNat ∧ ∀ c ∈ fs.copies, c.1 ≠ y
    rw [hcopies, hsuper]
    refine ⟨hylt, fun c hc => ?_⟩
    rcases mem_append.1 hc with hc | hc
    · exact hy c hc
    · rw [mem_singleton.1 hc]
      rintro rfl
      exact hne (h.alone t' t _ _ _ ht' ht)
  · show ∀ q ∈ (x, s.fs.copies.length) :: s.got, ∃ i, fs.copies[q.2]? = some (q.1, i)
    rw [hcopies]
    intro q hq
    rcases mem_cons.1 hq with rfl | hq
    · exact ⟨sv.i, by rw [getElem?_append_right le_rfl, Nat.sub_self]; rfl⟩
    · obtain ⟨i, hi⟩ := h.got q hq
      obtain ⟨hplace, -⟩ := List.getElem?_eq_some_iff.1 hi
      exact ⟨i, by rw [getElem?_append_left hplace, hi]⟩
  · show ∀ c ∈ fs.copies, c.2 = latest c.1
    rw [hcopies]
    intro c hc
    rcases mem_append.1 hc with hc | hc
    · rw [hother _ (hx c hc)]
      exact h.current c hc
    · rw [mem_singleton.1 hc]
      exact hself
  · show ∀ y : UInt32, y.toNat < fs.super.nblocks.toNat → (∀ c ∈ fs.copies, c.1 ≠ y) →
      ofSector (fs.sector y) = latest y
    rw [hcopies, hsuper]
    intro y hylt hy
    have hyx : y ≠ x := fun he => hy (x, sv.i) (by simp) he.symm
    rw [hsec, hother y hyx]
    exact h.stored y hylt fun c hc => hy c (mem_append_left _ hc)

/-- A user of a file changes its inode. -/
theorem change (hv : s.fs.vnodes[p]? = some v) (i : SfsInode) :
    Single { s with
      fs := s.fs.modifyAt p fun sv => { sv with i := i, dirty := true }
      latest := update s.latest v.ino i } := by
  obtain ⟨fs, hfs⟩ : ∃ fs : Sfs, fs = s.fs.modifyAt p fun sv => { sv with i := i, dirty := true } :=
    ⟨_, rfl⟩
  have hcopies : fs.copies = s.fs.copies.set p (v.ino, i) := by
    rw [hfs]
    exact copies_change hv i
  have hp := copies_of_vnode hv
  have hplt : p < s.fs.copies.length := (List.getElem?_eq_some_iff.1 hp).1
  have hnew : ∀ c ∈ fs.copies, c = (v.ino, i) ∨ c ∈ s.fs.copies ∧ c.1 ≠ v.ino := by
    intro c hc
    obtain ⟨k, hk⟩ := mem_iff_getElem?.1 hc
    rw [hcopies, getElem?_set] at hk
    split at hk
    · cases hk
      exact .inl rfl
    · rename_i hne
      exact .inr ⟨mem_of_getElem? hk, fun he => hne (h.once.place hp hk he.symm)⟩
  -- the numbers are the same, at every place
  have hinos : fs.copies.map Prod.fst = s.fs.copies.map Prod.fst := by
    rw [hfs]
    unfold copies
    rw [map_map, map_map]
    exact map_modify (f := fun sv => { sv with i := i, dirty := true }) (g := SfsVnode.ino)
      (fun _ => rfl) s.fs.vnodes p
  have hmem : ∀ y, (∀ c ∈ fs.copies, c.1 ≠ y) ↔ ∀ c ∈ s.fs.copies, c.1 ≠ y := by
    intro y
    rw [not_mem_inos, not_mem_inos, hinos]
  rw [← hfs]
  refine ⟨?_, ?_, fun c hc => ?_, h.alone, fun t x _ ht => ?_, fun q hq => ?_, fun c hc => ?_,
    fun x hlt hx => ?_⟩
  · rw [hfs]
    exact h.small
  · rw [oneEach_iff, hinos, ← oneEach_iff]
    exact h.once
  · have hlt : c.1.toNat < s.fs.super.nblocks.toNat := by
      rcases hnew c hc with rfl | ⟨hc, -⟩
      · exact h.lt (v.ino, v.i) (mem_of_getElem? hp)
      · exact h.lt c hc
    rw [hfs]
    exact hlt
  · obtain ⟨hlt, hx⟩ := h.absent t x _ ht
    refine ⟨?_, (hmem x).2 hx⟩
    rw [hfs]
    exact hlt
  · obtain ⟨j, hj⟩ := h.got q hq
    rw [hcopies, getElem?_set]
    split
    · rename_i he
      rw [← he, hp] at hj
      have hino : v.ino = q.1 := congrArg Prod.fst (Option.some.inj hj)
      exact ⟨i, by rw [hino]⟩
    · exact ⟨j, hj⟩
  · show c.2 = update s.latest v.ino i c.1
    rcases hnew c hc with rfl | ⟨hc, hne⟩
    · rw [update_self]
    · rw [update_of_ne hne]
      exact h.current c hc
  · have hx' := (hmem x).1 hx
    have hne : x ≠ v.ino := fun he => hx' _ (mem_of_getElem? hp) he.symm
    show ofSector (fs.sector x) = update s.latest v.ino i x
    have hlt' : x.toNat < s.fs.super.nblocks.toNat := by
      rw [hfs] at hlt
      exact hlt
    have hsec : fs.sector x = s.fs.sector x := by
      rw [hfs]
      rfl
    rw [hsec, update_of_ne hne]
    exact h.stored x hlt' hx'

end

end Single

/-- **A call up to the read**: the vnode is found, or the thread goes to read it, or
there is no memory. -/
theorem call_cases (hs : s.call t x forcetype = some s') :
    (∃ p i fs, s.fs.copies[p]? = some (x, i) ∧ fs.super = s.fs.super ∧
      fs.copies = s.fs.copies ∧ fs.device = s.fs.device ∧
      s' = { s with fs := fs, got := (x, p) :: s.got }) ∨
    (∃ fs, Quiet s.fs fs ∧ (∀ c ∈ s.fs.copies, c.1 ≠ x) ∧
      x.toNat < s.fs.super.nblocks.toNat ∧
      s' = { s with fs := fs }.enter t (.reading x forcetype)) ∨
    ∃ fs, Quiet s.fs fs ∧ s' = { s with fs := fs } := by
  have hsearch := wp_loadSearch (s := s.fs) x forcetype
  unfold Loads.call at hs
  split at hs
  · rename_i p fs hr
    obtain ⟨⟨i, hi⟩, hsuper, hcopies, hdevice⟩ := (wp_of_ok hr).1 hsearch
    exact .inl ⟨p, i, fs, hi, hsuper, hcopies, hdevice, (Option.some.inj hs).symm⟩
  · rename_i fs hr
    obtain ⟨hq, hx, hlt⟩ := (wp_of_ok hr).1 hsearch
    exact .inr (.inl ⟨fs, hq, hx, hlt, (Option.some.inj hs).symm⟩)
  · rename_i e fs hr
    exact .inr (.inr ⟨fs, (wp_of_error hr).1 hsearch ⟨e, rfl⟩, (Option.some.inj hs).symm⟩)
  · cases hs

/-- A call, unless another thread is loading the inode. -/
theorem Single.call (h : Single s) (hno : ∀ t' forcetype', s.threads t' ≠ .reading x forcetype')
    (hs : s.call t x forcetype = some s') : Single s' := by
  rcases call_cases hs with ⟨p, i, fs, hi, hsuper, hcopies, hdevice, rfl⟩ |
    ⟨fs, hq, hx, hlt, rfl⟩ | ⟨fs, hq, rfl⟩
  · have hsec : ∀ y, fs.sector y = s.fs.sector y := fun y => by
      unfold sector
      rw [hdevice]
    have hsame := h.same hsuper hcopies fun y _ => hsec y
    refine { hsame with got := fun q hq => ?_ }
    rcases mem_cons.1 hq with rfl | hq
    · exact ⟨i, by rw [show fs.copies = _ from hcopies]; exact hi⟩
    · exact hsame.got q hq
  · refine (h.quiet hq).start hno ?_ ?_ forcetype
    · rw [hq.super]
      exact hlt
    · rw [hq.copies]
      exact hx
  · exact h.quiet hq

/-- **The rest of a call**: a vnode is added at the end of the table, or nothing is. -/
theorem finish_cases (hx : x.toNat + 1 < 2 ^ 22) (hs : s.finish t x forcetype = some s') :
    (∃ sv fs₁, sv.ino = x ∧ Quiet s.fs fs₁ ∧
      (forcetype = typeInval → sv.i = ofSector (s.fs.sector x)) ∧
      s' = (s.added sv forcetype { fs₁ with vnodes := s.fs.vnodes ++ [sv] }).enter t .away) ∨
    ∃ fs₁, Quiet s.fs fs₁ ∧ s' = { s with fs := fs₁ }.enter t .away := by
  have hrest := wp_loadRest (s := s.fs) hx forcetype
  unfold finish at hs
  -- the result is named first: `loadRest` must not be run
  generalize hr : loadRest x forcetype s.fs = r at hs
  cases r with
  | ok sv fs =>
    obtain ⟨hino, hread, fs₁, hq, rfl⟩ := (wp_of_ok hr).1 hrest
    exact .inl ⟨sv, fs₁, hino, hq, hread, (Option.some.inj hs).symm⟩
  | error e fs =>
    cases e with
    | error err => exact .inr ⟨fs, (wp_of_error hr).1 hrest ⟨err, rfl⟩, (Option.some.inj hs).symm⟩
    | longjmp | halt => cases hs

/-- The table gets one vnode more, or none. -/
theorem finish_vnodes (hx : x.toNat + 1 < 2 ^ 22) (hs : s.finish t x forcetype = some s') :
    s'.threads = update s.threads t .away ∧
      ((∃ sv, sv.ino = x ∧ s'.fs.vnodes = s.fs.vnodes ++ [sv]) ∨
        s'.fs.vnodes = s.fs.vnodes) := by
  rcases finish_cases hx hs with ⟨sv, fs₁, hino, -, -, rfl⟩ | ⟨fs₁, hq, rfl⟩
  · exact ⟨rfl, .inl ⟨sv, hino, rfl⟩⟩
  · exact ⟨rfl, .inr hq.vnodes⟩

theorem Single.reading_lt (h : Single s) (ht : s.threads t = .reading x forcetype) :
    x.toNat + 1 < 2 ^ 22 := by
  have := (h.absent t x _ ht).1
  have := h.small
  omega

theorem Single.finish (h : Single s) (ht : s.threads t = .reading x forcetype)
    (hs : s.finish t x forcetype = some s') : Single s' := by
  rcases finish_cases (h.reading_lt ht) hs with ⟨sv, fs₁, hino, hq, hread, rfl⟩ | ⟨fs₁, hq, rfl⟩
  · refine h.add ht hino hq.super ?_ (fun y => hq.sector y) hread
    show (s.fs.vnodes ++ [sv]).map _ = _
    rw [map_append, ← hino]
    rfl
  · exact (h.quiet hq).leave nofun

theorem Single.sync (h : Single s) (hs : s.sync t p = some s') : Single s' := by
  unfold Loads.sync at hs
  cases hv : s.fs.vnodes[p]? with
  | none =>
    rw [hv] at hs
    cases hs
  | some v =>
    rw [hv] at hs
    dsimp only at hs
    split at hs
    swap
    · cases hs
      exact h
    have hmem : (v.ino, v.i) ∈ s.fs.copies := mem_of_getElem? (copies_of_vnode hv)
    have hwrite := wp_wblock_any (s := s.fs) v.i.toSector (lt_of_lt_of_le (h.lt _ hmem) h.small)
    cases hr : wblock v.i.toSector v.ino s.fs with
    | ok _ fs =>
      obtain ⟨hsuper, hvnodes, -, hsec, -⟩ := (wp_of_ok hr).1 hwrite
      rw [hr] at hs
      cases hs
      refine Single.leave (h.same hsuper ?_ fun x hx => hsec x fun he => ?_) nofun
      · unfold copies
        rw [hvnodes]
      · exact hx _ hmem he.symm
    | error e fs =>
      obtain rfl := (wp_of_error hr).1 hwrite
      rw [hr] at hs
      cases hs

theorem step_call (hs : s.step (.call t x forcetype) = some s') :
    s.threads t = .away ∧ s.call t x forcetype = some s' := by
  unfold step at hs
  dsimp only at hs
  split at hs
  · exact ⟨‹_›, hs⟩
  · cases hs

theorem step_wake (ht : s.threads t = .reading x forcetype) :
    s.step (.wake t) = s.finish t x forcetype := by
  unfold step
  dsimp only
  rw [ht]

/-- **A step keeps each inode single**, unless it begins a load that overlaps. -/
theorem Single.step {e : LoadEvent} (h : Single s) (hno : ¬ s.Overlaps e)
    (hs : s.step e = some s') : Single s' := by
  cases e with
  | call t x forcetype =>
    refine h.call (fun t' forcetype' ht => hno ?_) (step_call hs).2
    exact ⟨t, x, forcetype, t', forcetype', rfl, ht⟩
  | wake t =>
    unfold Loads.step at hs
    dsimp only at hs
    split at hs
    · cases hs
    · rename_i x forcetype ht
      exact h.finish ht hs
    · rename_i p _
      cases hs
      let f : SfsVnode → SfsVnode := fun sv => { sv with dirty := false }
      have hcopies := copies_modifyAt (f := f) (fun _ => rfl) s.fs p
      have hsame : Single { s with fs := s.fs.modifyAt p f } := h.same rfl hcopies fun _ _ => rfl
      exact hsame.leave nofun
  | change p i =>
    unfold Loads.step at hs
    dsimp only at hs
    split at hs
    · cases hs
    · cases hs
      exact h.change ‹_› i
  | sync t p =>
    unfold Loads.step at hs
    dsimp only at hs
    split at hs
    · exact h.sync hs
    · cases hs

/-- A copy in memory is what the file system takes for the inode. -/
theorem Single.inode_eq (h : Single s) {x : UInt32} (hlt : x.toNat < s.fs.super.nblocks.toNat) :
    s.fs.inode x = s.latest x := by
  cases hv : s.fs.vnode? x with
  | none =>
    rw [inode_of_not_loaded hv]
    exact h.stored x hlt (vnode?_eq_none_iff.1 hv)
  | some v =>
    rw [inode_of_loaded hv]
    have hino : v.ino = x := by simpa using find?_some hv
    rw [← hino]
    exact h.current (v.ino, v.i) (mem_map.2 ⟨v, mem_of_find?_eq_some hv, rfl⟩)

/-- Every user of a file has the same vnode. -/
theorem Single.shared (h : Single s) {x : UInt32} {p q : ℕ} (hp : (x, p) ∈ s.got)
    (hq : (x, q) ∈ s.got) : p = q := by
  obtain ⟨i, hi⟩ := h.got _ hp
  obtain ⟨j, hj⟩ := h.got _ hq
  exact h.once.place hi hj rfl

/-- **Two loads of one inode that overlap**: if neither fails, there are two vnodes. -/
theorem Single.twice (h : Single s) {t' : ℕ} {forcetype' : UInt16} {s₁ s₂ s₃ : Loads}
    (ht : s.threads t = .reading x forcetype)
    (h₁ : s.step (.call t' x forcetype') = some s₁) (h₂ : s₁.step (.wake t) = some s₂)
    (h₃ : s₂.step (.wake t') = some s₃)
    (hlen : s₃.fs.vnodes.length = s.fs.vnodes.length + 2) : ¬ s₃.fs.OneEach := by
  have hx := h.reading_lt ht
  obtain ⟨haway, hcall⟩ := step_call h₁
  have hne : t ≠ t' := by
    rintro rfl
    rw [ht] at haway
    cases haway
  -- either both are reading now, or the second call has returned already
  obtain ⟨hvnodes, ht₁, ht'₁⟩ : s₁.fs.vnodes = s.fs.vnodes ∧ s₁.threads t = .reading x forcetype ∧
      (s₁.threads t' = .reading x forcetype' ∨ s₁.threads t' = .away) := by
    rcases call_cases hcall with ⟨p, i, fs, hi, -⟩ | ⟨fs, hq, -, -, rfl⟩ | ⟨fs, hq, rfl⟩
    · exact absurd rfl ((h.absent t x _ ht).2 _ (mem_of_getElem? hi))
    · exact ⟨hq.vnodes, (update_of_ne hne _ _).trans ht, .inl (update_self ..)⟩
    · exact ⟨hq.vnodes, ht, .inr haway⟩
  rw [step_wake ht₁] at h₂
  obtain ⟨hthreads, hadd⟩ := finish_vnodes hx h₂
  have hsame : s₂.threads t' = s₁.threads t' := by
    rw [hthreads, update_of_ne hne.symm]
  rcases ht'₁ with ht'₁ | ht'₁
  swap
  · unfold Loads.step at h₃
    dsimp only at h₃
    rw [hsame, ht'₁] at h₃
    cases h₃
  rw [step_wake (hsame.trans ht'₁)] at h₃
  obtain ⟨-, hadd'⟩ := finish_vnodes hx h₃
  rw [hvnodes] at hadd
  rcases hadd with ⟨sv, hino, hsv⟩ | hsv <;> rcases hadd' with ⟨sv', hino', hsv'⟩ | hsv' <;>
    rw [hsv', hsv] at hlen
  · intro hone
    unfold Sfs.OneEach at hone
    rw [hsv', hsv, append_assoc, map_append, nodup_append] at hone
    have hpair := hone.2.1
    rw [map_append, map_singleton, map_singleton, hino, hino'] at hpair
    exact absurd hpair (by simp)
  · rw [length_append, length_singleton] at hlen
    omega
  · rw [length_append, length_singleton] at hlen
    omega
  · omega

end Loads

/-- **One vnode for each inode**, in every run in which no thread begins to load an
inode while another one is loading it. Every user of a file has the same vnode, and
what the file system takes for the inode, the copy in memory or else what is on disk,
is what the users last made of it. A load that begins while another one of the same
inode is going on makes a second vnode, unless one of the two fails. -/
theorem one_vnode_each (s₀ s : Loads) (h₀ : s₀.Start)
    (hr : Runs.Reachable Loads.step (fun s e => ¬ s.Overlaps e) s₀ s) :
    s.fs.OneEach ∧
    (∀ x p q, (x, p) ∈ s.got → (x, q) ∈ s.got → p = q) ∧
    (∀ x : UInt32, x.toNat < s.fs.super.nblocks.toNat → s.fs.inode x = s.latest x) ∧
    ∀ t t' x forcetype forcetype' s₁ s₂ s₃, s.threads t = .reading x forcetype →
      s.step (.call t' x forcetype') = some s₁ → s₁.step (.wake t) = some s₂ →
      s₂.step (.wake t') = some s₃ → s₃.fs.vnodes.length = s.fs.vnodes.length + 2 →
      ¬ s₃.fs.OneEach := by
  have h : s.Single := hr.invariant (I := Loads.Single) h₀.single
    fun _ _ _ hs hno hstep => hs.step hno hstep
  exact ⟨h.once, fun _ _ _ hp hq => h.shared hp hq, fun _ hlt => h.inode_eq hlt,
    fun _ _ _ _ _ _ _ _ ht h₁ h₂ h₃ hlen => h.twice ht h₁ h₂ h₃ hlen⟩

/-- A file system before the threads begin. -/
def loadsOf (fs : Sfs) : Loads := ⟨fs, fun _ => .away, [], fs.inode⟩

theorem start_loadsOf (hsmall : s.super.nblocks.toNat ≤ 32 * 4096) (hv : s.vnodes = []) :
    (loadsOf s).Start where
  small := hsmall
  once := by
    show (s.vnodes.map _).Nodup
    rw [hv]
    exact nodup_nil
  lt c hc := by
    have hc : c ∈ s.vnodes.map _ := hc
    rw [hv] at hc
    cases hc
  away _ := rfl
  got := rfl
  latest := rfl

/-- The root directory of a new volume with its first slot in the block `b`. -/
def rootWith (b : UInt32) : SfsInode := ⟨64, typeDir, 1, fun k => if k.val = 0 then b else 0, 0⟩

/-- The root directory is loaded and changed. -/
theorem one_vnode_root :
    ∃ s₀ s : Loads, s₀.Start ∧
      Runs.exec Loads.step s₀ [.call 0 1 typeInval, .wake 0, .change 0 (rootWith 3)] = some s ∧
      s.fs.OneEach ∧ s.fs.inode 1 = s.latest 1 := by
  have hsee : (makeVolume ⟨[100], by decide⟩ 4096).elim false (fun fs =>
      (Runs.exec Loads.step (loadsOf fs)
        [.call 0 1 typeInval, .wake 0, .change 0 (rootWith 3)]).elim false fun s =>
        decide (fs.super.nblocks.toNat ≤ 32 * 4096 ∧ fs.vnodes.isEmpty = true ∧
          1 < s.fs.super.nblocks.toNat)) = true := by decide +kernel
  obtain ⟨fs, -, h⟩ := exists_of_elim hsee
  obtain ⟨s, hs, h⟩ := exists_of_elim h
  obtain ⟨hsmall, hempty, hlt⟩ := of_decide_eq_true h
  have hstart := start_loadsOf hsmall (isEmpty_iff.1 hempty)
  obtain ⟨s₁, h₁, h⟩ := Option.bind_eq_some_iff.1 hs
  obtain ⟨s₂, h₂, h⟩ := Option.bind_eq_some_iff.1 h
  obtain ⟨s₃, h₃, h⟩ := Option.bind_eq_some_iff.1 h
  obtain rfl := Option.some.inj h
  have hrun : Runs.Reachable Loads.step (fun s e => ¬ s.Overlaps e) (loadsOf fs) s₃ := by
    refine .tail (.tail (.tail .refl ?_ h₁) ?_ h₂) ?_ h₃
    · rintro ⟨_, _, _, t', _, -, ht⟩
      cases ht
    · rintro ⟨_, _, _, _, _, hcall, -⟩
      cases hcall
    · rintro ⟨_, _, _, _, _, hcall, -⟩
      cases hcall
  obtain ⟨hone, -, hlatest, -⟩ := one_vnode_each _ _ hstart hrun
  exact ⟨_, _, hstart, hs, hone, hlatest 1 hlt⟩

/-- **Two threads look for the root directory of a new volume**, and each gets a vnode of
its own. Each enters a name, in a block of its own, and the inode is written back from
the one and from the other: the first name is lost, though its vnode is not dirty. -/
theorem root_loaded_twice :
    ∃ s₀ s : Loads, s₀.Start ∧
      Runs.exec Loads.step s₀ [.call 0 1 typeInval, .call 1 1 typeInval, .wake 0, .wake 1,
        .change 0 (rootWith 3), .change 1 (rootWith 4), .sync 0 0, .wake 0, .sync 1 1, .wake 1] =
          some s ∧
      ¬ s.fs.OneEach ∧
      (∃ v, s.fs.vnodes[0]? = some v ∧ v.dirty = false ∧ v.i.direct 0 = 3) ∧
      (SfsInode.ofSector (s.fs.sector 1)).direct 0 = 4 := by
  have hsee : (makeVolume ⟨[100], by decide⟩ 4096).elim false (fun fs =>
      (Runs.exec Loads.step (loadsOf fs) [.call 0 1 typeInval, .call 1 1 typeInval, .wake 0,
        .wake 1,
        .change 0 (rootWith 3), .change 1 (rootWith 4), .sync 0 0, .wake 0, .sync 1 1,
        .wake 1]).elim false fun s => s.fs.vnodes[0]?.elim false fun v =>
          decide (fs.super.nblocks.toNat ≤ 32 * 4096 ∧ fs.vnodes.isEmpty = true ∧
            ¬ s.fs.OneEach ∧ v.dirty = false ∧ v.i.direct 0 = 3 ∧
            (ofSector (s.fs.sector 1)).direct 0 = 4)) = true := by decide +kernel
  obtain ⟨fs, -, h⟩ := exists_of_elim hsee
  obtain ⟨s, hs, h⟩ := exists_of_elim h
  obtain ⟨v, hv, h⟩ := exists_of_elim h
  obtain ⟨hsmall, hempty, htwo, hdirty, hfirst, hdisk⟩ := of_decide_eq_true h
  exact ⟨_, s, start_loadsOf hsmall (isEmpty_iff.1 hempty), hs, htwo, ⟨v, hv, hdirty, hfirst⟩,
    hdisk⟩

end Fs

end Os161
