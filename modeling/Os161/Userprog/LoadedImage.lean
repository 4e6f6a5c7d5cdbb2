import Os161.Userprog.LoadElf
/-!
# A loaded image matches its file

When `load_elf` returns, every byte of every segment has been stored, in the
order of the headers. Every segment then ends below `USERTOP`, so that no
request for frames can have wrapped around in `ram_stealmem`, and the frames of
the three parts are frames of their own. Two user addresses never share a
byte of memory, and the last store to an address is the one that is found there.
-/

namespace Os161

namespace Userprog

open Vm Prog UInt32 List

variable {env : Env} {v : Vnode} {file : List UInt8} {m m' : Machine} {va pa lastpaddr : UInt32}
  {as : AddrSpace} {r : Ram}

/-! ## Memory that is left -/

/-- What `ram_bootstrap` and `ram_stealmem` leave of memory. -/
structure Sound (r : Ram) : Prop where
  le : r.firstpaddr ≤ r.lastpaddr
  last : r.lastpaddr ≤ 508 * 1024 * 1024

theorem sound_ramBootstrap (ramsize firstfree : UInt32)
    (h : (ramBootstrap ramsize firstfree).firstpaddr ≤ (ramBootstrap ramsize firstfree).lastpaddr) :
    Sound (ramBootstrap ramsize firstfree) := by
  refine ⟨h, ?_⟩
  unfold ramBootstrap
  split
  · exact UInt32.le_refl _
  · next hle => exact UInt32.not_lt.1 hle

theorem Sound.ramStealmem (h : Sound r) (n : UInt32) : Sound (ramStealmem r n).2 := by
  refine ⟨?_, by rw [ramStealmem_lastpaddr]; exact h.last⟩
  rw [ramStealmem_lastpaddr]
  rcases ramStealmem_cases r n with ⟨-, he⟩ | ⟨hle, -, -, hfirst⟩
  · rw [he]
    exact h.le
  · rw [le_iff_toNat_le, hfirst]
    exact hle

/-- Requests for parts of user space are measured. -/
theorem Sound.measuresAll (h : Sound r) {ns : List UInt32}
    (hns : ∀ n ∈ ns, n.toNat * 4096 ≤ 2 ^ 31 + 8192) : r.MeasuresAll ns := by
  induction ns generalizing r with
  | nil => exact fun t ht => by cases ht
  | cons n ns ih =>
    have hlast := le_iff_toNat_le.1 h.last
    have hle := le_iff_toNat_le.1 h.le
    have hmax : (508 * 1024 * 1024 : UInt32).toNat = 532676608 := rfl
    have hn := hns n mem_cons_self
    refine forall_mem_cons.2 ⟨.inl ?_, ih (h.ramStealmem n) fun k hk => ?_⟩
    · show r.firstpaddr.toNat + n.toNat * 4096 < 2 ^ 32
      omega
    · exact hns k (mem_cons_of_mem _ hk)

/-! ## Regions -/

variable {as' : AddrSpace}

/-- The pages of a region. -/
theorem asDefineRegion_npages {vaddr sz : UInt32} {P : UInt32 → Prop}
    (h : asDefineRegion as vaddr sz = .ok as')
    (hP : P (((sz + pageOffset vaddr + pageSize - 1) &&& pageFrame) / pageSize))
    (h1 : P as.npages1) (h2 : P as.npages2) : P as'.npages1 ∧ P as'.npages2 := by
  unfold asDefineRegion at h
  split at h
  · cases h
    exact ⟨hP, h2⟩
  split at h
  · cases h
    exact ⟨h1, hP⟩
  · cases h

/-- A segment below `USERTOP` has no more pages than there are. -/
theorem npages_le {vaddr sz : UInt32} (h : sz.toNat ≤ 2 ^ 31) :
    (((sz + pageOffset vaddr + pageSize - 1) &&& pageFrame) / pageSize).toNat * 4096 ≤
      2 ^ 31 + 8192 := by
  have hsize : pageSize.toNat = 4096 := rfl
  have hoff := toNat_pageOffset vaddr
  have hround : (sz + pageOffset vaddr + pageSize - 1).toNat =
      sz.toNat + vaddr.toNat % 4096 + 4095 := by
    rw [UInt32.toNat_sub, UInt32.toNat_add, UInt32.toNat_add, hoff, hsize, UInt32.toNat_one]
    omega
  rw [UInt32.toNat_div, toNat_and_pageFrame, hround, hsize]
  omega

theorem defineAll_npages {loads : List Phdr} {as₀ : AddrSpace}
    (h : defineAll as₀ loads = .ok as) {P : UInt32 → Prop}
    (hP : ∀ ph ∈ loads,
      P (((ph.pMemsz + pageOffset ph.pVaddr + pageSize - 1) &&& pageFrame) / pageSize))
    (h1 : P as₀.npages1) (h2 : P as₀.npages2) : P as.npages1 ∧ P as.npages2 := by
  induction loads generalizing as₀ with
  | nil =>
    cases h
    exact ⟨h1, h2⟩
  | cons ph loads ih =>
    unfold defineAll at h
    rw [foldlM_cons] at h
    cases hr : asDefineRegion as₀ ph.pVaddr ph.pMemsz with
    | error errno =>
      rw [hr] at h
      cases h
    | ok as₁ =>
      rw [hr] at h
      obtain ⟨h1', h2'⟩ := asDefineRegion_npages hr (hP ph mem_cons_self) h1 h2
      exact ih h (fun p hp => hP p (mem_cons_of_mem _ hp)) h1' h2'

variable {ph : Phdr}

theorem Phdr.Fits.memsz_le (h : ph.Fits file as lastpaddr) :
    ph.pMemsz.toNat ≤ 2 ^ 31 := by
  have htop : userTop.toNat = 2 ^ 31 := rfl
  rcases Nat.eq_zero_or_pos ph.pMemsz.toNat with h0 | hpos
  · omega
  · have := (h.takes (ph.pMemsz.toNat - 1) (by omega)).1
    omega

/-- **The frames of a loaded program are frames of its own.** -/
theorem Loaded.prepared {entry : UInt32} {eh : Ehdr} {loads : List Phdr}
    {r' : Ram} (h : Loaded file m entry m' eh loads as as' r') (hr : Sound m.ram) :
    Prepared as as' m.ram.firstpaddr.toNat r'.firstpaddr.toNat := by
  have hpages := defineAll_npages h.regions (P := fun n => n.toNat * 4096 ≤ 2 ^ 31 + 8192)
    (fun ph hph => npages_le (h.fits ph hph).memsz_le) (by decide) (by decide)
  have hpos : m.ram.firstpaddr ≠ 0 := by
    intro hzero
    have hframes := h.frames
    unfold asPrepareLoad at hframes
    rw [if_pos ⟨defineAll_pbase h.regions .one, defineAll_pbase h.regions .two,
      defineAll_pbase h.regions .stack⟩] at hframes
    have hget : (getppages m.ram as.npages1).1 = 0 := by
      unfold getppages Vm.ramStealmem
      simp only
      split
      · rfl
      · exact hzero
    simp only [hget, if_true] at hframes
    cases hframes
  refine (asPrepareLoad_spec h.frames (hr.measuresAll ?_) hpos).1
  intro n hn
  simp only [AddrSpace.requests, mem_cons, not_mem_nil, or_false] at hn
  rcases hn with rfl | rfl | rfl
  · exact hpages.1
  · exact hpages.2
  · decide

/-- **Two user addresses never share a byte of memory.** -/
theorem translate_injective {lo hi : ℕ} (hp : Prepared as as' lo hi)
    (hhi : hi ≤ 2 ^ 32) {va' : UInt32} (h : as'.translate va = some pa)
    (h' : as'.translate va' = some pa) : va = va' := by
  have hb := hp.below.mono hhi
  obtain ⟨hset, i, -, hlo, hlt, hpa⟩ := AddrSpace.translate_spec h hb
  obtain ⟨-, j, -, hlo', hlt', hpa'⟩ := AddrSpace.translate_spec h' hb
  have hij : i = j := by
    by_contra hne
    have hi : pa.toNat ∈ as'.block i := ⟨hset.pbase_ne_zero i, by omega, by omega⟩
    have hj : pa.toNat ∈ as'.block j := ⟨hset.pbase_ne_zero j, by omega, by omega⟩
    exact Set.disjoint_left.1 (hp.disjoint i j hne) hi hj
  subst hij
  exact UInt32.toNat_inj.1 (by omega)

/-! ## The last store -/

theorem foldl_poke_of_ne {ws : List (UInt32 × UInt8)} (mem : Memory)
    (h : ∀ w ∈ ws, as.translate w.1 ≠ some pa) : ws.foldl (poke as) mem pa = mem pa := by
  induction ws generalizing mem with
  | nil => rfl
  | cons w ws ih =>
    obtain ⟨hw, hws⟩ := forall_mem_cons.1 h
    rw [foldl_cons, ih _ hws]
    cases htr : as.translate w.1 with
    | none => simp only [poke, htr]
    | some pa' =>
      simp only [poke, htr]
      refine Function.update_of_ne (fun he => hw ?_) _ _
      rw [htr, he]

/-- **The last store to an address is found there.** -/
theorem foldl_poke_last {pre post : List (UInt32 × UInt8)} {b : UInt8} (mem : Memory)
    (htr : as.translate va = some pa) (h : ∀ w ∈ post, as.translate w.1 ≠ some pa) :
    (pre ++ (va, b) :: post).foldl (poke as) mem pa = b := by
  rw [foldl_append, foldl_cons, foldl_poke_of_ne _ h]
  simp only [poke, htr, Function.update_self]

theorem mem_storesAt {bs : List UInt8} {w : UInt32 × UInt8} (h : w ∈ storesAt va bs) :
    ∃ j < bs.length, w.1 = va + ofNat j := by
  induction bs generalizing va with
  | nil => cases h
  | cons b bs ih =>
    rcases mem_cons.1 h with rfl | h
    · exact ⟨0, by simp, (UInt32.add_zero va).symm⟩
    · obtain ⟨j, hj, hw⟩ := ih h
      refine ⟨1 + j, by simpa [Nat.add_comm] using hj, ?_⟩
      rw [hw]
      exact add_ofNat_add va 1 j

theorem storeSegments_eq (mem : Memory) (loads : List Phdr) :
    storeSegments file as mem loads =
      (loads.flatMap fun ph => storesAt ph.pVaddr (ph.image file)).foldl (poke as) mem := by
  rw [foldl_flatMap]
  rfl

theorem Phdr.Fits.image_length (h : ph.Fits file as lastpaddr) :
    (ph.image file).length = ph.pMemsz.toNat := by
  rw [Phdr.image, length_append, length_replicate, h.data, ph.filesize_add_fillamt]

/-- The bytes of an image: those of the file, and zeros. -/
theorem Phdr.Fits.image_getElem? (h : ph.Fits file as lastpaddr) {i : ℕ}
    (hi : i < ph.pMemsz.toNat) : (ph.image file)[i]? =
      if i < min ph.pFilesz.toNat ph.pMemsz.toNat then file[ph.pOffset.toNat + i]? else some 0 := by
  have hdata := h.data
  have hsum := ph.filesize_add_fillamt
  unfold Phdr.image
  split
  · next hlt =>
    have hlt' : i < ph.filesize := hlt
    rw [getElem?_append_left (by omega), Phdr.data, bytesAt, getElem?_take_of_lt hlt',
      getElem?_drop]
  · next hge =>
    have hge' : ¬ i < ph.filesize := hge
    rw [getElem?_append_right (by omega), getElem?_replicate, if_pos (by omega)]

/-- **A store to a segment is the last one** at an address that no later
segment covers. -/
theorem Phdr.Fits.storeSegments_apply {pre post : List Phdr} {i : ℕ} {mem : Memory}
    (hfits : ∀ p ∈ pre ++ ph :: post, p.Fits file as lastpaddr)
    (hinj : ∀ va', as.translate va' = some pa → va' = ph.pVaddr + ofNat i)
    (htr : as.translate (ph.pVaddr + ofNat i) = some pa) (hi : i < ph.pMemsz.toNat)
    (hcover : ∀ p ∈ post, ¬ p.Covers (ph.pVaddr + ofNat i)) :
    some (storeSegments file as mem (pre ++ ph :: post) pa) = (ph.image file)[i]? := by
  have hfit := hfits ph (by simp)
  have hlen := hfit.image_length
  have hmax := hfit.memsz_le
  obtain ⟨b, hb⟩ : ∃ b, (ph.image file)[i]? = some b :=
    ⟨_, getElem?_eq_getElem (by omega)⟩
  obtain ⟨hlt, hget⟩ := List.getElem?_eq_some_iff.1 hb
  have htake : ((ph.image file).take i).length = i := length_take_of_le (by omega)
  -- the image is what comes before the byte, the byte, and the rest
  have hsplit : ph.image file = (ph.image file).take i ++ b :: (ph.image file).drop (i + 1) := by
    rw [← hget, ← drop_eq_getElem_cons, take_append_drop]
  have hstores : storesAt ph.pVaddr (ph.image file) =
      storesAt ph.pVaddr ((ph.image file).take i) ++ (ph.pVaddr + ofNat i, b) ::
        storesAt (ph.pVaddr + ofNat i + 1) ((ph.image file).drop (i + 1)) := by
    conv_lhs => rw [hsplit]
    rw [storesAt_append, htake]
    rfl
  rw [hb, storeSegments_eq, flatMap_append, flatMap_cons, hstores, append_assoc,
    cons_append, ← append_assoc, foldl_poke_last mem htr]
  intro w hw hpa
  have heq := hinj w.1 hpa
  rcases mem_append.1 hw with hw | hw
  · -- a later byte of the same segment has another address
    obtain ⟨j, hj, hwj⟩ := mem_storesAt hw
    rw [length_drop, hlen] at hj
    have hone : ph.pVaddr + ofNat i + 1 + ofNat j =
        ph.pVaddr + ofNat (i + (1 + j)) := by
      rw [← add_ofNat_add, ← add_ofNat_add _ 1 j]
      rfl
    rw [hwj, hone, UInt32.add_right_inj, ← UInt32.toNat_inj,
      toNat_ofNat_of_lt' (show i + (1 + j) < 2 ^ 32 by omega),
      toNat_ofNat_of_lt' (show i < 2 ^ 32 by omega)] at heq
    omega
  · obtain ⟨p, hp, hwp⟩ := mem_flatMap.1 hw
    obtain ⟨j, hj, hwj⟩ := mem_storesAt hwp
    have hpfit := hfits p (by simp [hp])
    rw [hpfit.image_length] at hj
    have hpmax := hpfit.memsz_le
    refine hcover p hp ?_
    rw [← heq, hwj, Phdr.Covers, UInt32.add_comm, UInt32.add_sub_cancel,
      toNat_ofNat_of_lt' (show j < 2 ^ 32 by omega)]
    exact hj

/-! ## The image -/

/-- **A loaded image matches its file.** The entry point is that of the header.
Every byte of a segment is at a user address that `vm_fault` translates to
memory, and where no later segment covers it, it is the byte of the file, or
zero after the part that comes from the file. -/
theorem loaded_image_matches (env : Env) (entry : UInt32) (hv : v.Serves file) (hm : Fresh m)
    (hr : Sound m.ram) (h : loadElf env v m = .ok entry m') :
    ∃ eh loads as, Headers file eh loads ∧ entry = eh.eEntry ∧
      m'.heap.space m'.vmspace = some as ∧
      ∀ pre ph post, loads = pre ++ ph :: post → ∀ i < ph.pMemsz.toNat,
        ph.pVaddr.toNat + i < userTop.toNat ∧
        (∃ pa, as.translate (ph.pVaddr + UInt32.ofNat i) = some pa ∧ pa < m.ram.lastpaddr) ∧
        ((∀ p ∈ post, ¬ p.Covers (ph.pVaddr + UInt32.ofNat i)) →
          m'.userByte (ph.pVaddr + UInt32.ofNat i) =
            if i < min ph.pFilesz.toNat ph.pMemsz.toNat then file[ph.pOffset.toNat + i]?
            else some 0) := by
  obtain ⟨⟨eh, loads, as, as', r', hl⟩, -⟩ := (wp_of_ok h).1 (wp_loadElf env hv hm)
  have hspace : m'.heap.space m'.vmspace = some as' := by
    rw [hl.loading.vmspace]
    exact hl.loading.space
  refine ⟨eh, loads, as', hl.headers, hl.entry, hspace, ?_⟩
  rintro pre ph post rfl i hi
  have hfit := hl.fits ph (by simp)
  obtain ⟨huser, hfate⟩ := hfit.takes i hi
  obtain ⟨pa, htr, hpa⟩ : ∃ pa, as'.translate (ph.pVaddr + ofNat i) = some pa ∧
      pa < m.ram.lastpaddr := by
    unfold fateAt fate at hfate
    split at hfate
    · split at hfate
      · cases hfate
      · next pa htr =>
        split at hfate
        · next hlt => exact ⟨pa, htr, hlt⟩
        · cases hfate
    · cases hfate
  refine ⟨huser, ⟨pa, htr, hpa⟩, fun hcover => ?_⟩
  have hinj : ∀ va', as'.translate va' = some pa → va' = ph.pVaddr + ofNat i :=
    fun va' h' => translate_injective (hl.prepared hr) r'.firstpaddr.toNat_lt.le h' htr
  rw [Machine.userByte, hspace, Option.bind_some, htr, Option.map_some, hl.mem,
    Phdr.Fits.storeSegments_apply hl.fits hinj htr hi hcover, hfit.image_getElem? hi]

/-- An executable with two segments: eight bytes of which four are in the file,
and one that is not in the file at all. -/
def twoSegments : List UInt8 :=
  elfHeader 2 ++ loadHeader 0 0x400000 4 8 ++ loadHeader 0 0x10000000 0 1

theorem headers_twoSegments : Headers twoSegments (Ehdr.ofBytes (elfHeader 2))
    [Phdr.ofBytes (loadHeader 0 0x400000 4 8), Phdr.ofBytes (loadHeader 0 0x10000000 0 1)] :=
  ⟨by decide +kernel, by decide +kernel, by decide +kernel⟩

theorem loaded_image_matches_two_segments :
    ∃ entry m', loadElf takesTurns (.onePiece twoSegments) (newSpace ⟨0x30000, 0x400000⟩) =
        .ok entry m' ∧ entry = 0x400000 ∧ m'.userByte 0x400003 = some 0x46 ∧
      m'.userByte 0x400007 = some 0 ∧ m'.userByte 0x10000000 = some 0 := by
  obtain ⟨entry, m', hrun, -⟩ := exists_ok_of (loadElf takesTurns (.onePiece twoSegments))
    (newSpace ⟨0x30000, 0x400000⟩) (fun _ _ => True) (by decide +kernel)
  obtain ⟨eh, loads, as, hh, hentry, -, himage⟩ := loaded_image_matches takesTurns entry
    (Vnode.serves_onePiece twoSegments) (fresh_newSpace _) ⟨by decide, by decide⟩ hrun
  obtain ⟨rfl, rfl⟩ := headers_twoSegments.unique hh
  have htext := himage [] _ _ rfl
  have hbss := himage [_] _ [] rfl
  exact ⟨entry, m', hrun, hentry, (htext 3 (by decide)).2.2 (by decide +kernel),
    (htext 7 (by decide)).2.2 (by decide +kernel), (hbss 0 (by decide)).2.2 (by simp)⟩

end Userprog

end Os161
