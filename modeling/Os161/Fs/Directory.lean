import Os161.Common.Slots
import Os161.Fs.Io
import Os161.Fs.Accounts
/-!
# The directory

The root directory as a table of slots (`Sfs.dir`), each with a name and an
inode number, and what `sfs_dir_findname`, `sfs_dir_link` and `sfs_dir_unlink`
do to it. A slot has 64 bytes and never lies in two blocks, so that it is
written as a whole or not at all.
-/

namespace Os161

namespace Fs

open Prog Sfs List Option
open Userprog (UioRw wordBytes)

variable {s s' : Sfs} {L : UInt32 → Prop} {x y : UInt32} {v : SfsVnode} {k n : ℕ}

/-! ## The table -/

namespace SfsDir

/-- The name in an entry, as `sfs_dir_findname` compares it. -/
def key (sd : SfsDir) : List UInt8 := cstring (sd.name.take 59)

/-- What an entry says; one without an inode is empty. -/
def entry (sd : SfsDir) : Option (List UInt8 × UInt32) :=
  if sd.ino = 0 then none else some (sd.key, sd.ino)

theorem ofBytes_slice_ino (f : ℕ → UInt8) (o : ℕ) (hn : 4 ≤ n) :
    (ofBytes (slice f o n)).ino = wordFrom f o := by
  show wordFrom (fun i => (slice f o n).getD i 0) 0 = wordFrom f o
  refine wordFrom_congr fun j hj => ?_
  rw [getD_slice (by omega), Nat.zero_add]

end SfsDir

namespace Sfs

/-- A slot of the directory. -/
def slot (s : Sfs) (k : ℕ) : SfsDir := SfsDir.ofBytes (slice (s.byte rootIno) (64 * k) 64)

/-- **The directory.** -/
def dir (s : Sfs) : Slots (List UInt8) UInt32 where
  size := s.nslots
  slot k := if k < s.nslots then (s.slot k).entry else none
  slot_of_ge k hk := if_neg (by omega)

theorem slot_ino (s : Sfs) (k : ℕ) : (s.slot k).ino = s.slotIno k := by
  exact SfsDir.ofBytes_slice_ino _ _ (by omega)

theorem dir_slot (h : k < s.nslots) : s.dir.slot k = (s.slot k).entry := if_pos h

variable {name : List UInt8}

theorem dir_slot_eq_some (h : s.dir.slot k = some (name, x)) :
    k < s.nslots ∧ s.slotIno k = x ∧ x ≠ 0 ∧ (s.slot k).key = name := by
  have hk : k < s.nslots := Slots.lt_size h
  rw [dir_slot hk] at h
  unfold SfsDir.entry at h
  split at h
  · cases h
  · rename_i h0
    cases h
    exact ⟨hk, (s.slot_ino k).symm, h0, rfl⟩

/-- **The inodes that the directory names.** -/
theorem named_iff : s.Named x ↔ 0 < s.dir.count x := by
  rw [Slots.count_pos_iff]
  constructor
  · rintro ⟨h0, k, hk, rfl⟩
    refine ⟨k, (s.slot k).key, ?_⟩
    rw [dir_slot hk]
    unfold SfsDir.entry
    rw [slot_ino, if_neg h0]
  · rintro ⟨k, name, h⟩
    obtain ⟨hk, hx, h0, -⟩ := dir_slot_eq_some h
    exact ⟨h0, k, hk, hx⟩

/-- The directory comes from the size and the bytes of the root. -/
theorem dir_congr (hsize : (s'.inode rootIno).size = (s.inode rootIno).size)
    (hbyte : s'.byte rootIno = s.byte rootIno) : s'.dir = s.dir := by
  unfold dir nslots slot
  simp only [hsize, hbyte]

end Sfs

/-- **The directory is in order**: it has whole slots, at most as many as a file
has room for, and no name twice. -/
structure DirOk (s : Sfs) : Prop where
  type : (s.inode rootIno).type = typeDir
  aligned : (s.inode rootIno).size.toNat % 64 = 0
  max : (s.inode rootIno).size.toNat ≤ 143 * 512
  unique : s.dir.Unique

theorem DirOk.size_eq (h : DirOk s) : (s.inode rootIno).size.toNat = 64 * s.nslots := by
  have := h.aligned
  unfold nslots
  omega

theorem DirOk.nslots_le (h : DirOk s) : s.nslots ≤ 1144 := by
  have := h.max
  have := h.size_eq
  omega

theorem DirOk.size_off (h : DirOk s) : s.size rootIno = (64 * s.nslots : ℕ) := by
  have := h.nslots_le
  unfold size
  rw [h.size_eq, off32_eq (by omega) (by omega)]

/-! ## Reading and writing a slot -/

/-- A `uio` for a slot. -/
theorem slotUio_ok (rw : UioRw) {bytes : List UInt8} (hlen : bytes.length = 64) (hk : k < 2 ^ 16) :
    (mkKuio bytes (off32 (k * 64)) rw).Ok ∧ (mkKuio bytes (off32 (k * 64)) rw).pos = 64 * k := by
  have hoff : off32 ((k : ℤ) * 64) = 64 * k := by
    rw [off32_eq (by omega) (by omega)]
    omega
  have hpos : (mkKuio bytes (off32 (k * 64)) rw).offset = 64 * k := hoff
  refine ⟨⟨?_, ?_, le_refl _, ?_⟩, ?_⟩
  · omega
  · omega
  · show bytes.length < 2 ^ 32
    omega
  · unfold Uio.pos
    omega

/-- **A slot is read.** -/
theorem wp_sfsReaddir (h : s.Core L) (hv : s.vnode? rootIno = some v) (hd : DirOk s)
    (hk : k < s.nslots) :
    wp (sfsReaddir rootIno k) (fun sd s' => sd = s.slot k ∧ s' = s) (fun _ _ => False) s := by
  have hle := hd.nslots_le
  have hlen : (replicate 64 (0 : UInt8)).length = 64 := length_replicate
  obtain ⟨hok, hpos⟩ := slotUio_ok .read hlen (show k < 2 ^ 16 by omega)
  unfold sfsReaddir
  obtain ⟨u, hu⟩ : ∃ u, mkKuio (replicate 64 0) (off32 (k * 64)) .read = u := ⟨_, rfl⟩
  have hfresh : u.moved = [] := by rw [← hu]; rfl
  have hresid : u.resid = 64 := by rw [← hu]; exact hlen
  have hrw : u.rw = .read := by rw [← hu]; rfl
  have huser : u.user = none := by rw [← hu]; rfl
  rw [hu] at hok hpos ⊢
  rw [wp_bind, wp_withUio]
  refine wp_mono (wp_sfsIo (r := ⟨s, u⟩) h hv hok) ?_ ?_
  · rintro _ r ⟨hdone, -⟩
    have hcount : Io.count rootIno ⟨s, u⟩ = 64 := by
      unfold Io.count
      rw [hrw]
      show (min (u.resid : ℤ) (s.size rootIno - u.pos)).toNat = 64
      rw [hd.size_off, hresid, hpos]
      omega
    have hgone : Io.gone rootIno ⟨s, u⟩ 64 = slice (s.byte rootIno) (64 * k) 64 := by
      unfold Io.gone
      rw [hrw, hpos]
    have huio : r.uio = u.advance (slice (s.byte rootIno) (64 * k) 64) := by
      rw [hdone.uio, hcount, hgone]
    have hend : r.uio.resid = 0 := by
      rw [huio, hok.resid_advance (by rw [length_slice, hresid]), length_slice, hresid]
    have hmoved : r.uio.moved = slice (s.byte rootIno) (64 * k) 64 := by
      rw [huio]
      show u.moved ++ _ = _
      rw [hfresh, nil_append]
    rw [wp_assert_bind hend, wp_pure, hmoved]
    exact ⟨rfl, hdone.look hrw⟩
  · rintro e r ⟨m, n, hn, -, hhalf⟩
    have hn' : n ≤ 64 := by
      rw [← hresid]
      exact hn
    rcases hhalf.cause with ⟨-, hw, -⟩ | ⟨-, hpast⟩ | ⟨-, m', hm', -⟩
    · rw [show (Io.mk s u).uio.rw = .read from hrw] at hw
      cases hw
    · have hpast' : 143 * 512 < 64 * k + n := by
        rw [← hpos]
        exact hpast
      omega
    · rw [show (Io.mk s u).uio.user = none from huser] at hm'
      cases hm'

theorem off32_inj {a b : UInt32} (h : off32 a.toNat = off32 b.toNat) : a = b := by
  have ha := a.toNat_lt
  have hb := b.toNat_lt
  rw [← UInt32.toNat_inj]
  unfold off32 at h
  omega

theorem toNat_of_off32 {a : UInt32} {m : ℕ} (hm : m < 2 ^ 31) (h : off32 a.toNat = m) :
    a.toNat = m := by
  have ha := a.toNat_lt
  unfold off32 at h
  omega

/-- A slot has been written. -/
structure SlotWritten (s s' : Sfs) (L : UInt32 → Prop) (k : ℕ) (sd : SfsDir) : Prop where
  effect : Effect s s' L rootIno
  files : ∀ y, L y → y ≠ rootIno → s'.byte y = s.byte y
  size : (s'.inode rootIno).size.toNat = 64 * max s.nslots (k + 1)
  slot : ∀ j, s'.slot j = if j = k then sd else s.slot j

/-- Work on the root has come to nothing. -/
structure DirKept (s s' : Sfs) (L : UInt32 → Prop) : Prop where
  effect : Effect s s' L rootIno
  size : ∀ y, L y → (s'.inode y).size = (s.inode y).size
  files : ∀ y, L y → s'.byte y = s.byte y

theorem slot_patch {bytes : List UInt8} (hlen : bytes.length = 64) (f : ℕ → UInt8) (k j : ℕ) :
    slice (patch f (64 * k) bytes) (64 * j) 64 =
      if j = k then bytes else slice f (64 * j) 64 := by
  split
  · rename_i hj
    rw [hj]
    have := slice_patch (f := f) (o := 64 * k) (l := bytes)
    rwa [hlen] at this
  · exact slice_patch_of_disjoint (by rw [hlen]; omega)

/-- **A slot is written**, or there is no space for it. -/
theorem wp_sfsWritedir (h : s.Core L) (hv : s.vnode? rootIno = some v) (hd : DirOk s)
    (hk : k ≤ s.nslots) (sd : SfsDir) (hlen : sd.name.length = 60) :
    wp (sfsWritedir rootIno sd k) (fun _ s' => SlotWritten s s' L k sd)
      (fun e s' => DirKept s s' L ∧
        (e = .error .ENOSPC ∧ s.NoRoom s' rootIno (k / 8) ∨ e = .error .EINVAL ∧ 1144 ≤ k)) s := by
  have hle := hd.nslots_le
  have hx : L rootIno := h.loaded _ v hv
  have hbytes : sd.toBytes.length = 64 := by
    unfold SfsDir.toBytes
    rw [length_append, hlen]
    rfl
  obtain ⟨hok, hpos⟩ := slotUio_ok .write hbytes (show k < 2 ^ 16 by omega)
  unfold sfsWritedir
  obtain ⟨u, hu⟩ : ∃ u, mkKuio sd.toBytes (off32 (k * 64)) .write = u := ⟨_, rfl⟩
  have hbase : u.base = sd.toBytes := by rw [← hu]; rfl
  have hresid : u.resid = 64 := by rw [← hu]; exact hbytes
  have hrw : u.rw = .write := by rw [← hu]; rfl
  have huser : u.user = none := by rw [← hu]; rfl
  rw [hu] at hok hpos ⊢
  rw [wp_bind, wp_withUio]
  refine wp_mono (wp_sfsIo (r := ⟨s, u⟩) h hv hok) ?_ ?_
  · rintro _ r ⟨hdone, -⟩
    have hcount : Io.count rootIno ⟨s, u⟩ = 64 := by
      unfold Io.count
      rw [hrw]
      exact hresid
    rw [hcount] at hdone
    have htake : u.base.take 64 = sd.toBytes := by
      rw [hbase, ← hbytes, take_length]
    have hend : r.uio.resid = 0 := by
      have hgone : Io.gone rootIno ⟨s, u⟩ 64 = sd.toBytes := by
        unfold Io.gone
        rw [hrw]
        exact htake
      rw [hdone.uio, hgone, hok.resid_advance (by rw [hbytes, hresid]), hbytes, hresid]
    have hroot : r.fs.byte rootIno = patch (s.byte rootIno) (64 * k) sd.toBytes := by
      rw [hdone.data rootIno hx]
      unfold Io.after
      rw [if_pos ⟨hrw, rfl⟩]
      rw [hpos, htake]
    rw [wp_assert, if_pos hend]
    refine ⟨hdone.effect, fun y hy hne => ?_, ?_, fun j => ?_⟩
    · rw [hdone.data y hy]
      exact if_neg fun hc => hne hc.2
    · have hsize := hdone.size rootIno hx
      rw [if_pos ⟨hrw, rfl⟩] at hsize
      refine toNat_of_off32 (by omega) (hsize.trans ?_)
      rw [hd.size_off, hpos]
      omega
    · unfold slot
      rw [hroot, slot_patch hbytes]
      split
      · exact SfsDir.ofBytes_toBytes sd
      · rfl
  · rintro e r ⟨m, n, hn, hdone, hhalf⟩
    have hn' : n ≤ 64 := by
      rw [← hresid]
      exact hn
    have hnofault : ¬ u.Faults n := by
      rintro ⟨m', hm', -⟩
      rw [huser] at hm'
      cases hm'
    have hm0 : m = 0 := by
      -- a slot lies in one block, and nothing has gone or whole blocks
      rcases hhalf.part with hm | hm
      · exact hm
      rcases hhalf.whole with hm' | hm' | hm'
      · exact hm'
      · have hmod : (u.pos + m) % 512 = 0 := hm'
        omega
      · exact absurd hm' hnofault
    subst hm0
    refine ⟨⟨hdone.effect, fun y hy => off32_inj ?_, fun y hy => ?_⟩, ?_⟩
    · have hsize := hdone.size y hy
      have hsame : r.fs.size y = s.size y := by
        rw [hsize]
        split
        · rename_i hc
          rw [hc.2]
          rw [hd.size_off, hpos]
          omega
        · rfl
      exact hsame
    · rw [hdone.data y hy]
      unfold Io.after
      split
      · rename_i hc
        rw [take_zero, patch_nil, hc.2]
      · rfl
    · rcases hhalf.cause with ⟨he, -, fb, hfb, hlt, hge⟩ | ⟨he, hpast⟩ | ⟨-, hfault⟩
      · have hlt' : 64 * k < 512 * (fb + 1) := hpos ▸ hlt
        have hge' : 512 * fb < 64 * k + n := hpos ▸ hge
        have heq : fb = k / 8 := by omega
        rw [heq] at hfb
        exact .inl ⟨he, hfb⟩
      · have hpast' : 143 * 512 < 64 * k + n := hpos ▸ hpast
        exact .inr ⟨he, by omega⟩
      · exact absurd hfault hnofault

/-! ## The table after it -/

/-- A slot in use lies in a block of the directory. -/
theorem Sfs.ptr_of_slotIno (h : s.slotIno k ≠ 0) : s.ptr rootIno (k / 8) ≠ 0 := by
  intro hp
  refine h (wordFrom_eq fun j hj => ?_)
  unfold byte
  rw [show (64 * k + j) / 512 = k / 8 by omega, block_of_ptr_eq_zero hp, Sector.byte_zero]
  interval_cases j <;> rfl

theorem Sfs.lt_of_slotIno (h : s.slotIno k ≠ 0) : k < 1144 := by
  by_contra hge
  exact s.ptr_of_slotIno h (ptr_of_ge (by omega))

namespace SlotWritten

variable {sd : SfsDir} (h : SlotWritten s s' L k sd)
include h

theorem nslots_eq : s'.nslots = max s.nslots (k + 1) := by
  unfold nslots
  rw [h.size]
  exact Nat.mul_div_cancel_left _ (by omega)

theorem slotIno_eq : s'.slotIno k = sd.ino := by
  rw [← slot_ino, h.slot, if_pos rfl]

/-- An entry. -/
theorem dir_put (hk : k ≤ s.nslots) (h0 : sd.ino ≠ 0) :
    s'.dir = s.dir.put k (sd.key, sd.ino) := by
  refine Slots.ext h.nslots_eq (funext fun j => ?_)
  show (if j < s'.nslots then (s'.slot j).entry else none) =
    Function.update s.dir.slot k (some (sd.key, sd.ino)) j
  rw [h.nslots_eq, h.slot, Function.update_apply]
  by_cases hj : j = k
  · rw [if_pos hj, if_pos hj, if_pos (by omega)]
    exact if_neg h0
  · rw [if_neg hj, if_neg hj]
    have hlt : j < max s.nslots (k + 1) ↔ j < s.nslots := by omega
    simp only [hlt]
    rfl

/-- No entry. -/
theorem dir_clear (hk : k < s.nslots) (h0 : sd.ino = 0) : s'.dir = s.dir.clear k := by
  have hsize : max s.nslots (k + 1) = s.nslots := by omega
  refine Slots.ext (h.nslots_eq.trans hsize) (funext fun j => ?_)
  show (if j < s'.nslots then (s'.slot j).entry else none) = Function.update s.dir.slot k none j
  rw [h.nslots_eq, hsize, h.slot, Function.update_apply]
  by_cases hj : j = k
  · rw [if_pos hj, if_pos hj, if_pos (by omega)]
    exact if_pos h0
  · rw [if_neg hj, if_neg hj]
    rfl

/-- **The directory is still in order.** -/
theorem dirOk (hv : s.vnode? rootIno = some v) (hd : DirOk s) (hk : k < s.nslots ∨ sd.ino ≠ 0)
    (hunique : s'.dir.Unique) : DirOk s' where
  type := by
    obtain ⟨v', hv', hkeeps⟩ := h.effect.self v hv
    have htype := hd.type
    rw [inode_of_loaded hv] at htype
    rw [inode_of_loaded hv', hkeeps.type, htype]
  aligned := by
    rw [h.size]
    omega
  max := by
    have hle := hd.nslots_le
    have hlt : k < 1144 := by
      rcases hk with hk | h0
      · omega
      · rw [← h.slotIno_eq] at h0
        exact lt_of_slotIno h0
    rw [h.size]
    omega
  unique := hunique

end SlotWritten

theorem DirKept.dir_eq (h : DirKept s s' L) (hx : L rootIno) : s'.dir = s.dir :=
  dir_congr (h.size _ hx) (h.files _ hx)

/-! ## Names -/

theorem CString.length_padded {name : CString} (h : name.bytes.length ≤ 59) :
    name.padded.length = 60 := by
  unfold CString.padded
  rw [length_append, length_replicate]
  omega

/-- **A name is read back as it was written.** -/
theorem SfsDir.key_padded {name : CString} (h : name.bytes.length ≤ 59) (target : UInt32) :
    SfsDir.key ⟨target, name.padded⟩ = name.bytes := by
  have htake : name.padded.take 59 =
      name.bytes ++ replicate (59 - name.bytes.length) 0 := by
    unfold CString.padded
    rw [take_append, take_of_length_le h, take_replicate]
    congr 2
    omega
  unfold key cstring
  rw [htake, takeWhile_append_of_pos]
  · cases 59 - name.bytes.length with
    | zero => exact append_nil _
    | succ n =>
      rw [replicate_succ, takeWhile_cons_of_neg (by decide), append_nil]
  · intro b hb
    refine decide_eq_true fun h0 => ?_
    rw [h0] at hb
    exact name.nul_not_mem hb

/-! ## Finding a name -/

/-- What a search has come upon in the first `n` slots. -/
structure FoundIn (d : Slots (List UInt8) UInt32) (name : List UInt8) (n : ℕ)
    (f : Found) : Prop where
  entry : ∀ i x, f.entry = some (i, x) ↔ i < n ∧ d.slot i = some (name, x)
  empty : ∀ i, f.emptyslot = some i → i < n ∧ d.slot i = none
  full : f.emptyslot = none → ∀ i < n, d.slot i ≠ none

namespace FoundIn

variable {d : Slots (List UInt8) UInt32} {name : List UInt8} {f : Found}

theorem zero : FoundIn d name 0 ⟨none, none⟩ where
  entry i x := by
    refine ⟨fun h => ?_, fun h => absurd h.1 (by omega)⟩
    cases h
  empty i h := by cases h
  full _ i h := absurd h (by omega)

/-- The next slot is empty. -/
theorem next_empty (h : FoundIn d name n f) (hn : d.slot n = none) :
    FoundIn d name (n + 1) { f with emptyslot := some n } where
  entry i x := by
    rw [h.entry]
    refine ⟨fun hi => ⟨by omega, hi.2⟩, fun hi => ⟨?_, hi.2⟩⟩
    by_contra hge
    rw [show i = n by omega, hn] at hi
    cases hi.2
  empty i hi := by
    cases hi
    exact ⟨by omega, hn⟩
  full hi := by cases hi

/-- The next slot has the name. -/
theorem next_name (h : FoundIn d name n f) (hn : d.slot n = some (name, x)) (hd : d.Unique) :
    f.entry = none ∧ FoundIn d name (n + 1) { f with entry := some (n, x) } := by
  refine ⟨?_, ?_, fun i hi => ?_, fun hi i hlt => ?_⟩
  · cases he : f.entry with
    | none => rfl
    | some p =>
      obtain ⟨hlt, hp⟩ := (h.entry p.1 p.2).1 he
      have := hd p.1 n name p.2 x hp hn
      omega
  · intro i y
    constructor
    · intro he
      cases he
      exact ⟨by omega, hn⟩
    · rintro ⟨-, hi⟩
      obtain rfl := hd i n name y x hi hn
      rw [hn] at hi
      cases hi
      rfl
  · obtain ⟨hlt, hnone⟩ := h.empty i hi
    exact ⟨by omega, hnone⟩
  · by_cases hin : i = n
    · rw [hin, hn]
      exact some_ne_none _
    · exact h.full hi i (by omega)

/-- The next slot has another name. -/
theorem next_other {l : List UInt8} (h : FoundIn d name n f) (hn : d.slot n = some (l, x))
    (hl : l ≠ name) : FoundIn d name (n + 1) f where
  entry i y := by
    rw [h.entry]
    refine ⟨fun hi => ⟨by omega, hi.2⟩, fun hi => ⟨?_, hi.2⟩⟩
    by_contra hge
    rw [show i = n by omega, hn] at hi
    exact hl (congrArg Prod.fst (some.inj hi.2))
  empty i hi := by
    obtain ⟨hlt, hnone⟩ := h.empty i hi
    exact ⟨by omega, hnone⟩
  full hi i hlt := by
    by_cases hin : i = n
    · rw [hin, hn]
      exact some_ne_none _
    · exact h.full hi i (by omega)

/-- **A search of all slots looks a name up.** -/
theorem lookup_eq (h : FoundIn d name d.size f) (hd : d.Unique) :
    d.lookup name = f.entry.map Prod.snd := by
  refine ext fun x => ?_
  rw [Slots.lookup_eq_some_iff hd, map_eq_some_iff]
  constructor
  · rintro ⟨i, hi⟩
    exact ⟨(i, x), (h.entry i x).2 ⟨Slots.lt_size hi, hi⟩, rfl⟩
  · rintro ⟨⟨i, y⟩, he, rfl⟩
    exact ⟨i, ((h.entry i y).1 he).2⟩

end FoundIn

theorem wp_sfsDirNentries {Q : ℕ → Sfs → Prop} {E : Stop Errno → Sfs → Prop} (hd : DirOk s)
    (hv : s.vnode? rootIno = some v) : wp (sfsDirNentries rootIno) Q E s ↔ Q s.nslots s := by
  have hinode := inode_of_loaded hv
  have htype := hd.type
  have haligned := hd.aligned
  rw [hinode] at htype haligned
  unfold sfsDirNentries
  rw [wp_bind, wp_getVnode hv, wp_assert_bind htype, wp_assert_bind haligned, wp_pure]
  unfold nslots
  rw [hinode]

/-- **The directory has become `d`**, and it is in order. -/
structure DirDone (s s' : Sfs) (L : UInt32 → Prop) (d : Slots (List UInt8) UInt32) : Prop where
  effect : Effect s s' L rootIno
  files : ∀ y, L y → y ≠ rootIno → s'.byte y = s.byte y
  ok : DirOk s'
  dir : s'.dir = d

theorem DirDone.refl (h : s.Core L) (hd : DirOk s) : DirDone s s L s.dir :=
  ⟨.refl h, fun _ _ _ => rfl, hd, rfl⟩

theorem DirKept.dirDone (h : DirKept s s' L) (hv : s.vnode? rootIno = some v) (hd : DirOk s) :
    DirDone s s' L s.dir := by
  obtain ⟨v', hv', hkeeps⟩ := h.effect.self v hv
  have hx : L rootIno := h.effect.core.loaded _ v' hv'
  have hdir := h.dir_eq hx
  have hsize := h.size _ hx
  have htype := hd.type
  rw [inode_of_loaded hv] at htype
  refine ⟨h.effect, fun y hy _ => h.files y hy, ⟨?_, ?_, ?_, ?_⟩, hdir⟩
  · rw [inode_of_loaded hv', hkeeps.type, htype]
  · rw [hsize]
    exact hd.aligned
  · rw [hsize]
    exact hd.max
  · rw [hdir]
    exact hd.unique

/-- No slot of the directory is empty, and there can be no more of them. -/
def DirFull (d : Slots (List UInt8) UInt32) : Prop := ∀ i < 1144, d.slot i ≠ none

/-- How an entry can fail: the name is there, or it is too long, or there is no
space for it, on the disk or in the directory. -/
def LinkError (d : Slots (List UInt8) UInt32) (name : List UInt8) (full : Prop) (e : Stop Errno) :
    Prop :=
  e = .error .EEXIST ∧ d.lookup name ≠ none ∨
    d.lookup name = none ∧ (e = .error .ENAMETOOLONG ∧ 59 < name.length ∨
      name.length ≤ 59 ∧ (e = .error .ENOSPC ∧ full ∨ e = .error .EINVAL ∧ DirFull d))

theorem LinkError.error {d : Slots (List UInt8) UInt32} {full : Prop}
    {e : Stop Errno} (h : LinkError d name full e) : ∃ err, e = .error err := by
  rcases h with ⟨rfl, -⟩ | ⟨-, ⟨rfl, -⟩ | ⟨-, ⟨rfl, -⟩ | ⟨rfl, -⟩⟩⟩ <;> exact ⟨_, rfl⟩

theorem LinkError.mono {d : Slots (List UInt8) UInt32} {full full' : Prop}
    {e : Stop Errno} (h : LinkError d name full e) (hfull : full → full') :
    LinkError d name full' e :=
  h.imp_right fun h => h.imp_right fun h => h.imp_right fun h => h.imp_right fun h =>
    h.imp_left fun h => h.imp_right hfull

section Root

variable (h : s.Core L) (hv : s.vnode? rootIno = some v) (hd : DirOk s)
include h hv hd

/-- The loop of the search: the name is in one slot at most. -/
theorem wp_sfsDirFindnameFrom (name : CString) (n k : ℕ) (f : Found) (hk : k + n = s.nslots)
    (hf : FoundIn s.dir name.bytes k f) :
    wp (sfsDirFindnameFrom rootIno name n k f)
      (fun f' s' => s' = s ∧ FoundIn s.dir name.bytes s.nslots f') (fun _ _ => False) s := by
  induction n generalizing k f with
  | zero =>
    rw [sfsDirFindnameFrom, wp_pure]
    exact ⟨rfl, hk ▸ hf⟩
  | succ n ih =>
    have hlt : k < s.nslots := by omega
    have hslot := dir_slot hlt
    unfold SfsDir.entry at hslot
    rw [sfsDirFindnameFrom]
    refine wp_then (wp_sfsReaddir h hv hd hlt) ?_
    rintro sd s₁ ⟨hsd, hs₁⟩
    rw [hsd, hs₁, wp_ite]
    split
    · rename_i h0
      rw [if_pos h0] at hslot
      exact ih (k + 1) _ (by omega) (hf.next_empty hslot)
    rename_i h0
    rw [if_neg h0] at hslot
    split
    · rename_i hname
      rw [show (s.slot k).key = name.bytes from hname] at hslot
      obtain ⟨hnone, hnext⟩ := hf.next_name hslot hd.unique
      rw [wp_assert_bind hnone]
      exact ih (k + 1) _ (by omega) hnext
    · rename_i hname
      exact ih (k + 1) _ (by omega) (hf.next_other hslot hname)

/-- **`sfs_dir_findname`.** -/
theorem wp_sfsDirFindname (name : CString) :
    wp (sfsDirFindname rootIno name)
      (fun f s' => s' = s ∧ FoundIn s.dir name.bytes s.nslots f) (fun _ _ => False) s := by
  unfold sfsDirFindname
  rw [wp_bind, wp_sfsDirNentries hd hv]
  exact wp_sfsDirFindnameFrom h hv hd name s.nslots 0 _ (by omega) .zero

/-! ## Entries come and go -/

/-- `sfs_dir_link` of an inode, with the ways in which it can fail. -/
theorem wp_sfsDirLink (name : CString) {target : UInt32} (ht : target ≠ 0) :
    wp (sfsDirLink rootIno name target)
      (fun k s' => s.dir.lookup name.bytes = none ∧ name.bytes.length ≤ 59 ∧
        s.dir.slot k = none ∧ DirDone s s' L (s.dir.put k (name.bytes, target)))
      (fun e s' => LinkError s.dir name.bytes s'.Full e ∧ DirDone s s' L s.dir) s := by
  have hsame : DirDone s s L s.dir := .refl h hd
  unfold sfsDirLink
  rw [wp_bind]
  refine wp_returns (wp_sfsDirFindname h hv hd name) ?_
  rintro f s₁ ⟨hs₁, hf⟩
  have hlookup := hf.lookup_eq hd.unique
  rw [hs₁, wp_bind, wp_failIf]
  split
  · rename_i he
    refine ⟨.inl ⟨rfl, ?_⟩, hsame⟩
    rw [hlookup]
    simpa using he
  rename_i he
  rw [not_not] at he
  rw [he] at hlookup
  rw [wp_bind, wp_failIf]
  split
  · exact ⟨.inr ⟨hlookup, .inl ⟨rfl, by omega⟩⟩, hsame⟩
  have hlen' : name.bytes.length ≤ 59 := by omega
  have hwrite : ∀ k ≤ s.nslots, s.dir.slot k = none → (1144 ≤ k → DirFull s.dir) →
      wp (do
          sfsWritedir rootIno ⟨target, name.padded⟩ k
          pure k)
        (fun k s' => s.dir.lookup name.bytes = none ∧ name.bytes.length ≤ 59 ∧
          s.dir.slot k = none ∧ DirDone s s' L (s.dir.put k (name.bytes, target)))
        (fun e s' => LinkError s.dir name.bytes s'.Full e ∧ DirDone s s' L s.dir) s := by
    intro k hk hnone hfull
    refine wp_seq (wp_sfsWritedir h hv hd hk _ (CString.length_padded hlen')) ?_ ?_
    · intro _ s₃ hw
      have hdir : s₃.dir = s.dir.put k (name.bytes, target) := by
        rw [hw.dir_put hk ht, SfsDir.key_padded hlen']
      have hunique : s₃.dir.Unique := by
        rw [hdir]
        exact hd.unique.put hlookup
      rw [wp_pure]
      exact ⟨hlookup, hlen', hnone, hw.effect, hw.files, hw.dirOk hv hd (.inr ht) hunique, hdir⟩
    · rintro e s₃ ⟨hkept, he⟩
      refine ⟨.inr ⟨hlookup, .inr ⟨hlen', ?_⟩⟩, hkept.dirDone hv hd⟩
      exact he.imp (fun h => ⟨h.1, h.2.2⟩) fun h => ⟨h.1, hfull h.2⟩
  -- the slot is the last empty one, or a new one at the end
  cases hempty : f.emptyslot with
  | some i =>
    obtain ⟨hlt, hnone⟩ := hf.empty i hempty
    exact hwrite i hlt.le hnone fun hge => absurd hd.nslots_le (by omega)
  | none =>
    rw [wp_bind, wp_sfsDirNentries hd hv]
    exact hwrite _ (le_refl _) (s.dir.slot_of_ge _ (le_refl _)) fun hge i hi =>
      hf.full hempty i (by omega)

/-- **`sfs_dir_unlink`** of a slot in use needs no space. -/
theorem wp_sfsDirUnlink (hk : s.dir.slot k = some (name, x)) :
    wp (sfsDirUnlink rootIno k) (fun _ s' => DirDone s s' L (s.dir.clear k))
      (fun _ _ => False) s := by
  obtain ⟨hlt, hino, h0, -⟩ := dir_slot_eq_some hk
  have huse : s.slotIno k ≠ 0 := by
    rw [hino]
    exact h0
  refine wp_mono (wp_sfsWritedir h hv hd hlt.le ⟨0, replicate 60 0⟩
    length_replicate) ?_ ?_
  · intro _ s₁ hw
    have hdir : s₁.dir = s.dir.clear k := hw.dir_clear hlt rfl
    have hunique : s₁.dir.Unique := by
      rw [hdir]
      exact hd.unique.clear
    exact ⟨hw.effect, hw.files, hw.dirOk hv hd (.inl hlt) hunique, hdir⟩
  · rintro e s₁ ⟨-, ⟨-, hhole⟩ | ⟨-, hge⟩⟩
    · exact ptr_of_slotIno huse hhole.1
    · exact absurd (lt_of_slotIno huse) (by omega)

end Root

end Fs

end Os161
