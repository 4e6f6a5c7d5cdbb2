import Os161.Fs.Bmap
import Os161.Common.Sparse
/-!
# `sfs_io`

A request is cut into a leading partial block, whole blocks and a trailing
partial block. Each of them moves a run of bytes between the buffer and the
file (`Moved`), and these runs compose to one: what the request as a whole does
is to move the bytes from its offset on (`wp_sfsIo`). If it fails half-way, the
bytes before the failure have been moved (`Stopped`).
-/

namespace Os161

namespace Fs

open Prog Sector Sfs List
open Userprog (UioRw)

/-! ## The position in a `uio` -/

namespace Uio

variable {u : Uio} {a b : List UInt8} {n k : ℕ}

/-- A `uio` at a position that `sfs_tryseek` lets through, with a buffer that
holds what is asked for. -/
structure Ok (u : Uio) : Prop where
  nonneg : 0 ≤ u.offset
  lt : u.offset < 2 ^ 31
  resid_le : u.resid ≤ u.base.length
  resid_lt : u.resid < 2 ^ 32

/-- The offset, as a position. -/
def pos (u : Uio) : ℕ := u.offset.toNat

theorem Ok.offset_eq (h : u.Ok) : u.offset = u.pos := (Int.toNat_of_nonneg h.nonneg).symm

theorem Ok.pos_lt (h : u.Ok) : u.pos < 2 ^ 31 := by
  have := h.lt
  have := h.offset_eq
  omega

/-- **Two moves in a row are one.** -/
theorem advance_advance (u : Uio) (a b : List UInt8) :
    (u.advance a).advance b = u.advance (a ++ b) := by
  have hoffset : off32 (off32 (u.offset + a.length) + b.length) =
      off32 (u.offset + (a ++ b).length) := by
    rw [length_append]
    unfold off32
    omega
  have hresid : word32 ((word32 (u.resid - a.length) : ℕ) - b.length) =
      word32 (u.resid - (a ++ b).length) := by
    rw [length_append]
    unfold word32
    omega
  have huser : (u.user.map (· - a.length)).map (· - b.length) =
      u.user.map (· - (a ++ b).length) := by
    rw [length_append, Option.map_map]
    congr 1
    funext n
    exact Nat.sub_sub n a.length b.length
  unfold advance
  simp only [hoffset, hresid, huser, append_assoc, drop_drop, length_append]

theorem advance_nil_of (hoffset : off32 u.offset = u.offset) (hlt : u.resid < 2 ^ 32) :
    u.advance [] = u := by
  have hresid : word32 u.resid = u.resid := word32_eq hlt
  have huser : u.user.map (· - 0) = u.user := by
    cases u.user <;> rfl
  unfold advance
  simp only [length_nil, Nat.cast_zero, add_zero, sub_zero, append_nil, drop_zero,
    hoffset, hresid, huser]

theorem advance_nil (h : u.Ok) : u.advance [] = u :=
  advance_nil_of (off32_eq (by have := h.nonneg; omega) h.lt) h.resid_lt

theorem Ok.offset_advance (h : u.Ok) (hlt : u.pos + a.length < 2 ^ 31) :
    (u.advance a).offset = (u.pos + a.length : ℕ) := by
  have := h.offset_eq
  show off32 _ = _
  rw [off32_eq (by omega) (by omega)]
  omega

theorem Ok.pos_advance (h : u.Ok) (hlt : u.pos + a.length < 2 ^ 31) :
    (u.advance a).pos = u.pos + a.length := by
  unfold pos
  rw [h.offset_advance hlt]
  rfl

theorem Ok.resid_advance (h : u.Ok) (hle : a.length ≤ u.resid) :
    (u.advance a).resid = u.resid - a.length := by
  have := h.resid_lt
  show word32 _ = _
  unfold word32
  omega

theorem Ok.advance (h : u.Ok) (hlt : u.pos + a.length < 2 ^ 31) (hle : a.length ≤ u.resid) :
    (u.advance a).Ok where
  nonneg := by rw [h.offset_advance hlt]; omega
  lt := by rw [h.offset_advance hlt]; omega
  resid_le := by
    have := h.resid_le
    rw [h.resid_advance hle]
    show _ ≤ (u.base.drop _).length
    rw [length_drop]
    omega
  resid_lt := by
    have := h.resid_lt
    rw [h.resid_advance hle]
    omega

theorem Faults.of_advance (h : (u.advance a).Faults n) (hn : a.length + n ≤ k) : u.Faults k := by
  obtain ⟨m, hm, hlt⟩ := h
  obtain ⟨m', hm', rfl⟩ := Option.map_eq_some_iff.1 hm
  exact ⟨m', hm', by omega⟩

theorem faults_congr {u' : Uio} (h : u'.user = u.user) : u'.Faults n ↔ u.Faults n := by
  unfold Faults
  rw [h]

theorem Faults.mono (h : u.Faults n) (hn : n ≤ k) : u.Faults k := by
  obtain ⟨m, hm, hlt⟩ := h
  exact ⟨m, hm, by omega⟩

/-- **A `uiomove` of what is asked for**, or of less. -/
theorem Ok.wp_uiomove {σ : Type} {r : Io σ} {Q : List UInt8 → Io σ → Prop}
    {E : Stop Errno → Io σ → Prop} (h : r.uio.Ok) {ptr : List UInt8} (hn : n ≤ r.uio.resid) :
    wp (uiomove ptr n) Q E r ↔
      if r.uio.Faults n then E (.error .EFAULT) r
      else Q (r.uio.taken ptr n) { r with uio := r.uio.advance (r.uio.taken ptr n) } := by
  by_cases h0 : n = 0
  · subst h0
    have hfaults : ¬ r.uio.Faults 0 := by
      rintro ⟨m, -, hm⟩
      omega
    have htaken : r.uio.taken ptr 0 = [] := by
      unfold taken
      split <;> rfl
    unfold uiomove
    rw [wp_of_ok (uiomoveLoop_zero 0 ptr r), if_neg hfaults, htaken, advance_nil h]
  · exact Fs.wp_uiomove (by omega) (by omega) (le_trans hn h.resid_le)

end Uio

/-! ## Runs of bytes -/

variable {s s' : Sfs} {L : UInt32 → Prop} {x y b : UInt32} {fb n k m : ℕ} {v : SfsVnode}
variable {r r' r'' : Io Sfs} {e : Stop Errno}

namespace Io

/-- The next `k` bytes that the request moves. -/
def gone (x : UInt32) (r : Io Sfs) (k : ℕ) : List UInt8 :=
  match r.uio.rw with
  | .read => slice (r.fs.byte x) r.uio.pos k
  | .write => r.uio.base.take k

/-- The bytes of file `y` after the request has moved `k` bytes. -/
def after (x : UInt32) (r : Io Sfs) (k : ℕ) (y : UInt32) : ℕ → UInt8 :=
  if r.uio.rw = .write ∧ y = x then patch (r.fs.byte x) r.uio.pos (r.uio.base.take k)
  else r.fs.byte y

theorem length_gone (hk : k ≤ r.uio.base.length) : (r.gone x k).length = k := by
  unfold gone
  split
  · exact length_slice
  · rw [length_take]
    omega

end Io

/-- **`k` bytes have been moved** between the buffer and file `x`. -/
structure Moved (L : UInt32 → Prop) (x : UInt32) (r r' : Io Sfs) (k : ℕ) : Prop where
  effect : Effect r.fs r'.fs L x
  uio : r'.uio = r.uio.advance (r.gone x k)
  size : ∀ y, L y → (r'.fs.inode y).size = (r.fs.inode y).size
  data : ∀ y, L y → r'.fs.byte y = r.after x k y
  look : r.uio.rw = .read → r'.fs = r.fs
  maps : ∀ fb, r.fs.ptr x fb ≠ 0 → r'.fs.ptr x fb ≠ 0

theorem SameFiles.byte_eq (h : SameFiles s s' L) (hy : L y) : s'.byte y = s.byte y :=
  block_byte_congr fun fb => ((h y hy).2 fb).1

/-- Nothing has been moved so far. -/
theorem Moved.of_files (hx : L x) (he : Effect r.fs s' L x) (hf : SameFiles r.fs s' L)
    (hok : r.uio.Ok) (hlook : r.uio.rw = .read → s' = r.fs) : Moved L x r ⟨s', r.uio⟩ 0 where
  effect := he
  uio := by
    have hgone : r.gone x 0 = [] := by
      unfold Io.gone
      split <;> rfl
    rw [hgone, Uio.advance_nil hok]
  size y hy := (hf y hy).1
  data y hy := by
    unfold Io.after
    rw [take_zero, patch_nil]
    split
    · rename_i h
      rw [h.2]
      exact hf.byte_eq (h.2 ▸ hy)
    · exact hf.byte_eq hy
  look := hlook
  maps fb := ((hf x hx).2 fb).2

theorem Moved.refl (hx : L x) (h : r.fs.Core L) (hok : r.uio.Ok) : Moved L x r r 0 :=
  .of_files hx (.refl h) .refl hok fun _ => rfl

theorem Moved.rw_eq (h : Moved L x r r' k) : r'.uio.rw = r.uio.rw := by rw [h.uio]; rfl

theorem Moved.ok (h : Moved L x r r' k) (hok : r.uio.Ok) (hk : k ≤ r.uio.resid)
    (hlt : r.uio.pos + k < 2 ^ 31) :
    r'.uio.Ok ∧ r'.uio.pos = r.uio.pos + k ∧ r'.uio.resid = r.uio.resid - k := by
  have hlen : (r.gone x k).length = k := Io.length_gone (le_trans hk hok.resid_le)
  rw [h.uio]
  refine ⟨hok.advance (by omega) (by omega), ?_, ?_⟩
  · rw [hok.pos_advance (by omega), hlen]
  · rw [hok.resid_advance (by omega), hlen]

/-- **Two runs in a row are one.** -/
theorem Moved.trans (hx : L x) (h : Moved L x r r' k) (h' : Moved L x r' r'' m) (hok : r.uio.Ok)
    (hkm : k + m ≤ r.uio.resid) (hlt : r.uio.pos + k < 2 ^ 31) : Moved L x r r'' (k + m) := by
  have hlen : (r.gone x k).length = k := Io.length_gone (by have := hok.resid_le; omega)
  obtain ⟨-, hpos, -⟩ := h.ok hok (by omega) hlt
  have hbase : r'.uio.base = r.uio.base.drop k := by
    rw [h.uio]
    show r.uio.base.drop (r.gone x k).length = _
    rw [hlen]
  have htake : r.uio.base.take (k + m) = r.uio.base.take k ++ r'.uio.base.take m := by
    rw [hbase, take_add]
  have hgone : r.gone x (k + m) = r.gone x k ++ r'.gone x m := by
    unfold Io.gone
    rw [h.rw_eq]
    cases hrw : r.uio.rw with
    | read =>
      have hbyte : r'.fs.byte x = r.fs.byte x := by
        rw [h.data x hx]
        exact if_neg fun hc => by rw [hrw] at hc; cases hc.1
      rw [hbyte, hpos, slice_add]
    | write => exact htake
  have hafter : ∀ y, L y → r''.fs.byte y = r.after x (k + m) y := by
    intro y hy
    rw [h'.data y hy]
    unfold Io.after
    rw [h.rw_eq]
    split
    · rename_i hc
      rw [h.data x hx, htake, patch_append, hpos]
      unfold Io.after
      rw [if_pos ⟨hc.1, rfl⟩]
      congr 2
      rw [length_take]
      have := hok.resid_le
      omega
    · rename_i hc
      rw [h.data y hy]
      exact if_neg hc
  exact ⟨h.effect.trans h'.effect, by rw [h'.uio, h.uio, Uio.advance_advance, hgone],
    fun y hy => (h'.size y hy).trans (h.size y hy), hafter,
    fun hrw => (h'.look (h.rw_eq.trans hrw)).trans (h.look hrw),
    fun fb hp => h'.maps fb (h.maps fb hp)⟩

/-- How a request of `n` bytes can fail after `k` bytes: these are whole blocks
unless the buffer has faulted, and there is no space only if one of the blocks
was a hole. -/
structure Halfway (hole : ℕ → Prop) (u : Uio) (n : ℕ) (e : Stop Errno) (k : ℕ) : Prop where
  part : k = 0 ∨ k < n
  whole : k = 0 ∨ (u.pos + k) % 512 = 0 ∨ u.Faults n
  cause : (e = .error .ENOSPC ∧ u.rw = .write ∧
      ∃ fb, hole fb ∧ u.pos < 512 * (fb + 1) ∧ 512 * fb < u.pos + n) ∨
    e = .error .EINVAL ∧ 143 * 512 < u.pos + n ∨ e = .error .EFAULT ∧ u.Faults n
  lt : u.pos + k < 2 ^ 31

/-- There was a hole in the file, and in the end there is no space left. -/
def Sfs.NoRoom (s s' : Sfs) (x : UInt32) (fb : ℕ) : Prop := s.ptr x fb = 0 ∧ s'.Full

variable {hole : ℕ → Prop}

theorem Halfway.error {u : Uio} (h : Halfway hole u n e k) : ∃ err, e = .error err := by
  rcases h.cause with ⟨rfl, -⟩ | ⟨rfl, -⟩ | ⟨rfl, -⟩ <;> exact ⟨_, rfl⟩

theorem Halfway.mono {u : Uio} (h : Halfway hole u n e k) (hn : n ≤ m) : Halfway hole u m e k where
  part := h.part.imp_right fun hk => by omega
  whole := h.whole.imp_right fun hw => hw.imp_right fun hf => hf.mono hn
  cause := by
    rcases h.cause with ⟨he, hrw, fb, hfb, hlt, hge⟩ | ⟨he, hc⟩ | ⟨he, hf⟩
    · exact .inl ⟨he, hrw, fb, hfb, hlt, by omega⟩
    · exact .inr (.inl ⟨he, by omega⟩)
    · exact .inr (.inr ⟨he, hf.mono hn⟩)
  lt := h.lt

/-- **A request of `n` bytes has stopped with an error.** -/
structure Stopped (L : UInt32 → Prop) (x : UInt32) (r r' : Io Sfs) (n : ℕ) (e : Stop Errno)
    (k : ℕ) : Prop where
  moved : Moved L x r r' k
  half : Halfway (r.fs.NoRoom r'.fs x) r.uio n e k

/-- An error after a run of bytes that has ended with a block. -/
theorem Stopped.after (hx : L x) (h : Moved L x r r' k) (h' : Stopped L x r' r'' n e m)
    (hok : r.uio.Ok) (hn : 0 < n) (hkn : k + n ≤ r.uio.resid) (hlt : r.uio.pos + k < 2 ^ 31)
    (hblock : (r.uio.pos + k) % 512 = 0) : Stopped L x r r'' (k + n) e (k + m) := by
  have hm : m < n := by
    rcases h'.half.part with hm | hm <;> omega
  obtain ⟨-, hpos, -⟩ := h.ok hok (by omega) hlt
  have hlen : (r.gone x k).length = k := Io.length_gone (by have := hok.resid_le; omega)
  have hfaults : r'.uio.Faults n → r.uio.Faults (k + n) := fun hf => by
    rw [h.uio] at hf
    exact hf.of_advance (by omega)
  have hwhole := h'.half.whole
  have hcause := h'.half.cause
  have hlt' := h'.half.lt
  rw [h.rw_eq] at hcause
  refine ⟨h.trans hx h'.moved hok (by omega) hlt, .inr (by omega), ?_, ?_, by omega⟩
  · rcases hwhole with rfl | hw | hf
    · exact .inr (.inl hblock)
    · exact .inr (.inl (by omega))
    · exact .inr (.inr (hfaults hf))
  · rcases hcause with ⟨he, hrw, fb, hfb, hlt₁, hge⟩ | ⟨he, hc⟩ | ⟨he, hf⟩
    · have hfb' : r.fs.NoRoom r''.fs x fb := by
        refine ⟨?_, hfb.2⟩
        by_contra hne
        exact h.maps fb hne hfb.1
      exact .inl ⟨he, hrw, fb, hfb', by omega, by omega⟩
    · exact .inr (.inl ⟨he, by omega⟩)
    · exact .inr (.inr ⟨he, hfaults hf⟩)

/-! ## Blocks and bytes -/

/-- The bytes of a file within one block. -/
theorem slice_byte {skip len : ℕ} (hlen : skip + len ≤ 512) :
    slice (s.byte x) (512 * fb + skip) len = ((s.block x fb).toList.drop skip).take len := by
  refine ext_getElem ?_ fun i hi hi' => ?_
  · rw [length_slice, length_take, length_drop, length_toList]
    omega
  · have hlt : i < len := by simpa using hi
    rw [← getD_eq_getElem _ 0 hi, getD_slice hlt, getElem_take, getElem_drop,
      ← getD_eq_getElem _ 0, getD_toList]
    unfold Sfs.byte
    rw [show (512 * fb + skip + i) / 512 = fb by omega,
      show (512 * fb + skip + i) % 512 = skip + i by omega]

/-- **A write to a block of a file changes the bytes of that block**, and no
other file. -/
theorem byte_setSector (h : s.Core L) (hx : L x) (hp : s.ptr x fb = b) (hb : b ≠ 0) {d : Sector}
    {skip : ℕ} {bytes : List UInt8} (hlen : skip + bytes.length ≤ 512)
    (hd : ∀ i < 512, d.byte i = patch (s.sector b).byte skip bytes i) (hy : L y) :
    (s.setSector b d).byte y =
      if y = x then patch (s.byte x) (512 * fb + skip) bytes else s.byte y := by
  have hr : s.ref L (.block x fb) = some b := ref_eq_some.2 ⟨hx, hp, hb⟩
  have hdata : s.DataOnly L b := h.dataOnly_of_block hr
  funext p
  have hbyte : (s.setSector b d).byte y p =
      (if s.ptr y (p / 512) = b then d else s.block y (p / 512)).byte (p % 512) := by
    unfold Sfs.byte
    rw [hdata.block_eq hy]
  rw [hbyte]
  by_cases hyx : y = x
  · subst hyx
    rw [if_pos rfl]
    by_cases hfb : p / 512 = fb
    · have hblock : s.block y fb = s.sector b := by
        rw [block_of_ptr_ne_zero (by rw [hp]; exact hb), hp]
      rw [hfb, if_pos hp, hd _ (Nat.mod_lt _ (by omega))]
      have hp' : s.byte y p = (s.sector b).byte (p % 512) := by
        unfold Sfs.byte
        rw [hfb, hblock]
      unfold patch
      rw [hp', show p - (512 * fb + skip) = p % 512 - skip by omega]
      by_cases hs : skip ≤ p % 512
      · rw [if_pos hs, if_pos (by omega)]
      · rw [if_neg hs, if_neg (by omega)]
    · have hne : s.ptr y (p / 512) ≠ b :=
        h.raw_ne hr (.block y (p / 512)) (fun e => hfb (Ref.block.inj e).2) hx
      rw [if_neg hne]
      rcases Nat.lt_or_ge p (512 * fb) with hlt | hge
      · rw [patch_of_lt (by omega)]
        rfl
      · rw [patch_of_ge (by omega)]
        rfl
  · have hne : s.ptr y (p / 512) ≠ b :=
      h.raw_ne hr (.block y (p / 512)) (fun e => hyx (Ref.block.inj e).1) hy
    rw [if_neg hyx, if_neg hne]
    rfl

/-- The bytes of a block that is spliced. -/
theorem Sector.byte_splice_eq_patch (d : Sector) {skip i : ℕ} (bytes : List UInt8) (hi : i < 512) :
    (d.splice skip bytes).byte i = patch d.byte skip bytes i := by
  rw [byte_splice d bytes hi]
  split
  · rename_i hc
    rw [patch_of_mem hc.1 hc.2 0]
  · by_cases hs : skip ≤ i
    · rw [patch_of_ge (by omega)]
    · rw [patch_of_lt (by omega)]

/-- **Bytes go from the buffer to a block of the file.** -/
theorem Moved.write (hv : r.fs.vnode? x = some v) (he : Effect r.fs s' L x)
    (hf : SameFiles r.fs s' L) (hrw : r.uio.rw = .write) (hp : s'.ptr x fb = b) (hb : b ≠ 0)
    {d : Sector} {skip len : ℕ} (hpos : r.uio.pos = 512 * fb + skip) (hlen : skip + len ≤ 512)
    (hbase : len ≤ r.uio.base.length)
    (hd : ∀ i < 512, d.byte i = patch (s'.sector b).byte skip (r.uio.base.take len) i) :
    Moved L x r ⟨s'.setSector b d, r.uio.advance (r.uio.base.take len)⟩ len := by
  obtain ⟨v', hv', -⟩ := he.self v hv
  have hx : L x := he.core.loaded x v' hv'
  have hr : s'.ref L (.block x fb) = some b := ref_eq_some.2 ⟨hx, hp, hb⟩
  have hdata : s'.DataOnly L b := he.core.dataOnly_of_block hr
  have htake : (r.uio.base.take len).length = len := by
    rw [length_take]
    omega
  refine ⟨he.trans (.setData he.core hdata (he.core.exact.apart _ _ hr)), ?_, ?_, ?_,
    (fun hread => by rw [hrw] at hread; cases hread), fun fb hp => ?_⟩
  · unfold Io.gone
    rw [hrw]
  · intro y hy
    rw [hdata.inode_eq hy, (hf y hy).1]
  · intro y hy
    rw [byte_setSector he.core hx hp hb (by rw [htake]; exact hlen) hd hy, hf.byte_eq hx,
      hf.byte_eq hy, ← hpos]
    unfold Io.after
    simp only [hrw, true_and]
  · rw [hdata.ptr_eq hx]
    exact ((hf x hx).2 fb).2 hp

/-- **Bytes go from the file to the buffer.** -/
theorem Moved.read (h : r.fs.Core L) (hrw : r.uio.rw = .read) {bytes : List UInt8}
    (hbytes : bytes = slice (r.fs.byte x) r.uio.pos k) :
    Moved L x r { r with uio := r.uio.advance bytes } k where
  effect := .refl h
  uio := by
    unfold Io.gone
    rw [hrw, hbytes]
  size _ _ := rfl
  data y _ := by
    unfold Io.after
    rw [if_neg fun hc => by rw [hrw] at hc; cases hc.1]
  look _ := rfl
  maps _ := id

/-! ## Partial blocks -/

variable {E : Stop Errno → Io Sfs → Prop}

theorem wp_onFs {α : Type} {p : Prog Sfs Errno α} {Q : α → Io Sfs → Prop}
    :
    wp (onFs p) Q E r ↔
      wp p (fun a s => Q a ⟨s, r.uio⟩) (fun e s => E e ⟨s, r.uio⟩) r.fs := wp_zoom

theorem Uio.Ok.fileblockAt_eq {u : Uio} (h : u.Ok) : fileblockAt u.offset = u.pos / 512 := by
  have := h.pos_lt
  unfold fileblockAt
  rw [h.offset_eq, Int.tdiv_eq_ediv_of_nonneg (by omega)]
  unfold word32
  omega

/-- `sfs_bmap` fails before anything is moved. -/
theorem Stopped.of_unmapped (h : r.fs.Core L) (hx : L x) (hok : r.uio.Ok)
    (hn : 0 < n ∨ 0 < r.uio.pos % 512)
    (hu : Unmapped r.fs s' L x (r.uio.pos / 512) (r.uio.rw = .write) e) :
    Stopped L x r ⟨s', r.uio⟩ n e 0 := by
  have hlt := hok.pos_lt
  cases hu with
  | full effect files alloc hole full =>
    have hrw : r.uio.rw = .write := by simpa using alloc
    exact ⟨.of_files hx effect files hok (fun hread => by rw [hrw] at hread; cases hread), .inl rfl,
      .inl rfl, .inl ⟨rfl, hrw, _, ⟨hole, full⟩, by omega, by omega⟩, by omega⟩
  | past ge same =>
    subst same
    exact ⟨.refl hx h hok, .inl rfl, .inl rfl, .inr (.inl ⟨rfl, by omega⟩), by omega⟩

theorem Moved.of_mapped (hx : L x) (hm : Mapped r.fs s' L x fb (r.uio.rw = .write) b)
    (hok : r.uio.Ok) : Moved L x r ⟨s', r.uio⟩ 0 :=
  .of_files hx hm.effect hm.files hok fun hread => hm.look (by simp [hread])

/-- The bytes are moved between the buffer and `iobuf`, which holds the block of
the file, and go back to the disk if it is a write. -/
theorem wp_moveBlock (hm : Mapped r.fs s' L x fb (r.uio.rw = .write) b)
    (hv : r.fs.vnode? x = some v) (hok : r.uio.Ok) {skip len : ℕ}
    (hpos : r.uio.pos = 512 * fb + skip) (hlen : len ≤ r.uio.resid) (hfits : skip + len ≤ 512) :
    wp (do
        let bytes ← uiomove ((s'.block x fb).toList.drop skip) len
        if r.uio.rw = .write then onFs (wblock ((s'.block x fb).splice skip bytes) b)
        else pure ())
      (fun _ r' => Moved L x r r' len) (fun e r' => Stopped L x r r' len e 0) ⟨s', r.uio⟩ := by
  have hlt := hok.pos_lt
  have hcore := hm.effect.core
  obtain ⟨v', hv', -⟩ := hm.effect.self v hv
  have hx : L x := hcore.loaded x v' hv'
  rw [wp_bind, hok.wp_uiomove (r := ⟨s', r.uio⟩) hlen]
  split
  · rename_i hfaults
    exact ⟨.of_mapped hx hm hok, .inl rfl, .inl rfl, .inr (.inr ⟨rfl, hfaults⟩), by omega⟩
  · split
    · rename_i hrw
      have hb : b ≠ 0 := hm.alloc (by simpa using hrw)
      have hr : s'.ref L (.block x fb) = some b := ref_eq_some.2 ⟨hx, hm.ptr, hb⟩
      have htaken : r.uio.taken ((s'.block x fb).toList.drop skip) len = r.uio.base.take len := by
        unfold Uio.taken
        rw [hrw]
      have hblock : s'.block x fb = s'.sector b := by
        rw [block_of_ptr_ne_zero (by rw [hm.ptr]; exact hb), hm.ptr]
      rw [wp_onFs, htaken, hblock, wp_of_ok (run_wblock hcore.ready (hcore.lt_nblocks hr) _)]
      exact .write hv hm.effect hm.files hrw hm.ptr hb hpos hfits (le_trans hlen hok.resid_le)
        fun i hi => byte_splice_eq_patch _ _ hi
    · rename_i hrw
      have hread : r.uio.rw = .read := by
        cases h : r.uio.rw with
        | read => rfl
        | write => exact absurd h hrw
      obtain rfl : s' = r.fs := hm.look (by simpa using hrw)
      rw [wp_pure]
      refine .read hcore hread ?_
      unfold Uio.taken
      rw [hread, hpos, slice_byte hfits]

/-- **`sfs_partialio`.** -/
theorem wp_sfsPartialio (h : r.fs.Core L) (hv : r.fs.vnode? x = some v) (hok : r.uio.Ok)
    {len : ℕ} (hlen : len ≤ r.uio.resid) (hfits : r.uio.pos % 512 + len ≤ 512)
    (hpos : 0 < len ∨ 0 < r.uio.pos % 512) :
    wp (sfsPartialio x (r.uio.pos % 512) len)
      (fun _ r' => Moved L x r r' len ∧ r.uio.pos / 512 < 143)
      (fun e r' => Stopped L x r r' len e 0) r := by
  have hx : L x := h.loaded x v hv
  have hsplit : r.uio.pos = 512 * (r.uio.pos / 512) + r.uio.pos % 512 := by omega
  unfold sfsPartialio
  rw [wp_get_bind, wp_assert_bind (by unfold word32; omega), wp_bind,
    wp_onFs, hok.fileblockAt_eq]
  refine wp_mono (wp_sfsBmap h hv _ _) ?_ fun e s' hu => .of_unmapped h hx hok hpos hu
  intro b s₁ hm
  have hcore := hm.effect.core
  obtain ⟨v₁, hv₁, -⟩ := hm.effect.self v hv
  have hmove := wp_imp (wp_moveBlock hm hv hok hsplit hlen hfits)
    fun _ r' (hr : Moved L x r r' len) => And.intro hr hm.lt
  rw [wp_ite]
  split
  · rename_i hb
    have hread : r.uio.rw = .read := by
      cases hrw : r.uio.rw with
      | read => rfl
      | write => exact absurd hb (hm.alloc (by simpa using hrw))
    have hblock : zero = s₁.block x (r.uio.pos / 512) :=
      (block_of_ptr_eq_zero (hm.ptr.trans hb)).symm
    rw [wp_assert_bind hread, wp_bind, wp_pure, hblock]
    exact hmove
  · rename_i hb
    have hr : s₁.ref L (.block x (r.uio.pos / 512)) = some b :=
      ref_eq_some.2 ⟨hcore.loaded x v₁ hv₁, hm.ptr, hb⟩
    have hblock : s₁.sector b = s₁.block x (r.uio.pos / 512) := by
      rw [block_of_ptr_ne_zero (by rw [hm.ptr]; exact hb), hm.ptr]
    rw [wp_bind, wp_onFs, wp_of_ok (run_rblock hcore.ready (hcore.lt_nblocks hr)), hblock]
    exact hmove

/-! ## Whole blocks -/

/-- Zeros are moved to the buffer, up to where it faults. -/
theorem wp_uiomovezerosLoop {σ : Type} {r : Io σ} (hrw : r.uio.rw = .read) (fuel n : ℕ)
    (hfuel : n ≤ fuel) (hok : r.uio.Ok) (hn : n ≤ r.uio.resid) (hlt : r.uio.pos + n < 2 ^ 31) :
    wp (uiomovezerosLoop fuel n)
      (fun _ r' => r' = ⟨r.fs, r.uio.advance (replicate n 0)⟩)
      (fun e r' => e = .error .EFAULT ∧ r.uio.Faults n ∧
        ∃ k < n, r' = ⟨r.fs, r.uio.advance (replicate k 0)⟩) r := by
  induction fuel generalizing n r with
  | zero =>
    obtain rfl : n = 0 := by omega
    rw [uiomovezerosLoop, wp_pure, replicate_zero, Uio.advance_nil hok]
  | succ fuel ih =>
    rw [uiomovezerosLoop, wp_ite]
    split
    · rename_i hpos
      set amt := if 16 > n then n else 16 with hamt
      have hle : amt ≤ n ∧ amt ≤ 16 ∧ 0 < amt := by
        rw [hamt]
        split <;> omega
      have htaken : r.uio.taken (replicate 16 0) amt = replicate amt 0 := by
        unfold Uio.taken
        rw [hrw]
        rw [take_replicate, Nat.min_eq_left hle.2.1]
      have hadd : ∀ m, replicate amt (0 : UInt8) ++ replicate m 0 =
          replicate (amt + m) 0 := fun m => replicate_append_replicate
      rw [wp_bind, hok.wp_uiomove (by omega)]
      split
      · rename_i hfaults
        exact ⟨rfl, hfaults.mono hle.1, 0, hpos, by
          rw [replicate_zero, Uio.advance_nil hok]⟩
      · rw [htaken]
        have hlen : (replicate amt (0 : UInt8)).length = amt := length_replicate
        refine wp_mono (ih (r := ⟨r.fs, r.uio.advance (replicate amt 0)⟩) hrw (n - amt)
          (by omega) (hok.advance (by omega) (by omega)) ?_ ?_) ?_ ?_
        · rw [hok.resid_advance (by omega)]
          omega
        · rw [hok.pos_advance (by omega)]
          omega
        · rintro _ r' rfl
          rw [Uio.advance_advance, hadd, show amt + (n - amt) = n by omega]
        · rintro e r' ⟨rfl, hfaults, k, hk, rfl⟩
          refine ⟨rfl, hfaults.of_advance (by omega), amt + k, by omega, ?_⟩
          rw [Uio.advance_advance, hadd]
    · obtain rfl : n = 0 := by omega
      rw [wp_pure, replicate_zero, Uio.advance_nil hok]

theorem wp_onDevice {α : Type} {p : Prog (Io Lhd) Errno α} {Q : α → Io Sfs → Prop}
    :
    wp (zoom Io.devicePart p) Q E r ↔
      wp p (fun a d => Q a ⟨{ r.fs with device := d.fs }, d.uio⟩)
        (fun e d => E e ⟨{ r.fs with device := d.fs }, d.uio⟩) ⟨r.fs.device, r.uio⟩ := wp_zoom

theorem off32_undo (d o n : ℤ) : off32 (off32 (d + n) - d + o) = off32 (o + n) := by
  unfold off32
  omega

theorem word32_undo (k : ℤ) (n : ℕ) :
    word32 (word32 ((512 : ℕ) - k) - 512 + n) = word32 (n - k) := by
  unfold word32
  omega

/-- A request after a block of the disk has been read or written directly. -/
def afterBlock (r : Io Sfs) (b : UInt32) : Io Sfs :=
  match r.uio.rw with
  | .write => ⟨r.fs.setSector b (.ofList (r.uio.base.take 512)),
      r.uio.advance (r.uio.base.take 512)⟩
  | .read => { r with uio := r.uio.advance (r.fs.sector b).toList }

variable {Q : Unit → Io Sfs → Prop}

/-- A block goes directly between the buffer and the drive. -/
theorem wp_rwblockOn {u : Uio}
    (h : s.Ready) (hb : b.toNat < s.super.nblocks.toNat) (hoffset : u.offset = 512 * b.toNat)
    (hres : u.resid = 512) (hlen : 512 ≤ u.base.length) :
    wp (zoom Io.devicePart sfsRwblock) Q E ⟨s, u⟩ ↔
      if u.Faults 512 then E (.error .EFAULT) ⟨s, u⟩ else Q () (afterBlock ⟨s, u⟩ b) := by
  obtain ⟨hsmall, hsect⟩ := h.lt hb
  rw [wp_onDevice, wp_sfsRwblock (r := ⟨s.device, u⟩) (t := b.toNat) h.clean hoffset hsmall hsect
    hres hlen]
  unfold afterSector afterBlock
  cases u.rw <;> rfl

/-- What `sfs_blockio` adds to an offset it takes away again. -/
theorem Uio.Ok.offset_undone {u : Uio} (h : u.Ok) (d : ℤ) :
    off32 (d - d + u.offset) = u.offset := by
  rw [sub_self, zero_add, off32_eq (by have := h.nonneg; omega) h.lt]

theorem Uio.Ok.resid_undone {u : Uio} (h : u.Ok) :
    word32 ((512 : ℕ) - 512 + u.resid) = u.resid := by
  rw [Nat.cast_ofNat, sub_self, zero_add, word32_eq h.resid_lt]

/-- **A block goes directly between the buffer and the drive**, and the offset
and the residue that the drive has seen are undone. -/
theorem wp_sfsBlockioOn
    (h : r.fs.Ready) (hok : r.uio.Ok) (hres : 512 ≤ r.uio.resid)
    (hb : b.toNat < r.fs.super.nblocks.toNat) :
    wp (sfsBlockioOn b) Q E r ↔
      if r.uio.Faults 512 then E (.error .EFAULT) r else Q () (afterBlock r b) := by
  unfold sfsBlockioOn
  -- the offset is kept out of sight, so that no step computes it
  obtain ⟨diskoff, hd⟩ : ∃ d, off32 (b.toNat * 512) = d := ⟨_, rfl⟩
  have hdiskoff : diskoff = 512 * b.toNat := by
    have := (h.lt hb).1
    rw [← hd]
    unfold off32
    omega
  rw [hd]
  rw [wp_get_bind, wp_assert_bind hres, wp_bind, wp_set, wp_bind, wp_result,
    wp_rwblockOn (u := { r.uio with offset := diskoff, resid := 512 }) h hb hdiskoff rfl
      (Nat.le_trans hres hok.resid_le)]
  have hfaults : Uio.Faults { r.uio with offset := diskoff, resid := 512 } 512 ↔
    r.uio.Faults 512 := Uio.faults_congr rfl
  by_cases hf : r.uio.Faults 512
  · rw [if_pos hf, if_pos (hfaults.2 hf)]
    dsimp only
    rw [wp_bind, wp_modify, wp_ofExcept]
    rw [hok.offset_undone, hok.resid_undone]
  · rw [if_neg hf, if_neg (mt hfaults.1 hf), wp_bind, wp_modify, wp_ofExcept]
    unfold afterBlock
    cases hrw : r.uio.rw with
    | write | read =>
      dsimp only [Uio.advance]
      rw [off32_undo, word32_undo, hrw]

/-- The bytes of a hole are zeros. -/
theorem slice_hole (hp : s.ptr x fb = 0) (hk : k ≤ 512) :
    slice (s.byte x) (512 * fb) k = replicate k 0 := by
  refine eq_replicate_iff.2 ⟨length_slice, fun c hc => ?_⟩
  obtain ⟨i, hi, rfl⟩ := mem_map.1 hc
  have hlt : i < k := mem_range.1 hi
  unfold Sfs.byte
  rw [show (512 * fb + i) / 512 = fb by omega, block_of_ptr_eq_zero hp, byte_zero]

/-- **`sfs_blockio`.** -/
theorem wp_sfsBlockio (h : r.fs.Core L) (hv : r.fs.vnode? x = some v) (hok : r.uio.Ok)
    (hres : 512 ≤ r.uio.resid) (haligned : r.uio.pos % 512 = 0) :
    wp (sfsBlockio x) (fun _ r' => Moved L x r r' 512 ∧ r.uio.pos / 512 < 143)
      (fun e r' => ∃ k, Stopped L x r r' 512 e k) r := by
  have hx : L x := h.loaded x v hv
  have hpos : r.uio.pos = 512 * (r.uio.pos / 512) := by omega
  have hpos' : r.uio.pos = 512 * (r.uio.pos / 512) + 0 := by omega
  unfold sfsBlockio
  rw [wp_get_bind, wp_bind, wp_onFs, hok.fileblockAt_eq]
  refine wp_mono (wp_sfsBmap h hv _ _) ?_
    fun e s' hu => ⟨0, .of_unmapped h hx hok (.inl (by omega)) hu⟩
  intro b s₁ hm
  have hcore := hm.effect.core
  have hlt := hm.lt
  obtain ⟨v₁, hv₁, -⟩ := hm.effect.self v hv
  split
  · rename_i hb
    have hread : r.uio.rw = .read := by
      cases hrw : r.uio.rw with
      | read => rfl
      | write => exact absurd hb (hm.alloc (by simpa using hrw))
    obtain rfl : s₁ = r.fs := hm.look (by simp [hread])
    have hslice : ∀ k ≤ 512, replicate k 0 = slice (r.fs.byte x) r.uio.pos k := fun k hk => by
      rw [hpos, slice_hole (hm.ptr.trans hb) hk]
    rw [wp_assert_bind hread]
    unfold uiomovezeros
    rw [wp_get_bind, wp_assert_bind hread]
    refine wp_mono (wp_uiomovezerosLoop hread 512 512 (le_refl _) hok hres (by omega)) ?_ ?_
    · rintro _ _ rfl
      exact ⟨.read h hread (hslice 512 (le_refl _)), hlt⟩
    · rintro e _ ⟨rfl, hfaults, k, hk, rfl⟩
      exact ⟨k, .read h hread (hslice k (by omega)), .inr hk, .inr (.inr hfaults),
        .inr (.inr ⟨rfl, hfaults⟩), by omega⟩
  · rename_i hb
    have hr : s₁.ref L (.block x (r.uio.pos / 512)) = some b :=
      ref_eq_some.2 ⟨hcore.loaded x v₁ hv₁, hm.ptr, hb⟩
    have hblock : s₁.block x (r.uio.pos / 512) = s₁.sector b := by
      rw [block_of_ptr_ne_zero (by rw [hm.ptr]; exact hb), hm.ptr]
    rw [wp_sfsBlockioOn (r := ⟨s₁, r.uio⟩) hcore.ready hok hres (hcore.lt_nblocks hr)]
    split
    · rename_i hfaults
      exact ⟨0, .of_mapped hx hm hok, .inl rfl, .inl rfl, .inr (.inr ⟨rfl, hfaults⟩), by omega⟩
    · refine ⟨?_, hlt⟩
      unfold afterBlock
      cases hrw : r.uio.rw with
      | write =>
        have hlen : 512 ≤ r.uio.base.length := Nat.le_trans hres hok.resid_le
        have htake : (r.uio.base.take 512).length = 512 := by
          rw [length_take]
          omega
        refine .write hv hm.effect hm.files hrw hm.ptr hb hpos' (by omega) hlen ?_
        intro i hi
        rw [byte_ofList hi, patch_of_mem (by omega) (by omega) 0, Nat.sub_zero]
      | read =>
        obtain rfl : s₁ = r.fs := hm.look (by simp [hrw])
        refine .read hcore hrw ?_
        rw [hpos', slice_byte (by omega), hblock, drop_zero,
          take_of_length_le (length_toList _).le]

/-! ## The pieces of a request -/

theorem Uio.Ok.tmod_eq {u : Uio} (h : u.Ok) : u.offset.tmod 512 = (u.pos % 512 : ℕ) := by
  rw [h.offset_eq, Int.tmod_eq_emod_of_nonneg (by omega)]
  omega

/-- The piece with which a write of at least one byte begins: what is left of
the block at the offset, or that block as a whole. -/
def firstPiece (x : UInt32) (u : Uio) : Prog (Io Sfs) Errno Unit :=
  if u.pos % 512 = 0 ∧ 512 ≤ u.resid then sfsBlockio x
  else sfsPartialio x (u.pos % 512) (min u.resid (512 - u.pos % 512))

/-- How many bytes that piece has. -/
def Uio.piece (u : Uio) : ℕ := min u.resid (512 - u.pos % 512)

/-- A piece has been done. -/
def Uio.Passed (u u' : Uio) : Prop := u'.pos = u.pos + u.piece ∧ u'.resid = u.resid - u.piece

section

variable {I : Io Sfs → Prop}
  (hpiece : ∀ r', I r' → 0 < r'.uio.resid ∨ r' = r ∧ 0 < r.uio.pos % 512 →
    wp (firstPiece x r'.uio) (fun _ r'' => I r'' ∧ r'.uio.Passed r''.uio) E r')

include hpiece

/-- The loop over whole blocks. -/
theorem wp_sfsBlockioLoop_pieces (n : ℕ) (h : I r') (hres : 512 * n ≤ r'.uio.resid)
    (haligned : r'.uio.pos % 512 = 0) :
    wp (sfsBlockioLoop x n)
      (fun _ r'' => I r'' ∧ r''.uio.pos % 512 = 0 ∧ r''.uio.resid = r'.uio.resid - 512 * n)
      E r' := by
  induction n generalizing r' with
  | zero =>
    rw [sfsBlockioLoop, wp_pure]
    exact ⟨h, haligned, rfl⟩
  | succ n ih =>
    have hfirst : firstPiece x r'.uio = sfsBlockio x := if_pos ⟨haligned, by omega⟩
    have hwp := hpiece r' h (.inl (by omega))
    rw [hfirst] at hwp
    rw [sfsBlockioLoop]
    refine wp_seq hwp ?_ fun _ _ he => he
    rintro _ r₁ ⟨h₁, hpos₁, hres₁⟩
    unfold Uio.piece at hpos₁ hres₁
    refine wp_imp (ih h₁ (by omega) (by omega)) ?_
    rintro _ r₂ ⟨h₂, hpos₂, hres₂⟩
    exact ⟨h₂, hpos₂, by omega⟩

/-- From the whole blocks on. -/
theorem wp_sfsIoRest_pieces (h : I r') (hok : r'.uio.Ok)
    (haligned : r'.uio.resid ≠ 0 → r'.uio.pos % 512 = 0) :
    wp (sfsIoRest x) (fun _ r'' => I r'' ∧ r''.uio.resid = 0) E r' := by
  unfold sfsIoRest
  rw [wp_get_bind, wp_ite]
  split
  · rename_i h0
    rw [wp_pure]
    exact ⟨h, h0⟩
  rename_i h0
  have hmod := haligned h0
  rw [wp_assert_bind (by rw [hok.tmod_eq, hmod]; rfl)]
  refine wp_seq (wp_sfsBlockioLoop_pieces hpiece _ h (by omega) hmod) ?_ fun _ _ he => he
  rintro _ r₁ ⟨h₁, hmod₁, hres₁⟩
  rw [wp_get_bind, wp_assert_bind (by omega), wp_ite]
  split
  · rename_i hrest
    have hfirst : firstPiece x r₁.uio = sfsPartialio x 0 r₁.uio.resid := by
      unfold firstPiece
      rw [if_neg (by omega), hmod₁, Nat.sub_zero, Nat.min_eq_left (by omega)]
    have hwp := hpiece r₁ h₁ (.inl hrest)
    rw [hfirst] at hwp
    refine wp_imp hwp ?_
    rintro _ r₂ ⟨h₂, -, hres₂⟩
    unfold Uio.piece at hres₂
    exact ⟨h₂, by omega⟩
  · rw [wp_pure]
    exact ⟨h₁, by omega⟩

/-- **What every piece keeps, the request keeps.** The first piece can be one of
no bytes. -/
theorem wp_sfsIoBlocks_pieces (hok : ∀ r', I r' → r'.uio.Ok) (h : I r) :
    wp (sfsIoBlocks x) (fun _ r' => I r' ∧ r'.uio.resid = 0) E r := by
  have hblkoff : word32 (r.uio.offset.tmod 512) = r.uio.pos % 512 := by
    rw [(hok r h).tmod_eq]
    exact word32_eq (by omega)
  unfold sfsIoBlocks
  rw [wp_get_bind]
  dsimp only
  rw [hblkoff, wp_ite]
  split
  · rename_i hskip
    have hlen : word32 (512 - (r.uio.pos % 512 : ℕ)) = 512 - r.uio.pos % 512 := by
      unfold word32
      omega
    have hmin : (if r.uio.resid < 512 - r.uio.pos % 512 then r.uio.resid
        else 512 - r.uio.pos % 512) = min r.uio.resid (512 - r.uio.pos % 512) := by
      split <;> omega
    have hfirst := hpiece r h (.inr ⟨rfl, Nat.pos_of_ne_zero hskip⟩)
    unfold firstPiece at hfirst
    rw [if_neg fun h => hskip h.1] at hfirst
    rw [hlen, hmin]
    refine wp_seq hfirst ?_ fun _ _ he => he
    rintro _ r₁ ⟨h₁, hpos₁, hres₁⟩
    unfold Uio.piece at hpos₁ hres₁
    exact wp_sfsIoRest_pieces hpiece h₁ (hok r₁ h₁) fun h0 => by omega
  · exact wp_sfsIoRest_pieces hpiece h (hok r h) fun _ => by omega

end

/-- **One piece.** -/
theorem wp_firstPiece (h : r.fs.Core L) (hv : r.fs.vnode? x = some v) (hok : r.uio.Ok)
    (hpos : 0 < r.uio.piece ∨ 0 < r.uio.pos % 512) :
    wp (firstPiece x r.uio) (fun _ r' => Moved L x r r' r.uio.piece ∧ r.uio.pos / 512 < 143)
      (fun e r' => ∃ k, Stopped L x r r' r.uio.piece e k) r := by
  unfold Uio.piece at hpos ⊢
  unfold firstPiece
  split
  · rename_i hblock
    rw [show min r.uio.resid (512 - r.uio.pos % 512) = 512 by omega]
    exact wp_sfsBlockio h hv hok hblock.2 hblock.1
  · exact wp_mono (wp_sfsPartialio h hv hok (by omega) (by omega) hpos) (fun _ _ h => h)
      fun _ _ h => ⟨0, h⟩

/-- Some pieces of a request have been done, or none: `k` bytes, up to the end of
a block or of the request. -/
def Underway (L : UInt32 → Prop) (x : UInt32) (r r' : Io Sfs) : Prop :=
  ∃ k ≤ r.uio.resid, Moved L x r r' k ∧ r.uio.pos + k < 2 ^ 31 ∧
    (r' = r ∨ k = r.uio.resid ∨ (r.uio.pos + k) % 512 = 0)

/-- From the leading partial block on. -/
theorem wp_sfsIoBlocks (h : r.fs.Core L) (hv : r.fs.vnode? x = some v) (hok : r.uio.Ok) :
    wp (sfsIoBlocks x)
      (fun _ r' => Moved L x r r' r.uio.resid ∧ r.uio.pos + r.uio.resid < 2 ^ 31)
      (fun e r' => ∃ k, Stopped L x r r' r.uio.resid e k) r := by
  have hx : L x := h.loaded x v hv
  have hstart : Underway L x r r := ⟨0, Nat.zero_le _, .refl hx h hok, hok.pos_lt, .inl rfl⟩
  refine wp_imp (wp_sfsIoBlocks_pieces (I := Underway L x r) ?_ ?_ hstart) ?_
  · rintro r' ⟨k, hk, hmoved, hlt, hcase⟩ hrest
    obtain ⟨hok', hpos', hres'⟩ := hmoved.ok hok hk hlt
    obtain ⟨v', hv', -⟩ := hmoved.effect.self v hv
    have hle : r'.uio.piece ≤ r'.uio.resid := Nat.min_le_left _ _
    have hsome : 0 < r'.uio.resid → 0 < r'.uio.piece := fun h0 => by
      unfold Uio.piece
      omega
    refine wp_mono (wp_firstPiece hmoved.effect.core hv' hok'
      (hrest.imp hsome fun ⟨heq, hskip⟩ => heq ▸ hskip)) ?_ ?_
    · rintro _ r'' ⟨hmoved', hlt'⟩
      have hend : r'.uio.piece ≤ 512 - r'.uio.pos % 512 := Nat.min_le_right _ _
      have hsum : r.uio.pos + k + r'.uio.piece < 2 ^ 31 := by omega
      obtain ⟨-, hpos'', hres''⟩ := hmoved'.ok hok' hle (by omega)
      refine ⟨⟨k + r'.uio.piece, by omega, hmoved.trans hx hmoved' hok (by omega) hlt, by omega,
        .inr ?_⟩, hpos'', hres''⟩
      unfold Uio.piece
      omega
    · rintro e r'' ⟨j, hstopped⟩
      by_cases hsame : r' = r
      · subst hsame
        exact ⟨j, hstopped.moved, hstopped.half.mono hle⟩
      · have h0 : 0 < r'.uio.resid := hrest.resolve_right fun h => hsame h.1
        have hblock := (hcase.resolve_left hsame).resolve_left (by omega)
        have hafter := hstopped.after hx hmoved hok (hsome h0) (by omega) hlt hblock
        exact ⟨_, hafter.moved, hafter.half.mono (by omega)⟩
  · rintro r' ⟨k, hk, hmoved, hlt, -⟩
    exact (hmoved.ok hok hk hlt).1
  · rintro _ r' ⟨⟨k, hk, hmoved, hlt, -⟩, h0⟩
    obtain ⟨-, -, hres'⟩ := hmoved.ok hok hk hlt
    obtain rfl : k = r.uio.resid := by omega
    exact ⟨hmoved, hlt⟩

theorem off32_ofNat (h : n < 2 ^ 31) : off32 (UInt32.ofNat (word32 (n : ℕ))).toNat = n := by
  rw [word32_eq (by omega), UInt32.toNat_ofNat_of_lt' (by show n < 2 ^ 32; omega)]
  exact off32_eq (by omega) (by omega)

/-- A residue that was made smaller is made up for in the end. -/
theorem Uio.advance_extra {u : Uio} {extra : ℕ} (h : extra ≤ u.resid) (a : List UInt8) :
    ({ Uio.advance { u with resid := u.resid - extra } a with
        resid := word32 ((Uio.advance { u with resid := u.resid - extra } a).resid + extra)
      } : Uio) = u.advance a := by
  have hresid : word32 (word32 ((u.resid - extra : ℕ) - a.length) + extra) =
      word32 (u.resid - a.length) := by
    unfold word32
    omega
  unfold Uio.advance
  rw [hresid]

/-- The size of a file, as an `off_t`. -/
def Sfs.size (s : Sfs) (y : UInt32) : ℤ := off32 (s.inode y).size.toNat

/-- **A request has moved `k` bytes and is over.** A write that ends past the
end of the file has moved the end, even one that has failed. -/
structure Done (L : UInt32 → Prop) (x : UInt32) (r r' : Io Sfs) (k : ℕ) : Prop where
  effect : Effect r.fs r'.fs L x
  uio : r'.uio = r.uio.advance (r.gone x k)
  size : ∀ y, L y → r'.fs.size y =
    if r.uio.rw = .write ∧ y = x then max (r.fs.size y) (r.uio.pos + k : ℕ) else r.fs.size y
  data : ∀ y, L y → r'.fs.byte y = r.after x k y
  look : r.uio.rw = .read → r'.fs = r.fs

/-- A read does not touch the size. -/
theorem Done.of_read (h : Moved L x r r' k) (hrw : r.uio.rw = .read) : Done L x r r' k where
  effect := h.effect
  uio := h.uio
  size y hy := by
    rw [if_neg fun hc => by rw [hrw] at hc; cases hc.1]
    unfold Sfs.size
    rw [h.size y hy]
  data := h.data
  look := h.look

/-- The end of `sfs_io`, for a request `r` of which `extra` bytes are past the
end of the file: `k` of the others have been moved. -/
theorem wp_sfsIoOut {extra : ℕ}
    (hv : r.fs.vnode? x = some v) (hok : r.uio.Ok) (hlt : r.uio.pos + k < 2 ^ 31)
    (hk : k ≤ r.uio.resid) (hextra : extra ≤ r.uio.resid)
    (hmoved : Moved L x { r with uio := { r.uio with resid := r.uio.resid - extra } } r' k)
    (hQ : ∀ r'', Done L x r r'' k → r''.fs.freemap = r'.fs.freemap → Q () r'') :
    wp (sfsIoOut x extra) Q E r' := by
  obtain ⟨v', hv', -⟩ := hmoved.effect.self v hv
  have hx : L x := hmoved.effect.core.loaded x v' hv'
  have hlen : (r.gone x k).length = k := Io.length_gone (Nat.le_trans hk hok.resid_le)
  have hoffset : r'.uio.offset = (r.uio.pos + k : ℕ) := by
    rw [hmoved.uio]
    show off32 (r.uio.offset + (r.gone x k).length) = _
    rw [hlen, hok.offset_eq, off32_eq (by omega) (by omega)]
    omega
  have huio : ({ r'.uio with resid := word32 (r'.uio.resid + extra) } : Uio) =
      r.uio.advance (r.gone x k) := by
    rw [hmoved.uio]
    exact Uio.advance_extra hextra (r.gone x k)
  have hrw : r'.uio.rw = r.uio.rw := hmoved.rw_eq
  have hsize : ∀ y, L y → r'.fs.size y = r.fs.size y := fun y hy => by
    unfold size
    rw [hmoved.size y hy]
  have hsizex : off32 v'.i.size.toNat = r.fs.size x := by
    rw [← hsize x hx]
    unfold size
    rw [inode_of_loaded hv']
  unfold sfsIoOut
  rw [wp_get_bind, wp_bind, wp_onFs, wp_getVnode hv']
  rw [hsizex, hoffset, hrw, wp_ite]
  split
  · rename_i hgrow
    rw [wp_bind, wp_onFs, wp_modifyVnode, wp_modify, huio]
    let f : SfsVnode → SfsVnode := fun sv =>
      { sv with
        i := { sv.i with size := UInt32.ofNat (word32 (r.uio.pos + k : ℕ)) }
        dirty := true }
    have hf : ∀ v, (f v).ino = v.ino := fun _ => rfl
    have heffect : Effect r'.fs (r'.fs.modifyVnode x f) L x :=
      .modifyVnode hmoved.effect.core hf (fun _ => rfl) (fun _ => rfl)
        fun _ => ⟨rfl, rfl, rfl, rfl, .inr rfl⟩
    refine hQ _ ⟨hmoved.effect.trans heffect, rfl, ?_, ?_,
      fun hread => by rw [hread] at hgrow; cases hgrow.1⟩ rfl
    · intro y hy
      by_cases hyx : y = x
      · subst hyx
        rw [if_pos ⟨hgrow.1, rfl⟩, max_eq_right hgrow.2.le]
        unfold size
        rw [inode_modifyVnode hf hv']
        exact off32_ofNat (by omega)
      · rw [if_neg fun hc => hyx hc.2, ← hsize y hy]
        unfold size
        rw [inode_modifyVnode_of_ne hf hyx]
    · intro y hy
      rw [byte_modifyVnode hf (fun _ => rfl) (fun _ => rfl), hmoved.data y hy]
      rfl
  · rename_i hgrow
    rw [wp_modify, huio]
    refine hQ _ ⟨hmoved.effect, rfl, ?_, hmoved.data, hmoved.look⟩ rfl
    intro y hy
    rw [hsize y hy]
    split
    · rename_i hc
      rw [hc.2, max_eq_left (not_lt.1 fun hlt' => hgrow ⟨hc.1, hlt'⟩)]
    · rfl

/-- How many bytes a request moves if all goes well: a read stops at the end of
the file. -/
def Io.count (x : UInt32) (r : Io Sfs) : ℕ :=
  match r.uio.rw with
  | .write => r.uio.resid
  | .read => (min (r.uio.resid : ℤ) (r.fs.size x - r.uio.pos)).toNat

/-- From the check for the end of file on. -/
theorem wp_sfsIoFrom (h : r.fs.Core L) (hv : r.fs.vnode? x = some v) (hok : r.uio.Ok) {extra : ℕ}
    (hextra : extra = 0 ∨ extra < r.uio.resid) :
    wp (sfsIoFrom x extra)
      (fun _ r' => Done L x r r' (r.uio.resid - extra) ∧
        r.uio.pos + (r.uio.resid - extra) < 2 ^ 31)
      (fun e r' => ∃ k, Done L x r r' k ∧
        Halfway (r.fs.NoRoom r'.fs x) r.uio (r.uio.resid - extra) e k) r := by
  have hle : extra ≤ r.uio.resid := by omega
  have hresid : word32 (r.uio.resid - extra) = r.uio.resid - extra := by
    have := hok.resid_lt
    unfold word32
    omega
  let r₀ : Io Sfs := { r with uio := { r.uio with resid := r.uio.resid - extra } }
  have hok₀ : r₀.uio.Ok := by
    have := hok.resid_le
    have := hok.resid_lt
    exact ⟨hok.nonneg, hok.lt, show r.uio.resid - extra ≤ r.uio.base.length by omega,
      show r.uio.resid - extra < 2 ^ 32 by omega⟩
  unfold sfsIoFrom
  rw [wp_get_bind, wp_assert_bind hextra, wp_bind, wp_modify, hresid, wp_bind,
    wp_result]
  refine wp_mono (wp_sfsIoBlocks (r := r₀) h hv hok₀) ?_ ?_
  · rintro _ r₁ ⟨hmoved, hlt⟩
    rw [wp_bind]
    refine wp_sfsIoOut hv hok hlt (Nat.sub_le _ _) hle hmoved fun r₂ hdone _ => ?_
    rw [wp_ofExcept]
    exact ⟨hdone, hlt⟩
  · rintro e r₁ ⟨k, hstopped⟩
    have hhalf : Halfway (r.fs.NoRoom r₁.fs x) r.uio (r.uio.resid - extra) e k := by
      have hfaults : r₀.uio.Faults (r.uio.resid - extra) ↔ r.uio.Faults (r.uio.resid - extra) :=
        Uio.faults_congr rfl
      have := hstopped.half
      exact ⟨this.part, by rw [← hfaults]; exact this.whole, by rw [← hfaults]; exact this.cause,
        this.lt⟩
    have hk : k ≤ r.uio.resid := by
      rcases hhalf.part with hk | hk <;> omega
    obtain ⟨err, rfl⟩ := hhalf.error
    dsimp only
    rw [wp_bind]
    refine wp_sfsIoOut hv hok hhalf.lt hk hle hstopped.moved fun r₂ hdone hmap => ?_
    have hroom : r.fs.NoRoom r₂.fs x = r.fs.NoRoom r₁.fs x := by
      unfold Sfs.NoRoom Sfs.Full Sfs.Marked
      rw [hmap]
    rw [wp_ofExcept]
    exact ⟨k, hdone, by rw [hroom]; exact hhalf⟩

theorem Sfs.size_of_loaded (hv : s.vnode? x = some v) : off32 v.i.size.toNat = s.size x := by
  unfold size
  rw [inode_of_loaded hv]

theorem Io.count_of_write (hrw : r.uio.rw = .write) : r.count x = r.uio.resid := by
  unfold Io.count
  rw [hrw]

theorem Io.count_of_read (hrw : r.uio.rw = .read) :
    r.count x = (min (r.uio.resid : ℤ) (r.fs.size x - r.uio.pos)).toNat := by
  unfold Io.count
  rw [hrw]

/-- **A read whose end has not wrapped** stops at the end of the file. -/
theorem wp_sfsIo_read (h : r.fs.Core L) (hv : r.fs.vnode? x = some v) (hok : r.uio.Ok)
    (hrw : r.uio.rw = .read)
    (hend : r.fs.size x ≤ r.uio.pos ∨ r.uio.pos + r.uio.resid < 2 ^ 31) :
    wp (sfsIo x)
      (fun _ r' => Done L x r r' (r.count x) ∧ r.uio.pos + r.count x < 2 ^ 31)
      (fun e r' => r.uio.pos < r.fs.size x ∧
        ∃ k, Done L x r r' k ∧ Halfway (r.fs.NoRoom r'.fs x) r.uio (r.count x) e k) r := by
  have hlt := hok.pos_lt
  have hcount := Io.count_of_read (x := x) hrw
  unfold sfsIo
  rw [wp_get_bind, wp_bind, wp_onFs, wp_getVnode hv]
  dsimp only
  rw [hrw, size_of_loaded hv, hok.offset_eq]
  rcases le_or_gt (r.fs.size x) r.uio.pos with heof | heof
  · have h0 : r.count x = 0 := by omega
    rw [if_pos heof, wp_pure, h0]
    exact ⟨.of_read (.refl (h.loaded x v hv) h hok) hrw, by omega⟩
  rw [if_neg (not_le.2 heof), off32_eq (by omega) (by omega)]
  rcases lt_or_ge (r.fs.size x) ((r.uio.pos : ℤ) + r.uio.resid) with hclamp | hclamp
  · obtain ⟨extra, hextra⟩ :
        ∃ n, word32 ((r.uio.pos : ℤ) + r.uio.resid - r.fs.size x) = n := ⟨_, rfl⟩
    have hextra' : (extra : ℤ) = r.uio.pos + r.uio.resid - r.fs.size x := by
      rw [← hextra]
      unfold word32
      omega
    rw [if_pos hclamp, hextra]
    rw [show r.count x = r.uio.resid - extra by omega]
    exact wp_mono (wp_sfsIoFrom h hv hok (.inr (by omega))) (fun _ _ h => h)
      fun _ _ he => ⟨heof, he⟩
  · rw [if_neg (not_lt.2 hclamp), show r.count x = r.uio.resid - 0 by omega]
    exact wp_mono (wp_sfsIoFrom h hv hok (.inl rfl)) (fun _ _ h => h) fun _ _ he => ⟨heof, he⟩

/-- **A read whose end has wrapped** is not held up by the end of the file, and
fails. -/
theorem wp_sfsIo_wrapped (h : r.fs.Core L) (hv : r.fs.vnode? x = some v) (hok : r.uio.Ok)
    (hrw : r.uio.rw = .read) (heof : r.uio.pos < r.fs.size x)
    (hwrap : 2 ^ 31 ≤ r.uio.pos + r.uio.resid) :
    wp (sfsIo x) (fun _ _ => False)
      (fun e r' => ∃ k, Done L x r r' k ∧
        Halfway (r.fs.NoRoom r'.fs x) r.uio r.uio.resid e k) r := by
  have hreslt := hok.resid_lt
  -- the end that was computed lies before the offset
  have hend : ¬ r.fs.size x < off32 ((r.uio.pos : ℤ) + r.uio.resid) := by
    unfold off32
    omega
  unfold sfsIo
  rw [wp_get_bind, wp_bind, wp_onFs, wp_getVnode hv]
  dsimp only
  rw [hrw, size_of_loaded hv, hok.offset_eq, if_neg (not_le.2 heof), if_neg hend]
  refine wp_imp (wp_sfsIoFrom h hv hok (.inl rfl)) ?_
  rintro _ r' ⟨-, hlt'⟩
  omega

/-- **`sfs_io`.** -/
theorem wp_sfsIo (h : r.fs.Core L) (hv : r.fs.vnode? x = some v) (hok : r.uio.Ok) :
    wp (sfsIo x)
      (fun _ r' => Done L x r r' (r.count x) ∧ r.uio.pos + r.count x < 2 ^ 31)
      (fun e r' => ∃ k, ∃ n ≤ r.uio.resid, Done L x r r' k ∧
        Halfway (r.fs.NoRoom r'.fs x) r.uio n e k) r := by
  cases hrw : r.uio.rw with
  | write =>
    unfold sfsIo
    rw [wp_get_bind, wp_bind, wp_onFs, wp_getVnode hv]
    rw [hrw, Io.count_of_write hrw]
    exact wp_mono (wp_sfsIoFrom h hv hok (.inl rfl)) (fun _ _ h => h) fun e r' ⟨k, hdone, hhalf⟩ =>
      ⟨k, _, le_refl _, hdone, hhalf⟩
  | read =>
    by_cases hend : r.fs.size x ≤ r.uio.pos ∨ r.uio.pos + r.uio.resid < 2 ^ 31
    · have hcount := Io.count_of_read (x := x) hrw
      exact wp_mono (wp_sfsIo_read h hv hok hrw hend) (fun _ _ h => h)
        fun e r' ⟨_, k, hdone, hhalf⟩ => ⟨k, _, by omega, hdone, hhalf⟩
    · rw [not_or, not_le, not_lt] at hend
      exact wp_mono (wp_sfsIo_wrapped h hv hok hrw hend.1 hend.2) (fun _ _ h => h.elim)
        fun e r' ⟨k, hdone, hhalf⟩ => ⟨k, _, le_refl _, hdone, hhalf⟩

theorem wp_vopIo_file
    (hv : r.fs.vnode? x = some v) (hops : v.ops = .file) :
    wp (vopIo x) Q E r ↔ wp (sfsIo x) Q E r := by
  unfold vopIo
  rw [wp_bind, wp_onFs, wp_getVnode hv, hops]

end Fs

end Os161
