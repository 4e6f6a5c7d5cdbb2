import Os161.Fs.Bmap
import Os161.Common.Returns
/-!
# What a read leaves alone

Reading a block changes nothing but the answers that are left of the drive, whatever
these are: the sectors, the freemap and the vnodes stay as they are (`Quiet`). Nothing is
assumed here about the file system.
-/

namespace Os161

namespace Fs

open Prog
open Userprog (UioRw)

variable {s s' s'' : Sfs} {d d' : Lhd} {x : UInt32}

/-! ## The drive -/

/-- The sectors are the same. -/
def Lhd.Still (d d' : Lhd) : Prop := d'.sectors = d.sectors ∧ (d.Clean → d'.Clean)

theorem Lhd.Still.tick (h : d.Still d') : d.Still d'.tick :=
  ⟨h.1, fun hc => by rw [(h.2 hc).tick_eq]; exact h.2 hc⟩

/-- A request to read, with the sectors of `d`. -/
def Reading (d : Lhd) (r : Io Lhd) : Prop := d.Still r.fs ∧ r.uio.rw = .read

/-- A `uiomove` touches the `uio` only. -/
theorem returns_uiomoveLoop {σ : Type} {I : Io σ → Prop} (fuel : ℕ) (ptr : List UInt8) (n : ℕ)
    (hadvance : ∀ r bytes, I r → I { r with uio := r.uio.advance bytes }) :
    Returns I (uiomoveLoop fuel ptr n) := by
  induction fuel generalizing ptr n with
  | zero => exact .pure
  | succ fuel ih =>
    refine .get_bind fun r hr => .ite ?_ .pure
    refine .bind (.assert _) fun _ => .bind (.failIf _ _) fun _ => ?_
    exact .bind (.set (hadvance r _ hr)) fun _ => .bind (ih _ _) fun _ => .pure

theorem reading_advance (r : Io Lhd) (bytes : List UInt8) (h : Reading d r) :
    Reading d { r with uio := r.uio.advance bytes } := h

theorem returns_operate_read (sector : ℕ) (buf : Sector) :
    Returns d.Still (Lhd.operate sector .read buf) := by
  refine .get_bind fun d' hd => .ite .fail ?_
  cases d'.pattern 0 with
  | ok => exact .bind (.set hd.tick) fun _ => .pure
  | media left => exact .bind (.set hd.tick) fun _ => .fail

theorem returns_lhdIoLoop_read (n sector : ℕ) : Returns (Reading d) (lhdIoLoop n sector) := by
  induction n generalizing sector with
  | zero => exact .pure
  | succ n ih =>
    refine .get_bind fun r hr => ?_
    rw [hr.2]
    refine .bind (.zoom (returns_operate_read sector _) (fun r hr => hr.1) ?_) fun buf => ?_
    · exact fun r d' hr hd => ⟨hd, hr.2⟩
    · exact .bind (returns_uiomoveLoop _ _ _ reading_advance) fun _ => ih _

theorem returns_sfsRwblockFrom_read (retries : ℕ) :
    Returns (Reading d) (sfsRwblockFrom retries) := by
  have hlhd : Returns (Reading d) lhdIo :=
    .get_bind fun r _ => .bind (.failIf _ _) fun _ => .bind (.failIf _ _) fun _ =>
      returns_lhdIoLoop_read _ _
  have htry : ∀ onEio, Returns (Reading d) onEio → Returns (Reading d) (sfsRwblockTry onEio) := by
    intro onEio hon
    refine .bind (.result hlhd) fun result => ?_
    split
    · exact .halt
    · exact hon
    · exact .fail
    · exact .pure
  induction retries with
  | zero => exact htry _ .fail
  | succ retries ih => exact htry _ ih

/-- A request with a `uio` of its own. -/
theorem returns_withUio {σ α : Type} {I : σ → Prop} {J : Io σ → Prop} {u : Uio}
    {p : Prog (Io σ) Errno α} (hp : Returns J p) (hin : ∀ s, I s → J ⟨s, u⟩)
    (hout : ∀ r, J r → I r.fs) : Returns I (withUio u p) := by
  intro s hs
  rw [wp_withUio]
  exact wp_mono (hp ⟨s, u⟩ (hin s hs)) (fun _ r hr => hout r hr) fun e r hr herr =>
    hout r (hr herr)

theorem returns_sfsRblock (b : UInt32) : Returns d.Still (sfsRblock b) :=
  .bind (returns_withUio (returns_sfsRwblockFrom_read 10) (fun _ h => ⟨h, rfl⟩) fun _ h => h.1)
    fun _ => .pure

/-! ## The file system -/

/-- **Nothing has changed but the answers to come**, of the drive and of
`kmalloc`. -/
structure Quiet (s s' : Sfs) : Prop where
  super : s'.super = s.super
  vnodes : s'.vnodes = s.vnodes
  freemap : s'.freemap = s.freemap
  still : s.device.Still s'.device

namespace Quiet

theorem refl (s : Sfs) : Quiet s s := ⟨rfl, rfl, rfl, rfl, fun h => h⟩

theorem sector (h : Quiet s s') (b : UInt32) : s'.sector b = s.sector b := by
  unfold Sfs.sector
  rw [h.still.1]

end Quiet

theorem returns_rblock (b : UInt32) : Returns (Quiet s) (rblock b) := by
  refine .zoom (returns_sfsRblock (d := s.device) b) (fun s' h => h.still) ?_
  exact fun s' d h hd => ⟨h.super, h.vnodes, h.freemap, hd⟩

theorem returns_kmalloc : Returns (Quiet s) kmalloc := by
  refine .get_bind fun s' h => .bind (.set ?_) fun _ => .failIf _ _
  exact ⟨h.super, h.vnodes, h.freemap, h.still⟩

variable {I : Sfs → Prop}

/-- Looking at a vnode changes nothing at all. -/
theorem returns_getVnode (x : UInt32) : Returns I (getVnode x) := by
  refine .get_bind fun s _ => ?_
  cases s.vnode? x with
  | some sv => exact .pure
  | none => exact .halt

theorem returns_checkUsed (b : UInt32) : Returns I (checkUsed b) :=
  .get_bind fun _ _ => .bind (.assert _) fun _ => .assert _

theorem returns_handBack (b : UInt32) : Returns I (handBack b) := by
  unfold handBack
  split
  · exact .bind (returns_checkUsed b) fun _ => .pure
  · exact .bind .pure fun _ => .pure

end Fs

end Os161
