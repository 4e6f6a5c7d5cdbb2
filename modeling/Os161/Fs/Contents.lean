import Os161.Fs.Io
import Os161.Fs.Accounts
/-!
# Files are sparse byte arrays

What `sfs_read` and `sfs_write` are for: a file is a sparse array of bytes, a
read takes a slice of it and a write patches it. Every sequence of calls on any
files does to the file system what it does to the arrays (`contents_refine`).
-/

namespace Os161

namespace Fs

open Prog Function Sfs
open Userprog (UioRw)

variable {s s' : Sfs} {L : UInt32 → Prop} {x : UInt32} {v : SfsVnode}

/-! ## The abstract files -/

/-- The files that a state holds, as arrays. -/
def Sfs.files (s : Sfs) (x : UInt32) : Sparse UInt8 := ⟨s.size x, s.byte x⟩

/-- A call of `sfs_read` or `sfs_write` on a file: at least one byte, within the
largest size of a file, with a buffer that does not fault. -/
structure Call where
  file : UInt32
  uio : Uio
  fresh : uio.moved = []
  nonneg : 0 ≤ uio.offset
  pos : 0 < uio.resid
  len : uio.base.length = uio.resid
  fits : uio.offset + uio.resid ≤ 143 * 512
  reach : ¬ uio.Faults uio.resid

namespace Call

/-- The call, which leaves its `uio`. -/
def run (c : Call) : Prog Sfs Errno Uio := withUio c.uio (vopIo c.file)

/-- What the caller sees: the bytes that have gone through the buffer and
`uio_resid`. -/
def answer (c : Call) (F : UInt32 → Sparse UInt8) : List UInt8 × ℕ :=
  match c.uio.rw with
  | .read => ((F c.file).read c.uio.pos c.uio.resid,
      c.uio.resid - (F c.file).avail c.uio.pos c.uio.resid)
  | .write => (c.uio.base, 0)

/-- What becomes of the arrays. -/
def effect (c : Call) (F : UInt32 → Sparse UInt8) : UInt32 → Sparse UInt8 :=
  match c.uio.rw with
  | .read => F
  | .write => update F c.file ((F c.file).write c.uio.pos c.uio.base)

theorem ok (c : Call) : c.uio.Ok where
  nonneg := c.nonneg
  lt := by
    have := c.fits
    omega
  resid_le := c.len.ge
  resid_lt := by
    have := c.fits
    have := c.nonneg
    omega

theorem pos_add_le (c : Call) : c.uio.pos + c.uio.resid ≤ 143 * 512 := by
  have := c.fits
  have := c.ok.offset_eq
  omega

end Call

/-- A sequence of calls. -/
def runCalls : List Call → Prog Sfs Errno (List Uio)
  | [] => pure []
  | c :: cs => do
    let u ← c.run
    let us ← runCalls cs
    pure (u :: us)

/-- What the callers see. -/
def answers : List Call → (UInt32 → Sparse UInt8) → List (List UInt8 × ℕ)
  | [], _ => []
  | c :: cs, F => c.answer F :: answers cs (c.effect F)

/-- What becomes of the arrays. -/
def effects : List Call → (UInt32 → Sparse UInt8) → UInt32 → Sparse UInt8
  | [], F => F
  | c :: cs, F => effects cs (c.effect F)

/-! ## One call -/

/-- A call moves as many bytes as the array has for it. -/
theorem Call.count_eq (c : Call) (s : Sfs) :
    Io.count c.file ⟨s, c.uio⟩ = match c.uio.rw with
      | .read => (s.files c.file).avail c.uio.pos c.uio.resid
      | .write => c.uio.resid := by
  unfold Io.count Sparse.avail
  cases c.uio.rw <;> rfl

theorem Call.count_le (c : Call) (s : Sfs) : Io.count c.file ⟨s, c.uio⟩ ≤ c.uio.resid := by
  rw [c.count_eq]
  cases c.uio.rw with
  | read =>
    show (min (c.uio.resid : ℤ) _).toNat ≤ _
    omega
  | write => exact le_refl _

/-- The `uio` that a call leaves. -/
theorem Call.answer_eq (c : Call) (s : Sfs) :
    let u := c.uio.advance (Io.gone c.file ⟨s, c.uio⟩ (Io.count c.file ⟨s, c.uio⟩))
    (u.moved, u.resid) = c.answer s.files := by
  intro u
  have hle := c.count_le s
  have hlen : (Io.gone c.file ⟨s, c.uio⟩ (Io.count c.file ⟨s, c.uio⟩)).length =
      Io.count c.file ⟨s, c.uio⟩ := Io.length_gone (by
    rw [c.len]
    exact hle)
  have hmoved : u.moved = Io.gone c.file ⟨s, c.uio⟩ (Io.count c.file ⟨s, c.uio⟩) := by
    show c.uio.moved ++ _ = _
    rw [c.fresh, List.nil_append]
  have hresid : u.resid = c.uio.resid - Io.count c.file ⟨s, c.uio⟩ := by
    rw [c.ok.resid_advance (by rw [hlen]; exact hle), hlen]
  rw [hmoved, hresid, c.count_eq]
  unfold Io.gone Call.answer
  cases c.uio.rw with
  | read => rfl
  | write =>
    rw [Nat.sub_self, ← c.len, List.take_length]

theorem Call.effect_of_read {c : Call} (h : c.uio.rw = .read) (F : UInt32 → Sparse UInt8) :
    c.effect F = F := by
  unfold Call.effect
  rw [h]

theorem Call.effect_of_write {c : Call} (h : c.uio.rw = .write) (F : UInt32 → Sparse UInt8) :
    c.effect F = update F c.file ((F c.file).write c.uio.pos c.uio.base) := by
  unfold Call.effect
  rw [h]

/-- The files after a call. -/
theorem Call.effect_eq (c : Call) {r' : Io Sfs}
    (h : Done L c.file ⟨s, c.uio⟩ r' (Io.count c.file ⟨s, c.uio⟩)) (hx : L x) :
    r'.fs.files x = c.effect s.files x := by
  have hsize := h.size x hx
  have hdata := h.data x hx
  unfold Io.after at hdata
  by_cases hw : c.uio.rw = .write ∧ x = c.file
  · obtain ⟨hrw, rfl⟩ := hw
    have hcount : Io.count c.file ⟨s, c.uio⟩ = c.uio.resid := by
      rw [c.count_eq, hrw]
    rw [if_pos ⟨hrw, rfl⟩, hcount, ← c.len] at hsize
    rw [if_pos ⟨hrw, rfl⟩, hcount, ← c.len, List.take_length] at hdata
    rw [c.effect_of_write hrw, update_self]
    unfold files Sparse.write
    rw [hsize, hdata]
    rfl
  · rw [if_neg hw] at hsize hdata
    have hsame : c.effect s.files x = s.files x := by
      cases hrw : c.uio.rw with
      | read => rw [c.effect_of_read hrw]
      | write => rw [c.effect_of_write hrw, update_of_ne fun e => hw ⟨hrw, e⟩]
    rw [hsame]
    unfold files
    rw [hsize, hdata]

/-- **A call finds no space**: it writes to a hole of its file, and in the end no block
is free. -/
structure Call.NoSpace (c : Call) (s s' : Sfs) : Prop where
  write : c.uio.rw = .write
  hole : ∃ fb, s.ptr c.file fb = 0 ∧ c.uio.pos < 512 * (fb + 1) ∧ 512 * fb < c.uio.pos + c.uio.resid
  full : s'.Full

/-- **One call.** -/
theorem Call.wp_run (c : Call) (h : s.Core L) (hv : s.vnode? c.file = some v)
    (hops : v.ops = .file) :
    wp c.run
      (fun u s' => (u.moved, u.resid) = c.answer s.files ∧
        (∀ x, L x → s'.files x = c.effect s.files x) ∧
        Effect s s' L c.file)
      (fun e s' => e = .error .ENOSPC ∧ c.NoSpace s s') s := by
  unfold Call.run vopIo
  rw [wp_withUio, wp_bind, wp_onFs, wp_getVnode hv, hops]
  refine wp_mono (wp_sfsIo (r := ⟨s, c.uio⟩) h hv c.ok) ?_ ?_
  · rintro _ r' ⟨hdone, -⟩
    refine ⟨?_, fun x hx => c.effect_eq hdone hx, hdone.effect⟩
    rw [hdone.uio]
    exact c.answer_eq s
  · rintro e r' ⟨k, n, hn, -, hhalf⟩
    have hle := c.pos_add_le
    rcases hhalf.cause with ⟨rfl, hrw, fb, ⟨hhole, hfull⟩, hlt, hge⟩ | ⟨-, hpast⟩ | ⟨-, hfaults⟩
    · have hn' : n ≤ c.uio.resid := hn
      have hge' : 512 * fb < c.uio.pos + n := hge
      exact ⟨rfl, hrw, ⟨fb, hhole, hlt, by omega⟩, hfull⟩
    · exact absurd hpast (by
        show ¬ 143 * 512 < c.uio.pos + n
        have : n ≤ c.uio.resid := hn
        omega)
    · exact absurd (hfaults.mono hn) c.reach

/-! ## Sequences of calls -/

/-- **Where a sequence stops**: at a call that finds no space, behind calls that have
answered as the arrays do. -/
def StopsAt (cs : List Call) (F : UInt32 → Sparse UInt8) (s : Sfs) (e : Stop Errno) (s' : Sfs) :
    Prop :=
  e = .error .ENOSPC ∧ ∃ pre c rest us s₁, cs = pre ++ c :: rest ∧ runCalls pre s = .ok us s₁ ∧
    us.map (fun u => (u.moved, u.resid)) = answers pre F ∧ c.NoSpace s₁ s'

/-- A call more at the front. -/
theorem StopsAt.cons {c : Call} {cs : List Call} {F : UInt32 → Sparse UInt8} {u : Uio} {s₁ : Sfs}
    {e : Stop Errno} (hrun : c.run s = .ok u s₁) (hans : (u.moved, u.resid) = c.answer F)
    (h : StopsAt cs (c.effect F) s₁ e s') : StopsAt (c :: cs) F s e s' := by
  obtain ⟨he, pre, c', rest, us, s₂, rfl, hpre, hus, hno⟩ := h
  refine ⟨he, c :: pre, c', rest, u :: us, s₂, rfl, ?_, ?_, hno⟩
  · rw [runCalls, bind_of_ok hrun, bind_of_ok hpre]
    rfl
  · rw [List.map_cons, hus, hans]
    rfl

/-- The arrays outside `L` play no role. -/
theorem wp_runCalls (cs : List Call) (h : s.Core L)
    (hfiles : ∀ c ∈ cs, ∃ v, s.vnode? c.file = some v ∧ v.ops = .file)
    {F : UInt32 → Sparse UInt8} (hF : ∀ x, L x → s.files x = F x) :
    wp (runCalls cs)
      (fun us s' => us.map (fun u => (u.moved, u.resid)) = answers cs F ∧
        ∀ x, L x → s'.files x = effects cs F x)
      (StopsAt cs F s) s := by
  induction cs generalizing s F with
  | nil =>
    rw [runCalls, wp_pure]
    exact ⟨rfl, hF⟩
  | cons c cs ih =>
    obtain ⟨v, hv, hops⟩ := hfiles c (.head _)
    have hx : L c.file := h.loaded _ v hv
    have hanswer : c.answer s.files = c.answer F := by
      unfold Call.answer
      rw [hF _ hx]
    have heffect : ∀ x, L x → c.effect s.files x = c.effect F x := by
      intro x hL
      unfold Call.effect
      cases c.uio.rw with
      | read => exact hF x hL
      | write =>
        show update _ _ _ x = update _ _ _ x
        rw [update_apply, update_apply, hF _ hx, hF x hL]
    rw [runCalls]
    rcases cases_of_wp (c.wp_run h hv hops) with ⟨u, s₁, hrun, hans, hfs, heff⟩ |
      ⟨e, s₁, hrun, rfl, hno⟩
    swap
    · rw [wp_bind, wp_of_error hrun]
      exact ⟨rfl, [], c, cs, [], s, rfl, rfl, rfl, hno⟩
    rw [hanswer] at hans
    rw [wp_bind, wp_of_ok hrun]
    have hfiles₁ : ∀ c' ∈ cs, ∃ v, s₁.vnode? c'.file = some v ∧ v.ops = .file := by
      intro c' hc'
      obtain ⟨v', hv', hops'⟩ := hfiles c' (.tail _ hc')
      by_cases hsame : c'.file = c.file
      · rw [hsame] at hv' ⊢
        obtain ⟨v'', hv'', hkeeps⟩ := heff.self v' hv'
        exact ⟨v'', hv'', hkeeps.ops.trans hops'⟩
      · exact ⟨v', (heff.others _ hsame).trans hv', hops'⟩
    refine wp_seq (ih heff.core hfiles₁ fun x hL => (hfs x hL).trans (heffect x hL)) ?_
      fun e s₂ hstop => hstop.cons hrun hans
    rintro us s₂ ⟨hus, hs₂⟩
    rw [wp_pure]
    refine ⟨?_, hs₂⟩
    rw [List.map_cons, hans, hus]
    rfl

/-- **Files refine sparse byte arrays.** In a file system in working order that
has its accounts right, every sequence of reads and writes of files answers as the
arrays do and leaves all files as the arrays are then, or stops with `ENOSPC` at a
write to a hole when no block is free. What was never written is 0. -/
theorem contents_refine (s : Sfs) (hready : s.Ready) (haccounts : s.Accounts) (cs : List Call)
    (hfiles : ∀ c ∈ cs, ∃ v, s.vnode? c.file = some v ∧ v.ops = .file) :
    wp (runCalls cs)
      (fun us s' => us.map (fun u => (u.moved, u.resid)) = answers cs s.files ∧
        ∀ x, s.Live x → s'.files x = effects cs s.files x)
      (StopsAt cs s.files s) s ∧
    ∀ x p, s.ptr x (p / 512) = 0 → (s.files x).data p = 0 := by
  refine ⟨wp_runCalls cs (haccounts.core hready) hfiles fun _ _ => rfl, fun x p hp => ?_⟩
  show s.byte x p = 0
  unfold byte
  rw [block_of_ptr_eq_zero hp, Sector.byte_zero]

/-! ## A file system of five blocks

One empty file, whose inode is block 3, and one free block. -/

/-- Everything is in use but block 4. -/
def tinySfs : Sfs where
  super := ⟨sfsMagic, 5, []⟩
  superdirty := false
  device := ⟨5, fun _ => Sector.zero, fun _ => .ok⟩
  vnodes := [⟨3, ⟨0, typeFile, 1, fun _ => 0, 0⟩, false, .file, 1⟩]
  freemap := Lib.Bitmap.unmark ⟨4096, fun _ => 0xff⟩ 4
  freemapdirty := false
  mem := fun _ => true

theorem tinySfs_ready : tinySfs.Ready := ⟨rfl, rfl, by decide, by decide, by decide, by decide⟩

theorem tinySfs_vnode? {v : SfsVnode} (h : tinySfs.vnode? x = some v) : x = 3 := by
  unfold vnode? tinySfs at h
  rw [List.find?_singleton] at h
  split at h
  · rename_i hx
    simpa using (of_decide_eq_true hx).symm
  · cases h

/-- No inode of it has a block. -/
theorem tinySfs_inode (h : x = 1 ∨ x = 3) :
    (tinySfs.inode x).size = 0 ∧ (tinySfs.inode x).direct = (fun _ => 0) ∧
      (tinySfs.inode x).indirect = 0 := by
  rcases h with rfl | rfl
  · have hroot : tinySfs.inode 1 = ⟨0, typeInval, 0, fun _ => 0, 0⟩ := SfsInode.ofSector_zero
    rw [hroot]
    exact ⟨rfl, rfl, rfl⟩
  · exact ⟨rfl, rfl, rfl⟩

theorem tinySfs_live : tinySfs.Live x ↔ x = 1 ∨ x = 3 := by
  constructor
  · rintro (rfl | ⟨-, k, hk, -⟩ | ⟨v, hv⟩)
    · exact .inl rfl
    · have hsize : (tinySfs.inode rootIno).size = 0 := (tinySfs_inode (.inl rfl)).1
      unfold nslots at hk
      exact absurd hk (Nat.not_lt_zero k)
    · exact .inr (tinySfs_vnode? hv)
  · rintro (rfl | rfl)
    · exact .inl rfl
    · exact .inr (.inr ⟨_, rfl⟩)

theorem tinySfs_holds {r : Ref} {b : UInt32} :
    tinySfs.Holds r b ↔ r = .inode 1 ∧ b = 1 ∨ r = .inode 3 ∧ b = 3 := by
  unfold Sfs.Holds
  rw [tinySfs_live]
  constructor
  · rintro ⟨hlive, hraw, hb⟩
    obtain ⟨-, hdirect, hindirect⟩ := tinySfs_inode hlive
    cases r with
    | inode x =>
      obtain rfl : x = b := hraw
      exact hlive.imp (fun h : x = 1 => by rw [h]; exact ⟨rfl, rfl⟩)
        fun h : x = 3 => by rw [h]; exact ⟨rfl, rfl⟩
    | indirect x => exact absurd (hraw.symm.trans hindirect) hb
    | block x fb =>
      have hptr : tinySfs.ptr x fb = 0 := by
        unfold ptr entry
        rw [show (tinySfs.inode x).direct = _ from hdirect,
          show (tinySfs.inode x).indirect = _ from hindirect]
        simp
      exact absurd (hraw.symm.trans hptr) hb
  · rintro (⟨rfl, rfl⟩ | ⟨rfl, rfl⟩)
    · exact ⟨.inl rfl, rfl, by decide⟩
    · exact ⟨.inr rfl, rfl, by decide⟩

theorem tinySfs_accounts : tinySfs.Accounts where
  once r r' b hr hr' := by
    rw [tinySfs_holds] at hr hr'
    rcases hr with ⟨rfl, rfl⟩ | ⟨rfl, rfl⟩ <;> rcases hr' with ⟨rfl, hb⟩ | ⟨rfl, hb⟩
    · rfl
    · exact absurd hb (by decide)
    · exact absurd hb (by decide)
    · rfl
  range r b hr hne := by
    rcases tinySfs_holds.1 hr with ⟨rfl, -⟩ | ⟨-, rfl⟩
    · exact absurd rfl hne
    · decide
  bits b hb := by
    have hset : tinySfs.freemap.IsSet b.toNat ↔ b.toNat ≠ 4 := by
      show Lib.Bitmap.IsSet (Lib.Bitmap.unmark ⟨4096, fun _ => 0xff⟩ 4) _ ↔ _
      rw [Lib.Bitmap.isSet_unmark]
      exact ⟨fun h => h.2, fun h => ⟨Lib.Bitmap.and_mask_of_all (Nat.mod_lt _ (by omega)), h⟩⟩
    have hone : bitBlocks tinySfs.super.nblocks = 1 := by decide
    have hfive : tinySfs.super.nblocks.toNat = 5 := rfl
    have heq : ∀ n : UInt32, b = n ↔ b.toNat = n.toNat := fun n => UInt32.toNat_inj.symm
    simp only [hset, hone, hfive, tinySfs_holds, heq, rootIno]
    constructor
    · intro h4
      by_cases h3 : b.toNat = 3
      · exact .inr (.inr (.inr (.inr ⟨.inode 3, .inr ⟨rfl, h3⟩⟩)))
      · simp only [UInt32.toNat_ofNat]
        omega
    · rintro (h | h | h | h | ⟨r, ⟨-, h⟩ | ⟨-, h⟩⟩)
      · rw [h]; decide
      · rw [h]; decide
      · omega
      · omega
      · rw [h]; decide
      · rw [h]; decide

/-- A byte is written behind a hole of 600 bytes. -/
def pokeCall : Call where
  file := 3
  uio := mkKuio [65] 600 .write
  fresh := rfl
  nonneg := by decide
  pos := by decide
  len := rfl
  fits := by decide
  reach := by decide

/-- Four bytes are asked for around it. -/
def peekCall : Call where
  file := 3
  uio := mkKuio [0, 0, 0, 0] 599 .read
  fresh := rfl
  nonneg := by decide
  pos := by decide
  len := rfl
  fits := by decide
  reach := by decide

/-- The byte is there, and a 0 before it. -/
theorem contents_refine_tiny : ∃ us s', runCalls [pokeCall, peekCall] tinySfs = .ok us s' ∧
    us.map (fun u => (u.moved, u.resid)) = [([65], 0), ([0, 65], 2)] ∧ (s'.files 3).size = 601 := by
  obtain ⟨us, s', hrun, -⟩ := Prog.exists_ok_of (runCalls [pokeCall, peekCall]) tinySfs
    (fun _ _ => True) (by decide +kernel)
  have hwp := (contents_refine tinySfs tinySfs_ready tinySfs_accounts [pokeCall, peekCall]
    fun c hc => by
    rcases List.mem_pair.1 hc with rfl | rfl
    · exact ⟨_, rfl, rfl⟩
    · exact ⟨_, rfl, rfl⟩).1
  obtain ⟨hans, hfiles⟩ := (wp_of_ok hrun).1 hwp
  refine ⟨us, s', hrun, hans.trans (by decide +kernel), ?_⟩
  rw [hfiles 3 (tinySfs_live.2 (.inr rfl))]
  decide +kernel

end Fs

end Os161
