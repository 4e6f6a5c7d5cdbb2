import Os161.Fs.Contents
/-!
# Where a read stops

`sfs_io` adds the offset of a read, which is signed, and its residue, which is
not, and compares the sum with the size as a signed number. A sum of `2 ^ 31` or
more comes out before the offset, and then nothing holds the read up at the end
of the file: it goes on to block 143, which `sfs_bmap` refuses, or to the end of
the buffer (`reads_to_eof_iff`).
-/

namespace Os161

namespace Fs

open Prog

variable {s : Sfs} {x : UInt32} {v : SfsVnode} {u : Uio}

/-- The bytes that a file has for a read. -/
def eofCount (s : Sfs) (x : UInt32) (u : Uio) : ℕ :=
  min u.resid ((s.inode x).size.toNat - u.pos)

/-- **The read returns 0** and has moved what the file has for it. -/
def ReadsToEof (s : Sfs) (x : UInt32) (u : Uio) : Prop :=
  ∃ r', vopIo x ⟨s, u⟩ = .ok () r' ∧
    r'.uio.moved.length = u.moved.length + eofCount s x u ∧
    r'.uio.resid = u.resid - eofCount s x u

theorem size_eq (hsize : (s.inode x).size.toNat ≤ 143 * 512) :
    s.size x = (s.inode x).size.toNat :=
  off32_eq (by omega) (by omega)

theorem count_eq_eofCount (hrw : u.rw = .read) (hsize : (s.inode x).size.toNat ≤ 143 * 512) :
    Io.count x ⟨s, u⟩ = eofCount s x u := by
  rw [Io.count_of_read hrw]
  show (min (u.resid : ℤ) (s.size x - u.pos)).toNat = min u.resid _
  rw [size_eq hsize]
  omega

/-- **When a read stops at the end of the file.** The buffer has room for the
residue, and what the file has for it can be reached. -/
theorem reads_to_eof_iff (hready : s.Ready) (haccounts : s.Accounts) (hv : s.vnode? x = some v)
    (hops : v.ops = .file) (hok : u.Ok) (hrw : u.rw = .read)
    (hsize : (s.inode x).size.toNat ≤ 143 * 512) (hreach : ¬ u.Faults (eofCount s x u)) :
    ReadsToEof s x u ↔ (s.inode x).size.toNat ≤ u.pos ∨ u.pos + u.resid < 2 ^ 31 := by
  have hcore : s.Core s.Live := haccounts.core hready
  have hcount := count_eq_eofCount (x := x) hrw hsize
  have hfile := size_eq hsize
  constructor
  · rintro ⟨r', hrun, -⟩
    by_contra hend
    rw [not_or, not_le, not_lt] at hend
    have hwp := wp_sfsIo_wrapped (r := ⟨s, u⟩) hcore hv hok hrw
      (by rw [hfile]; exact_mod_cast hend.1) hend.2
    rw [← wp_vopIo_file (r := ⟨s, u⟩) hv hops, wp_of_ok hrun] at hwp
    exact hwp
  · intro hend
    have hwp := wp_sfsIo_read (r := ⟨s, u⟩) hcore hv hok hrw
      (hend.imp_left fun h => by rw [hfile]; exact_mod_cast h)
    rw [hcount, ← wp_vopIo_file (r := ⟨s, u⟩) hv hops] at hwp
    have hle : eofCount s x u ≤ u.resid := min_le_left _ _
    rcases cases_of_wp hwp with ⟨_, r', hrun, hdone, -⟩ | ⟨e, r', -, hin, k, -, hhalf⟩
    · have hlen : (Io.gone x ⟨s, u⟩ (eofCount s x u)).length = eofCount s x u :=
        Io.length_gone (hle.trans hok.resid_le)
      refine ⟨r', hrun, ?_, ?_⟩
      · rw [hdone.uio]
        show (u.moved ++ _).length = _
        rw [List.length_append, hlen]
      · rw [hdone.uio, hok.resid_advance (by rw [hlen]; exact hle), hlen]
    · -- no error is left for a read that ends within the file
      exfalso
      rcases hhalf.cause with ⟨-, hwrite, -⟩ | ⟨-, hpast⟩ | ⟨-, hfaults⟩
      · have hwrite' : u.rw = .write := hwrite
        rw [hrw] at hwrite'
        cases hwrite'
      · have hpast' : 143 * 512 < u.pos + eofCount s x u := hpast
        have hin' : (u.pos : ℤ) < s.size x := hin
        unfold eofCount at hpast'
        omega
      · exact hreach hfaults

/-- A read of the empty file of `tinySfs`. -/
def emptyRead : Uio := mkKuio [0] 0 .read

theorem reads_to_eof_iff_empty : ReadsToEof tinySfs 3 emptyRead :=
  (reads_to_eof_iff (s := tinySfs) (x := 3) tinySfs_ready tinySfs_accounts rfl rfl
    ⟨by decide, by decide, by decide, by decide⟩ rfl (by decide)
    (by rintro ⟨n, hn, -⟩; cases hn)).2 (.inl (by decide))

/-- The vnode of that file with a size of one byte. -/
def oneByte (sv : SfsVnode) : SfsVnode := { sv with i := { sv.i with size := 1 }, dirty := true }

def oneByteSfs : Sfs := tinySfs.modifyVnode 3 oneByte

theorem oneByteSfs_core : oneByteSfs.Core tinySfs.Live :=
  Sfs.Core.modifyVnode (f := oneByte) (fun _ => rfl) (fun _ => rfl) (fun _ => rfl)
    (tinySfs_accounts.core tinySfs_ready) 3

/-- A residue of `2 ^ 31` bytes, the first 512 of which can be reached. -/
def hugeRead : Uio where
  moved := []
  base := List.replicate (2 ^ 31) 0
  user := some 512
  offset := 0
  resid := 2 ^ 31
  rw := .read

theorem hugeRead_ok : hugeRead.Ok :=
  ⟨by decide, by decide, by rw [hugeRead, List.length_replicate], by decide⟩

/-- **The read of one byte fails**, with a buffer that has room for it. -/
theorem huge_read_fails :
    sfsTruncate 3 1 tinySfs = .ok () oneByteSfs ∧
      ¬ hugeRead.Faults (eofCount oneByteSfs 3 hugeRead) ∧
      (∃ e r', vopIo 3 ⟨oneByteSfs, hugeRead⟩ = .error (.error e) r') ∧
      ¬ ReadsToEof oneByteSfs 3 hugeRead := by
  have hwp := wp_sfsIo_wrapped (r := ⟨oneByteSfs, hugeRead⟩) (x := 3) oneByteSfs_core rfl
    hugeRead_ok rfl (by decide) (by decide)
  rw [← wp_vopIo_file (r := ⟨oneByteSfs, hugeRead⟩) rfl rfl] at hwp
  rcases cases_of_wp hwp with ⟨_, _, -, hfalse⟩ | ⟨e, r', hrun, k, -, hhalf⟩
  · exact hfalse.elim
  obtain ⟨err, rfl⟩ := hhalf.error
  refine ⟨rfl, ?_, ⟨err, r', hrun⟩, ?_⟩
  · have hcount : eofCount oneByteSfs 3 hugeRead = 1 := by decide
    decide
  · rintro ⟨r'', hok, -⟩
    rw [hrun] at hok
    cases hok

end Fs

end Os161
