import Os161.Fs.Contents
import Os161.Fs.Truncate
/-!
# What a truncation cuts off

Bytes that a truncation has cut off should be gone: after any further reads and
writes, what a read finds past the new end and has not been written since should
be 0 (`Forgets`). It is not so. A truncation keeps the rest of the block that
the new end is in, and one block more in the indirect range, and the file shows
them again when it grows. They are forgotten exactly if there was nothing but
zeros there (`forgets_iff`).
-/

namespace Os161

namespace Fs

open Prog
open Userprog (UioRw)

variable {s s' : Sfs} {L : UInt32 → Prop} {x y : UInt32} {v : SfsVnode} {u : Uio} {r : Io Sfs}

/-! ## Reads and writes after it -/

/-- How many bytes have gone through a `uio`. -/
def Uio.movedSince (u u' : Uio) : ℕ := u'.moved.length - u.moved.length

/-- **Reads and writes of any files**, each of which returns 0 or an error, and the
positions of file `x` that they have written. -/
inductive Later (x : UInt32) (s : Sfs) : (ℕ → Prop) → Sfs → Prop
  | refl : Later x s (fun _ => False) s
  | step {W : ℕ → Prop} {s' : Sfs} {y : UInt32} {u : Uio} {r : Io Sfs} (later : Later x s W s')
      (ok : u.Ok)
      (run : vopIo y ⟨s', u⟩ = .ok () r ∨ ∃ e, vopIo y ⟨s', u⟩ = .error (.error e) r) :
    Later x s (fun p => W p ∨ (y = x ∧ u.rw = .write ∧ u.pos ≤ p ∧ p < u.pos + u.movedSince r.uio))
      r.fs

/-- **Truncation discards data for good.** If it returns 0, and after any reads and
writes, a byte that is read past the new end is 0 unless it has been written. -/
def Forgets (s : Sfs) (x : UInt32) (len : ℤ) : Prop :=
  ∀ s₁, vopTruncate x len s = .ok () s₁ → ∀ W s₂, Later x s₁ W s₂ →
    ∀ u r, u.Ok → u.rw = .read → vopIo x ⟨s₂, u⟩ = .ok () r →
      ∀ i : ℕ, len ≤ u.pos + i → ¬ W (u.pos + i) → (r.uio.moved.drop u.moved.length).getD i 0 = 0

/-- Nothing but zeros lies past the new end in the blocks that are kept. -/
def NothingBehind (s : Sfs) (x : UInt32) (len : ℤ) : Prop :=
  ∀ p : ℕ, len ≤ p → keepsBlock (blocklenOf len) (p / 512) → s.byte x p = 0

/-! ## One request -/

section

variable {Q : Unit → Io Sfs → Prop} {E : Stop Errno → Io Sfs → Prop}

theorem wp_vopIo_dir (hv : r.fs.vnode? x = some v) (hops : v.ops = .dir) :
    wp (vopIo x) Q E r ↔ E (.error .EISDIR) r := by
  unfold vopIo
  rw [wp_bind, wp_onFs, wp_getVnode hv, hops]
  exact wp_fail

theorem wp_vopIo_none (hv : r.fs.vnode? x = none) : wp (vopIo x) Q E r ↔ E .halt r := by
  unfold vopIo getVnode
  rw [wp_bind, wp_onFs, wp_get_bind, hv]
  exact wp_halt

end

/-- A request on a file moves `k` bytes, whether it fails or not. -/
theorem run_vopIo (h : s.Core L) (hv : s.vnode? x = some v) (hops : v.ops = .file) (hok : u.Ok) :
    ∃ r, ∃ k ≤ u.resid, Done L x ⟨s, u⟩ r k ∧
      (vopIo x ⟨s, u⟩ = .ok () r ∧ k = Io.count x ⟨s, u⟩ ∨
        ∃ e n, vopIo x ⟨s, u⟩ = .error (.error e) r ∧ n ≤ u.resid ∧
          Halfway (s.NoRoom r.fs x) u n (.error e) k) := by
  have hwp := (wp_vopIo_file (r := ⟨s, u⟩) hv hops).2 (wp_sfsIo (r := ⟨s, u⟩) h hv hok)
  rcases cases_of_wp hwp with ⟨_, r, hr, hdone, -⟩ | ⟨e, r, hr, k, n, hn, hdone, hhalf⟩
  · refine ⟨r, _, ?_, hdone, .inl ⟨hr, rfl⟩⟩
    unfold Io.count
    cases u.rw with
    | read =>
      show (min (u.resid : ℤ) _).toNat ≤ _
      omega
    | write => exact le_refl _
  · obtain ⟨err, rfl⟩ := hhalf.error
    have hk := hhalf.part
    have hn' : n ≤ u.resid := hn
    exact ⟨r, k, by omega, hdone, .inr ⟨err, n, hr, hn, hhalf⟩⟩

theorem Done.movedSince_eq {k : ℕ} (h : Done L x ⟨s, u⟩ r k) (hok : u.Ok) (hk : k ≤ u.resid) :
    u.movedSince r.uio = k := by
  rw [h.uio]
  show (u.moved ++ _).length - _ = _
  rw [List.length_append, Io.length_gone (Nat.le_trans hk hok.resid_le), Nat.add_sub_cancel_left]

/-- **What a request does to the bytes of the files.** -/
theorem vopIo_effect (h : s.Core L) (hok : u.Ok)
    (hrun : vopIo y ⟨s, u⟩ = .ok () r ∨ ∃ e, vopIo y ⟨s, u⟩ = .error (.error e) r) :
    Effect s r.fs L y ∧
      ∀ z, L z → r.fs.byte z = Io.after y ⟨s, u⟩ (u.movedSince r.uio) z := by
  cases hv : s.vnode? y with
  | none =>
    have hhalt : wp (vopIo y) (fun _ _ => False) (fun e _ => e = .halt) ⟨s, u⟩ :=
      (wp_vopIo_none (r := ⟨s, u⟩) hv).2 rfl
    rcases hrun with hr | ⟨e, hr⟩
    · exact ((wp_of_ok hr).1 hhalt).elim
    · cases (wp_of_error hr).1 hhalt
  | some v =>
    cases hops : v.ops with
    | file =>
      obtain ⟨r', k, hk, hdone, hres⟩ := run_vopIo h hv hops hok
      obtain rfl : r' = r := by
        rcases hres with ⟨hr', -⟩ | ⟨e, n, hr', -⟩ <;> rcases hrun with hr | ⟨e, hr⟩ <;>
          rw [hr'] at hr <;> cases hr <;> rfl
      rw [hdone.movedSince_eq hok hk]
      exact ⟨hdone.effect, hdone.data⟩
    | dir =>
      have hdir : wp (vopIo y) (fun _ _ => False) (fun _ r => r = ⟨s, u⟩) ⟨s, u⟩ :=
        (wp_vopIo_dir (r := ⟨s, u⟩) hv hops).2 rfl
      rcases hrun with hr | ⟨e, hr⟩
      · exact ((wp_of_ok hr).1 hdir).elim
      · obtain rfl := (wp_of_error hr).1 hdir
        refine ⟨.refl h, fun z _ => ?_⟩
        unfold Io.after Uio.movedSince
        rw [Nat.sub_self, List.take_zero, patch_nil]
        split
        · rename_i hc
          rw [hc.2]
        · rfl

/-! ## Any requests -/

/-- **A byte that is not written stays.** -/
theorem Later.invariant {W : ℕ → Prop} (h : s.Core L) (hv : s.vnode? x = some v)
    (hops : v.ops = .file) (hlater : Later x s W s') :
    s'.Core L ∧ (∃ v', s'.vnode? x = some v' ∧ v'.ops = .file) ∧
      ∀ p, ¬ W p → s'.byte x p = s.byte x p := by
  induction hlater with
  | refl => exact ⟨h, ⟨v, hv, hops⟩, fun _ _ => rfl⟩
  | @step W s₁ y u r hlater hok hrun ih =>
    obtain ⟨hcore, ⟨v₁, hv₁, hops₁⟩, hbyte⟩ := ih
    obtain ⟨heffect, hdata⟩ := vopIo_effect hcore hok hrun
    refine ⟨heffect.core, ?_, fun p hp => ?_⟩
    · by_cases hyx : x = y
      · subst hyx
        obtain ⟨v₂, hv₂, hkeeps⟩ := heffect.self v₁ hv₁
        exact ⟨v₂, hv₂, hkeeps.ops.trans hops₁⟩
      · exact ⟨v₁, (heffect.others x hyx).trans hv₁, hops₁⟩
    · push Not at hp
      rw [hdata x (hcore.loaded x v₁ hv₁), ← hbyte p hp.1]
      unfold Io.after
      split
      · rename_i hc
        obtain ⟨hrw, rfl⟩ := hc
        by_cases hlt : p < u.pos
        · exact patch_of_lt hlt
        · have hge := hp.2 rfl hrw (not_lt.1 hlt)
          refine patch_of_ge ?_
          show u.pos + (u.base.take _).length ≤ p
          rw [List.length_take]
          omega
      · rfl

/-! ## What comes back -/

/-- What a read of a file moves. -/
theorem Done.drop_moved {k : ℕ} (h : Done L x ⟨s, u⟩ r k) (hrw : u.rw = .read) :
    r.uio.moved.drop u.moved.length = slice (s.byte x) u.pos k := by
  rw [h.uio]
  show (u.moved ++ Io.gone x ⟨s, u⟩ k).drop _ = _
  rw [List.drop_left]
  unfold Io.gone
  rw [hrw]

theorem mkKuio_byte_ok {p : ℕ} (h : p < 2 ^ 31) {b : UInt8} {rw : UioRw} :
    (mkKuio [b] p rw).Ok where
  nonneg := Int.natCast_nonneg p
  lt := show (p : ℤ) < 2 ^ 31 by omega
  resid_le := le_refl _
  resid_lt := show 1 < 2 ^ 32 by omega

section Truncated

variable (h : s.Core L) (hv : s.vnode? x = some v) (hops : v.ops = .file)
include h hv hops

theorem wp_vopTruncate_file (len : ℤ) :
    wp (vopTruncate x len) (fun _ s' => Truncated s s' L x len) (fun _ _ => False) s := by
  unfold vopTruncate
  rw [wp_bind, wp_getVnode hv, hops]
  exact wp_sfsTruncate h hv len

/-- If there were only zeros, there is nothing to come back. -/
theorem forgets_of_nothingBehind {len : ℤ} (hzero : NothingBehind s x len) : Forgets s x len := by
  intro s₁ hs₁ W s₂ hlater u r hok hrw hr i hi hW
  have ht : Truncated s s₁ L x len := (wp_of_ok hs₁).1 (wp_vopTruncate_file h hv hops len)
  obtain ⟨v₁, hv₁, hkeeps⟩ := ht.effect.self v hv
  obtain ⟨hcore, ⟨v₂, hv₂, hops₂⟩, hbyte⟩ :=
    hlater.invariant ht.effect.core hv₁ (hkeeps.ops.trans hops)
  obtain ⟨r', k, hk, hdone, hres⟩ := run_vopIo hcore hv₂ hops₂ hok
  obtain rfl : r' = r := by
    rcases hres with ⟨hr', -⟩ | ⟨e, n, hr', -⟩ <;> rw [hr] at hr' <;> cases hr'
    rfl
  rw [hdone.drop_moved hrw]
  by_cases hlt : i < k
  · rw [getD_slice hlt, hbyte _ hW]
    unfold Sfs.byte
    by_cases hkeep : keepsBlock (blocklenOf len) ((u.pos + i) / 512)
    · rw [ht.kept _ hkeep]
      exact hzero _ (by exact_mod_cast hi) hkeep
    · rw [Sfs.block_of_ptr_eq_zero (ht.cut _ hkeep), Sector.byte_zero]
  · rw [List.getD_eq_default _ _ (by rw [length_slice]; omega)]

/-- A byte that is kept past the new end comes back when the file grows. -/
theorem nothingBehind_of_forgets {len : ℤ} (hforgets : Forgets s x len) :
    NothingBehind s x len := by
  intro p hp hkeep
  by_contra hne
  have hlt : p < 143 * 512 := by
    by_contra hge
    refine hne ?_
    unfold Sfs.byte
    rw [Sfs.block_of_ptr_eq_zero (Sfs.ptr_of_ge (by omega)), Sector.byte_zero]
  obtain ⟨_, s₁, hs₁, ht⟩ := exists_ok_of_wp (wp_vopTruncate_file h hv hops len)
  obtain ⟨v₁, hv₁, hkeeps₁⟩ := ht.effect.self v hv
  have hops₁ := hkeeps₁.ops.trans hops
  -- one byte is written behind it, which moves the end even where it fails
  have hok₁ : (mkKuio [0] (p + 1 : ℕ) .write).Ok := mkKuio_byte_ok (by omega)
  obtain ⟨r₁, k₁, -, hdone₁, hres₁⟩ := run_vopIo ht.effect.core hv₁ hops₁ hok₁
  have hlater := Later.step (x := x) .refl hok₁ (by
    rcases hres₁ with ⟨hr, -⟩ | ⟨e, -, hr, -⟩
    · exact .inl hr
    · exact .inr ⟨e, hr⟩)
  have hx : L x := ht.effect.core.loaded x v₁ hv₁
  have hsize : (p + 1 : ℕ) ≤ r₁.fs.size x := by
    rw [hdone₁.size x hx, if_pos ⟨rfl, rfl⟩]
    refine le_trans ?_ (le_max_right _ _)
    show ((p + 1 : ℕ) : ℤ) ≤ ((p + 1) + k₁ : ℕ)
    omega
  have hbyte : r₁.fs.byte x p = s.byte x p := by
    rw [hdone₁.data x hx]
    unfold Io.after
    rw [if_pos ⟨rfl, rfl⟩]
    refine (patch_of_lt (Nat.lt_succ_self p)).trans ?_
    unfold Sfs.byte
    rw [ht.kept _ hkeep]
  -- and then it is read
  obtain ⟨v₂, hv₂, hkeeps₂⟩ := hdone₁.effect.self v₁ hv₁
  have hok₂ : (mkKuio [0] p .read).Ok := mkKuio_byte_ok (by omega)
  obtain ⟨r₂, k₂, -, hdone₂, hres₂⟩ :=
    run_vopIo hdone₁.effect.core hv₂ (hkeeps₂.ops.trans hops₁) hok₂
  rcases hres₂ with ⟨hr₂, hk₂⟩ | ⟨e, n, -, hn, hhalf⟩
  · have hcount : k₂ = 1 := by
      rw [hk₂]
      show (min ((1 : ℕ) : ℤ) (r₁.fs.size x - (p : ℤ).toNat)).toNat = 1
      omega
    have hread := hforgets s₁ hs₁ _ _ hlater _ r₂ hok₂ rfl hr₂ 0 ?_ ?_
    · rw [hdone₂.drop_moved rfl, hcount, getD_slice (by omega)] at hread
      exact hne (hbyte.symm.trans hread)
    · exact_mod_cast hp
    · rintro (hf | ⟨-, -, hge, -⟩)
      · exact hf
      · exact absurd hge (Nat.not_succ_le_self p)
  · have hn' : n ≤ 1 := hn
    rcases hhalf.cause with ⟨-, hrw, -⟩ | ⟨-, hpast⟩ | ⟨-, hfaults⟩
    · cases hrw
    · have hpast' : 143 * 512 < p + n := hpast
      omega
    · obtain ⟨m, hm, -⟩ := hfaults
      cases hm

end Truncated

/-- **Truncation forgets exactly where there is nothing to forget.** In a file
system in working order that has its accounts right, what a truncation of a file
cuts off is gone for good if and only if all bytes past the new end were 0 in
the blocks that it keeps: the one that the new end is in, and in the range of the
indirect block one more. -/
theorem forgets_iff (s : Sfs) (hready : s.Ready) (haccounts : s.Accounts) (x : UInt32)
    (v : SfsVnode) (hv : s.vnode? x = some v) (hops : v.ops = .file) (len : ℤ) :
    Forgets s x len ↔ NothingBehind s x len :=
  have h := haccounts.core hready
  ⟨nothingBehind_of_forgets h hv hops, forgets_of_nothingBehind h hv hops⟩

theorem forgets_iff_tiny : Forgets tinySfs 3 0 ↔ NothingBehind tinySfs 3 0 :=
  forgets_iff tinySfs tinySfs_ready tinySfs_accounts 3 _ rfl rfl 0

/-- Two bytes are written. -/
def twoCall : Call where
  file := 3
  uio := mkKuio [65, 66] 0 .write
  fresh := rfl
  nonneg := by decide
  pos := by decide
  len := rfl
  fits := by decide
  reach := by decide

/-- The second byte of a file of two bytes comes back after the file has been
truncated to one. -/
theorem truncate_remembers :
    ∃ u s, twoCall.run tinySfs = .ok u s ∧ ¬ Forgets s 3 1 := by
  have hcore := tinySfs_accounts.core tinySfs_ready
  obtain ⟨u, s, hrun, -⟩ := Prog.exists_ok_of twoCall.run tinySfs (fun _ _ => True)
    (by decide +kernel)
  obtain ⟨-, hfiles, heffect⟩ := (wp_of_ok hrun).1 (twoCall.wp_run hcore rfl rfl)
  obtain ⟨v, hv, hkeeps⟩ := heffect.self _ rfl
  have hbyte : s.byte 3 1 = 66 :=
    congrArg (fun f : Sparse UInt8 => f.data 1) (hfiles 3 (tinySfs_live.2 (.inr rfl)))
  refine ⟨u, s, hrun, fun hforgets => ?_⟩
  have hkeep : keepsBlock (blocklenOf 1) (1 / 512) := show 0 < blocklenOf 1 by decide
  have hzero : s.byte 3 1 = 0 :=
    nothingBehind_of_forgets heffect.core hv hkeeps.ops hforgets 1 (by decide) hkeep
  rw [hbyte] at hzero
  exact absurd hzero (by decide)

end Fs

end Os161
