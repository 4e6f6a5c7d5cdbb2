import Os161.Fs.Disk
/-!
# The sector of a block number

`SFSUIO` turns a block number into a byte offset, a signed number of 32 bits,
and `lhd_io` turns the offset back into a sector. A block number of `2 ^ 22` or
more does not survive the way there and back: it comes out reduced by `2 ^ 23`,
or as a sector next to `2 ^ 32` (`target_eq_wrapped`). So block `2 ^ 23` is
another name of sector 0, and a block number past the end of the disk can
address a sector (`ownSectors_iff`).
-/

namespace Os161

namespace Fs

open Sector

open Userprog (UioRw)
open Prog

variable {n b : UInt32} {t : ℕ} {d d' : Lhd}

/-! ## What a program touches -/

/-- What a run returns, or how it stops. -/
def outcome {σ ε α : Type} (x : Prog σ ε α) (s : σ) : Except (Stop ε) α :=
  match x s with
  | .ok a _ => .ok a
  | .error e _ => .error e

/-- The state in which a run ends. -/
def final {σ ε α : Type} (x : Prog σ ε α) (s : σ) : σ :=
  match x s with
  | .ok _ s' => s'
  | .error _ s' => s'

/-- **The program accesses sector `t`** of a drive with `n` sectors: on some
drive what it does depends on what the sector holds, or it changes that. -/
def Touches {α : Type} (n : UInt32) (x : Prog Lhd Errno α) (t : ℕ) : Prop :=
  ∃ d : Lhd, d.nsect = n ∧
    ((∃ c, outcome x (d.put t c) ≠ outcome x d) ∨ (final x d).sectors t ≠ d.sectors t)

/-- Two runs of which everything that can be said of the one can be said of the
other come to the same outcome. -/
theorem outcome_eq_of_wp {σ ε α : Type} {x : Prog σ ε α} {s s' : σ}
    (h : ∀ (Q : α → Prop) (E : Stop ε → Prop),
      wp x (fun a _ => Q a) (fun e _ => E e) s → wp x (fun a _ => Q a) (fun e _ => E e) s') :
    outcome x s' = outcome x s := by
  have hself : wp x (fun a _ => outcome x s = .ok a) (fun e _ => outcome x s = .error e) s := by
    unfold wp outcome
    cases x s <;> rfl
  have hother := h _ _ hself
  rcases cases_of_wp hother with ⟨a, s₁, hr, ha⟩ | ⟨e, s₁, hr, he⟩
  · rw [ha]
    unfold outcome
    rw [hr]
  · rw [he]
    unfold outcome
    rw [hr]

theorem final_of_wp {σ ε α : Type} {x : Prog σ ε α} {s : σ} {P : σ → Prop}
    (h : wp x (fun _ s' => P s') (fun _ s' => P s') s) : P (final x s) := by
  unfold final
  rcases cases_of_wp h with ⟨a, s₁, hr, hP⟩ | ⟨e, s₁, hr, hP⟩
  · rw [hr]
    exact hP
  · rw [hr]
    exact hP

theorem outcome_of_ok {σ ε α : Type} {x : Prog σ ε α} {s s' : σ} {a : α} (h : x s = .ok a s') :
    outcome x s = .ok a := by
  unfold outcome
  rw [h]

theorem sectors_put (d : Lhd) (t k : ℕ) (c : Sector) :
    (d.put t c).sectors k = if k = t then c else d.sectors k :=
  Function.update_apply ..

/-! ## A block read -/

/-- The `uio` of a block read. -/
def readUio (b : UInt32) : Uio := mkKuio zero.toList (blockOffset b) .read

/-- **One round of a block read.** -/
theorem wp_sfsRwblockTry_read {onEio : Prog (Io Lhd) Errno Unit} {Q : Unit → Io Lhd → Prop}
    {E : Stop Errno → Io Lhd → Prop} :
    wp (sfsRwblockTry onEio) Q E ⟨d, readUio b⟩ ↔
      if d.nsect.toNat ≤ target b then E .halt ⟨d, readUio b⟩
      else match d.pattern 0 with
        | .ok => Q () ⟨d.tick, (readUio b).advance (d.sectors (target b)).toList⟩
        | .media _ => wp onEio Q E ⟨d.tick, readUio b⟩ := by
  obtain ⟨k, hk⟩ := dvd_blockOffset b
  have hlen := length_toList zero
  have htmod : (readUio b).offset.tmod 512 = 0 := by
    show (blockOffset b).tmod 512 = 0
    rw [hk, Int.mul_tmod_right]
  have hpos : 0 < (readUio b).resid := by
    show 0 < zero.toList.length
    omega
  have hfaults : ¬ (readUio b).Faults 512 := by
    rintro ⟨n, hn, -⟩
    cases hn
  have hwrap : word32 (target b + 1 : ℕ) ≤ target b + 1 := by
    unfold word32
    omega
  rw [wp_sfsRwblockTry, wp_lhdIo_one (r := ⟨d, readUio b⟩) htmod hlen,
    wp_lhdIoLoop_read (r := ⟨d, readUio b⟩) rfl hpos hlen.ge]
  show (if d.nsect.toNat < word32 (target b + 1 : ℕ) then E .halt ⟨d, readUio b⟩
    else if d.nsect.toNat ≤ target b then E .halt ⟨d, readUio b⟩
    else _) ↔ _
  by_cases hin : d.nsect.toNat ≤ target b
  · simp only [if_pos hin, ite_self]
  rw [if_neg (by omega), if_neg hin, if_neg hin, if_neg hfaults]
  show (match d.pattern 0 with | .ok => _ | .media _ => _) ↔ _
  cases d.pattern 0 <;> rfl

/-- Drives that differ at most in sectors other than the block's own. -/
structure SameTarget (b : UInt32) (d d' : Lhd) : Prop where
  nsect : d'.nsect = d.nsect
  pattern : d'.pattern = d.pattern
  sector : target b < d.nsect.toNat → d'.sectors (target b) = d.sectors (target b)

theorem SameTarget.tick (h : SameTarget b d d') : SameTarget b d.tick d'.tick := by
  refine ⟨h.nsect, ?_, h.sector⟩
  show (fun i => d'.pattern (i + 1)) = fun i => d.pattern (i + 1)
  rw [h.pattern]

/-- **A block read sees its own sector and no other**, through all retries. -/
theorem wp_sfsRwblockFrom_congr {Q : Uio → Prop} {E : Stop Errno → Prop} (k : ℕ)
    (h : SameTarget b d d') :
    wp (sfsRwblockFrom k) (fun _ r => Q r.uio) (fun e _ => E e) ⟨d, readUio b⟩ ↔
      wp (sfsRwblockFrom k) (fun _ r => Q r.uio) (fun e _ => E e) ⟨d', readUio b⟩ := by
  induction k generalizing d d' with
  | zero =>
    rw [sfsRwblockFrom, wp_sfsRwblockTry_read, wp_sfsRwblockTry_read, h.nsect, h.pattern]
    split
    · rfl
    · next hin =>
      cases d.pattern 0 with
      | ok =>
        rw [h.sector (by omega)]
      | media left => simp only [wp_fail]
  | succ k ih =>
    rw [sfsRwblockFrom, wp_sfsRwblockTry_read, wp_sfsRwblockTry_read, h.nsect, h.pattern]
    split
    · rfl
    · next hin =>
      cases d.pattern 0 with
      | ok =>
        rw [h.sector (by omega)]
      | media left => exact ih h.tick

/-- It changes none. -/
theorem wp_sfsRwblockFrom_sectors (k : ℕ) :
    wp (sfsRwblockFrom k) (fun _ r => r.fs.sectors = d.sectors)
      (fun _ r => r.fs.sectors = d.sectors) ⟨d, readUio b⟩ := by
  induction k generalizing d with
  | zero =>
    rw [sfsRwblockFrom, wp_sfsRwblockTry_read]
    split
    · rfl
    · cases d.pattern 0 with
      | ok => rfl
      | media left => exact wp_fail.2 rfl
  | succ k ih =>
    rw [sfsRwblockFrom, wp_sfsRwblockTry_read]
    split
    · rfl
    · cases d.pattern 0 with
      | ok => rfl
      | media left => exact ih (d := d.tick)

theorem outcome_sfsRblock_congr (h : SameTarget b d d') :
    outcome (sfsRblock b) d' = outcome (sfsRblock b) d := by
  refine outcome_eq_of_wp fun Q E hd => ?_
  unfold sfsRblock at hd ⊢
  simp only [wp_bind, wp_withUio, wp_pure] at hd ⊢
  exact (wp_sfsRwblockFrom_congr (Q := fun u => Q (ofList u.moved)) 10 h).1 hd

theorem final_sfsRblock : (final (sfsRblock b) d).sectors = d.sectors := by
  refine final_of_wp (P := fun d' : Lhd => d'.sectors = d.sectors) ?_
  unfold sfsRblock
  simp only [wp_bind, wp_withUio, wp_pure]
  exact wp_sfsRwblockFrom_sectors 10

/-- Without an error the sector's bytes are returned. -/
theorem run_sfsRblock_target (hok : d.pattern 0 = .ok) (hin : target b < d.nsect.toNat) :
    sfsRblock b d = .ok (d.sectors (target b)) d.tick := by
  refine run_of_wp ?_
  unfold sfsRblock sfsRwblock
  rw [wp_bind, wp_withUio, sfsRwblockFrom]
  refine wp_sfsRwblockTry_read.2 ?_
  rw [if_neg (by omega), hok]
  exact wp_pure.2 ⟨ofList_toList _, rfl⟩

/-! ## The sectors of a block -/

/-- A drive without errors, all of whose sectors are the same. -/
def evenDrive (n : UInt32) (c : Sector) : Lhd := ⟨n, fun _ => c, fun _ => .ok⟩

theorem sector_ne : (fun _ => 1 : Sector) ≠ zero := fun h => by
  have := congrFun h 0
  cases this

/-- **A block read accesses the one sector** to which its number leads. -/
theorem touches_sfsRblock : Touches n (sfsRblock b) t ↔ t = target b ∧ target b < n.toNat := by
  constructor
  · rintro ⟨d, hn, ⟨c, hc⟩ | hf⟩
    · by_contra hnot
      rw [← hn] at hnot
      have hsame : SameTarget b d (d.put t c) := by
        refine ⟨rfl, rfl, fun hin => ?_⟩
        rw [sectors_put, if_neg fun ht => hnot ⟨ht.symm, hin⟩]
      exact hc (outcome_sfsRblock_congr hsame)
    · rw [final_sfsRblock] at hf
      exact absurd rfl hf
  · rintro ⟨ht, hin⟩
    rw [ht]
    refine ⟨evenDrive n zero, rfl, .inl ⟨fun _ => 1, ?_⟩⟩
    rw [outcome_of_ok (run_sfsRblock_target (d := evenDrive n zero) rfl hin),
      outcome_of_ok (run_sfsRblock_target (d := (evenDrive n zero).put _ _) rfl hin)]
    intro h
    have hself : ((evenDrive n zero).put (target b) fun _ => 1).sectors (target b) =
        fun _ => 1 := by rw [sectors_put, if_pos rfl]
    exact sector_ne (hself.symm.trans (Except.ok.inj h))

/-- What a block write says of itself does not depend on what the sectors hold. -/
theorem outcome_sfsWblock_put (data c : Sector) :
    outcome (sfsWblock data b) (d.put t c) = outcome (sfsWblock data b) d := by
  refine outcome_eq_of_wp fun Q E hd => ?_
  rw [wp_sfsWblock] at hd ⊢
  exact hd

/-- **A block write accesses the same sector.** -/
theorem touches_sfsWblock (data : Sector) :
    Touches n (sfsWblock data b) t ↔ t = target b ∧ target b < n.toNat := by
  constructor
  · rintro ⟨d, hn, ⟨c, hc⟩ | hf⟩
    · exact absurd (outcome_sfsWblock_put data c) hc
    · by_contra hnot
      rw [← hn] at hnot
      refine hf (final_of_wp (P := fun d' : Lhd => d'.sectors t = d.sectors t) ?_)
      rw [wp_sfsWblock]
      split
      · rfl
      · next hin =>
        have hne : target b ≠ t := fun ht => hnot ⟨ht.symm, by omega⟩
        cases d.pattern 0 with
        | ok => simp only [put_sectors, if_neg hne]
        | media left => simp only [put_sectors, if_neg hne, ite_self]
  · rintro ⟨ht, hin⟩
    rw [ht]
    -- a drive that holds something else
    obtain ⟨c, hc⟩ : ∃ c, c ≠ data := by
      by_cases h0 : data = zero
      · exact ⟨fun _ => 1, h0 ▸ sector_ne⟩
      · exact ⟨zero, Ne.symm h0⟩
    refine ⟨evenDrive n c, rfl, .inr ?_⟩
    have hrun : wp (sfsWblock data b) (fun _ d' => d'.sectors (target b) = data)
        (fun _ d' => d'.sectors (target b) = data) (evenDrive n c) := by
      rw [wp_sfsWblock, if_neg (show ¬ (evenDrive n c).nsect.toNat ≤ target b from hin.not_ge)]
      show (((evenDrive n c).tick.put (target b) data).sectors (target b)) = data
      rw [put_sectors, if_pos rfl]
    rw [final_of_wp (P := fun d' : Lhd => d'.sectors (target b) = data) hrun]
    exact Ne.symm hc

/-! ## Block numbers and sectors -/

/-- The block is read or written at sector `t` of a disk of `n` blocks. -/
def Accesses (n b : UInt32) (t : ℕ) : Prop :=
  Touches n (sfsRblock b) t ∨ ∃ data, Touches n (sfsWblock data b) t

theorem accesses_iff : Accesses n b t ↔ t = target b ∧ target b < n.toNat := by
  unfold Accesses
  simp only [touches_sfsRblock, touches_sfsWblock, exists_const, or_self]

/-- **The block number addresses its own sector**: reads and writes access
sector `b` and no other if the disk has it, and none if it does not. -/
def OwnSector (n b : UInt32) : Prop :=
  ∀ t, (Touches n (sfsRblock b) t ↔ t = b.toNat ∧ b < n) ∧
    ∀ data, Touches n (sfsWblock data b) t ↔ t = b.toNat ∧ b < n

/-- Two block numbers are names of one sector. -/
def Alias (n b b' : UInt32) : Prop := ∃ t, Accesses n b t ∧ Accesses n b' t

/-- A block number after the way through the byte offset. -/
def wrapped (b : UInt32) : ℕ :=
  if b.toNat % 2 ^ 23 < 2 ^ 22 then b.toNat % 2 ^ 23 else 2 ^ 32 - 2 ^ 23 + b.toNat % 2 ^ 23

/-- **Where a block number leads.** -/
theorem target_eq_wrapped (b : UInt32) : target b = wrapped b := by
  unfold target sectorAt wrapped
  split
  · next hlow =>
    have hoffset : blockOffset b = 512 * (b.toNat % 2 ^ 23 : ℕ) := by
      unfold blockOffset off32
      omega
    rw [hoffset, Int.mul_tdiv_cancel_left _ (by decide)]
    exact word32_eq (by omega)
  · next hhigh =>
    have hoffset : blockOffset b = 512 * ((b.toNat % 2 ^ 23 : ℕ) - 2 ^ 23 : ℤ) := by
      unfold blockOffset off32
      omega
    rw [hoffset, Int.mul_tdiv_cancel_left _ (by decide)]
    unfold word32
    omega

/-- The block numbers that come through. On the disk these are the ones whose
byte offset fits, and those whose negative offset is cut back to them; past its
end, the ones that do not come out as a sector that the disk has. -/
def Direct (n b : UInt32) : Prop :=
  if b < n then b.toNat < 2 ^ 22 ∨ 2 ^ 32 - 2 ^ 22 ≤ b.toNat else n.toNat ≤ wrapped b

theorem ownSector_iff : OwnSector n b ↔ Direct n b := by
  unfold OwnSector Direct
  have hlt : b.toNat < 2 ^ 32 := b.toNat_lt
  simp only [touches_sfsRblock, touches_sfsWblock, target_eq_wrapped, forall_const, and_self,
    UInt32.lt_iff_toNat_lt]
  constructor
  · intro h
    split
    · next hb =>
      have hself := ((h b.toNat).2 ⟨rfl, hb⟩).1
      unfold wrapped at hself
      split at hself <;> omega
    · next hb =>
      by_contra hout
      exact hb ((h (wrapped b)).1 ⟨rfl, by omega⟩).2
  · intro h t
    split at h
    · next hb =>
      have hself : wrapped b = b.toNat := by
        unfold wrapped
        split <;> omega
      rw [hself]
    · next hb =>
      constructor
      · rintro ⟨-, hw⟩
        omega
      · rintro ⟨-, hb'⟩
        exact absurd hb' hb

/-- **When block numbers address their own sectors**: for every disk size and
every set of block numbers in use, each addresses its own sector or none, and
no two are names of one sector, if and only if all of them come through. -/
theorem ownSectors_iff (n : UInt32) (S : Set UInt32) :
    ((∀ b ∈ S, OwnSector n b) ∧ ∀ b ∈ S, ∀ b' ∈ S, b ≠ b' → ¬ Alias n b b') ↔
      ∀ b ∈ S, Direct n b := by
  constructor
  · rintro ⟨hown, -⟩ b hb
    exact ownSector_iff.1 (hown b hb)
  · intro h
    have hown : ∀ b ∈ S, OwnSector n b := fun b hb => ownSector_iff.2 (h b hb)
    refine ⟨hown, fun b hb b' hb' hne => ?_⟩
    rintro ⟨t, ht, ht'⟩
    -- each is at its own number
    have hself : ∀ c ∈ S, Accesses n c t → t = c.toNat := by
      intro c hc ha
      exact (((hown c hc) t).1.1 (touches_sfsRblock.2 (accesses_iff.1 ha))).1
    exact hne (UInt32.toNat_inj.1 ((hself b hb ht).symm.trans (hself b' hb' ht')))

/-- On a disk of 4 GB and one block the last block is another name of the
superblock. -/
theorem block_names_superblock :
    (8388608 : UInt32) < 8388609 ∧ Accesses 8388609 8388608 0 ∧ Accesses 8388609 0 0 ∧
      ¬ OwnSector 8388609 8388608 := by
  refine ⟨by decide, accesses_iff.2 ?_, accesses_iff.2 ?_, fun h => ?_⟩
  · decide
  · decide
  · have hd := ownSector_iff.1 h
    revert hd
    unfold Direct
    decide

end Fs

end Os161
