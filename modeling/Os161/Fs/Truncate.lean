import Mathlib.Data.List.Nodup
import Os161.Fs.Bmap
import Os161.Fs.Sector
/-!
# `sfs_truncate`

The blocks past the new end are freed, the direct ones one by one and those in
the indirect block first in the copy of it in memory. What the loops do is said
without assumptions about the inode or about the freemap: a block that is freed
twice, or that was not in use, ends in a panic (`Freeable`), and a call that
returns has freed each of them once (`Clears`, `Cutoff`). With exact accounts
there is no panic, and the accounting holds again (`wp_sfsTruncate`).

Two things are kept that lie past the end: the rest of the block that the end
is in, and, because the comparison in the loop over the indirect block is off
by one, one block more there (`keepsBlock`).
-/

namespace Os161

namespace Fs

open Prog Function Sfs Sector List

variable {s s' s₁ s₂ : Sfs} {L : UInt32 → Prop} {x y b c ib : UInt32} {v : SfsVnode} {r : Ref}
  {blocklen n : ℕ} {bs cs : List UInt32}

/-! ## Bits that are cleared -/

/-- **The freemap has lost the bits of `bs`**, each of which it had, and each
once. -/
structure Clears (s s' : Sfs) (bs : List UInt32) : Prop where
  nodup : bs.Nodup
  set : ∀ b ∈ bs, s.freemap.IsSet b.toNat
  isSet : ∀ c : UInt32, s'.freemap.IsSet c.toNat ↔ s.freemap.IsSet c.toNat ∧ c ∉ bs

theorem Clears.nil (h : s'.freemap = s.freemap) : Clears s s' [] where
  nodup := .nil
  set := by simp
  isSet c := by simp [h]

theorem Clears.append (h : Clears s s₁ bs) (h' : Clears s₁ s' cs) :
    Clears s s' (bs ++ cs) where
  nodup := by
    refine h.nodup.append h'.nodup fun b hb hc => ?_
    exact ((h.isSet b).1 (h'.set b hc)).2 hb
  set b hb := by
    rcases mem_append.1 hb with hb | hb
    · exact h.set b hb
    · exact ((h.isSet b).1 (h'.set b hb)).1
  isSet c := by
    rw [h'.isSet, h.isSet, mem_append, not_or, and_assoc]

theorem Clears.free (hset : s.freemap.IsSet b.toNat) (h : s'.freemap = (s.free b).freemap) :
    Clears s s' [b] where
  nodup := nodup_singleton b
  set c hc := by rwa [mem_singleton.1 hc]
  isSet c := by
    rw [h, mem_singleton]
    show (s.freemap.unmark b.toNat).IsSet c.toNat ↔ _
    rw [Lib.Bitmap.isSet_unmark, UInt32.toNat_inj.ne]

/-- The blocks of `bs` can be freed, one after the other. -/
def Freeable (m : Lib.Bitmap) (bs : List UInt32) : Prop :=
  bs.Nodup ∧ ∀ b ∈ bs, b.toNat < m.nbits ∧ m.IsSet b.toNat

theorem Freeable.sublist {m : Lib.Bitmap} (h : Freeable m cs) (hsub : bs <+ cs) : Freeable m bs :=
  ⟨h.1.sublist hsub, fun b hb => h.2 b (hsub.subset hb)⟩

/-- Those that are left when some of them have been freed. -/
theorem Freeable.rest (h : Freeable s.freemap (bs ++ cs)) (hclears : Clears s s₁ bs)
    (hnbits : s₁.freemap.nbits = s.freemap.nbits) : Freeable s₁.freemap cs := by
  obtain ⟨-, hcs, hne⟩ := nodup_append.1 h.1
  refine ⟨hcs, fun b hb => ?_⟩
  obtain ⟨hlt, hset⟩ := h.2 b (mem_append_right bs hb)
  exact ⟨hnbits ▸ hlt, (hclears.isSet b).2 ⟨hset, fun hbs => hne b hbs b hb rfl⟩⟩

theorem wp_sfsBfree :
    wp (sfsBfree b) (fun _ s' => s' = s.free b ∧ s.freemap.IsSet b.toNat)
      (fun _ _ => ¬ (b.toNat < s.freemap.nbits ∧ s.freemap.IsSet b.toNat)) s := by
  unfold sfsBfree Lib.Bitmap.bitmapUnmark
  simp only [wp_bind, wp_zoom, wp_get, wp_assert, wp_set, wp_modify]
  split
  · split
    · exact ⟨rfl, ‹_›⟩
    · exact fun h => absurd h.2 ‹_›
  · exact fun h => absurd h.1 ‹_›

theorem Sfs.Core.run_sfsBfree (h : s.Core L) (hr : s.ref L r = some b) :
    sfsBfree b s = .ok () (s.free b) :=
  Fs.run_sfsBfree (h.lt_nbits hr) (h.isSet hr)

/-! ## What stays -/

/-- **`s'` is `s` after work on file `x`, whose indirect block is `ib`**: at most
the freemap, the vnode and the indirect block have changed. -/
structure Trims (s s' : Sfs) (x ib : UInt32) : Prop where
  ready : s.Ready → s'.Ready
  super : s'.super = s.super
  superdirty : s'.superdirty = s.superdirty
  nbits : s'.freemap.nbits = s.freemap.nbits
  map : s'.freemapdirty = true ∨ s'.freemap = s.freemap ∧ s'.freemapdirty = s.freemapdirty
  inos : s'.vnodes.map (·.ino) = s.vnodes.map (·.ino)
  others : ∀ y ≠ x, s'.vnode? y = s.vnode? y
  self : ∀ v, s.vnode? x = some v → ∃ v', s'.vnode? x = some v' ∧ Keeps v v'
  sectors : ∀ b, b ≠ ib ∨ b = 0 → s'.sector b = s.sector b

namespace Trims

theorem refl : Trims s s x ib :=
  ⟨id, rfl, rfl, rfl, .inr ⟨rfl, rfl⟩, rfl, fun _ _ => rfl, fun v hv => ⟨v, hv, .refl v⟩,
    fun _ _ => rfl⟩

theorem trans (h : Trims s s₁ x ib) (h' : Trims s₁ s' x ib) : Trims s s' x ib where
  ready hr := h'.ready (h.ready hr)
  super := h'.super.trans h.super
  superdirty := h'.superdirty.trans h.superdirty
  nbits := h'.nbits.trans h.nbits
  map := by
    rcases h'.map with hd | ⟨hm, hd⟩
    · exact .inl hd
    · rw [hm, hd]
      exact h.map
  inos := h'.inos.trans h.inos
  others y hy := (h'.others y hy).trans (h.others y hy)
  self v hv := by
    obtain ⟨v₁, hv₁, hk⟩ := h.self v hv
    obtain ⟨v', hv', hk'⟩ := h'.self v₁ hv₁
    exact ⟨v', hv', hk.trans hk'⟩
  sectors b hb := (h'.sectors b hb).trans (h.sectors b hb)

theorem free : Trims s (s.free b) x ib :=
  ⟨fun h => h.free b, rfl, rfl, rfl, .inl rfl, rfl, fun _ _ => rfl, fun v hv => ⟨v, hv, .refl v⟩,
    fun _ _ => rfl⟩

theorem modifyVnode {f : SfsVnode → SfsVnode} (hf : ∀ v, (f v).ino = v.ino)
    (hkeeps : ∀ v, Keeps v (f v)) : Trims s (s.modifyVnode x f) x ib :=
  ⟨fun h => h.modifyVnode x f, rfl, rfl, rfl, .inr ⟨rfl, rfl⟩, inos_modifyVnode hf s x,
    fun _ hy => vnode?_modifyVnode_of_ne hf hy,
    fun v hv => ⟨f v, vnode?_modifyVnode_self hf hv, hkeeps v⟩, fun _ _ => rfl⟩

theorem setSector (hib : ib ≠ 0) (d : Sector) : Trims s (s.setSector ib d) x ib := by
  refine ⟨fun h => h.setSector ib d, rfl, rfl, rfl, .inr ⟨rfl, rfl⟩, rfl, fun _ _ => rfl,
    fun v hv => ⟨v, hv, .refl v⟩, fun b hb => ?_⟩
  rw [sector_setSector, if_neg]
  rintro rfl
  exact hb.elim (absurd rfl) hib

end Trims

/-! ## The blocks that a loop picks -/

/-- The values of `q` other than 0 at those of the `n` indices from `k` on that
`p` picks. -/
def picked (p : ℕ → Prop) [DecidablePred p] (q : ℕ → UInt32) (k n : ℕ) : List UInt32 :=
  ((range' k n).filter fun i => p i ∧ q i ≠ 0).map q

section Picked

variable {p p' : ℕ → Prop} [DecidablePred p] [DecidablePred p'] {q q' : ℕ → UInt32} {k m n : ℕ}

theorem picked_congr (hq : ∀ i, k ≤ i → i < k + n → q i = q' i)
    (hp : ∀ i, k ≤ i → i < k + n → q i ≠ 0 → (p i ↔ p' i)) : picked p q k n = picked p' q' k n := by
  unfold picked
  have hfilter : (range' k n).filter (fun i => p i ∧ q i ≠ 0) =
      (range' k n).filter fun i => p' i ∧ q' i ≠ 0 := by
    refine filter_congr fun i hi => ?_
    obtain ⟨hge, hlt⟩ := mem_range'_1.1 hi
    rw [decide_eq_decide, ← hq i hge hlt]
    exact and_congr_left fun h0 => hp i hge hlt h0
  rw [hfilter]
  refine map_congr_left fun i hi => ?_
  obtain ⟨hge, hlt⟩ := mem_range'_1.1 (mem_filter.1 hi).1
  exact hq i hge hlt

theorem picked_append : picked p q k m ++ picked p q (k + m) n = picked p q k (m + n) := by
  unfold picked
  rw [← map_append, ← filter_append, range'_append_1]

theorem picked_cons (h : p k ∧ q k ≠ 0) : picked p q k (n + 1) = q k :: picked p q (k + 1) n := by
  unfold picked
  rw [range'_succ, filter_cons_of_pos (by simpa using h), map_cons]

theorem picked_skip (h : ¬ (p k ∧ q k ≠ 0)) : picked p q k (n + 1) = picked p q (k + 1) n := by
  unfold picked
  rw [range'_succ, filter_cons_of_neg (by simpa using h)]

theorem picked_sublist : picked p q k n <+ picked (fun _ => True) q k n := by
  refine (monotone_filter_right _ fun i hi => ?_).map q
  simp only [true_and, decide_eq_true_eq] at hi ⊢
  exact hi.2

theorem picked_eq_nil (h : ∀ i, k ≤ i → i < k + n → p i → q i = 0) : picked p q k n = [] := by
  unfold picked
  rw [map_eq_nil_iff, filter_eq_nil_iff]
  intro i hi
  obtain ⟨hge, hlt⟩ := mem_range'_1.1 hi
  rw [decide_eq_true_iff]
  exact fun hc => hc.2 (h i hge hlt hc.1)

end Picked

/-! ## The loops -/

/-- The direct pointers of an inode, by file block. -/
def SfsInode.directAt (i : SfsInode) (fb : ℕ) : UInt32 :=
  if h : fb < 15 then i.direct ⟨fb, h⟩ else 0

theorem SfsInode.directAt_of_lt {i : SfsInode} {fb : ℕ} (h : fb < 15) :
    i.directAt fb = i.direct ⟨fb, h⟩ := dif_pos h

/-- The loop over the direct blocks. -/
theorem wp_truncDirect (ib : UInt32) (n k : ℕ) (hn : k + n ≤ 15) (hv : s.vnode? x = some v) :
    wp (truncDirect x blocklen n k)
      (fun _ s' => Clears s s' (picked (blocklen ≤ ·) v.i.directAt k n) ∧
        Trims s s' x ib ∧ s'.device = s.device ∧ ∃ w, s'.vnode? x = some w ∧
          w.i.indirect = v.i.indirect ∧ ∀ fb : Fin 15, w.i.direct fb =
            if k ≤ fb.val ∧ fb.val < k + n ∧ blocklen ≤ fb.val then 0 else v.i.direct fb)
      (fun _ _ => ¬ Freeable s.freemap (picked (blocklen ≤ ·) v.i.directAt k n)) s := by
  induction n generalizing s v k with
  | zero =>
    rw [truncDirect, wp_pure]
    exact ⟨.nil rfl, .refl, rfl, v, hv, rfl, fun fb => (if_neg (by omega)).symm⟩
  | succ n ih =>
    have hk : k < 15 := by omega
    have hat : v.i.directAt k = v.i.direct ⟨k, hk⟩ := SfsInode.directAt_of_lt hk
    rw [truncDirect, wp_bind, wp_getVnode hv]
    rw [dif_pos hk, wp_ite]
    split
    · rename_i hc
      let f : SfsVnode → SfsVnode := fun sv =>
        { sv with i := { sv.i with direct := update sv.i.direct ⟨k, hk⟩ 0 }, dirty := true }
      have hf : ∀ v, (f v).ino = v.ino := fun _ => rfl
      have hv₁ : ((s.free (v.i.direct ⟨k, hk⟩)).modifyVnode x f).vnode? x = some (f v) :=
        vnode?_modifyVnode_self hf hv
      have hdirect : ∀ fb : Fin 15, fb.val ≠ k → (f v).i.direct fb = v.i.direct fb := by
        intro fb hne
        exact update_of_ne (fun e => hne (congrArg Fin.val e)) ..
      have hafter : ∀ fb, k + 1 ≤ fb → (f v).i.directAt fb = v.i.directAt fb := by
        intro fb hge
        unfold SfsInode.directAt
        split
        · exact hdirect _ (by dsimp only; omega)
        · rfl
      rw [picked_cons (by rw [hat]; exact hc), ← singleton_append, hat,
        ← picked_congr (fun i hge _ => hafter i hge) fun _ _ _ _ => Iff.rfl]
      refine wp_seq wp_sfsBfree ?_ fun _ _ hno hfree => hno (hfree.2 _ mem_cons_self)
      rintro _ _ ⟨rfl, hset⟩
      have hfree : Clears s ((s.free (v.i.direct ⟨k, hk⟩)).modifyVnode x f)
          [v.i.direct ⟨k, hk⟩] := .free hset rfl
      have htrims : Trims s ((s.free (v.i.direct ⟨k, hk⟩)).modifyVnode x f) x ib :=
        .trans .free (.modifyVnode hf fun _ => ⟨rfl, rfl, rfl, rfl, .inr rfl⟩)
      rw [wp_bind, wp_modifyVnode]
      refine wp_mono (ih (k + 1) (by omega) hv₁) ?_ fun _ _ hno h => hno (h.rest hfree rfl)
      rintro _ s' ⟨hclears, htrims', hdev, w, hw, hind, hcut⟩
      refine ⟨hfree.append hclears, htrims.trans htrims', hdev, w, hw, hind, fun fb => ?_⟩
      rw [hcut]
      by_cases hfb : fb.val = k
      · rw [if_neg (by omega), if_pos (by omega), show fb = ⟨k, hk⟩ from Fin.ext hfb]
        exact update_self ..
      · rw [hdirect fb hfb]
        exact if_congr (by omega) rfl rfl
    · rename_i hc
      rw [picked_skip (by rw [hat]; exact hc)]
      refine wp_imp (ih (k + 1) (by omega) hv) ?_
      rintro _ s' ⟨hclears, htrims, hdev, w, hw, hind, hcut⟩
      refine ⟨hclears, htrims, hdev, w, hw, hind, fun fb => ?_⟩
      rw [hcut]
      by_cases hfb : fb.val = k ∧ blocklen ≤ k
      · -- a hole stays one
        have hzero : v.i.direct fb = 0 := by
          by_contra h0
          rw [show fb = ⟨k, hk⟩ from Fin.ext hfb.1] at h0
          exact hc ⟨hfb.2, h0⟩
        rw [hzero, ite_self, ite_self]
      · exact if_congr (by omega) rfl rfl

/-- The loop over the entries of the indirect block, in the copy of it. -/
theorem wp_truncEntries (x ib : UInt32) (n j : ℕ) (sc : IdScan) :
    wp (truncEntries blocklen n j sc)
      (fun sc' s' =>
        Clears s s' (picked (blocklen < ·) (fun fb => sc.idbuf (fb - 15)) (15 + j) n) ∧
        (Trims s s' x ib ∧ s'.device = s.device ∧ s'.vnodes = s.vnodes) ∧
        (∀ i, sc'.idbuf i =
          if j ≤ i ∧ i < j + n ∧ blocklen < 15 + i then 0 else sc.idbuf i) ∧
        (sc'.hasnonzero = true ↔ sc.hasnonzero = true ∨
          ∃ i, j ≤ i ∧ i < j + n ∧ sc'.idbuf i ≠ 0) ∧
        (sc'.iddirty = false → sc.iddirty = false ∧ sc'.idbuf = sc.idbuf))
      (fun _ _ => ¬ Freeable s.freemap
        (picked (blocklen < ·) (fun fb => sc.idbuf (fb - 15)) (15 + j) n)) s := by
  induction n generalizing s j sc with
  | zero =>
    rw [truncEntries, wp_pure]
    refine ⟨.nil rfl, ⟨.refl, rfl, rfl⟩, fun i => (if_neg (by omega)).symm, ?_, fun he => ⟨he, rfl⟩⟩
    exact ⟨.inl, fun h => h.resolve_right (by rintro ⟨i, hge, hlt, -⟩; omega)⟩
  | succ n ih =>
    rw [truncEntries, wp_ite]
    split
    · rename_i hc
      have hj : sc.idbuf (15 + j - 15) = sc.idbuf j := by rw [Nat.add_sub_cancel_left]
      have hpicked : picked (blocklen < ·) (fun fb => sc.idbuf (fb - 15)) (15 + j) (n + 1) =
          [sc.idbuf j] ++ picked (blocklen < ·) (fun fb => update sc.idbuf j 0 (fb - 15))
            (15 + (j + 1)) n := by
        rw [picked_cons (by rw [hj]; exact hc), singleton_append, hj]
        refine congrArg _ (picked_congr (fun i hge _ => ?_) fun _ _ _ _ => Iff.rfl)
        exact (update_of_ne (by omega) ..).symm
      rw [hpicked]
      refine wp_seq wp_sfsBfree ?_ fun _ _ hno hfree => hno (hfree.2 _ mem_cons_self)
      rintro _ _ ⟨rfl, hset⟩
      have hfree : Clears s (s.free (sc.idbuf j)) [sc.idbuf j] := .free hset rfl
      refine wp_mono (ih (j + 1) _) ?_ fun _ _ hno h => hno (h.rest hfree rfl)
      rintro sc' s' ⟨hclears, ⟨htrims, hdev, hvnodes⟩, hcut, hnonzero, hdirty⟩
      have hzero : sc'.idbuf j = 0 := by
        rw [hcut, if_neg (by omega)]
        exact update_self ..
      refine ⟨hfree.append hclears, ⟨.trans .free htrims, hdev, hvnodes⟩, fun i => ?_, ?_,
        fun he => ?_⟩
      · rw [hcut]
        by_cases hij : i = j
        · rw [if_neg (by omega), if_pos (by omega), hij]
          exact update_self ..
        · dsimp only
          rw [update_of_ne hij]
          exact if_congr (by omega) rfl rfl
      · rw [hnonzero]
        refine or_congr_right (exists_congr fun i => ?_)
        constructor
        · rintro ⟨hge, hlt, h0⟩
          exact ⟨by omega, by omega, h0⟩
        · rintro ⟨hge, hlt, h0⟩
          have hne : i ≠ j := fun e => h0 (by rw [e, hzero])
          exact ⟨by omega, by omega, h0⟩
      · cases (hdirty he).1
    · rename_i hc
      rw [picked_skip (by rw [Nat.add_sub_cancel_left]; exact hc)]
      refine wp_imp (ih (j + 1) _) ?_
      rintro sc' s' ⟨hclears, hs', hcut, hnonzero, hdirty⟩
      have hsame : sc'.idbuf j = sc.idbuf j := by rw [hcut, if_neg (by omega)]
      refine ⟨hclears, hs', fun i => ?_, ?_, hdirty⟩
      · rw [hcut]
        by_cases hij : i = j ∧ blocklen < 15 + j
        · have hzero : sc.idbuf i = 0 := by
            by_contra h0
            rw [hij.1] at h0
            exact hc ⟨hij.2, h0⟩
          rw [hzero, ite_self, ite_self]
        · exact if_congr (by omega) rfl rfl
      · rw [hnonzero, Bool.or_eq_true, decide_eq_true_iff, ← hsame, or_assoc]
        refine or_congr_right ⟨?_, ?_⟩
        · rintro (h0 | ⟨i, hge, hlt, h0⟩)
          · exact ⟨j, le_rfl, by omega, h0⟩
          · exact ⟨i, by omega, by omega, h0⟩
        · rintro ⟨i, hge, hlt, h0⟩
          by_cases hij : i = j
          · exact .inl (hij ▸ h0)
          · exact .inr ⟨i, by omega, by omega, h0⟩

/-! ## The whole of it -/

/-- The blocks of a file that a truncation to `blocklen` blocks keeps. -/
def keepsBlock (blocklen fb : ℕ) : Prop := if fb < 15 then fb < blocklen else fb ≤ blocklen

instance (blocklen fb : ℕ) : Decidable (keepsBlock blocklen fb) := by
  unfold keepsBlock
  infer_instance

theorem keepsBlock_of_lt {fb : ℕ} (h : fb < 15) : keepsBlock n fb ↔ fb < n := iff_of_eq (if_pos h)

theorem keepsBlock_of_ge {fb : ℕ} (h : 15 ≤ fb) : keepsBlock n fb ↔ fb ≤ n :=
  iff_of_eq (if_neg (not_lt.2 h))

/-- A read without disk errors that returns. -/
theorem wp_rblock_clean (hclean : s.device.Clean) (hb : b.toNat < 2 ^ 22) :
    wp (rblock b) (fun d s' => b.toNat < s.device.nsect.toNat ∧ d = s.sector b ∧ s' = s)
      (fun _ _ => ¬ b.toNat < s.device.nsect.toNat) s := by
  by_cases hsect : b.toNat < s.device.nsect.toNat
  · rw [wp_of_ok (run_rblock_of_clean hclean hb hsect)]
    exact ⟨hsect, rfl, rfl⟩
  · have htarget : target b = b.toNat := by
      rw [target_eq_wrapped]
      unfold wrapped
      rw [Nat.mod_eq_of_lt (by omega), if_pos hb]
    unfold rblock sfsRblock sfsRwblock
    rw [wp_zoom, wp_bind, wp_withUio, sfsRwblockFrom]
    refine wp_sfsRwblockTry_read.2 ?_
    rw [htarget, if_pos (by show s.device.nsect.toNat ≤ _; omega)]
    exact hsect

/-- A block in the indirect block of file `x` is mapped. -/
def HasEntry (s : Sfs) (x : UInt32) : Prop := ∃ fb, 15 ≤ fb ∧ s.ptr x fb ≠ 0

theorem Sfs.ptr_indirect (hv : s.vnode? x = some v) {fb : ℕ} (hge : 15 ≤ fb) (hlt : fb < 143) :
    s.ptr x fb =
      if v.i.indirect = 0 then 0 else (s.sector v.i.indirect).word (fb - 15) := by
  rw [ptr_of_entry (by omega) hlt]
  unfold entry
  rw [inode_of_loaded hv]

/-- What the part about the indirect block has done to a vnode `v` that is `w`
now. -/
structure IndirectCut (s s' : Sfs) (x : UInt32) (blocklen : ℕ) (v w : SfsVnode) : Prop where
  vnode : s'.vnode? x = some w
  direct : w.i.direct = v.i.direct
  ptr : ∀ fb, 15 ≤ fb → s'.ptr x fb = if fb ≤ blocklen then s.ptr x fb else 0
  same : w.i.indirect ≠ 0 → w.i.indirect = v.i.indirect
  gone : w.i.indirect = 0 ↔ v.i.indirect = 0 ∨ (blocklen < 142 ∧ ¬ HasEntry s' x)
  clears : Clears s s' (picked (blocklen < ·) (s.ptr x) 15 128 ++
    if v.i.indirect ≠ 0 ∧ w.i.indirect = 0 then [v.i.indirect] else [])

/-- The indirect block is not looked at. -/
theorem IndirectCut.skip (hv : s.vnode? x = some v)
    (hc : ¬ (blocklen < 142 ∧ v.i.indirect ≠ 0)) : IndirectCut s s x blocklen v v := by
  have hcut : ∀ fb, 15 ≤ fb → blocklen < fb → s.ptr x fb = 0 := by
    intro fb hge hlt
    by_cases hfb : fb < 143
    · rw [ptr_indirect hv hge hfb, if_pos]
      by_contra h0
      exact hc ⟨by omega, h0⟩
    · exact ptr_of_ge (by omega)
  refine ⟨hv, rfl, fun fb hge => ?_, fun _ => rfl, ⟨.inl, fun h => ?_⟩, ?_⟩
  · split
    · rfl
    · exact hcut fb hge (by omega)
  · by_contra h0
    exact hc ⟨(h.resolve_left h0).1, h0⟩
  · rw [picked_eq_nil fun fb hge _ hlt => hcut fb hge hlt, if_neg fun h => h.1 h.2]
    exact .nil rfl

/-- The part about the indirect block. -/
theorem wp_truncIndirect (hclean : s.device.Clean) (hv : s.vnode? x = some v)
    (hi : v.i.indirect.toNat < 2 ^ 22) :
    wp (truncIndirect x blocklen) (fun _ s' => Trims s s' x v.i.indirect ∧
        ∃ w, IndirectCut s s' x blocklen v w)
      (fun _ _ => ¬ (v.i.indirect.toNat < s.device.nsect.toNat ∧
        Freeable s.freemap (picked (blocklen < ·) (s.ptr x) 15 128 ++ [v.i.indirect]))) s := by
  unfold truncIndirect
  rw [wp_bind, wp_getVnode hv]
  rw [wp_ite]
  split
  swap
  · rename_i hc
    rw [wp_pure]
    exact ⟨.refl, v, .skip hv hc⟩
  rename_i hc
  refine wp_seq (wp_rblock_clean hclean hi) ?_ fun _ _ hno h => hno h.1
  rintro _ s' ⟨hsect, rfl, hs'⟩
  obtain rfl := hs'.symm
  have hold : ∀ fb, 15 ≤ fb → fb < 143 →
      s.ptr x fb = (s.sector v.i.indirect).word (fb - 15) := fun fb hge hlt => by
    rw [ptr_indirect hv hge hlt, if_neg hc.2]
  have hpicked : picked (blocklen < ·) (s.ptr x) 15 128 =
      picked (blocklen < ·) (fun fb => (s.sector v.i.indirect).word (fb - 15)) 15 128 :=
    picked_congr (fun fb hge hlt => hold fb hge (by omega)) fun _ _ _ _ => Iff.rfl
  refine wp_seq (wp_truncEntries x v.i.indirect 128 0 _) ?_ fun _ _ hno h => hno ?_
  swap
  · have hfree := h.2.sublist (sublist_append_left ..)
    rwa [hpicked] at hfree
  rintro sc s₁ ⟨hclears, ⟨htrims, hdev, hvnodes⟩, hcut, hnonzero, hdirty⟩
  rw [← hpicked] at hclears
  have hnew : ∀ fb, 15 ≤ fb → fb < 143 →
      sc.idbuf (fb - 15) = if fb ≤ blocklen then s.ptr x fb else 0 := by
    intro fb hge hlt
    rw [hcut, hold fb hge hlt]
    by_cases hle : fb ≤ blocklen
    · rw [if_neg (by omega), if_pos hle]
    · rw [if_pos (by omega), if_neg hle]
  have hv₁ : s₁.vnode? x = some v := (vnode?_congr hvnodes x).trans hv
  have hlow : blocklen < 142 := by omega
  rw [wp_ite]
  split
  · rename_i hnz
    -- no entry is left, and the indirect block goes
    have hzero : ∀ fb, 15 ≤ fb → fb < 143 → sc.idbuf (fb - 15) = 0 := by
      intro fb hge hlt
      by_contra h0
      exact hnz (hnonzero.2 (.inr ⟨fb - 15, by omega, by omega, h0⟩))
    let f : SfsVnode → SfsVnode := fun sv =>
      { sv with i := { sv.i with indirect := 0 }, dirty := true }
    have hf : ∀ v, (f v).ino = v.ino := fun _ => rfl
    refine wp_seq wp_sfsBfree ?_
      fun _ _ hno h => hno ((h.2.rest hclears htrims.nbits).2 _ mem_cons_self)
    rintro _ _ ⟨rfl, hset⟩
    rw [wp_modifyVnode]
    refine ⟨htrims.trans (.trans .free (.modifyVnode hf fun _ => ⟨rfl, rfl, rfl, rfl, .inr rfl⟩)),
      ?_⟩
    have hv₂ : ((s₁.free v.i.indirect).modifyVnode x f).vnode? x = some (f v) := by
      exact vnode?_modifyVnode_self hf hv₁
    have hptr : ∀ fb, 15 ≤ fb → ((s₁.free v.i.indirect).modifyVnode x f).ptr x fb = 0 := by
      intro fb hge
      by_cases hlt : fb < 143
      · rw [ptr_indirect hv₂ hge hlt]
        exact if_pos rfl
      · exact ptr_of_ge (by omega)
    refine ⟨f v, hv₂, rfl, fun fb hge => ?_, fun h0 => absurd rfl h0, ?_, ?_⟩
    · rw [hptr fb hge]
      by_cases hlt : fb < 143
      · rw [← hnew fb hge hlt, hzero fb hge hlt]
      · rw [ptr_of_ge (by omega), ite_self]
    · exact ⟨fun _ => .inr ⟨hlow, fun ⟨fb, hge, h0⟩ => h0 (hptr fb hge)⟩, fun _ => rfl⟩
    · rw [if_pos ⟨hc.2, rfl⟩]
      exact hclears.append (.free hset rfl)
  rename_i hnz
  rw [not_not] at hnz
  obtain ⟨j, -, hj, h0⟩ := (hnonzero.1 hnz).resolve_left Bool.false_ne_true
  -- an entry is left, in the copy and, in either case, on the disk
  have hend : ∀ s₂ : Sfs, s₂.vnode? x = some v → s₂.freemap = s₁.freemap →
      (∀ i < 128, (s₂.sector v.i.indirect).word i = sc.idbuf i) →
        IndirectCut s s₂ x blocklen v v := by
    intro s₂ hv₂ hfreemap hwords
    have hptr : ∀ fb, 15 ≤ fb → fb < 143 → s₂.ptr x fb = sc.idbuf (fb - 15) := by
      intro fb hge hlt
      rw [ptr_indirect hv₂ hge hlt, if_neg hc.2, hwords _ (by omega)]
    have hentry : HasEntry s₂ x := by
      refine ⟨15 + j, by omega, ?_⟩
      rwa [hptr _ (by omega) (by omega), Nat.add_sub_cancel_left]
    refine ⟨hv₂, rfl, fun fb hge => ?_, fun _ => rfl, ⟨.inl, fun h => ?_⟩, ?_⟩
    · by_cases hlt : fb < 143
      · rw [hptr fb hge hlt, hnew fb hge hlt]
      · rw [ptr_of_ge (by omega), ptr_of_ge (by omega), ite_self]
    · exact h.resolve_right fun hno => hno.2 hentry
    · rw [if_neg fun h => hc.2 h.2, append_nil]
      exact ⟨hclears.nodup, hclears.set, fun c => by rw [hfreemap]; exact hclears.isSet c⟩
  rw [wp_ite]
  split
  · rw [← hdev] at hclean hsect
    have hwrite : wblock (ofWords sc.idbuf) v.i.indirect s₁ =
        .ok () (s₁.setSector v.i.indirect (ofWords sc.idbuf)) :=
      zoom_of_ok (run_sfsWblock hclean hi hsect _)
    rw [wp_of_ok hwrite]
    refine ⟨htrims.trans (.setSector hc.2 _), v, hend _ hv₁ rfl fun i hlt => ?_⟩
    rw [sector_setSector, if_pos rfl, word_ofWords _ hlt]
  · rename_i hd
    rw [wp_pure]
    refine ⟨htrims, v, hend _ hv₁ rfl fun i _ => ?_⟩
    rw [(hdirty (Bool.not_eq_true _ ▸ hd)).2]
    unfold sector
    rw [hdev]

/-- The blocks that file `x` has lost from `s` to `s'`, the indirect block
among them. -/
def lostBlocks (s s' : Sfs) (x : UInt32) : List UInt32 :=
  picked (fun fb => s'.ptr x fb = 0) (s.ptr x) 0 143 ++
    if (s.inode x).indirect ≠ 0 ∧ (s'.inode x).indirect = 0 then [(s.inode x).indirect] else []

/-- **What a truncation to `blocklen` blocks has cut off.** -/
structure Cutoff (s s' : Sfs) (x : UInt32) (blocklen : ℕ) : Prop where
  ptr : ∀ fb, s'.ptr x fb = if keepsBlock blocklen fb then s.ptr x fb else 0
  same : (s'.inode x).indirect ≠ 0 → (s'.inode x).indirect = (s.inode x).indirect
  gone : (s'.inode x).indirect = 0 ↔
    (s.inode x).indirect = 0 ∨ (blocklen < 142 ∧ ¬ HasEntry s' x)
  clears : Clears s s' (lostBlocks s s' x)

theorem Sfs.ptr_direct (hv : s.vnode? x = some v) {fb : ℕ} (hlt : fb < 15) :
    s.ptr x fb = v.i.direct ⟨fb, hlt⟩ := by
  rw [ptr_of_lt hlt, inode_of_loaded hv]

/-- **A truncation that returns.** -/
theorem wp_sfsTruncate_any (hclean : s.device.Clean) (hv : s.vnode? x = some v)
    (hi : v.i.indirect.toNat < 2 ^ 22) (len : ℤ) :
    wp (sfsTruncate x len)
      (fun _ s' => Trims s s' x v.i.indirect ∧ Cutoff s s' x (blocklenOf len) ∧
        (s'.inode x).size = UInt32.ofNat (word32 len))
      (fun _ _ => ¬ (v.i.indirect.toNat < s.device.nsect.toNat ∧ Freeable s.freemap
        (picked (blocklenOf len ≤ ·) v.i.directAt 0 15 ++
          (picked (blocklenOf len < ·) (s.ptr x) 15 128 ++ [v.i.indirect])))) s := by
  obtain ⟨n, hn⟩ : ∃ n, blocklenOf len = n := ⟨_, rfl⟩
  obtain ⟨size, hsize⟩ : ∃ size, UInt32.ofNat (word32 len) = size := ⟨_, rfl⟩
  unfold sfsTruncate
  rw [hn, hsize]
  refine wp_seq (wp_truncDirect v.i.indirect 15 0 (by omega) hv) ?_
    fun _ _ hno h => hno (h.2.sublist (sublist_append_left ..))
  rintro _ s₁ ⟨hclears₁, htrims₁, hdev, v₁, hv₁, hind₁, hdirect⟩
  rw [← hdev] at hclean
  -- the first loop leaves the indirect block alone
  have hptr₁ : ∀ fb, 15 ≤ fb → s₁.ptr x fb = s.ptr x fb := by
    intro fb hge
    by_cases hlt : fb < 143
    · rw [ptr_indirect hv₁ hge hlt, ptr_indirect hv hge hlt, hind₁]
      unfold sector
      rw [hdev]
    · rw [ptr_of_ge (by omega), ptr_of_ge (by omega)]
  have hpicked : picked (n < ·) (s₁.ptr x) 15 128 = picked (n < ·) (s.ptr x) 15 128 :=
    picked_congr (fun fb hge _ => hptr₁ fb hge) fun _ _ _ _ => Iff.rfl
  refine wp_seq (wp_truncIndirect hclean hv₁ (by rwa [hind₁])) ?_ fun _ _ hno h => hno ?_
  swap
  · rw [hind₁, hdev, hpicked]
    exact ⟨h.1, h.2.rest hclears₁ htrims₁.nbits⟩
  rintro _ s₂ ⟨htrims₂, v₂, hcut⟩
  rw [hind₁] at htrims₂
  rw [wp_modifyVnode]
  let f : SfsVnode → SfsVnode := fun sv =>
    { sv with i := { sv.i with size := size }, dirty := true }
  have hf : ∀ v, (f v).ino = v.ino := fun _ => rfl
  have hptr₃ : ∀ fb, (s₂.modifyVnode x f).ptr x fb = s₂.ptr x fb :=
    ptr_modifyVnode hf (fun _ => rfl) (fun _ => rfl) s₂ x x
  have hinode₃ : (s₂.modifyVnode x f).inode x = (f v₂).i := inode_modifyVnode hf hcut.vnode
  have hptr : ∀ fb, s₂.ptr x fb = if keepsBlock n fb then s.ptr x fb else 0 := by
    intro fb
    rcases lt_or_ge fb 15 with hlt | hge
    · rw [ptr_direct hcut.vnode hlt, hcut.direct, hdirect, ptr_direct hv hlt]
      simp only [keepsBlock_of_lt hlt]
      by_cases hkeep : fb < n
      · rw [if_neg (by omega), if_pos hkeep]
      · rw [if_pos (by omega), if_neg hkeep]
    · simp only [hcut.ptr fb hge, hptr₁ fb hge, keepsBlock_of_ge hge]
  have hentry : HasEntry (s₂.modifyVnode x f) x ↔ HasEntry s₂ x := by
    unfold HasEntry
    simp only [hptr₃]
  refine ⟨htrims₁.trans (htrims₂.trans
    (.modifyVnode hf fun _ => ⟨rfl, rfl, rfl, rfl, .inr rfl⟩)),
    ⟨fun fb => by rw [hptr₃, hptr], fun h0 => ?_, ?_, ?_⟩, by rw [hinode₃]⟩
  · rw [hinode₃] at h0 ⊢
    rw [inode_of_loaded hv, ← hind₁]
    exact hcut.same h0
  · rw [hinode₃, hentry, inode_of_loaded hv, ← hind₁]
    exact hcut.gone
  · have hlost : lostBlocks s (s₂.modifyVnode x f) x = picked (n ≤ ·) v.i.directAt 0 15 ++
        (picked (n < ·) (s₁.ptr x) 15 128 ++
          if v₁.i.indirect ≠ 0 ∧ v₂.i.indirect = 0 then [v₁.i.indirect] else []) := by
      have hfirst : picked (n ≤ ·) v.i.directAt 0 15 =
          picked (fun fb => (s₂.modifyVnode x f).ptr x fb = 0) (s.ptr x) 0 15 := by
        refine picked_congr (fun fb _ hlt => ?_) fun fb _ hlt h0 => ?_
        · rw [SfsInode.directAt_of_lt (by omega), ptr_direct hv]
        · have hfb : fb < 15 := by omega
          rw [SfsInode.directAt_of_lt hfb, ← ptr_direct hv] at h0
          rw [hptr₃, hptr, ite_eq_right_iff, keepsBlock_of_lt hfb]
          simp only [h0, imp_false, not_lt]
      have hsecond : picked (n < ·) (s.ptr x) 15 128 =
          picked (fun fb => (s₂.modifyVnode x f).ptr x fb = 0) (s.ptr x) (0 + 15) 128 := by
        refine picked_congr (fun _ _ _ => rfl) fun fb hge _ h0 => ?_
        rw [hptr₃, hptr, ite_eq_right_iff, keepsBlock_of_ge hge]
        simp only [h0, imp_false, not_le]
      unfold lostBlocks
      rw [hfirst, hpicked, hsecond, ← append_assoc, picked_append, hinode₃,
        inode_of_loaded hv, hind₁]
    rw [hlost]
    exact hclears₁.append ⟨hcut.clears.nodup, hcut.clears.set, hcut.clears.isSet⟩

/-! ## Exact accounts -/

/-- **File `x` has been truncated to `len` bytes.** -/
structure Truncated (s s' : Sfs) (L : UInt32 → Prop) (x : UInt32) (len : ℤ) : Prop where
  effect : Effect s s' L x
  size : ∀ y, L y → (s'.inode y).size =
    if y = x then UInt32.ofNat (word32 len) else (s.inode y).size
  others : ∀ y, L y → y ≠ x → ∀ fb, s'.ptr y fb = s.ptr y fb ∧ s'.block y fb = s.block y fb
  kept : ∀ fb, keepsBlock (blocklenOf len) fb → s'.block x fb = s.block x fb
  cut : ∀ fb, ¬ keepsBlock (blocklenOf len) fb → s'.ptr x fb = 0
  indirect : blocklenOf len < 15 → (s'.inode x).indirect = 0

section Core

variable (h : s.Core L) (hv : s.vnode? x = some v)

include h hv

/-- What an inode holds besides its own number can be freed. -/
theorem freeable : Freeable s.freemap
    (picked (blocklen ≤ ·) v.i.directAt 0 15 ++
      (picked (blocklen < ·) (s.ptr x) 15 128 ++ [v.i.indirect])) := by
  have hx := h.loaded x v hv
  have hdirect : picked (blocklen ≤ ·) v.i.directAt 0 15 = picked (blocklen ≤ ·) (s.ptr x) 0 15 :=
    picked_congr (fun fb _ hlt => by
      rw [SfsInode.directAt_of_lt (by omega), ptr_direct hv]) fun _ _ _ _ => Iff.rfl
  have hsub : picked (blocklen ≤ ·) (s.ptr x) 0 15 ++
      picked (blocklen < ·) (s.ptr x) (0 + 15) 128 <+
      picked (fun _ => True) (s.ptr x) 0 143 := by
    rw [← picked_append (m := 15) (n := 128)]
    exact picked_sublist.append picked_sublist
  have hmem : ∀ b ∈ picked (fun _ => True) (s.ptr x) 0 143,
      ∃ fb, s.ref L (.block x fb) = some b := by
    intro b hb
    obtain ⟨fb, hfb, rfl⟩ := mem_map.1 hb
    exact ⟨fb, ref_eq_some.2 ⟨hx, rfl, (decide_eq_true_iff.1 (mem_filter.1 hfb).2).2⟩⟩
  have hind : v.i.indirect = s.raw (.indirect x) :=
    congrArg SfsInode.indirect (inode_of_loaded hv).symm
  rw [hdirect, ← append_assoc]
  refine Freeable.sublist ?_ (hsub.append (Sublist.refl [v.i.indirect]))
  refine ⟨nodup_append.2 ⟨?_, nodup_singleton _, fun b hb c hc e => ?_⟩, fun b hb => ?_⟩
  · refine ((nodup_range' ..).filter _).map_on fun i hi j hj e => ?_
    have h0 := (decide_eq_true_iff.1 (mem_filter.1 hi).2).2
    exact (Ref.block.inj (h.exact.once (.block x i) (.block x j) (s.ptr x i)
      (ref_eq_some.2 ⟨hx, rfl, h0⟩) (ref_eq_some.2 ⟨hx, e.symm, h0⟩))).2
  · obtain ⟨fb, hr⟩ := hmem b hb
    rw [mem_singleton.1 hc, hind] at e
    cases h.exact.once _ (.indirect x) b hr (ref_eq_some.2 ⟨hx, e.symm, (ref_eq_some.1 hr).2.2⟩)
  · rcases mem_append.1 hb with hb | hb
    · obtain ⟨fb, hr⟩ := hmem b hb
      exact ⟨h.lt_nbits hr, h.isSet hr⟩
    rw [mem_singleton.1 hb]
    by_cases h0 : v.i.indirect = 0
    · -- 0 is never free
      have hlt : (0 : UInt32).toNat < s.freemap.nbits := by
        have := h.ready.room
        have := h.ready.nblocks_le
        rw [UInt32.toNat_zero]
        omega
      rw [h0]
      exact ⟨hlt, ((h.exact.marked_iff 0).2 (.inl (.inl rfl))).resolve_left (not_le.2 hlt)⟩
    · exact ⟨h.lt_nbits (h.ref_indirect hv h0), h.isSet (h.ref_indirect hv h0)⟩

variable (ht : Trims s s' x v.i.indirect)

include ht

/-- The sectors that other places lead to are as they were. -/
theorem Trims.sector_raw (hr : r ≠ .indirect x) (hL : L r.ino) :
    s'.sector (s.raw r) = s.sector (s.raw r) := by
  refine ht.sectors _ (or_iff_not_imp_right.2 fun h0 he => hr ?_)
  rw [he] at h0
  exact h.exact.once r _ _ (ref_eq_some.2 ⟨hL, he, h0⟩) (h.ref_indirect hv h0)

theorem Trims.inode_eq (hL : L y) (hy : y ≠ x) : s'.inode y = s.inode y := by
  have hsector : s'.sector y = s.sector y := ht.sector_raw h hv (r := .inode y) (by simp) hL
  unfold inode
  rw [ht.others y hy, hsector]

theorem Trims.raw_eq (hL : L r.ino) (hr : r.ino ≠ x) : s'.raw r = s.raw r := by
  have hinode := ht.inode_eq h hv hL hr
  refine raw_congr (congrArg SfsInode.indirect hinode) (ptr_congr hinode fun j => ?_)
  have hsector := ht.sector_raw h hv (r := .indirect r.ino) (fun e => hr (Ref.indirect.inj e)) hL
  unfold entry
  rw [hinode, show s'.sector (s.inode r.ino).indirect = _ from hsector]
  rfl

theorem Trims.block_eq {fb : ℕ} (hL : L y) (hp : s'.ptr y fb = s.ptr y fb) :
    s'.block y fb = s.block y fb := by
  have hsector : s'.sector (s.ptr y fb) = s.sector (s.ptr y fb) :=
    ht.sector_raw h hv (r := .block y fb) (by simp) hL
  unfold block
  rw [hp, hsector]

variable (hc : Cutoff s s' x n)

include hc

/-- What a place has held it holds, or nothing. -/
theorem Cutoff.raw_eq (hL : L r.ino) : s'.raw r = s.raw r ∨ s'.raw r = 0 := by
  by_cases hr : r.ino = x
  swap
  · exact .inl (ht.raw_eq h hv hL hr)
  cases r with
  | inode y => exact .inl rfl
  | indirect y =>
    obtain rfl : y = x := hr
    exact or_iff_not_imp_right.2 hc.same
  | block y fb =>
    obtain rfl : y = x := hr
    show s'.ptr y fb = s.ptr y fb ∨ s'.ptr y fb = 0
    rw [hc.ptr]
    split
    · exact .inl rfl
    · exact .inr rfl

/-- The blocks that are lost are those that some place has held. -/
theorem Cutoff.mem_lostBlocks :
    c ∈ lostBlocks s s' x ↔ ∃ r, s.ref L r = some c ∧ s'.raw r = 0 := by
  have hx := h.loaded x v hv
  unfold lostBlocks
  rw [mem_append]
  constructor
  · rintro (hm | hm)
    · obtain ⟨fb, hfb, rfl⟩ := mem_map.1 hm
      have hgone := decide_eq_true_iff.1 (mem_filter.1 hfb).2
      exact ⟨.block x fb, ref_eq_some.2 ⟨hx, rfl, hgone.2⟩, hgone.1⟩
    · split at hm
      · rename_i hgone
        rw [mem_singleton.1 hm]
        exact ⟨.indirect x, ref_eq_some.2 ⟨hx, rfl, hgone.1⟩, hgone.2⟩
      · cases hm
  · rintro ⟨r, hr, hgone⟩
    obtain ⟨hL, rfl, h0⟩ := ref_eq_some.1 hr
    have hrx : r.ino = x := by
      by_contra hne
      rw [ht.raw_eq h hv hL hne] at hgone
      exact h0 hgone
    cases r with
    | inode y => exact absurd hgone h0
    | indirect y =>
      obtain rfl : y = x := hrx
      right
      rw [if_pos ⟨h0, hgone⟩]
      exact mem_singleton_self _
    | block y fb =>
      obtain rfl : y = x := hrx
      refine .inl (mem_map.2 ⟨fb, mem_filter.2 ⟨mem_range'_1.2 ⟨Nat.zero_le _, ?_⟩, ?_⟩, rfl⟩)
      · by_contra hge
        exact h0 (ptr_of_ge (by omega))
      · exact decide_eq_true ⟨hgone, h0⟩

/-- **The accounting goes on.** -/
theorem Cutoff.core : s'.Core L where
  ready := ht.ready h.ready
  loaded y w hw := by
    by_cases hy : y = x
    · exact hy ▸ h.loaded x v hv
    · exact h.loaded y w ((ht.others y hy).symm.trans hw)
  exact := by
    rw [fixed_congr ht.super]
    refine h.exact.prune (fun r => ?_) fun c => ?_
    · by_cases h0 : s'.raw r = 0
      · exact .inr (ref_eq_none h0)
      · exact .inl (ref_congr fun hL => (hc.raw_eq h hv ht hL).resolve_right h0)
    have hkept : (∀ r, s.ref L r = some c → s'.ref L r = some c) ↔ c ∉ lostBlocks s s' x := by
      rw [hc.mem_lostBlocks h hv ht, not_exists]
      refine forall_congr' fun r => ?_
      rw [not_and]
      refine forall_congr' fun hr => ?_
      obtain ⟨hL, hraw, h0⟩ := ref_eq_some.1 hr
      rw [ref_eq_some]
      refine ⟨fun hr' e => h0 (hr'.2.1.symm.trans e), fun hne => ⟨hL, ?_, h0⟩⟩
      rw [(hc.raw_eq h hv ht hL).resolve_right hne, hraw]
    have hlt : c ∈ lostBlocks s s' x → c.toNat < s.freemap.nbits := by
      intro hm
      obtain ⟨r, hr, -⟩ := (hc.mem_lostBlocks h hv ht).1 hm
      exact h.lt_nbits hr
    rw [hkept]
    unfold Marked
    rw [ht.nbits, hc.clears.isSet, or_and_right]
    exact or_congr_left ⟨fun hge => ⟨hge, fun hm => absurd (hlt hm) (not_lt.2 hge)⟩, And.left⟩

theorem Cutoff.effect : Effect s s' L x where
  core := hc.core h hv ht
  super := ht.super
  inos := ht.inos
  others := ht.others
  self := ht.self
  sectors y hy := ht.sector_raw h hv (r := .inode y) (by simp) hy
  durable := by
    refine ⟨ht.superdirty, fun b hb => ht.sectors b (or_iff_not_imp_right.2 fun h0 he => ?_),
      ht.map⟩
    subst he
    exact h.exact.apart _ _ (h.ref_indirect hv h0) hb

end Core

/-- **`sfs_truncate` returns 0.** -/
theorem wp_sfsTruncate (h : s.Core L) (hv : s.vnode? x = some v) (len : ℤ) :
    wp (sfsTruncate x len) (fun _ s' => Truncated s s' L x len) (fun _ _ => False) s := by
  have hx := h.loaded x v hv
  have hlt : v.i.indirect.toNat < s.super.nblocks.toNat := by
    by_cases h0 : v.i.indirect = 0
    · have := h.ready.room
      rw [h0, UInt32.toNat_zero]
      omega
    · exact h.lt_nblocks (h.ref_indirect hv h0)
  refine wp_mono (wp_sfsTruncate_any h.ready.clean hv (h.ready.lt hlt).1 len) ?_
    fun _ _ hno => hno ⟨(h.ready.lt hlt).2, freeable h hv⟩
  rintro _ s' ⟨ht, hc, hsize⟩
  refine ⟨hc.effect h hv ht, fun y hy => ?_, fun y hy hne fb => ?_, fun fb hk => ?_,
    fun fb hk => ?_,
    fun hlow => ?_⟩
  · split
    · rename_i hyx
      rw [hyx, hsize]
    · rename_i hyx
      rw [ht.inode_eq h hv hy hyx]
  · have hp : s'.ptr y fb = s.ptr y fb := ht.raw_eq h hv (r := .block y fb) hy hne
    exact ⟨hp, ht.block_eq h hv hy hp⟩
  · exact ht.block_eq h hv hx (by rw [hc.ptr, if_pos hk])
  · rw [hc.ptr, if_neg hk]
  · refine hc.gone.2 (.inr ⟨by omega, ?_⟩)
    rintro ⟨fb, hge, h0⟩
    refine h0 ?_
    rw [hc.ptr, if_neg]
    rw [keepsBlock_of_ge hge]
    omega

end Fs

end Os161
