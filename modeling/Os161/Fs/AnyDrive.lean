import Os161.Fs.Reachable
import Os161.Fs.Discard
import Os161.Fs.Quiet
/-!
# Blocks, whatever the drive answers

Any request to the drive may fail. A block that is read is the one that is there, or
nothing has changed. A block that is written is the only one that changes, or the kernel
stops.
-/

namespace Os161

namespace Fs

open Prog Sfs

variable {s : Sfs} {b : UInt32}

/-- The program writes to one sector, or the kernel stops. -/
theorem wp_wblock_any (d : Sector) (hb : b.toNat < 32 * 4096) :
    wp (wblock d b)
      (fun _ s' => s'.super = s.super ∧ s'.vnodes = s.vnodes ∧ s'.freemap = s.freemap ∧
        (∀ c ≠ b, s'.sector c = s.sector c) ∧
        (s.device.Clean → s'.device.Clean ∧ s'.sector b = d))
      (fun e _ => e = .halt) s := by
  have hdevice : wp (sfsWblock d b)
      (fun _ t => ∃ left, t = s.device.tick.put b.toNat left ∧ (s.device.Clean → left = d))
      (fun e _ => e = .halt) s.device := by
    rw [wp_sfsWblock, (target_eq (by omega)).1, (target_eq (by omega)).2]
    split
    · rfl
    cases hp : s.device.pattern 0 with
    | ok => exact ⟨d, rfl, fun _ => rfl⟩
    | media left =>
      dsimp only
      split
      · rfl
      · refine ⟨left, rfl, fun hc => ?_⟩
        rw [show s.device.pattern = _ from hc] at hp
        cases hp
  unfold wblock
  rw [wp_zoom]
  refine wp_imp hdevice ?_
  rintro _ t ⟨left, rfl, hleft⟩
  refine ⟨rfl, rfl, rfl, fun c hc => ?_, fun hc => ⟨?_, ?_⟩⟩
  · exact Function.update_of_ne (fun he => hc (UInt32.toNat_inj.1 he)) ..
  · rw [hc.tick_eq]
    exact hc.put _ _
  · rw [← hleft hc]
    exact Function.update_self ..

/-- What is read is what is there, however many tries it takes. -/
theorem wp_sfsRwblockFrom_moved {l d : Lhd} (k : ℕ) (hd : d.sectors = l.sectors) :
    wp (sfsRwblockFrom k) (fun _ r => r.uio.moved = (l.sectors (target b)).toList)
      (fun _ _ => True) ⟨d, readUio b⟩ := by
  have hmoved : ((readUio b).advance (d.sectors (target b)).toList).moved =
      (l.sectors (target b)).toList := by rw [hd]; rfl
  induction k generalizing d with
  | zero =>
    rw [sfsRwblockFrom, wp_sfsRwblockTry_read]
    split
    · trivial
    · cases d.pattern 0 with
      | ok => exact hmoved
      | media left => exact wp_fail.2 trivial
  | succ k ih =>
    rw [sfsRwblockFrom, wp_sfsRwblockTry_read]
    split
    · trivial
    · cases d.pattern 0 with
      | ok => exact hmoved
      | media left => exact ih (d := d.tick) hd hmoved

theorem wp_rblock_any (b : UInt32) :
    wp (rblock b) (fun d s' => Quiet s s' ∧ (b.toNat + 1 < 2 ^ 22 → d = s.sector b))
      (OnError (Quiet s)) s := by
  have hquiet := returns_rblock b s (.refl s)
  have hread : wp (rblock b) (fun d _ => d = s.device.sectors (target b)) (fun _ _ => True) s := by
    unfold rblock sfsRblock
    rw [wp_zoom, wp_bind, wp_withUio]
    refine wp_mono (wp_sfsRwblockFrom_moved (b := b) (d := s.device) 10 rfl) (fun _ r hr => ?_)
      fun _ _ _ => trivial
    rw [wp_pure, hr, Sector.ofList_toList]
  cases hr : rblock b s with
  | ok d s' =>
    refine (wp_of_ok hr).2 ⟨(wp_of_ok hr).1 hquiet, fun hb => ?_⟩
    rw [(wp_of_ok hr).1 hread, (target_eq hb).1]
    rfl
  | error e s' => exact (wp_of_error hr).2 ((wp_of_error hr).1 hquiet)

end Fs

end Os161
