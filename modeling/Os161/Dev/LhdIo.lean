import Os161.Dev.Model.LhdIo
import Os161.Common.Runs
import Os161.Common.Units
/-!
# One operation at a time

`lh_clear` is one unit, and a thread has it from its `P` to its `V`; so one
thread at most is at the card. Between the write to the status register and the
read of the result the operation of that thread goes through stages (`Phase`):
in flight, ended, reported, waited for, and read. At none of them can another
thread's operation be taken for it (`requests_apart`), which is why the file
system may see the driver as one call that runs to its end.
-/

namespace Os161

namespace Dev

open Function Os161.Units List Option

open Userprog (UioRw)
open Fs (Sector)

/-- Between `P(lh->lh_clear)` and `V(lh->lh_clear)`. -/
def IoPc.inside : IoPc → ℕ
  | .user | .clear _ _ => 0
  | _ => 1

/-- Between the start of an operation and the end of what is taken from it. -/
def IoPc.flying : IoPc → Bool
  | .wait _ _ _ | .getResult _ _ _ | .copyOut _ _ _ _ => true
  | _ => false

variable {W : Type} [DecidableEq W] {s s' : LhdSoftc W} {u w : W} {e : IoEvent W} {p q : IoPc}

/-- The operations of a thread that ended. -/
def LhdSoftc.done (s : LhdSoftc W) (w : W) : List Op := (s.ops.filter (·.1 = w)).map Prod.snd

/-- What a thread was to write. -/
def Carries (rw : UioRw) (moved : Option Sector) (buf : Sector) : Prop :=
  moved = if rw = .write then some buf else none

/-- **The stages of an operation.** In each of them but the first there is one
thread whose operation it is. -/
inductive Phase (s : LhdSoftc W) : Prop
  | quiet (hpc : ∀ w, (s.pc w).flying = false) (hstat : s.stat = .IDLE) (hdone : s.lhDone = 0)
      (hstarts : s.starts = s.ops.map Prod.fst) (hposts : s.posts = s.ops.map Prod.fst)
      (hwaits : s.waits = s.posts) (hlog : ∀ u, s.done u = s.log u)
  | working (w : W) (r : Request) (i : ℕ) (moved : Option Sector)
      (hpc : s.pc w = .wait r i moved) (hstat : s.stat = .WORKING r.rw)
      (howner : s.owner = some w) (hsect : s.sect = r.at i) (hbuf : Carries r.rw moved s.buf)
      (hdone : s.lhDone = 0) (hstarts : s.starts = s.ops.map Prod.fst ++ [w])
      (hposts : s.posts = s.ops.map Prod.fst) (hwaits : s.waits = s.posts)
      (hlog : ∀ u, s.done u = s.log u)
  | ended (w : W) (r : Request) (i : ℕ) (moved : Option Sector)
      (hpc : s.pc w = .wait r i moved) (hstat : s.stat = .OK ∨ s.stat = .INVSECT ∨ s.stat = .MEDIA)
      (howner : s.owner = some w) (hdone : s.lhDone = 0) (hstarts : s.starts = s.ops.map Prod.fst)
      (hposts : s.posts ++ [w] = s.ops.map Prod.fst) (hwaits : s.waits = s.posts)
      (hlog : ∀ u, s.done u = s.log u ++
        if u = w then [⟨r.at i, r.rw, moved, lhdCodeToErrno s.stat, s.buf⟩] else [])
  | posted (w : W) (r : Request) (i : ℕ) (moved : Option Sector)
      (hpc : s.pc w = .wait r i moved) (hstat : s.stat = .IDLE) (hdone : s.lhDone = 1)
      (hstarts : s.starts = s.ops.map Prod.fst) (hposts : s.posts = s.ops.map Prod.fst)
      (hwaits : s.waits ++ [w] = s.posts)
      (hlog : ∀ u, s.done u = s.log u ++
        if u = w then [⟨r.at i, r.rw, moved, s.lhResult, s.buf⟩] else [])
  | got (w : W) (r : Request) (i : ℕ) (moved : Option Sector) (result : Option Errno)
      (hpc : s.pc w = .getResult r i moved ∧ s.lhResult = result ∨
        s.pc w = .copyOut r i moved result)
      (hstat : s.stat = .IDLE) (hdone : s.lhDone = 0)
      (hstarts : s.starts = s.ops.map Prod.fst) (hposts : s.posts = s.ops.map Prod.fst)
      (hwaits : s.waits = s.posts)
      (hlog : ∀ u, s.done u = s.log u ++
        if u = w then [⟨r.at i, r.rw, moved, result, s.buf⟩] else [])

omit [DecidableEq W] in
/-- An operation ends in one of three ways. -/
theorem LhdSoftc.driveEnd_stat (s : LhdSoftc W) (rw' : UioRw) :
    (s.driveEnd rw').1 = .OK ∨ (s.driveEnd rw').1 = .INVSECT ∨ (s.driveEnd rw').1 = .MEDIA := by
  unfold driveEnd
  split
  · exact .inl rfl
  · exact .inr (.inl rfl)
  · exact .inr (.inr rfl)

namespace Phase

section

variable (h : Phase s)

include h

/-- With nobody in flight all is quiet. -/
theorem elim_quiet (hpc : ∀ w, (s.pc w).flying = false) :
    s.stat = .IDLE ∧ s.lhDone = 0 ∧ s.starts = s.ops.map Prod.fst ∧
      s.posts = s.ops.map Prod.fst ∧ s.waits = s.posts ∧ ∀ u, s.done u = s.log u := by
  cases h with
  | quiet _ hstat hdone hstarts hposts hwaits hlog =>
    exact ⟨hstat, hdone, hstarts, hposts, hwaits, hlog⟩
  | working w r i moved hw | ended w r i moved hw | posted w r i moved hw =>
    have := hpc w; rw [hw] at this; cases this
  | got w r i moved result hw =>
    have := hpc w
    rcases hw with ⟨hw, -⟩ | hw <;> rw [hw] at this <;> cases this

/-- The stage depends on the threads in flight, and `lh_clear` has no part in it. -/
theorem of_flying {pc : W → IoPc} (hfly : ∀ v, (s.pc v).flying = true → pc v = s.pc v)
    (hrest : ∀ v, (s.pc v).flying = false → (pc v).flying = false) (n : ℕ) :
    Phase { s with pc := pc, lhClear := n } := by
  cases h with
  | quiet hpc hstat hdone hstarts hposts hwaits hlog =>
    exact .quiet (fun v => hrest v (hpc v)) hstat hdone hstarts hposts hwaits hlog
  | working w r i moved hpc hstat howner hsect hbuf hdone hstarts hposts hwaits hlog =>
    exact .working w r i moved ((hfly w (by rw [hpc]; rfl)).trans hpc) hstat howner hsect hbuf
      hdone hstarts hposts hwaits hlog
  | ended w r i moved hpc hstat howner hdone hstarts hposts hwaits hlog =>
    exact .ended w r i moved ((hfly w (by rw [hpc]; rfl)).trans hpc) hstat howner hdone hstarts
      hposts hwaits hlog
  | posted w r i moved hpc hstat hdone hstarts hposts hwaits hlog =>
    exact .posted w r i moved ((hfly w (by rw [hpc]; rfl)).trans hpc) hstat hdone hstarts hposts
      hwaits hlog
  | got w r i moved result hpc hstat hdone hstarts hposts hwaits hlog =>
    refine .got w r i moved result ?_ hstat hdone hstarts hposts hwaits hlog
    rcases hpc with ⟨hpc, hres⟩ | hpc
    · exact .inl ⟨(hfly w (by rw [hpc]; rfl)).trans hpc, hres⟩
    · exact .inr ((hfly w (by rw [hpc]; rfl)).trans hpc)

/-- A thread that is not in flight goes to a place where it is not either. -/
theorem goTo (hu : (s.pc u).flying = false) (hp : p.flying = false) (n : ℕ) :
    Phase ({ s with lhClear := n }.goTo u p) := by
  refine h.of_flying (fun v hv => update_of_ne ?_ _ _) (fun v hv => ?_) n
  · rintro rfl
    rw [hu] at hv
    cases hv
  · by_cases hvu : v = u
    · rw [hvu, update_self]
      exact hp
    · rw [update_of_ne hvu]
      exact hv

/-- A step that leaves the operations alone, while there is none. -/
theorem of_quiet (hpc : ∀ w, (s.pc w).flying = false)
    (hpc' : ∀ w, (s'.pc w).flying = false) (hstat : s'.stat = s.stat) (hdone : s'.lhDone = s.lhDone)
    (hhist : s'.starts = s.starts ∧ s'.ops = s.ops ∧ s'.posts = s.posts ∧ s'.waits = s.waits)
    (hlog : s'.log = s.log) : Phase s' := by
  obtain ⟨h1, h2, h3, h4, h5, h6⟩ := h.elim_quiet hpc
  obtain ⟨hstarts, hops, hposts, hwaits⟩ := hhist
  refine .quiet hpc' (hstat.trans h1) (hdone.trans h2) ?_ ?_ ?_ fun u => ?_
  · rw [hstarts, hops, h3]
  · rw [hposts, hops, h4]
  · rw [hwaits, hposts, h5]
  · unfold LhdSoftc.done
    rw [hops, hlog]
    exact h6 u

/-- `lhd_irq` reports the operation that ended. -/
theorem lhdIrq : Phase s.lhdIrq := by
  have hphase := h
  unfold LhdSoftc.lhdIrq
  cases h with
  | quiet _ hstat | working _ _ _ _ _ hstat | posted _ _ _ _ _ hstat | got _ _ _ _ _ _ hstat =>
    rw [hstat]
    exact hphase
  | ended w r i moved hpc hstat howner hdone hstarts hposts hwaits hlog =>
    have hposted : Phase (s.lhdIodone (lhdCodeToErrno s.stat)) := by
      have howner' : s.posts ++ s.owner.toList = s.posts ++ [w] := by
        rw [howner]
        rfl
      refine .posted w r i moved hpc rfl ?_ hstarts (howner'.trans hposts) ?_ hlog
      · show s.lhDone + 1 = 1
        rw [hdone]
      · show s.waits ++ [w] = s.posts ++ s.owner.toList
        rw [howner', hwaits]
    rcases hstat with hstat | hstat | hstat <;> rw [hstat] at hposted ⊢ <;> exact hposted

/-- The drive ends an operation that is in flight. -/
theorem complete (hs : s.complete = some s') : Phase s' := by
  unfold LhdSoftc.complete at hs
  split at hs
  · next rw' v hstat' howner' =>
    cases h with
    | working w r i moved hpc hstat howner hsect hbuf hdone hstarts hposts hwaits hlog =>
      obtain rfl : rw' = r.rw := Stat.WORKING.inj (hstat'.symm.trans hstat)
      obtain rfl : v = w := some.inj (howner'.symm.trans howner)
      have hstat := s.driveEnd_stat r.rw
      obtain rfl := some.inj hs
      refine .ended v r i moved hpc hstat howner hdone ?_ ?_ hwaits fun u => ?_
      · rw [hstarts, map_append]
        rfl
      · rw [hposts, map_append]
        rfl
      · rw [← hlog u, ← hsect, hbuf]
        unfold LhdSoftc.done
        by_cases hu : u = v
        · simp [hu]
        · simp [hu, Ne.symm hu]
    | quiet _ hstat | posted _ _ _ _ _ hstat | got _ _ _ _ _ _ hstat =>
      rw [hstat] at hstat'; cases hstat'
    | ended _ _ _ _ _ hstat => rcases hstat with h | h | h <;> rw [h] at hstat' <;> cases hstat'
  · cases hs

end

end Phase

variable [Fintype W]

/-- **The invariant of the driver.** -/
structure IoInv (s : LhdSoftc W) : Prop where
  clear : s.lhClear + held IoPc.inside s.pc = 1
  phase : Phase s
  writes : ∀ w r i, s.pc w = .copyIn r i → r.rw = .write
  moved : ∀ w r i moved, (s.pc w = .setSect r i moved ∨ s.pc w = .start r i moved) →
    Carries r.rw moved s.buf
  sect : ∀ w r i moved, s.pc w = .start r i moved → s.sect = r.at i
  apart : s.clobbered = false

namespace IoInv

/-- Two threads are not inside at once. -/
theorem eq_of_inside (h : IoInv s) (hu : (s.pc u).inside = 1) (hw : (s.pc w).inside = 1) :
    u = w := by
  have hsum := h.clear
  exact eq_of_held_le_one IoPc.inside s.pc (by omega) (by omega) (by omega)

omit [DecidableEq W] [Fintype W] in
theorem inside_of_flying (hw : (s.pc w).flying = true) : (s.pc w).inside = 1 := by
  revert hw
  cases s.pc w <;> simp [IoPc.flying, IoPc.inside]

/-- While a thread is inside and its operation not started, or over, there is
none. -/
theorem quiet_of_inside (h : IoInv s) (hpc : s.pc w = q) (hw : q.inside = 1)
    (hfly : q.flying = false) (u : W) : (s.pc u).flying = false := by
  subst hpc
  by_contra hu
  have hu' : (s.pc u).flying = true := by simpa using hu
  obtain rfl := h.eq_of_inside (inside_of_flying hu') hw
  exact hu hfly

/-- What a thread relies on before it starts an operation. -/
def Prepared (s : LhdSoftc W) : IoPc → Prop
  | .copyIn r _ => r.rw = .write
  | .setSect r _ moved => Carries r.rw moved s.buf
  | .start r i moved => Carries r.rw moved s.buf ∧ s.sect = r.at i
  | _ => True

/-- **A thread goes from one place to another.** What it changes on the card
only a thread inside may change. -/
theorem move (h : IoInv s) (hq : s.pc w = q) (hpc : s'.pc = update s.pc w p)
    (hclear : s'.lhClear + p.inside = s.lhClear + q.inside) (hphase : Phase s')
    (hcard : q.inside = 1 ∨ s'.buf = s.buf ∧ s'.sect = s.sect)
    (hp : Prepared s' p) (hapart : s'.clobbered = false) : IoInv s' := by
  subst hq
  -- another thread that is inside is none, or finds the card as it was
  have hother : ∀ v, v ≠ w → (s.pc v).inside = 1 → s'.buf = s.buf ∧ s'.sect = s.sect :=
    fun v hv hin => hcard.resolve_left fun hw => hv (h.eq_of_inside hin hw)
  have hself : s'.pc w = p := by rw [hpc, update_self]
  have hpc' : ∀ v, v ≠ w → s'.pc v = s.pc v := fun v hv => by rw [hpc, update_of_ne hv]
  refine ⟨?_, hphase, fun v r i hv => ?_, fun v r i moved hv => ?_, fun v r i moved hv => ?_,
    hapart⟩
  · have hsum := h.clear
    have hheld := held_update IoPc.inside s.pc w p
    rw [hpc]
    omega
  · by_cases hvw : v = w
    · rw [hvw, hself] at hv
      rwa [hv] at hp
    · rw [hpc' v hvw] at hv
      exact h.writes v r i hv
  · by_cases hvw : v = w
    · rw [hvw, hself] at hv
      rcases hv with hv | hv <;> rw [hv] at hp
      · exact hp
      · exact hp.1
    · rw [hpc' v hvw] at hv
      have hin : (s.pc v).inside = 1 := by
        rcases hv with hv | hv <;> rw [hv] <;> rfl
      rw [(hother v hvw hin).1]
      exact h.moved v r i moved hv
  · by_cases hvw : v = w
    · rw [hvw, hself] at hv
      rw [hv] at hp
      exact hp.2
    · rw [hpc' v hvw] at hv
      have hin : (s.pc v).inside = 1 := by
        rw [hv]
        rfl
      rw [(hother v hvw hin).2]
      exact h.sect v r i moved hv

omit [Fintype W] in
/-- After a thread that was not in flight, and is not, has moved. -/
theorem quiet_goTo (hpc : ∀ w, (s.pc w).flying = false) (hs' : s'.pc = update s.pc w p)
    (hp : p.flying = false) (u : W) : (s'.pc u).flying = false := by
  rw [hs']
  by_cases hu : u = w
  · rw [hu, update_self]
    exact hp
  · rw [update_of_ne hu]
    exact hpc u

/-- The card is written to while all is quiet. -/
theorem touch_apart (h : IoInv s) (hstat : s.stat = .IDLE) : s.touch.clobbered = false := by
  show (s.clobbered || decide (s.stat ≠ .IDLE)) = false
  rw [h.apart, hstat]
  rfl

theorem lhdIo (h : IoInv s) (hpc : s.pc w = .user) (offset : ℤ) (resid : ℕ) (rw' : UioRw) :
    IoInv (s.lhdIo w offset resid rw') := by
  unfold LhdSoftc.lhdIo
  dsimp only
  split
  · exact h
  split
  · exact h
  split
  · exact h.move hpc rfl rfl (h.phase.goTo (by rw [hpc]; rfl) rfl s.lhClear) (.inr ⟨rfl, rfl⟩)
      trivial h.apart
  · exact h

variable {r : Request} {i : ℕ}

theorem takeClear (h : IoInv s) (hpc : s.pc w = .clear r i)
    (hpos : 0 < s.lhClear) :
    IoInv ({ s with lhClear := s.lhClear - 1 }.goTo w
      (if r.rw = UioRw.write then .copyIn r i else .setSect r i none)) := by
  have hfly : (s.pc w).flying = false := by
    rw [hpc]
    rfl
  have hsum : s.lhClear - 1 + 1 = s.lhClear := Nat.sub_add_cancel hpos
  split
  · next hw =>
    exact h.move hpc rfl hsum (h.phase.goTo hfly rfl _) (.inr ⟨rfl, rfl⟩) hw h.apart
  · next hr =>
    exact h.move hpc rfl hsum (h.phase.goTo hfly rfl _) (.inr ⟨rfl, rfl⟩) (if_neg hr).symm
      h.apart

theorem copyIn (h : IoInv s) (hpc : s.pc w = .copyIn r i) (bytes : Sector)
    (result : Option Errno) :
    IoInv ({ s.touch with buf := bytes }.goTo w
      (if result ≠ none then .release r i result else .setSect r i (some bytes))) := by
  have hquiet := h.quiet_of_inside hpc rfl rfl
  obtain ⟨hstat, -⟩ := h.phase.elim_quiet hquiet
  have hphase : ∀ p : IoPc, p.flying = false →
      Phase ({ s.touch with buf := bytes }.goTo w p) := fun p hp =>
    h.phase.of_quiet hquiet (quiet_goTo hquiet rfl hp) rfl rfl ⟨rfl, rfl, rfl, rfl⟩ rfl
  split
  · exact h.move hpc rfl rfl (hphase _ rfl) (.inl rfl) trivial (h.touch_apart hstat)
  · exact h.move hpc rfl rfl (hphase _ rfl) (.inl rfl)
      (if_pos (h.writes w r i hpc)).symm (h.touch_apart hstat)

variable {moved : Option Sector}

section

variable (h : IoInv s)

include h

theorem setSect (hpc : s.pc w = .setSect r i moved) :
    IoInv ({ s.touch with sect := r.at i }.goTo w (.start r i moved)) := by
  have hquiet := h.quiet_of_inside hpc rfl rfl
  obtain ⟨hstat, -⟩ := h.phase.elim_quiet hquiet
  exact h.move hpc rfl rfl
    (h.phase.of_quiet hquiet (quiet_goTo hquiet rfl rfl) rfl rfl ⟨rfl, rfl, rfl, rfl⟩ rfl)
    (.inl rfl) ⟨h.moved w r i moved (.inl hpc), rfl⟩ (h.touch_apart hstat)

/-- An operation is started. -/
theorem start (hpc : s.pc w = .start r i moved) :
    IoInv ({ s.touch with
      stat := .WORKING r.rw
      owner := some w
      starts := s.starts ++ [w] }.goTo w (.wait r i moved)) := by
  obtain ⟨hstat, hdone, hstarts, hposts, hwaits, hlog⟩ :=
    h.phase.elim_quiet (h.quiet_of_inside hpc rfl rfl)
  refine h.move hpc rfl rfl ?_ (.inl rfl) trivial (h.touch_apart hstat)
  refine .working w r i moved (update_self ..) rfl rfl (h.sect w r i moved hpc)
    (h.moved w r i moved (.inr hpc)) hdone ?_ hposts hwaits hlog
  show s.starts ++ [w] = s.ops.map Prod.fst ++ [w]
  rw [hstarts]

/-- `P(lh->lh_done)` returns, to the thread whose operation was reported. -/
theorem wait (hpc : s.pc w = .wait r i moved) (hpos : 0 < s.lhDone) :
    IoInv ({ s with lhDone := s.lhDone - 1, waits := s.waits ++ [w] }.goTo w
      (.getResult r i moved)) := by
  refine h.move hpc rfl rfl ?_ (.inl rfl) trivial h.apart
  cases h.phase with
  | posted v r' i' moved' hpc' hstat hdone hstarts hposts hwaits hlog =>
    obtain rfl : v = w := h.eq_of_inside (by rw [hpc']; rfl) (by rw [hpc]; rfl)
    cases hpc'.symm.trans hpc
    refine .got v r i moved s.lhResult (.inl ⟨update_self .., rfl⟩) hstat ?_ hstarts hposts
      hwaits hlog
    show s.lhDone - 1 = 0
    rw [hdone]
  | quiet _ _ hdone | working _ _ _ _ _ _ _ _ _ hdone | ended _ _ _ _ _ _ _ hdone
  | got _ _ _ _ _ _ _ hdone => omega

/-- **What the thread that waited will take from the card is what its operation left.** -/
theorem got_of {result : Option Errno} (hpc : s.pc w = .getResult r i moved ∧ s.lhResult = result ∨
    s.pc w = .copyOut r i moved result) :
    s.stat = .IDLE ∧ s.lhDone = 0 ∧ s.starts = s.ops.map Prod.fst ∧ s.posts = s.ops.map Prod.fst ∧
      s.waits = s.posts ∧ ∀ u, s.done u = s.log u ++
        if u = w then [⟨r.at i, r.rw, moved, result, s.buf⟩] else [] := by
  have hfly : (s.pc w).flying = true := by
    rcases hpc with ⟨hpc, -⟩ | hpc <;> rw [hpc] <;> rfl
  have hother : ∀ v, (s.pc v).flying = true → v = w := fun v hv =>
    h.eq_of_inside (inside_of_flying hv) (inside_of_flying hfly)
  cases h.phase with
  | got v r' i' moved' result' hpc' hstat hdone hstarts hposts hwaits hlog =>
    obtain rfl : v = w := by
      refine hother v ?_
      rcases hpc' with ⟨hpc', -⟩ | hpc' <;> rw [hpc'] <;> rfl
    have hsame : r' = r ∧ i' = i ∧ moved' = moved ∧ result' = result := by
      rcases hpc with ⟨hpc, hres⟩ | hpc <;> rcases hpc' with ⟨hpc', hres'⟩ | hpc' <;>
        cases hpc'.symm.trans hpc
      · exact ⟨rfl, rfl, rfl, hres'.symm.trans hres⟩
      · exact ⟨rfl, rfl, rfl, rfl⟩
    obtain ⟨rfl, rfl, rfl, rfl⟩ := hsame
    exact ⟨hstat, hdone, hstarts, hposts, hwaits, hlog⟩
  | quiet hall => rw [hall w] at hfly; cases hfly
  | working v _ _ _ hv | ended v _ _ _ hv | posted v _ _ _ hv =>
    obtain rfl := hother v (by rw [hv]; rfl)
    rcases hpc with ⟨hpc, -⟩ | hpc <;> cases hv.symm.trans hpc

/-- The result is read. -/
theorem getResult (hpc : s.pc w = .getResult r i moved) :
    IoInv (s.goTo w (.copyOut r i moved s.lhResult)) := by
  obtain ⟨hstat, hdone, hstarts, hposts, hwaits, hlog⟩ := h.got_of (.inl ⟨hpc, rfl⟩)
  refine h.move hpc rfl rfl ?_ (.inl rfl) trivial h.apart
  exact .got w r i moved s.lhResult (.inr (update_self ..)) hstat hdone hstarts hposts hwaits hlog

/-- What the thread takes for the end of its operation is the end of its
operation. -/
theorem copyOut {result : Option Errno}
    (hpc : s.pc w = .copyOut r i moved result) (result' : Option Errno) :
    IoInv ((s.taken w r i moved result).goTo w (.release r i result')) := by
  obtain ⟨hstat, hdone, hstarts, hposts, hwaits, hlog⟩ := h.got_of (.inr hpc)
  refine h.move hpc rfl rfl ?_ (.inl rfl) trivial h.apart
  refine .quiet (fun u => ?_) hstat hdone hstarts hposts hwaits fun u => ?_
  · show (update s.pc w _ u).flying = false
    by_cases hu : u = w
    · rw [hu, update_self]
      rfl
    · rw [update_of_ne hu]
      by_contra hfly
      exact hu (h.eq_of_inside (inside_of_flying (by simpa using hfly)) (by rw [hpc]; rfl))
  · refine (hlog u).trans ?_
    show _ = update s.log w _ u
    by_cases hu : u = w
    · rw [hu, update_self, if_pos rfl]
    · rw [update_of_ne hu, if_neg hu, append_nil]

/-- `V(lh->lh_clear)`, on the way to the next sector or out. -/
theorem release {result : Option Errno} (hpc : s.pc w = .release r i result) :
    IoInv ({ s with lhClear := s.lhClear + 1 }.goTo w (LhdSoftc.nextRound r i result)) := by
  have hfly : (s.pc w).flying = false := by
    rw [hpc]
    rfl
  obtain ⟨p, hp, hp'⟩ : ∃ p, LhdSoftc.nextRound r i result = p ∧
      (p = .user ∨ p = .clear r (i + 1)) := by
    unfold LhdSoftc.nextRound
    refine ⟨_, rfl, ?_⟩
    split
    · exact .inl rfl
    · split
      · exact .inr rfl
      · exact .inl rfl
  rw [hp]
  rcases hp' with rfl | rfl
  · exact h.move hpc rfl rfl (h.phase.goTo hfly rfl _) (.inr ⟨rfl, rfl⟩) trivial h.apart
  · exact h.move hpc rfl rfl (h.phase.goTo hfly rfl _) (.inr ⟨rfl, rfl⟩) trivial h.apart

theorem run (hs : s.run w = some s') : IoInv s' := by
  unfold LhdSoftc.run at hs
  split at hs
  · next r i hpc =>
    obtain ⟨hpos, hs⟩ := ite_none_right_eq_some.1 hs
    obtain rfl := some.inj hs
    exact h.takeClear hpc hpos
  · next r i moved hpc =>
    obtain rfl := some.inj hs
    exact h.setSect hpc
  · next r i moved hpc =>
    obtain rfl := some.inj hs
    exact h.start hpc
  · next r i moved hpc =>
    obtain ⟨hpos, hs⟩ := ite_none_right_eq_some.1 hs
    obtain rfl := some.inj hs
    exact h.wait hpc hpos
  · next r i moved hpc =>
    obtain rfl := some.inj hs
    exact h.getResult hpc
  · next r i moved result hpc =>
    obtain ⟨-, hs⟩ := ite_none_left_eq_some.1 hs
    obtain rfl := some.inj hs
    exact h.copyOut hpc result
  · next r i result hpc =>
    obtain rfl := some.inj hs
    exact h.release hpc
  · cases hs

/-- The drive does not touch the threads. -/
theorem complete (hs : s.complete = some s') : IoInv s' := by
  have hphase := h.phase.complete hs
  unfold LhdSoftc.complete at hs
  split at hs
  · next rw' v hstat howner =>
    -- the thread whose operation it is is in flight, so nobody has bytes in the buffer
    have hfly : ∃ v, (s.pc v).flying = true := by
      by_contra hnone
      obtain ⟨hidle, -⟩ := h.phase.elim_quiet fun v => by
        by_contra hv
        exact hnone ⟨v, by simpa using hv⟩
      rw [hidle] at hstat
      cases hstat
    obtain ⟨v, hv⟩ := hfly
    have hnobody : ∀ w, (s.pc w).inside = 1 → (s.pc w).flying = true := fun w hw =>
      h.eq_of_inside (inside_of_flying hv) hw ▸ hv
    obtain rfl := some.inj hs
    refine ⟨h.clear, hphase, h.writes, fun w r i moved hw => ?_, h.sect, h.apart⟩
    have hw' := hnobody w (by rcases hw with hw | hw <;> rw [show s.pc w = _ from hw] <;> rfl)
    rcases hw with hw | hw <;> rw [show s.pc w = _ from hw] at hw' <;> cases hw'
  · cases hs

theorem lhdIrq : IoInv s.lhdIrq := by
  have hphase := h.phase.lhdIrq
  revert hphase
  unfold LhdSoftc.lhdIrq
  split <;> intro hphase
  · exact h
  · exact h
  all_goals exact ⟨h.clear, hphase, h.writes, h.moved, h.sect, h.apart⟩

/-- **A step keeps the invariant.** -/
theorem step (hs : s.step e = some s') : IoInv s' := by
  cases e with
  | io w offset resid rw' =>
    simp only [LhdSoftc.step] at hs
    split at hs
    · next hpc =>
      obtain rfl := some.inj hs
      exact h.lhdIo hpc offset resid rw'
    · cases hs
  | run w => exact h.run hs
  | copyIn w bytes result =>
    simp only [LhdSoftc.step] at hs
    split at hs
    · next r i hpc =>
      obtain rfl := some.inj hs
      exact h.copyIn hpc bytes result
    · cases hs
  | copyOut w result =>
    simp only [LhdSoftc.step] at hs
    split at hs
    · next r i moved hpc =>
      obtain ⟨-, hs⟩ := ite_none_right_eq_some.1 hs
      obtain rfl := some.inj hs
      exact h.copyOut hpc result
    · cases hs
  | complete => exact h.complete hs
  | irq =>
    obtain rfl := some.inj hs
    exact h.lhdIrq

end

theorem configLhd (drive : Fs.Lhd) (buf : Sector) : IoInv (configLhd drive buf : LhdSoftc W) where
  clear := by
    have hzero : held IoPc.inside (Dev.configLhd drive buf : LhdSoftc W).pc = 0 :=
      held_eq_zero.2 fun _ => rfl
    rw [hzero]
    rfl
  phase := .quiet (fun _ => rfl) rfl rfl rfl rfl rfl fun _ => rfl
  writes := by nofun
  moved := by rintro _ _ _ _ (h | h) <;> cases h
  sect := by nofun
  apart := rfl

end IoInv

/-! ## The runs -/

/-- The states that threads, the drive and its interrupts bring about. -/
def IoReachable (drive : Fs.Lhd) (buf : Sector) (s : LhdSoftc W) : Prop :=
  Runs.Reachable LhdSoftc.step (Runs.Free _ _) (configLhd drive buf) s

theorem IoReachable.inv {drive : Fs.Lhd} {buf : Sector} (h : IoReachable drive buf s) : IoInv s :=
  Runs.Reachable.invariant h (IoInv.configLhd drive buf) fun _ _ _ hi _ hs => hi.step hs

omit [Fintype W] in
/-- The order of starting, ending, reporting and being waited for. -/
theorem Phase.order (h : Phase s) :
    s.waits <+: s.posts ∧ s.posts <+: s.ops.map Prod.fst ∧ s.ops.map Prod.fst <+: s.starts ∧
      s.starts.length ≤ s.waits.length + 1 := by
  cases h with
  | quiet _ _ _ hstarts hposts hwaits | got _ _ _ _ _ _ _ _ hstarts hposts hwaits =>
    rw [hwaits, hstarts, hposts]
    exact ⟨prefix_rfl, prefix_rfl, prefix_rfl, Nat.le_succ _⟩
  | working w _ _ _ _ _ _ _ _ _ hstarts hposts hwaits =>
    rw [hwaits, hstarts, hposts]
    exact ⟨prefix_rfl, prefix_rfl, prefix_append _ _, by simp⟩
  | ended w _ _ _ _ _ _ _ hstarts hposts hwaits =>
    rw [hwaits, hstarts, ← hposts]
    exact ⟨prefix_rfl, prefix_append _ _, prefix_rfl, by simp⟩
  | posted w _ _ _ _ _ _ hstarts hposts hwaits =>
    rw [hstarts, ← hposts, ← hwaits]
    exact ⟨prefix_append _ _, prefix_rfl, prefix_rfl, by simp⟩

omit [Fintype W] in
/-- What a thread took for the ends of its operations. -/
theorem Phase.log_prefix (h : Phase s) (w : W) :
    s.log w <+: s.done w ∧ ((s.pc w).flying = false → s.log w = s.done w) := by
  have hmine : ∀ {v : W} {l : List Op}, (s.pc v).flying = true →
      (s.done w = s.log w ++ if w = v then l else []) →
      s.log w <+: s.done w ∧ ((s.pc w).flying = false → s.log w = s.done w) := by
    intro v l hv hlog
    refine ⟨hlog ▸ prefix_append _ _, fun hw => ?_⟩
    rw [hlog, if_neg, append_nil]
    rintro rfl
    rw [hv] at hw
    cases hw
  cases h with
  | quiet _ _ _ _ _ _ hlog | working _ _ _ _ _ _ _ _ _ _ _ _ _ hlog =>
    rw [hlog w]; exact ⟨prefix_rfl, fun _ => rfl⟩
  | ended v _ _ _ hpc _ _ _ _ _ _ hlog | posted v _ _ _ hpc _ _ _ _ _ hlog =>
    exact hmine (by rw [hpc]; rfl) (hlog w)
  | got v _ _ _ _ hpc _ _ _ _ _ hlog =>
    refine hmine ?_ (hlog w)
    rcases hpc with ⟨hpc, -⟩ | hpc <;> rw [hpc] <;> rfl

/-- **Disk requests do not interfere**, in every run of any number of threads in
`lhd_io`, on any drive. The card is left alone while an operation is in flight
or its end not reported, and at most one operation is between its start and the
`P(lh->lh_done)` for it. Operations end in the order in which they were
started, each is reported once and in that order, and the waits return in that
order to the threads that started them. What each thread took for the ends of
its operations, with the sectors that it asked for, the results that it read and
the bytes that it found in the buffer, are the ends of its operations. And
`lh_clear` is with the one thread inside, or free. -/
theorem requests_apart (drive : Fs.Lhd) (buf : Sector) (s : LhdSoftc W)
    (h : IoReachable drive buf s) :
    s.clobbered = false ∧
    (s.waits <+: s.posts ∧ s.posts <+: s.ops.map Prod.fst ∧ s.ops.map Prod.fst <+: s.starts ∧
      s.starts.length ≤ s.waits.length + 1) ∧
    (∀ w, s.log w <+: s.done w ∧ ((s.pc w).flying = false → s.log w = s.done w)) ∧
    s.lhClear + Units.held IoPc.inside s.pc = 1 ∧
    ((∀ w, (s.pc w).inside = 0) → s.lhClear = 1) := by
  have hinv := h.inv
  refine ⟨hinv.apart, hinv.phase.order, hinv.phase.log_prefix, hinv.clear, fun hfree => ?_⟩
  have hsum := hinv.clear
  rw [held_eq_zero.2 hfree] at hsum
  exact hsum

/-- One thread writes sector 1; another asks for sector 0 meanwhile, and its
copy to the user fails. -/
def writeAndRead : List (IoEvent Bool) :=
  [.io false 512 512 .write, .run false, .io true 0 512 .read, .copyIn false (fun _ => 1) none,
   .run false, .run false, .complete, .irq, .run false, .run false, .run false, .run false,
   .run true, .run true, .run true, .complete, .irq, .run true, .run true,
   .copyOut true (some .EFAULT), .run true]

theorem requests_apart_write_and_read :
    ∃ s : LhdSoftc Bool, IoReachable ⟨8, fun _ => Sector.zero, fun _ => .ok⟩ Sector.zero s ∧
      s.waits = [false, true] ∧ s.lhClear = 1 ∧ s.clobbered = false ∧ s.log true = s.done true := by
  obtain ⟨s, hs, hwaits, hclear, hfly⟩ := Runs.exists_of_exec LhdSoftc.step
    (configLhd ⟨8, fun _ => Sector.zero, fun _ => .ok⟩ Sector.zero) writeAndRead
    (fun s => s.waits = [false, true] ∧ s.lhClear = 1 ∧ (s.pc true).flying = false)
    (by decide +kernel)
  have hr : IoReachable ⟨8, fun _ => Sector.zero, fun _ => .ok⟩ Sector.zero s :=
    Runs.reachable_of_exec hs
  obtain ⟨hapart, -, hlog, -⟩ := requests_apart _ _ s hr
  exact ⟨s, hr, hwaits, hclear, hapart, (hlog true).2 hfly⟩

end Dev

end Os161
