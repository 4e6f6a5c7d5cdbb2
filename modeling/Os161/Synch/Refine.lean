import Os161.Thread.Partition
import Os161.Synch.Model.Kernel
/-!
# The kernel over the lists

The kernel does with a thread system only what `ThreadOps` names, so two
thread systems whose operations commute with a view give kernels whose
steps commute with it (`step_mapSys`). Taken at the view of `thread.c` as
its lists, every run of the kernel is a run of the kernel over `Places`,
where a sleeper is a member of a list and a wakeup a filter
(`reachable_lists_iff`).
-/

namespace Os161

namespace Synch

open Thread Function Places Kernel

/-- The operations on places. -/
def placesOps : ThreadOps (Places SleepAddr) where
  cur := cur
  fork := fork
  yield := fun p => some p.yield
  sleep := sleep
  resume := resume
  wakeup := fun a p => some (p.wakeup a)
  wakeupOne := fun a p => some (p.wakeupOne a)
  exit := exit
  switchTo := dispatch

/-- A view that commutes with every operation. -/
structure ThreadOps.Commutes {S S' : Type} (o : ThreadOps S) (o' : ThreadOps S') (v : S → S') :
    Prop where
  cur : ∀ s, o'.cur (v s) = o.cur s
  fork : ∀ s, o'.fork (v s) = (o.fork s).map (Prod.map id v)
  yield : ∀ s, o'.yield (v s) = (o.yield s).map v
  sleep : ∀ a s, o'.sleep a (v s) = (o.sleep a s).map v
  resume : ∀ s, o'.resume (v s) = (o.resume s).map v
  wakeup : ∀ a s, o'.wakeup a (v s) = (o.wakeup a s).map v
  wakeupOne : ∀ a s, o'.wakeupOne a (v s) = (o.wakeupOne a s).map v
  exit : ∀ s, o'.exit (v s) = (o.exit s).map v
  switchTo : ∀ s, o'.switchTo (v s) = (o.switchTo s).map v

/-- **`thread.c` commutes with its lists.** -/
theorem threadOps_commutes : threadOps.Commutes placesOps ThreadSys.places where
  cur := fun _ => rfl
  fork := fun s => s.places_threadFork.symm
  yield := fun s => s.places_threadYield.symm
  sleep := fun a s => (s.places_threadSleep a).symm
  resume := fun s => s.places_threadResume.symm
  wakeup := fun a s => (s.places_threadWakeup a).symm
  wakeupOne := fun a s => (s.places_threadWakeupOne a).symm
  exit := fun s => s.places_threadExit.symm
  switchTo := fun s => s.places_switchTo.symm

namespace Kernel

variable {S S' : Type} {o : ThreadOps S} {o' : ThreadOps S'} {v : S → S'}

/-- The kernel over the view of its thread system. -/
def mapSys (v : S → S') (k : Kernel S) : Kernel S' where
  sys := v k.sys
  curspl := k.curspl
  count := k.count
  holder := k.holder
  code := k.code
  saved := k.saved
  call := k.call
  inside := k.inside
  ups := k.ups
  downs := k.downs

theorem leave_mapSys (k : Kernel S) (t : Tid) (rest : List Instr) :
    (k.mapSys v).leave t rest = (k.leave t rest).map (mapSys v) := by
  unfold leave
  cases h : k.saved t <;> simp [mapSys, splTo, goOn, h]

section

variable (h : o.Commutes o' v) (k : Kernel S) (t : Tid)

include h

theorem post_mapSys (s : SemId) :
    (k.mapSys v).post o' s = (k.post o s).map (mapSys v) := by
  unfold post
  simp only [mapSys, h.wakeup]
  split
  · cases o.wakeup (.sem s) k.sys <;> rfl
  · rfl

theorem sleepOn_mapSys (a : SleepAddr) (rest : List Instr) :
    (k.mapSys v).sleepOn o' t a rest = (k.sleepOn o t a rest).map (mapSys v) := by
  unfold sleepOn
  simp only [mapSys, h.sleep]
  cases o.sleep a k.sys <;> rfl

theorem semWait_mapSys (s : SemId) (rest : List Instr) :
    (k.mapSys v).semWait o' t s rest = (k.semWait o t s rest).map (mapSys v) := by
  unfold semWait
  rw [sleepOn_mapSys h]
  simp only [show (k.mapSys v).count s = k.count s from rfl]
  split
  · rfl
  · split
    · exact leave_mapSys (v := v) { k with
        count := update k.count s (k.count s - 1)
        downs := update k.downs s (k.downs s + 1) } t rest
    · rfl

theorem lockWait_mapSys (l : LockId) (rest : List Instr) :
    (k.mapSys v).lockWait o' t l rest = (k.lockWait o t l rest).map (mapSys v) := by
  unfold lockWait
  rw [sleepOn_mapSys h]
  simp only [show (k.mapSys v).holder l = k.holder l from rfl]
  split
  · rfl
  · exact leave_mapSys (v := v)
      { k.setInside t l true with holder := update k.holder l (some t) } t rest

theorem lockDrop_mapSys (l : LockId) (own : Bool) (rest : List Instr) :
    (k.mapSys v).lockDrop o' t l own rest = (k.lockDrop o t l own rest).map (mapSys v) := by
  have hend : (k.mapSys v).endInside t l own = (k.endInside t l own).mapSys v := by
    cases own <;> rfl
  unfold lockDrop
  rw [hend]
  simp only [show (k.mapSys v).holder = k.holder from rfl,
    show (k.mapSys v).sys = v k.sys from rfl, h.wakeupOne]
  split
  · cases o.wakeupOne (.lock l) k.sys with
    | none => rfl
    | some sys =>
      exact leave_mapSys (v := v)
        { k.endInside t l own with sys, holder := update k.holder l none } t rest
  · exact leave_mapSys _ t rest

theorem fork_mapSys (rest : List Instr) :
    (k.mapSys v).fork o' t rest = (k.fork o t rest).map (mapSys v) := by
  unfold fork
  simp only [show (k.mapSys v).sys = v k.sys from rfl, h.fork]
  cases o.fork k.sys with
  | none => rfl
  | some r =>
    exact leave_mapSys (v := v)
      { k with
        sys := r.2
        code := update k.code r.1 [.spl0]
        saved := update k.saved r.1 []
        call := update k.call r.1 none
        inside := update k.inside r.1 fun _ => false } t rest

theorem runHigh_mapSys (rest : List Instr) (i : Instr) :
    (k.mapSys v).runHigh o' t rest i = (k.runHigh o t rest i).map (mapSys v) := by
  have hsys : (k.mapSys v).sys = v k.sys := rfl
  cases i with
  | splhigh => rfl
  | spl0 => rfl
  | splx | switched => exact leave_mapSys k t rest
  | semWait s => exact semWait_mapSys h k t s rest
  | semPost s =>
    simp only [runHigh, post_mapSys h]
    cases k.post o s with
    | none => rfl
    | some k₁ => exact leave_mapSys k₁ t rest
  | lockWait l w => exact lockWait_mapSys h k t l rest
  | lockDrop l own => exact lockDrop_mapSys h k t l own rest
  | sleep c => exact sleepOn_mapSys h k t (.chan c) rest
  | awake => simp only [runHigh, hsys, h.resume]; cases o.resume k.sys <;> rfl
  | wakeup c => simp only [runHigh, hsys, h.wakeup]; cases o.wakeup (.chan c) k.sys <;> rfl
  | wakeupOne c =>
    simp only [runHigh, hsys, h.wakeupOne]; cases o.wakeupOne (.chan c) k.sys <;> rfl
  | fork => exact fork_mapSys h k t rest
  | yield => simp only [runHigh, hsys, h.yield]; cases o.yield k.sys <;> rfl
  | exit => simp only [runHigh, hsys, h.exit]; cases o.exit k.sys <;> rfl

theorem runInstr_mapSys (rest : List Instr) (i : Instr) :
    (k.mapSys v).runInstr o' t rest i = (k.runInstr o t rest i).map (mapSys v) := by
  unfold runInstr
  simp only [show (k.mapSys v).curspl = k.curspl from rfl, runHigh_mapSys h]
  cases i <;> cases k.curspl <;> rfl

theorem hardclock_mapSys (second : Bool) :
    (k.mapSys v).hardclock o' second = (k.hardclock o second).map (mapSys v) := by
  have hwake : (if second then o'.wakeup (.chan .lbolt) (v k.sys) else some (v k.sys)) =
      (if second then o.wakeup (.chan .lbolt) k.sys else some k.sys).map v := by
    cases second with
    | false => rfl
    | true => exact h.wakeup (.chan .lbolt) k.sys
  unfold hardclock
  rw [show (k.mapSys v).sys = v k.sys from rfl, hwake, h.cur]
  cases (if second then o.wakeup (.chan .lbolt) k.sys else some k.sys) with
  | none => rfl
  | some sys =>
    show Option.map _ (o'.yield (v sys)) = Option.map _ (Option.map _ (o.yield sys))
    rw [h.yield]
    cases o.yield sys <;> cases o.cur k.sys <;> rfl

/-- **The steps of the kernel commute with a view of its thread system.** -/
theorem step_mapSys (e : Event) :
    (k.mapSys v).step o' e = (k.step o e).map (mapSys v) := by
  have hcur : o'.cur (k.mapSys v).sys = o.cur k.sys := h.cur k.sys
  have hint : (k.mapSys v).interruptible o' = k.interruptible o := by
    unfold interruptible
    rw [hcur]
    rfl
  cases e with
  | call c =>
    simp only [step, hcur]
    cases o.cur k.sys with
    | none => rfl
    | some t =>
      simp only [Option.bind_some, show (k.mapSys v).code = k.code from rfl,
        show (k.mapSys v).curspl = k.curspl from rfl]
      split <;> rfl
  | spl n =>
    simp only [step, hcur]
    cases o.cur k.sys with
    | none => rfl
    | some t =>
      simp only [Option.bind_some, show (k.mapSys v).code = k.code from rfl]
      split <;> rfl
  | run =>
    simp only [step, hcur]
    cases o.cur k.sys with
    | none => rfl
    | some t =>
      simp only [Option.bind_some, show (k.mapSys v).code = k.code from rfl]
      cases k.code t with
      | nil => rfl
      | cons i rest => exact runInstr_mapSys h k t rest i
  | timer second =>
    simp only [step, hint, hardclock_mapSys h]
    split <;> rfl
  | interrupt s =>
    simp only [step, hint, post_mapSys h]
    split <;> rfl
  | switchTo =>
    simp only [step, show (k.mapSys v).sys = v k.sys from rfl, h.switchTo]
    cases o.switchTo k.sys <;> rfl

end

end Kernel

/-! ## The runs of the kernel -/

/-- The kernel over lists. -/
abbrev ListKernel := Kernel (Places SleepAddr)

/-- The lists of a kernel. -/
def Kernel.lists (k : OsKernel) : ListKernel := k.mapSys ThreadSys.places

/-- The states that the kernel comes to from its boot. -/
def Reachable (init : SemId → ℕ) (k : OsKernel) : Prop :=
  Runs.Reachable (step threadOps) (Runs.Free OsKernel Event) (boot init) k

/-- A step of the kernel is a step of its lists. -/
theorem step_lists {k k' : OsKernel} {e : Event} (h : k.step threadOps e = some k') :
    k.lists.step placesOps e = some k'.lists := by
  rw [lists, step_mapSys threadOps_commutes, h]
  rfl

/-- A run of the lists is the view of a run of the kernel. -/
theorem exec_lists (k : OsKernel) (es : List Event) :
    Runs.exec (step placesOps) k.lists es =
      (Runs.exec (step threadOps) k es).map lists :=
  Runs.exec_view lists (fun k e => step_mapSys threadOps_commutes k e) k es

/-- **An invariant of the lists holds along every run of the kernel.** -/
theorem Reachable.lists_invariant {I : ListKernel → Prop} {G : OsKernel → Event → Prop}
    {init : SemId → ℕ} {k : OsKernel}
    (h : Runs.Reachable (step threadOps) G (boot init) k) (h0 : I (boot init).lists)
    (hstep : ∀ (k : OsKernel) (k' : ListKernel) e, I k.lists → G k e →
      k.lists.step placesOps e = some k' → I k') : I k.lists :=
  h.invariant (I := fun k => I k.lists) h0 fun k e _ hi hg hs =>
    hstep k _ e hi hg (step_lists hs)

/-- **The states of the kernel over lists are the lists of the states of the kernel**, under
all interleavings. -/
theorem reachable_lists_iff (init : SemId → ℕ) (l : ListKernel) :
    Runs.Reachable (step placesOps) (Runs.Free ListKernel Event) (boot init).lists l ↔
      ∃ k, Reachable init k ∧ k.lists = l := by
  constructor
  · intro h
    refine h.invariant (I := fun l => ∃ k, Reachable init k ∧ k.lists = l) ⟨_, .refl, rfl⟩ ?_
    rintro _ e l' ⟨k, hk, rfl⟩ - hs
    rw [lists, step_mapSys threadOps_commutes] at hs
    obtain ⟨k', hk', rfl⟩ := Option.map_eq_some_iff.1 hs
    exact ⟨k', hk.tail trivial hk', rfl⟩
  · rintro ⟨k, hk, rfl⟩
    exact Reachable.lists_invariant hk .refl fun _ _ _ hl _ hs => hl.tail trivial hs

end Synch

end Os161
