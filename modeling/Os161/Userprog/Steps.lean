import Os161.Userprog.Memory
/-!
# The steps of processes

A step is `Allowed` if every request for memory that it makes is one that
`ram_stealmem` measures, it is not the failure of a `sys_execv` in
`vfs_open` or in `as_create`, that is after it has destroyed the address
space of its caller and before the caller has another, and it is not a store of
`sys_waitpid` through a `status` that is a kernel address. Every such step keeps
the invariant of `Os161.Userprog.Memory`, and `Effect` says what it leaves
alone (`Inv.stepCur`).
-/

namespace Os161

namespace Userprog

open Vm Heap World Option

variable {w w' : World} {p p' : Proc} {q va pa f : UInt32} {as as' : AddrSpace} {tlb : Tlb}
  {ty : FaultType} {e : Event}

/-- The requests that `as_prepare_load` makes for the regions of the current
thread are measured. -/
def World.LoadMeasured (w : World) : Prop :=
  ∀ p ∈ w.procs w.cur, ∀ as ∈ w.heap.space p.vmspace, w.ram.MeasuresAll as.requests

instance (w : World) : Decidable w.LoadMeasured :=
  inferInstanceAs (Decidable (∀ p ∈ w.procs w.cur, ∀ as ∈ w.heap.space p.vmspace, _))

/-- The condition on a step: the memory it asks for is measured, it is not the
failure of a `sys_execv` that leaves its caller without an address space, and a
`status` that `sys_waitpid` stores through is a user address. -/
def Allowed (w : World) : Event → Prop
  | .allocKpages npages => w.ram.Measures npages
  | .asPrepareLoad => w.LoadMeasured
  | .fork _ _ => w.LoadMeasured
  | .asCreate block => ∀ p ∈ w.procs w.cur, p.stage = .opening → (w.heap.asCreate block).isSome
  | .openFails _ => False
  | .statusStore va _ => va < userTop
  | _ => True

instance (w : World) : DecidablePred (Allowed w)
  | .allocKpages _ => inferInstanceAs (Decidable (Ram.Measures _ _))
  | .asPrepareLoad => inferInstanceAs (Decidable w.LoadMeasured)
  | .fork _ _ => inferInstanceAs (Decidable w.LoadMeasured)
  | .asCreate _ => inferInstanceAs (Decidable (∀ p ∈ w.procs w.cur, p.stage = .opening → _))
  | .openFails _ => .isFalse id
  | .statusStore va _ => inferInstanceAs (Decidable (va < userTop))
  | .switch _ | .threadFork | .asDefineRegion _ _ | .copyout _ _ | .loadFails _
  | .mdUsermode _ _ _ _ | .execv | .mdForkentry | .exit | .compute _ | .load _ | .store _ _ =>
    .isTrue trivial

/-- **What a step of the current thread `p` leaves alone**: the other
threads, the address spaces that are not its own, and all memory but its own
frames and those that were free. -/
structure Effect (p : Proc) (w w' : World) : Prop where
  procs : ∀ pid, pid ≠ w.cur → pid < w.maxPid → w'.procs pid = w.procs pid
  space : ∀ q as, w.heap.space q = some as → p.space ≠ some q → w'.heap.space q = some as
  mem : ∀ pa, w'.mem pa ≠ w.mem pa → w.ram.firstpaddr.toNat ≤ pa.toNat ∨
    ∃ as va, p.stage.InSpace ∧ w.heap.space p.vmspace = some as ∧ as.translate va = some pa

/-- A step that keeps the invariant. -/
structure Good (p : Proc) (w w' : World) : Prop where
  inv : Inv w'
  effect : Effect p w w'

variable {r : Ram}

/-- Only the entry of the current thread, the TLB and the free memory
change. -/
theorem Effect.of_setCur :
    Effect p w ({ w with tlb := tlb, ram := r }.setCur p') where
  procs := fun _ hne _ => procs_setCur_of_ne _ _ hne
  space := fun _ _ h _ => h
  mem := fun _ h => absurd rfl h

/-- No thread, no address space and no memory changes. -/
theorem Effect.of_same {n : ℕ} : Effect p w { w with tlb := tlb, ram := r, cur := n } where
  procs := fun _ _ _ => rfl
  space := fun _ _ h _ => h
  mem := fun _ h => absurd rfl h

/-- The TLB plays no part in what a step leaves alone. -/
theorem Good.of_tlb (h : Good p { w with tlb := tlb } w') : Good p w w' where
  inv := h.inv
  effect := ⟨h.effect.procs, h.effect.space, h.effect.mem⟩

/-- Writing to the block of the current thread leaves the others alone. -/
theorem Effect.of_store {pids : ℕ → Option Proc} (hspace : p.space = some p.vmspace)
    (hprocs : ∀ pid, pid ≠ w.cur → pids pid = w.procs pid) :
    Effect p w { w with heap := w.heap.store p.vmspace as', ram := r, procs := pids } where
  procs := fun pid hne _ => hprocs pid hne
  space := fun q as hq hne =>
    (space_store_of_ne _ _ fun he => hne (by rw [he]; exact hspace)).trans hq
  mem := fun _ h => absurd rfl h

/-- Frames above everything handed out before are clear of every address
space there is. -/
theorem Inv.disjoint_of_prepared {hi : ℕ} (h : Inv w)
    (hpre : Prepared as as' w.ram.firstpaddr.toNat hi) {q' : UInt32} {as'' : AddrSpace}
    (has : w.heap.space q' = some as'') (i j : Part) : Disjoint (as'.block i) (as''.block j) := by
  refine Set.disjoint_left.2 ?_
  rintro n ⟨hi, hilo, -⟩ ⟨hj, -, hjhi⟩
  have hlo := hpre.above i hi
  have hhi := h.below q' as'' has j hj
  omega

/-- A store to an address of the current address space. -/
theorem Inv.store {b : UInt8} (h : Inv w) (hs : p.stage.InSpace)
    (has : w.heap.space p.vmspace = some as) (htr : as.translate va = some pa) :
    Good p w { w with mem := Function.update w.mem pa b } := by
  refine ⟨h.setMem _, fun _ _ _ => rfl, fun _ _ hq _ => hq, fun pa' hm => .inr ?_⟩
  have he : pa' = pa := by
    by_contra hne
    exact hm (Function.update_of_ne hne ..)
  exact ⟨as, va, hs, has, he ▸ htr⟩

theorem space_of_user (hs : p.stage = .user) (hz : p.vmspace ≠ 0) : p.space = some p.vmspace :=
  Proc.space_of_inSpace (by rw [hs]; trivial) hz

/-! ## Accesses -/

section Current

variable {execv : Bool} (h : Inv w) (hp : w.procs w.cur = some p)

include h hp

/-- **An access reaches the translation of `vm_fault`**, through an entry of
the TLB or through the fault. -/
theorem Inv.touch (hs : p.stage.InSpace) (has : w.heap.space p.vmspace = some as)
    (ht : w.touch p ty va = .loaded f tlb) :
    as.translate va = some (f + pageOffset va) ∧ Inv { w with tlb := tlb } := by
  obtain ⟨htr, hc⟩ := touch_loaded has (h.coherent p as hp hs has) ht
  refine ⟨htr, h.setTlb fun p₂ as₂ hp₂ hs₂ has₂ => ?_⟩
  obtain rfl := some.inj (hp.symm.trans hp₂)
  obtain rfl := some.inj (has.symm.trans has₂)
  exact hc

/-- A thread frees the block that it has. -/
theorem Inv.destroyOwn (hspace : p.space = some p.vmspace) (hnone : p'.space = none)
    (hout : ¬ p'.stage.InSpace) :
    Good p w ({ w with heap := w.heap.asDestroy p.vmspace }.setCur p') := by
  refine ⟨(h.setCur_none hp hnone hout).destroy fun pid p₂ hp₂ hq => ?_,
    fun _ hne _ => procs_setCur_of_ne _ _ hne, fun q as hq hne => ?_, fun _ hm => absurd rfl hm⟩
  · by_cases hpid : pid = w.cur
    · rw [hpid, procs_setCur_self] at hp₂
      obtain rfl := some.inj hp₂
      rw [hnone] at hq
      cases hq
    · rw [procs_setCur_of_ne _ _ hpid] at hp₂
      exact hpid (h.inj pid w.cur p₂ p _ hp₂ hp hq hspace)
  · have hqne : q ≠ p.vmspace := fun he => hne (he ▸ hspace)
    exact (space_asDestroy_of_ne _ hqne).trans hq

/-- A thread that exits takes nothing with it but its own address space. -/
theorem Inv.threadExit (hspace : p.vmspace ≠ 0 → p.space = some p.vmspace) :
    Good p w (w.threadExit p) := by
  unfold World.threadExit
  by_cases hz : p.vmspace = 0
  · rw [if_pos hz]
    exact ⟨h.setCur_none hp rfl (by exact id), .of_setCur⟩
  · rw [if_neg hz]
    exact h.destroyOwn hp (hspace hz) rfl (by exact id)

/-- **An access in user mode** ends the process, or goes on at the address
that `vm_fault` translates to. -/
theorem Inv.access_cases {go : UInt32 → World → Option World} (hs : p.stage = .user)
    (ha : w.access p ty va go = some w') :
    w' = w.threadExit p ∨ ∃ tlb pa as, Inv { w with tlb := tlb } ∧
      w.heap.space p.vmspace = some as ∧ as.translate va = some pa ∧
      go pa { w with tlb := tlb } = some w' := by
  have hin : p.stage.InSpace := by rw [hs]; trivial
  unfold World.access at ha
  split at ha
  · exact .inl (some.inj ha).symm
  cases ht : w.touch p ty va with
  | loaded f tlb =>
    rw [ht] at ha
    obtain ⟨as, has⟩ := h.exists_space hp hin
    obtain ⟨htr, hinv⟩ := h.touch hp hin has ht
    exact .inr ⟨tlb, _, as, hinv, has, htr, ha⟩
  | fails e =>
    rw [ht] at ha
    exact .inl (some.inj ha).symm
  | panics =>
    rw [ht] at ha
    cases ha

/-- A process that executes an instruction has an address space that passes
the assertions of `vm_fault`. -/
theorem Inv.fetch_cases {go : World → Option World} (hs : p.stage = .user)
    (ha : w.fetch p go = some w') :
    w' = w.threadExit p ∨ ∃ tlb as, Inv { w with tlb := tlb } ∧
      w.heap.space p.vmspace = some as ∧ as.SetUp ∧ go { w with tlb := tlb } = some w' := by
  rcases h.access_cases hp hs ha with hexit | ⟨tlb, pa, as, hinv, has, htr, hgo⟩
  · exact .inl hexit
  refine .inr ⟨tlb, as, hinv, has, ?_, hgo⟩
  obtain ⟨f, hf, -⟩ := map_eq_some_iff.1 htr
  unfold AddrSpace.maps at hf
  split at hf
  · assumption
  · cases hf

/-- A user step, from what it does after its instruction is fetched. -/
theorem Inv.fetch {go : World → Option World} (hs : p.stage = .user) (ha : w.fetch p go = some w')
    (hgo : ∀ tlb, Inv { w with tlb := tlb } → go { w with tlb := tlb } = some w' →
      Good p { w with tlb := tlb } w') : Good p w w' := by
  rcases h.fetch_cases hp hs ha with rfl | ⟨tlb, as, hinv, -, -, hw⟩
  · exact h.threadExit hp (space_of_user hs)
  · exact (hgo tlb hinv hw).of_tlb

/-! ## The steps of loading -/

/-- A thread goes on with the address space that it has, outside of the stage in which it
defines it. -/
theorem Inv.goOn (hs : p.stage.InSpace)
    (hvm : p'.vmspace = p.vmspace)
    (hspace : p'.space = if p'.vmspace = 0 then none else some p'.vmspace)
    (hdef : ∀ x, p'.stage ≠ .defining x) : Good p w (w.setCur p') := by
  have hne := h.inSpace _ p hp hs
  refine ⟨h.setCur_same hp ?_ hvm (fun x hx => absurd hx (hdef x)) fun _ => hs, .of_setCur⟩
  rw [hspace, hvm, if_neg hne, Proc.space_of_inSpace hs hne]

/-- An error return of a loading stage keeps the address space. -/
theorem Inv.returnError {err : Errno} (hs : p.stage.InSpace) :
    Good p w (w.returnError p execv err) := by
  cases execv with
  | true | false => exact h.goOn hp hs rfl rfl (by nofun)

/-- A new address space belongs to the thread that made it. -/
theorem Inv.createSpace (hfail : execv = true → (w.heap.asCreate q).isSome) :
    Good p w (w.createSpace p execv q) := by
  unfold World.createSpace
  cases hc : w.heap.asCreate q with
  | none =>
    cases execv with
    | true =>
      have := hfail rfl
      rw [hc] at this
      cases this
    | false => exact ⟨h.setCur_none hp rfl (by exact id), .of_setCur⟩
  | some heap =>
    obtain ⟨-, hq, hother⟩ := space_asCreate hc
    have hne : q ≠ 0 := fun he => by
      rw [he, space_zero] at hq
      cases hq
    have hsp : ({ p with vmspace := q, stage := .defining execv } : Proc).space = some q :=
      if_neg hne
    refine ⟨((h.create hc).flush).setCur (fun q' hq' => ?_) (fun _ => hne) (fun x as _ has => ?_)
      (fun _ _ _ _ he => by cases he) (h.cur_lt hp), ?_⟩
    · obtain rfl := some.inj (hsp.symm.trans hq')
      exact ⟨⟨_, hq⟩, fun _ _ _ hp₂ => h.space_ne_of_asCreate hc hp₂⟩
    · obtain rfl := some.inj (hq.symm.trans has)
      intro i
      cases i <;> rfl
    · refine ⟨fun _ hn _ => procs_setCur_of_ne _ _ hn, fun q' as hq' _ => ?_,
        fun _ hm => absurd rfl hm⟩
      exact (hother q' (ne_of_asCreate hc hq')).trans hq'

/-- An address space without frames has nothing in the TLB. -/
theorem Inv.tlb_eq_nil (hs : p.stage.InSpace)
    (has : w.heap.space p.vmspace = some as) (hz : ∀ i, as.pbase i = 0) : w.tlb = [] := by
  refine List.eq_nil_iff_forall_not_mem.2 fun e he => ?_
  have hmaps := h.coherent p as hp hs has e he
  rw [maps_of_pbase_eq_zero hz] at hmaps
  cases hmaps

/-- A region is defined while there are no frames. -/
theorem Inv.defineRegion {vaddr sz : UInt32} (hs : p.stage = .defining execv)
    (hd : w.defineRegion p execv vaddr sz = some w') : Good p w w' := by
  have hin : p.stage.InSpace := by rw [hs]; trivial
  obtain ⟨as, has, rfl⟩ := map_eq_some_iff.1 hd
  have hz := h.defining _ p execv as hp hs has
  cases hr : asDefineRegion as vaddr sz with
  | error err => exact h.returnError hp hin
  | ok as' =>
    have hz' : ∀ i, as'.pbase i = 0 := fun i => (asDefineRegion_pbase hr i).trans (hz i)
    have hspace := Proc.space_of_inSpace hin (h.inSpace _ p hp hin)
    refine ⟨h.storeSpace (fun i hi => absurd (hz' i) hi) (fun q' as'' i j _ _ => ?_)
      (fun _ _ _ _ _ _ => hz') (fun _ _ _ _ e he => ?_), .of_store hspace fun _ _ => rfl⟩
    · rw [block_of_pbase_eq_zero (hz' i)]
      exact Set.empty_disjoint _
    · rw [h.tlb_eq_nil hp hin has hz] at he
      cases he

/-- Frames are allocated, all of them new. -/
theorem Inv.prepareLoad (hs : p.stage = .defining execv) (hd : w.prepareLoad p execv = some w')
    (hm : ∀ as, w.heap.space p.vmspace = some as → w.ram.MeasuresAll as.requests) :
    Good p w w' := by
  have hin : p.stage.InSpace := by rw [hs]; trivial
  have hne := h.inSpace _ p hp hin
  have hspace := Proc.space_of_inSpace hin hne
  obtain ⟨as, has, hd⟩ := bind_eq_some_iff.1 hd
  obtain ⟨⟨err, as', r⟩, hprep, rfl⟩ := map_eq_some_iff.1 hd
  obtain ⟨hpre, hadv, hpos, -⟩ := asPrepareLoad_spec hprep (hm as has) h.firstpaddr.1
  have hnil := h.tlb_eq_nil hp hin has (h.defining _ p execv as hp hs has)
  -- the thread leaves the stage in which it has no frames, and then gets them
  have key : ∀ p' : Proc, p'.vmspace = p.vmspace →
      (p'.space = if p'.vmspace = 0 then none else some p'.vmspace) →
      (∀ x, p'.stage ≠ .defining x) →
      Good p w ({ w with heap := w.heap.store p.vmspace as', ram := r }.setCur p') := by
    intro p' hvm hsp hstage
    refine ⟨?_, .of_store hspace fun _ hne => procs_setCur_of_ne _ _ hne⟩
    have hcur : Inv (w.setCur p') := (h.goOn hp hin hvm hsp hstage).inv
    have hram : Inv { w.setCur p' with ram := r } := hcur.setRam hadv hpos
    refine hram.storeSpace hpre.below (fun q' as'' i j _ has'' =>
      h.disjoint_of_prepared hpre has'' i j) (fun pid p₂ x hp₂ hx hq => ?_)
      (fun _ _ _ _ e he => ?_)
    · by_cases hpid : pid = w.cur
      · subst hpid
        rw [show _ = some p' from procs_setCur_self w p'] at hp₂
        obtain rfl := some.inj hp₂
        exact absurd hx (hstage x)
      · rw [show _ = w.procs pid from procs_setCur_of_ne w p' hpid] at hp₂
        have hin₂ : p₂.stage.InSpace := by rw [hx]; trivial
        have hq₂ := Proc.space_of_inSpace hin₂ (h.inSpace pid p₂ hp₂ hin₂)
        rw [hq] at hq₂
        exact absurd (h.inj pid w.cur p₂ p _ hp₂ hp hq₂ hspace) hpid
    · rw [show ({ w.setCur p' with ram := r } : World).tlb = [] from hnil] at he
      cases he
  cases err with
  | none => exact key { p with stage := .loading execv } rfl rfl (by nofun)
  | some err =>
    cases execv with
    | true =>
      exact key { p with stage := .user, tf := syscallReturn p.tf (.error err) } rfl rfl (by nofun)
    | false => exact key { p with stage := .kernel } rfl rfl (by nofun)

/-- A store through a user address goes where a store in user mode goes. -/
theorem Inv.statusStore {b : UInt8} (hs : p.stage = .user) (hva : va < userTop)
    (hd : w.statusStore p va b = some w') : Good p w w' := by
  have hin : p.stage.InSpace := by rw [hs]; trivial
  have hlt : va.toNat < 0x80000000 := hva
  have hkseg0 : ¬ (0x80000000 ≤ va ∧ va < 0xa0000000) := fun h => by
    have hle : 0x80000000 ≤ va.toNat := h.1
    omega
  have hkseg1 : ¬ (0xa0000000 ≤ va ∧ va < 0xc0000000) := fun h => by
    have hle : 0xa0000000 ≤ va.toNat := h.1
    omega
  rw [World.statusStore, if_neg hkseg0, if_neg hkseg1] at hd
  cases ht : w.touch p .write va with
  | loaded f tlb =>
    rw [ht] at hd
    obtain rfl := some.inj hd
    obtain ⟨as, has⟩ := h.exists_space hp hin
    obtain ⟨htr, hinv⟩ := h.touch hp hin has ht
    exact (hinv.store hin has htr).of_tlb
  | fails _ | panics =>
    rw [ht] at hd
    cases hd

theorem Inv.copyout {b : UInt8} (hs : p.stage = .loading execv)
    (hd : w.copyout p execv va b = some w') : Good p w w' := by
  have hin : p.stage.InSpace := by rw [hs]; trivial
  unfold World.copyout at hd
  split at hd
  · obtain rfl := some.inj hd
    exact h.returnError hp hin
  cases ht : w.touch p .write va with
  | loaded f tlb =>
    rw [ht] at hd
    obtain rfl := some.inj hd
    obtain ⟨as, has⟩ := h.exists_space hp hin
    obtain ⟨htr, hinv⟩ := h.touch hp hin has ht
    exact (hinv.store hin has htr).of_tlb
  | fails err =>
    rw [ht] at hd
    obtain rfl := some.inj hd
    exact h.returnError hp hin
  | panics =>
    rw [ht] at hd
    cases hd

/-! ## The system calls -/

/-- The registers of a process change. -/
theorem Inv.setTf {tf : Trapframe} :
    Inv (w.setCur { p with tf := tf }) :=
  h.setCur_same hp rfl rfl (fun _ hx => hx) fun hs => hs

end Current

/-- A child waits to be run, with an address space that nobody has. -/
theorem Inv.addChild {tf : Trapframe} (h : Inv w) (hcur : w.cur < w.maxPid)
    (has : w.heap.space q = some as) (hfree : ∀ pid p, w.procs pid = some p → p.space ≠ some q) :
    Inv (w.addProc ⟨.forkEntry tf q, 0, tf⟩) := by
  refine h.addProc hcur (fun q' hq' => ?_) (by exact id)
  obtain rfl : q = q' := some.inj hq'
  exact ⟨⟨as, has⟩, hfree⟩

/-- **What `as_copy` gives a fork.** The copy is a block that nobody had,
with frames that were free; what the parent's address space translates is
unchanged, and the copy reads the same everywhere. -/
theorem Inv.asCopy {heap : Heap} {old new : AddrSpace} {err : Option Errno}
    (h : Inv w) (hc : w.heap.asCreate q = some heap) (hm : w.ram.MeasuresAll old.requests)
    (hprep : asPrepareLoad (regions old) w.ram = some (err, new, r)) :
    Prepared old new w.ram.firstpaddr.toNat r.firstpaddr.toNat ∧
      (∀ mem, Inv { w with heap := heap.store q new, ram := r, mem := mem }) ∧
      Inv { w with heap := heap.asDestroy q, ram := r } ∧
      (err = none → ∀ i, new.pbase i ≠ 0) := by
  obtain ⟨hpre, hadv, hpos, hall⟩ := asPrepareLoad_spec hprep hm h.firstpaddr.1
  obtain ⟨-, hq, hother⟩ := space_asCreate hc
  have hpoint : ∀ pid p, w.procs pid = some p → p.stage.InSpace → p.vmspace ≠ q := by
    intro pid p hp hs he
    have hspace := Proc.space_of_inSpace hs (h.inSpace pid p hp hs)
    rw [he] at hspace
    exact h.space_ne_of_asCreate hc hp hspace
  have hinv : Inv { w with heap := heap, ram := r } := (h.create hc).setRam hadv hpos
  refine ⟨⟨?_, ?_, hpre.above, hpre.aligned, hpre.below, hpre.disjoint⟩, fun mem => ?_,
    hinv.destroy fun _ _ => h.space_ne_of_asCreate hc, hall⟩
  · intro i
    rw [hpre.vbase]
    cases i <;> rfl
  · intro i
    rw [hpre.npages]
    cases i <;> rfl
  · refine (hinv.storeSpace hpre.below (fun q' as i j hne has => ?_)
      (fun pid p x hp hx he => absurd he (hpoint pid p hp (by rw [hx]; trivial)))
      (fun p hp hs he => absurd he (hpoint _ p hp hs))).setMem mem
    exact h.disjoint_of_prepared hpre ((hother q' hne).symm.trans has) i j

/-- The copy changes no memory but free memory. -/
theorem Effect.of_copy {heap : Heap} {old new : AddrSpace} {pids : ℕ → Option Proc} {n : ℕ}
    (hc : w.heap.asCreate q = some heap)
    (hpre : Prepared old new w.ram.firstpaddr.toNat r.firstpaddr.toNat)
    (hne : ∀ i, new.pbase i ≠ 0)
    (hprocs : ∀ pid, pid ≠ w.cur → pid < w.maxPid → pids pid = w.procs pid) :
    Effect p w { w with heap := heap.store q new, ram := r, mem := copyFrames old new w.mem,
                        procs := pids, maxPid := n } := by
  obtain ⟨-, -, hother⟩ := space_asCreate hc
  refine ⟨hprocs, fun q' as hq' _ => ?_, fun pa hm => .inl ?_⟩
  · have hqne := ne_of_asCreate hc hq'
    exact (space_store_of_ne _ _ hqne).trans ((hother q' hqne).trans hq')
  · by_contra hlt
    refine hm (copyFrames_of_not_mem hpre r.firstpaddr.toNat_lt hne fun i hmem => ?_)
    have hlo := hpre.above i hmem.1
    have hpa := hmem.2.1
    omega

/-- The state after a fork whose `as_copy` succeeded, before `thread_fork`. -/
def World.copied (w : World) (heap : Heap) (q : UInt32) (old new : AddrSpace) (r : Ram) : World :=
  { w with heap := heap.store q new, ram := r, mem := copyFrames old new w.mem }

/-- **The ways a fork can end**: no memory for the block or for the frames,
no thread, or a child. -/
theorem World.sysFork_cases {thread : ThreadFork} {old : AddrSpace}
    (hd : w.sysFork p q thread = some w') (hold : w.heap.space p.vmspace = some old) :
    w' = w.setCur { p with tf := syscallReturn p.tf (.error .ENOMEM) } ∨
    ∃ heap err new r, w.heap.asCreate q = some heap ∧
      asPrepareLoad (regions old) w.ram = some (err, new, r) ∧
      ((err ≠ none ∧ w' = { w with heap := heap.asDestroy q, ram := r }.setCur
          { p with tf := syscallReturn p.tf (.error .ENOMEM) }) ∨
        (err = none ∧ thread = .created ∧ w' = ((w.copied heap q old new r).setCur
          { p with tf := syscallReturn p.tf (.ok (UInt32.ofNat w.maxPid)) }).addProc
            ⟨.forkEntry p.tf q, 0, p.tf⟩) ∨
        (err = none ∧ thread ≠ .created ∧ ∃ n, w.maxPid ≤ n ∧
          w' = { w.copied heap q old new r with maxPid := n }.setCur
            { p with tf := syscallReturn p.tf (.error .ENOMEM) })) := by
  unfold sysFork at hd
  cases hc : w.heap.asCreate q with
  | none =>
    rw [hc] at hd
    exact .inl (some.inj hd).symm
  | some heap =>
    rw [hc] at hd
    obtain ⟨-, -, hother⟩ := space_asCreate hc
    obtain ⟨old', hold', hd⟩ := bind_eq_some_iff.1 hd
    rw [hother _ (ne_of_asCreate hc hold)] at hold'
    obtain rfl := some.inj (hold.symm.trans hold')
    obtain ⟨⟨err, new, r⟩, hprep, rfl⟩ := map_eq_some_iff.1 hd
    refine .inr ⟨heap, err, new, r, rfl, hprep, ?_⟩
    cases err with
    | some err => exact .inl ⟨by nofun, rfl⟩
    | none =>
      cases thread with
      | created => exact .inr (.inl ⟨rfl, rfl, rfl⟩)
      | noThread => exact .inr (.inr ⟨rfl, by nofun, _, le_rfl, rfl⟩)
      | noStack => exact .inr (.inr ⟨rfl, by nofun, _, Nat.le_succ _, rfl⟩)

theorem Inv.setMaxPid {n : ℕ} (h : Inv w) (hn : w.maxPid ≤ n) : Inv { w with maxPid := n } :=
  { h with fresh := fun pid hle => h.fresh pid (hn.trans hle) }

theorem Inv.sysFork {thread : ThreadFork} (h : Inv w) (hp : w.procs w.cur = some p)
    (hs : p.stage = .user) (hd : w.sysFork p q thread = some w')
    (hm : ∀ as, w.heap.space p.vmspace = some as → w.ram.MeasuresAll as.requests) :
    Good p w w' := by
  obtain ⟨old, hold⟩ := h.exists_space hp (by rw [hs]; trivial)
  rcases sysFork_cases hd hold with rfl | ⟨heap, err, new, r, hc, hprep, hend⟩
  · exact ⟨h.setTf hp, .of_setCur⟩
  obtain ⟨-, hq, hother⟩ := space_asCreate hc
  obtain ⟨hpre, hinv, hdes, hall⟩ := h.asCopy hc (hm old hold) hprep
  rcases hend with ⟨-, rfl⟩ | ⟨he, -, rfl⟩ | ⟨he, -, n, hn, rfl⟩
  · refine ⟨hdes.setTf hp, fun _ hn _ => procs_setCur_of_ne _ _ hn, fun q' as' hq' _ => ?_,
      fun _ hmem => absurd rfl hmem⟩
    have hqne := ne_of_asCreate hc hq'
    exact (space_asDestroy_of_ne _ hqne).trans ((hother q' hqne).trans hq')
  · -- the child has the copy
    have hset : Inv (World.setCur (w.copied heap q old new r)
        { p with tf := syscallReturn p.tf (.ok (UInt32.ofNat w.maxPid)) }) := (hinv _).setTf hp
    have hchild : (heap.store q new).space q = some new := by
      rw [space_store_self, hq, map_some]
    refine ⟨hset.addChild (h.cur_lt hp) hchild fun pid p₂ hp₂ hq₂ => ?_,
      .of_copy hc hpre (hall he) fun pid hne hlt => ?_⟩
    · by_cases hpid : pid = w.cur
      · subst hpid
        obtain rfl := some.inj ((World.procs_setCur_self _ _).symm.trans hp₂)
        exact h.space_ne_of_asCreate hc hp hq₂
      · have hp₂' := (World.procs_setCur_of_ne _ _ hpid).symm.trans hp₂
        exact h.space_ne_of_asCreate hc hp₂' hq₂
    · exact (World.procs_addProc_of_ne ((w.copied heap q old new r).setCur _) _ hlt.ne).trans
        (procs_setCur_of_ne (w.copied heap q old new r) _ hne)
  · exact ⟨((hinv _).setMaxPid hn).setTf hp,
      .of_copy hc hpre (hall he) fun pid hne _ => procs_setCur_of_ne _ _ hne⟩

theorem Inv.miSwitch {pid : ℕ} (h : Inv w) (hd : w.miSwitch pid = some w') : Good p w w' := by
  unfold World.miSwitch at hd
  cases hq : w.procs pid with
  | none =>
    rw [hq] at hd
    cases hd
  | some p₂ =>
    rw [hq] at hd
    simp only at hd
    split at hd
    · cases hd
    obtain rfl := some.inj hd
    refine ⟨{ h with coherent := fun p₃ as hp₃ hs has e he => ?_ }, .of_same⟩
    obtain rfl : p₂ = p₃ := some.inj (hq.symm.trans hp₃)
    -- the thread that comes back has an address space, so the TLB is empty
    rw [if_neg (h.inSpace pid p₂ hq hs)] at he
    cases he

/-- The child of a fork enters user mode with the address space that waited
for it. -/
theorem Inv.mdForkentry {data1 : Trapframe} {data2 : UInt32} (h : Inv w)
    (hp : w.procs w.cur = some p) (hs : p.stage = .forkEntry data1 data2) :
    Good p w ({ w with tlb := [] }.setCur ⟨.user, data2, Userprog.mdForkentry data1⟩) := by
  have hspace : p.space = some data2 := by simp only [Proc.space, hs]
  obtain ⟨as, has⟩ := h.alloc _ p data2 hp hspace
  have hne : data2 ≠ 0 := fun he => by
    rw [he, space_zero] at has
    cases has
  have hnew : (⟨.user, data2, Userprog.mdForkentry data1⟩ : Proc).space = some data2 := if_neg hne
  refine ⟨h.flush.setCur (fun q hq => ?_) (fun _ => hne) (fun _ _ he => by cases he)
    (fun _ _ _ _ he => by cases he) (h.cur_lt hp), .of_setCur⟩
  obtain rfl := some.inj (hnew.symm.trans hq)
  exact ⟨⟨as, has⟩, fun pid p₂ hpid hp₂ hq₂ => hpid (h.inj pid w.cur p₂ p data2 hp₂ hp hq₂ hspace)⟩

/-! ## Every step -/

/-- **Every allowed step keeps the invariant** and leaves the other processes
alone. -/
theorem Inv.stepCur (h : Inv w) (hp : w.procs w.cur = some p) (hg : Allowed w e)
    (hst : w.stepCur p e = some w') : Good p w w' := by
  cases e with
  | switch pid => exact h.miSwitch hst
  | allocKpages npages =>
    obtain rfl := some.inj hst
    obtain ⟨hadv, hpos, -⟩ := getppages_spec hg h.firstpaddr.1
    exact ⟨h.setRam hadv hpos, .of_same⟩
  | threadFork =>
    obtain ⟨-, hst⟩ := ite_none_right_eq_some.1 hst
    obtain rfl := some.inj hst
    exact ⟨h.addProc (h.cur_lt hp) (by nofun) (by exact id),
      fun pid _ hlt => procs_addProc_of_ne _ _ hlt.ne, fun _ _ hq _ => hq,
      fun _ hm => absurd rfl hm⟩
  | asCreate block =>
    simp only [stepCur] at hst
    split at hst
    · split at hst
      · obtain rfl := some.inj hst
        exact h.createSpace hp (by nofun)
      · cases hst
    · next hs =>
      obtain rfl := some.inj hst
      exact h.createSpace hp fun _ => hg p hp hs
    · cases hst
  | asDefineRegion vaddr sz =>
    simp only [stepCur] at hst
    split at hst
    · next hs => exact h.defineRegion hp hs hst
    · cases hst
  | asPrepareLoad =>
    simp only [stepCur] at hst
    split at hst
    · next hs => exact h.prepareLoad hp hs hst fun as has => hg p hp as has
    · cases hst
  | copyout va b =>
    simp only [stepCur] at hst
    split at hst
    · next hs => exact h.copyout hp hs hst
    · cases hst
  | loadFails err =>
    simp only [stepCur] at hst
    split at hst
    · next hs =>
      obtain rfl := some.inj hst
      exact h.returnError hp (by rw [hs]; trivial)
    · next hs =>
      obtain rfl := some.inj hst
      exact h.returnError hp (by rw [hs]; trivial)
    · cases hst
  | mdUsermode argc argv stack entry =>
    simp only [stepCur] at hst
    split at hst
    · next hs =>
      obtain rfl := some.inj hst
      exact h.goOn hp (by rw [hs]; trivial) rfl rfl (by nofun)
    · cases hst
  | execv =>
    obtain ⟨hs, hst⟩ := ite_none_right_eq_some.1 hst
    refine h.fetch hp hs hst fun tlb hinv hgo => ?_
    obtain rfl := some.inj hgo
    exact hinv.destroyOwn hp (space_of_user hs (h.inSpace _ p hp (by rw [hs]; trivial))) rfl
      (by exact id)
  | openFails err => exact hg.elim
  | fork block thread =>
    obtain ⟨hs, hst⟩ := ite_none_right_eq_some.1 hst
    exact h.fetch hp hs hst fun tlb hinv hgo => hinv.sysFork hp hs hgo
      fun as has => hg p hp as has
  | mdForkentry =>
    simp only [stepCur] at hst
    split at hst
    · next hs =>
      obtain rfl := some.inj hst
      exact h.mdForkentry hp hs
    · cases hst
  | exit =>
    obtain ⟨hs, hst⟩ := ite_none_right_eq_some.1 hst
    obtain rfl := some.inj hst
    refine h.threadExit hp fun hne => ?_
    rcases hs with hs | hs <;> simp only [Proc.space, hs, if_neg hne]
  | compute tf =>
    obtain ⟨hs, hst⟩ := ite_none_right_eq_some.1 hst
    refine h.fetch hp hs hst fun tlb hinv hgo => ?_
    obtain rfl := some.inj hgo
    exact ⟨hinv.setTf hp, .of_setCur⟩
  | load va =>
    obtain ⟨hs, hst⟩ := ite_none_right_eq_some.1 hst
    refine h.fetch hp hs hst fun tlb hinv hgo => ?_
    rcases hinv.access_cases hp hs hgo with rfl | ⟨tlb', pa, as, hinv', -, -, hw⟩
    · exact hinv.threadExit hp (space_of_user hs)
    · obtain rfl := some.inj hw
      exact ⟨hinv', .of_same⟩
  | store va b =>
    obtain ⟨hs, hst⟩ := ite_none_right_eq_some.1 hst
    refine h.fetch hp hs hst fun tlb hinv hgo => ?_
    rcases hinv.access_cases hp hs hgo with rfl | ⟨tlb', pa, as, hinv', has, htr, hw⟩
    · exact hinv.threadExit hp (space_of_user hs)
    · obtain rfl := some.inj hw
      exact (hinv'.store (by rw [hs]; trivial) has htr).of_tlb
  | statusStore va b =>
    obtain ⟨hs, hst⟩ := ite_none_right_eq_some.1 hst
    exact h.statusStore hp hs hg hst

theorem Inv.step (h : Inv w) (hg : Allowed w e) (hst : w.step e = some w') : Inv w' := by
  obtain ⟨p, hp, hst⟩ := bind_eq_some_iff.1 hst
  exact (h.stepCur hp hg hst).inv

theorem inv_boot {mem : Memory} (hr : r.firstpaddr ≠ 0)
    (hr' : r.firstpaddr.toNat % 4096 = 0) : Inv (boot r mem) := by
  -- the menu thread is the only one, and it has no address space
  have look : ∀ pid p, (boot r mem).procs pid = some p → pid = 1 ∧ p = ⟨.kernel, 0, {}⟩ := by
    intro pid p hp
    simp only [boot] at hp
    split at hp
    · next h1 => exact ⟨h1, (some.inj hp).symm⟩
    · cases hp
  constructor
  case alloc => intro pid p q hp hq; obtain ⟨-, rfl⟩ := look pid p hp; cases hq
  case inj => intro pid pid' p p' q hp hp' hq; obtain ⟨-, rfl⟩ := look pid p hp; cases hq
  case inSpace => intro pid p hp hs; obtain ⟨-, rfl⟩ := look pid p hp; exact hs.elim
  case defining => intro pid p x as hp hs; obtain ⟨-, rfl⟩ := look pid p hp; cases hs
  case below => intro q as has; cases has
  case disjoint => intro q q' as as' i j _ has; cases has
  case coherent => intro p as hp hs has; cases has
  case firstpaddr => exact ⟨hr, hr'⟩
  case fresh =>
    intro pid hle
    have hle : 2 ≤ pid := hle
    exact if_neg (by omega)

end Userprog

end Os161
