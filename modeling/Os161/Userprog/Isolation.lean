import Os161.Common.Runs
import Os161.Userprog.Steps
/-!
# Fork and the isolation of processes

Along a run of allowed steps, whatever one process does leaves every byte of
every other process alone (`Effect.view_eq`), no two address spaces share a
frame, and a fork that succeeds makes a child that differs from its parent in
nothing but `v0` (`processes_isolated`).

The condition on the `status` of `sys_waitpid` cannot go, since a kernel address
there reaches every frame. Nor can the one on `sys_execv`: after a failed
`vfs_open` the caller still points to the block that it has freed, the next
`as_create` may return that block, and two processes have one address space
(`shared_space`).
-/

namespace Os161

namespace Userprog

open Vm World Option

variable {w w' : World} {p : Proc} {q : UInt32}

/-- The byte that a process finds at a user address. -/
def World.view (w : World) (pid : ℕ) (va : UInt32) : Option UInt8 :=
  (w.procs pid).bind fun p => p.space.bind fun q => w.byteAt q va

/-- **A step of one process changes no byte of another.** -/
theorem Effect.view_eq {pid : ℕ} (h : Inv w) (hp : w.procs w.cur = some p) (he : Effect p w w')
    (hpid : pid ≠ w.cur) (hsome : (w.procs pid).isSome) (va : UInt32) :
    w'.view pid va = w.view pid va := by
  obtain ⟨p₂, hp₂⟩ := isSome_iff_exists.1 hsome
  have hlt : pid < w.maxPid := Nat.lt_of_not_le fun hle => by
    rw [h.fresh pid hle] at hp₂
    cases hp₂
  simp only [view, he.procs pid hpid hlt, hp₂, bind_some]
  cases hq : p₂.space with
  | none => rfl
  | some q =>
    obtain ⟨as, has⟩ := h.alloc pid p₂ q hp₂ hq
    have hnot : p.space ≠ some q := fun hq' => hpid (h.inj pid w.cur p₂ p q hp₂ hp hq hq')
    simp only [bind_some, byteAt, has, he.space q as has hnot]
    cases htr : as.translate va with
    | none => rfl
    | some pa =>
      rw [map_some, map_some, some.injEq]
      by_contra hne
      have hfirst : w.ram.firstpaddr.toNat < 2 ^ 32 := w.ram.firstpaddr.toNat_lt
      have hbelow := h.below q as has
      obtain ⟨i, hi⟩ := AddrSpace.mem_block_of_translate htr (hbelow.mono hfirst.le)
      rcases he.mem pa hne with hfree | ⟨as', va', hs, has', htr'⟩
      · -- free memory is above every frame
        have hend := hbelow i hi.1
        have hpa := hi.2.2
        omega
      · -- a frame of the current process is a frame of nobody else
        have hbelow' := h.below _ as' has'
        obtain ⟨j, hj⟩ := AddrSpace.mem_block_of_translate htr' (hbelow'.mono hfirst.le)
        have hspace := Proc.space_of_inSpace hs (h.inSpace _ p hp hs)
        have hqne : q ≠ p.vmspace := fun heq => hnot (by rw [heq]; exact hspace)
        exact Set.disjoint_left.1 (h.disjoint q p.vmspace as as' i j hqne has has') hi hj

/-- **Processes do not share memory.** -/
structure Isolated (w : World) : Prop where
  /-- No two address spaces have a frame in common. -/
  frames : ∀ q q' as as', q ≠ q' → w.heap.space q = some as → w.heap.space q' = some as' →
    Disjoint as.frames as'.frames
  /-- No two processes have an address space in common. -/
  space : ∀ pid pid' p p' q, w.procs pid = some p → w.procs pid' = some p' →
    p.space = some q → p'.space = some q → pid = pid'
  /-- What the running process touches is what `vm_fault` translates in its
  own address space, whether the TLB or the fault served it. -/
  touch : ∀ p ty va f tlb, w.procs w.cur = some p → p.stage = .user →
    w.touch p ty va = .loaded f tlb → ∃ as, p.space = some p.vmspace ∧
      w.heap.space p.vmspace = some as ∧ as.translate va = some (f + pageOffset va)
  /-- Whatever the running process does, no byte of another one changes. -/
  step : ∀ e w', Allowed w e → w.step e = some w' → ∀ pid, pid ≠ w.cur →
    (w.procs pid).isSome → ∀ va, w'.view pid va = w.view pid va

theorem Inv.isolated (h : Inv w) : Isolated w where
  frames := by
    intro q q' as as' hne has has'
    have hfirst : w.ram.firstpaddr.toNat < 2 ^ 32 := w.ram.firstpaddr.toNat_lt
    refine Set.disjoint_left.2 ?_
    rintro pa ⟨va, htr⟩ ⟨va', htr'⟩
    obtain ⟨i, hi⟩ := AddrSpace.mem_block_of_translate htr ((h.below q as has).mono hfirst.le)
    obtain ⟨j, hj⟩ := AddrSpace.mem_block_of_translate htr' ((h.below q' as' has').mono hfirst.le)
    exact Set.disjoint_left.1 (h.disjoint q q' as as' i j hne has has') hi hj
  space := h.inj
  touch := by
    intro p ty va f tlb hp hs ht
    have hin : p.stage.InSpace := by rw [hs]; trivial
    obtain ⟨as, has⟩ := h.exists_space hp hin
    exact ⟨as, Proc.space_of_inSpace hin (h.inSpace _ p hp hin), has, (h.touch hp hin has ht).1⟩
  step := by
    intro e w' hg hst pid hpid hsome va
    obtain ⟨p, hp, hst⟩ := bind_eq_some_iff.1 hst
    exact (h.stepCur hp hg hst).effect.view_eq h hp hpid hsome va

/-- **What a successful fork leaves behind.** The parent returns to user mode
with the child's pid in `v0`, the child will start with `0` there, and every
other register agrees; and every user address reads the same in both. -/
def Forked (w w' : World) : Prop :=
  ∃ parent child data1 data2, w'.procs w.cur = some parent ∧ w'.procs w.maxPid = some child ∧
    parent.stage = .user ∧ child.stage = .forkEntry data1 data2 ∧
    parent.tf.tfV0 = UInt32.ofNat w.maxPid ∧
    Userprog.mdForkentry data1 = { parent.tf with tfV0 := 0 } ∧
    (∃ as, w'.heap.space data2 = some as ∧ as.SetUp) ∧
    ∀ va, w'.byteAt data2 va = w'.byteAt parent.vmspace va

/-- A fork that added a thread has made a copy. -/
theorem Inv.forked (h : Inv w) (hg : Allowed w (.fork q .created))
    (hst : w.step (.fork q .created) = some w') (hpid : w'.maxPid ≠ w.maxPid) : Forked w w' := by
  obtain ⟨p, hp, hst⟩ := bind_eq_some_iff.1 hst
  simp only [World.stepCur] at hst
  split at hst
  case isFalse => cases hst
  next hs =>
  rcases h.fetch_cases hp hs hst with rfl | ⟨tlb, old, hinv, hold, hset, hgo⟩
  · exact absurd rfl hpid
  rcases sysFork_cases hgo hold with rfl | ⟨heap, err, new, r, hc, hprep, hend⟩
  · exact absurd rfl hpid
  rcases hend with ⟨-, rfl⟩ | ⟨rfl, -, rfl⟩ | ⟨-, hne, -⟩
  · exact absurd rfl hpid
  · obtain ⟨-, hq, hother⟩ := Heap.space_asCreate hc
    obtain ⟨hpre, -, -, hall⟩ := hinv.asCopy hc (hg p hp old hold) hprep
    have hvm := Heap.ne_of_asCreate hc hold
    have hnew : (heap.store q new).space q = some new := by
      rw [Heap.space_store_self, hq, map_some]
    have hparent : (heap.store q new).space p.vmspace = some old := by
      rw [Heap.space_store_of_ne _ _ hvm, hother _ hvm]
      exact hold
    have hlt := h.cur_lt hp
    refine ⟨{ p with tf := syscallReturn p.tf (.ok (UInt32.ofNat w.maxPid)) }, _, p.tf, q,
      ?_, procs_addProc_self _ _, hs, rfl, rfl, rfl,
      ⟨new, hnew, hpre.setUp h.firstpaddr.2 (hall rfl) hset⟩, fun va => ?_⟩
    · exact (procs_addProc_of_ne
        (World.setCur (World.copied { w with tlb := tlb } heap q old new r) _) _ hlt.ne).trans
        (procs_setCur_self _ _)
    · have hbyte : (new.translate va).map (copyFrames old new w.mem) =
          (old.translate va).map (copyFrames old new w.mem) :=
        copyFrames_eq hpre h.firstpaddr.2 r.firstpaddr.toNat_lt (h.below _ old hold)
          (hall rfl) hset va
      show ((heap.store q new).space q).bind
          (fun as => (as.translate va).map (copyFrames old new w.mem)) =
        ((heap.store q new).space p.vmspace).bind
          (fun as => (as.translate va).map (copyFrames old new w.mem))
      rw [hnew, hparent]
      exact hbyte
  · exact absurd rfl hne

/-- **Fork isolation.** In every state that an allowed run reaches, processes
share no memory and stay that way, and a fork that succeeds makes a child
that reads what its parent reads. -/
theorem processes_isolated (r : Ram) (mem : Memory) (hr : r.firstpaddr ≠ 0)
    (hr' : r.firstpaddr.toNat % 4096 = 0)
    (hw : Runs.Reachable World.step Allowed (World.boot r mem) w) :
    Isolated w ∧ ∀ q w', Allowed w (.fork q .created) → w.step (.fork q .created) = some w' →
      w'.maxPid ≠ w.maxPid → Isolated w' ∧ Forked w w' := by
  have h : Inv w := hw.invariant (inv_boot hr hr') fun _ _ _ hi hg hs => hi.step hg hs
  exact ⟨h.isolated, fun q w' hg hst hpid => ⟨(h.step hg hst).isolated, h.forked hg hst hpid⟩⟩

/-- The menu starts a program with two regions of one page each, and the
program starts. -/
def startProgram : List Event :=
  [.threadFork, .switch 2, .asCreate 0x80040000, .asDefineRegion 0x400000 0x1000,
   .asDefineRegion 0x10000000 0x1000, .asPrepareLoad, .mdUsermode 0 0 0x80000000 0x400000]

/-- Four megabytes, of which the kernel has the first 192 kilobytes. -/
def fourMegabytes : Ram := ramBootstrap 0x400000 0x80030000

theorem processes_isolated_first_fork :
    ∃ w w', Runs.exec World.step (World.boot fourMegabytes fun _ => 0) startProgram = some w ∧
      w.step (.fork 0x80040020 .created) = some w' ∧ w'.maxPid = 4 ∧ Isolated w ∧
      Isolated w' ∧ Forked w w' := by
  obtain ⟨w, hw, hg, hmax, hstep⟩ := Runs.exists_of_exec (Runs.guarded step Allowed)
    (boot fourMegabytes fun _ => 0) startProgram
    (fun w => Allowed w (.fork 0x80040020 .created) ∧ w.maxPid = 3 ∧
      (w.step (.fork 0x80040020 .created)).any fun w' => w'.maxPid = 4) (by decide +kernel)
  obtain ⟨w', hw', hmax'⟩ := (any_eq_true _ _).1 hstep
  obtain ⟨hr, hw⟩ := Runs.reachable_of_exec_guarded hw
  obtain ⟨hiso, hfork⟩ := processes_isolated _ _ (by decide) (by decide) hr
  have hne : w'.maxPid ≠ w.maxPid := by rw [hmax, of_decide_eq_true hmax']; decide
  exact ⟨w, w', hw, hw', of_decide_eq_true hmax', hiso, hfork _ w' hg hw' hne⟩

/-- The first program forks. Its child calls `sys_execv` with the name of no
file, and the first program forks once more, with the block that the child has
freed for the address space of the second child. -/
def execvFails : List Event :=
  [.fork 0x80040020 .created, .switch 3, .mdForkentry, .execv, .openFails .ENOENT,
   .switch 2, .fork 0x80040020 .created, .switch 4, .mdForkentry, .switch 3]

/-- **After a failed `execv` two processes share an address space.** The first
child stores a byte, and the second one finds it. -/
theorem shared_space :
    ∃ w w', Runs.exec World.step (World.boot fourMegabytes fun _ => 0)
        (startProgram ++ execvFails) = some w ∧ w.cur = 3 ∧
      w.step (.store 0x10000000 42) = some w' ∧
      w.view 4 0x10000000 = some 0 ∧ w'.view 4 0x10000000 = some 42 := by
  obtain ⟨w, hw, hcur, hview, hstep⟩ := Runs.exists_of_exec step (boot fourMegabytes fun _ => 0)
    (startProgram ++ execvFails)
    (fun w => w.cur = 3 ∧ w.view 4 0x10000000 = some 0 ∧
      (w.step (.store 0x10000000 42)).any fun w' => w'.view 4 0x10000000 = some 42)
    (by decide +kernel)
  obtain ⟨w', hw', hview'⟩ := (any_eq_true _ _).1 hstep
  exact ⟨w, w', hw, hcur, hw', hview, of_decide_eq_true hview'⟩

end Userprog

end Os161
