import Os161.Userprog.Model.Procs
import Os161.Vm.AddrSpace
/-!
# Every process in its own memory

The invariant behind the isolation of processes (`Inv`): every thread that
has an address space has one that is allocated and that no other thread has,
the frames of two address spaces never meet, and the TLB holds translations
of the address space of the thread that runs.

Each lemma of the first half says that one kind of change keeps the
invariant: of the TLB, of the free memory, of the entry of the current
thread, of a block. The steps of the model are made of these changes, and
the second half puts them together, with what a step leaves alone for every
other process (`Effect`).
-/

namespace Os161

namespace Userprog

open Vm World Heap

variable {w : World} {p p' : Proc} {q : UInt32} {as as' : AddrSpace} {tlb : Tlb}

@[simp] theorem World.procs_setCur_self (w : World) (p : Proc) :
    (w.setCur p).procs w.cur = some p := Function.update_self ..

theorem World.procs_setCur_of_ne {pid : ℕ} (w : World) (p : Proc) (h : pid ≠ w.cur) :
    (w.setCur p).procs pid = w.procs pid := Function.update_of_ne h ..

@[simp] theorem World.procs_addProc_self (w : World) (p : Proc) :
    (w.addProc p).procs w.maxPid = some p := Function.update_self ..

theorem World.procs_addProc_of_ne {pid : ℕ} (w : World) (p : Proc) (h : pid ≠ w.maxPid) :
    (w.addProc p).procs pid = w.procs pid := Function.update_of_ne h ..

/-! ## Who has which address space -/

/-- The address space of a thread. In `sys_execv` between `as_destroy` and
`as_create` a thread has none, whatever its `t_vmspace` says. -/
def Proc.space (p : Proc) : Option UInt32 :=
  match p.stage with
  | .forkEntry _ data2 => some data2
  | .opening => none
  | .exited => none
  | _ => if p.vmspace = 0 then none else some p.vmspace

/-- The thread can touch user memory. -/
def Stage.InSpace : Stage → Prop
  | .user | .defining _ | .loading _ => True
  | _ => False

theorem Proc.space_of_inSpace (h : p.stage.InSpace) (hne : p.vmspace ≠ 0) :
    p.space = some p.vmspace := by
  cases hs : p.stage <;> simp [Stage.InSpace, hs] at h <;> simp [Proc.space, hs, hne]

/-- **What holds in every state** of a run in which no `sys_execv` loses its
caller's address space. -/
structure Inv (w : World) : Prop where
  alloc : ∀ pid p q, w.procs pid = some p → p.space = some q → ∃ as, w.heap.space q = some as
  inj : ∀ pid pid' p p' q, w.procs pid = some p → w.procs pid' = some p' →
    p.space = some q → p'.space = some q → pid = pid'
  inSpace : ∀ pid p, w.procs pid = some p → p.stage.InSpace → p.vmspace ≠ 0
  /-- The kernel defines regions before it allocates frames. -/
  defining : ∀ pid p x as, w.procs pid = some p → p.stage = .defining x →
    w.heap.space p.vmspace = some as → ∀ i, as.pbase i = 0
  below : ∀ q as, w.heap.space q = some as → as.Below w.ram.firstpaddr.toNat
  disjoint : ∀ q q' as as' i j, q ≠ q' → w.heap.space q = some as →
    w.heap.space q' = some as' → Disjoint (as.block i) (as'.block j)
  coherent : ∀ p as, w.procs w.cur = some p → p.stage.InSpace →
    w.heap.space p.vmspace = some as → Coherent as w.tlb
  firstpaddr : w.ram.firstpaddr ≠ 0 ∧ w.ram.firstpaddr.toNat % 4096 = 0
  fresh : ∀ pid, w.maxPid ≤ pid → w.procs pid = none

/-- No frames, no translation. -/
theorem maps_of_pbase_eq_zero (h : ∀ i, as.pbase i = 0) (page : UInt32) : as.maps page = none :=
  if_neg fun hset => hset.pbase_ne_zero .one (h .one)

theorem block_of_pbase_eq_zero {i : Part} (h : as.pbase i = 0) : as.block i = ∅ :=
  Set.eq_empty_of_forall_notMem fun _ hn => hn.1 h

namespace Inv

/-- A thread that can touch user memory has the address space it points to. -/
theorem exists_space {pid : ℕ} (h : Inv w) (hp : w.procs pid = some p) (hs : p.stage.InSpace) :
    ∃ as, w.heap.space p.vmspace = some as :=
  h.alloc pid p _ hp (Proc.space_of_inSpace hs (h.inSpace pid p hp hs))

theorem cur_lt (h : Inv w) (hp : w.procs w.cur = some p) : w.cur < w.maxPid :=
  Nat.lt_of_not_le fun hle => by
    rw [h.fresh _ hle] at hp
    cases hp

/-! ## One change at a time -/

section

variable (h : Inv w)

include h

theorem setTlb (hc : ∀ p as, w.procs w.cur = some p → p.stage.InSpace →
    w.heap.space p.vmspace = some as → Coherent as tlb) :
    Inv { w with tlb := tlb } :=
  { h with coherent := hc }

theorem flush : Inv { w with tlb := [] } :=
  h.setTlb fun _ _ _ _ _ _ he => by cases he

theorem setMem (mem : Memory) : Inv { w with mem := mem } :=
  { h with }

theorem setRam {r : Ram}
    (hadv : Advances w.ram.firstpaddr.toNat r.firstpaddr.toNat) (hpos : r.firstpaddr ≠ 0) :
    Inv { w with ram := r } :=
  { h with
    below := fun q as hq => (h.below q as hq).mono hadv.1
    firstpaddr := ⟨hpos, hadv.2.trans h.firstpaddr.2⟩ }

/-- The entry of one thread changes, and what it has is allocated and is nobody
else's. -/
theorem setProc {n m : ℕ} (hn : n < m) (hm : w.maxPid ≤ m)
    (halloc : ∀ q, p'.space = some q → (∃ as, w.heap.space q = some as) ∧
      ∀ pid p, pid ≠ n → w.procs pid = some p → p.space ≠ some q)
    (hin : p'.stage.InSpace → p'.vmspace ≠ 0)
    (hdef : ∀ x as, p'.stage = .defining x → w.heap.space p'.vmspace = some as →
      ∀ i, as.pbase i = 0)
    (hcoh : n = w.cur → ∀ as, p'.stage.InSpace → w.heap.space p'.vmspace = some as →
      Coherent as w.tlb) :
    Inv { w with procs := Function.update w.procs n (some p'), maxPid := m } := by
  -- a thread of the new state is the changed one, or an old one somewhere else
  have look : ∀ pid p, Function.update w.procs n (some p') pid = some p →
      (pid = n ∧ p = p') ∨ (pid ≠ n ∧ w.procs pid = some p) := by
    intro pid p hp
    by_cases hpid : pid = n
    · rw [hpid, Function.update_self] at hp
      exact .inl ⟨hpid, (Option.some.inj hp).symm⟩
    · rw [Function.update_of_ne hpid] at hp
      exact .inr ⟨hpid, hp⟩
  constructor
  case alloc =>
    intro pid p q hp hq
    rcases look pid p hp with ⟨-, rfl⟩ | ⟨-, hp⟩
    · exact (halloc q hq).1
    · exact h.alloc pid p q hp hq
  case inj =>
    intro pid pid' p₁ p₂ q hp₁ hp₂ hq₁ hq₂
    rcases look pid p₁ hp₁ with ⟨rfl, rfl⟩ | ⟨hne₁, g₁⟩
    · rcases look pid' p₂ hp₂ with ⟨rfl, -⟩ | ⟨hne₂, g₂⟩
      · rfl
      · exact absurd hq₂ ((halloc q hq₁).2 pid' p₂ hne₂ g₂)
    · rcases look pid' p₂ hp₂ with ⟨rfl, rfl⟩ | ⟨-, g₂⟩
      · exact absurd hq₁ ((halloc q hq₂).2 pid p₁ hne₁ g₁)
      · exact h.inj pid pid' p₁ p₂ q g₁ g₂ hq₁ hq₂
  case inSpace =>
    intro pid p hp hs
    rcases look pid p hp with ⟨-, rfl⟩ | ⟨-, hp⟩
    · exact hin hs
    · exact h.inSpace pid p hp hs
  case defining =>
    intro pid p x as hp hs has
    rcases look pid p hp with ⟨-, rfl⟩ | ⟨-, hp⟩
    · exact hdef x as hs has
    · exact h.defining pid p x as hp hs has
  case below => exact h.below
  case disjoint => exact h.disjoint
  case coherent =>
    intro p as hp hs has
    rcases look w.cur p hp with ⟨hc, rfl⟩ | ⟨-, hp⟩
    · exact hcoh hc.symm as hs has
    · exact h.coherent p as hp hs has
  case firstpaddr => exact h.firstpaddr
  case fresh =>
    intro pid hle
    have hlt : n < pid := lt_of_lt_of_le hn hle
    exact (Function.update_of_ne hlt.ne' ..).trans (h.fresh pid (hm.trans hle))

/-- The current thread changes. -/
theorem setCur (halloc : ∀ q, p'.space = some q → (∃ as, w.heap.space q = some as) ∧
      ∀ pid p, pid ≠ w.cur → w.procs pid = some p → p.space ≠ some q)
    (hin : p'.stage.InSpace → p'.vmspace ≠ 0)
    (hdef : ∀ x as, p'.stage = .defining x → w.heap.space p'.vmspace = some as →
      ∀ i, as.pbase i = 0)
    (hcoh : ∀ as, p'.stage.InSpace → w.heap.space p'.vmspace = some as →
      Coherent as w.tlb) (hcur : w.cur < w.maxPid) : Inv (w.setCur p') :=
  h.setProc hcur le_rfl halloc hin hdef fun _ => hcoh

/-- The current thread goes on with the address space it has. -/
theorem setCur_same (hp : w.procs w.cur = some p) (hspace : p'.space = p.space)
    (hvm : p'.vmspace = p.vmspace) (hdef : ∀ x, p'.stage = .defining x → p.stage = .defining x)
    (hin : p'.stage.InSpace → p.stage.InSpace) : Inv (w.setCur p') :=
  h.setCur
    (fun q hq => ⟨h.alloc _ p q hp (hspace ▸ hq), fun pid p₂ hne hp₂ hq₂ =>
      hne (h.inj pid w.cur p₂ p q hp₂ hp hq₂ (hspace ▸ hq))⟩)
    (fun hs => by rw [hvm]; exact h.inSpace _ p hp (hin hs))
    (fun x as hs has => h.defining _ p x as hp (hdef x hs) (by rwa [hvm] at has))
    (fun as hs has => h.coherent p as hp (hin hs) (by rwa [hvm] at has)) (h.cur_lt hp)

/-- The current thread gives its address space up, or never had one. -/
theorem setCur_none (hp : w.procs w.cur = some p) (hspace : p'.space = none)
    (hin : ¬ p'.stage.InSpace) : Inv (w.setCur p') :=
  h.setCur (fun q hq => by rw [hspace] at hq; cases hq) (fun hs => absurd hs hin)
    (fun x as hs => absurd (by rw [hs]; trivial) hin) (fun as hs => absurd hs hin) (h.cur_lt hp)

/-- A thread is added. -/
theorem addProc (hcur : w.cur < w.maxPid)
    (halloc : ∀ q, p'.space = some q → (∃ as, w.heap.space q = some as) ∧
      ∀ pid p, w.procs pid = some p → p.space ≠ some q)
    (hin : ¬ p'.stage.InSpace) : Inv (w.addProc p') :=
  h.setProc (Nat.lt_succ_self _) (Nat.le_succ _)
    (fun q hq => ⟨(halloc q hq).1, fun pid p _ => (halloc q hq).2 pid p⟩) (fun hs => absurd hs hin)
    (fun _ _ hs => absurd (by rw [hs]; trivial) hin) fun he => absurd he hcur.ne'

/-- The heap changes in one block: its frames stay below the free memory and
clear of the others. -/
theorem setHeap {heap : Heap} (halloc : ∀ pid p q', w.procs pid = some p → p.space = some q' →
      ∃ as, heap.space q' = some as)
    (look : ∀ q' as, heap.space q' = some as →
      (q' = q ∧ as = as') ∨ (q' ≠ q ∧ w.heap.space q' = some as))
    (hbelow : as'.Below w.ram.firstpaddr.toNat)
    (hdisj : ∀ q' as i j, q' ≠ q → w.heap.space q' = some as →
      Disjoint (as'.block i) (as.block j))
    (hdef : ∀ pid p x, w.procs pid = some p → p.stage = .defining x → p.vmspace = q →
      ∀ i, as'.pbase i = 0)
    (hcoh : ∀ p, w.procs w.cur = some p → p.stage.InSpace → p.vmspace = q →
      Coherent as' w.tlb) : Inv { w with heap := heap } where
  alloc := halloc
  inj := h.inj
  inSpace := h.inSpace
  defining := by
    intro pid p x as hp hs has
    rcases look _ as has with ⟨he, rfl⟩ | ⟨-, has⟩
    · exact hdef pid p x hp hs he
    · exact h.defining pid p x as hp hs has
  below := by
    intro q' as has
    rcases look q' as has with ⟨-, rfl⟩ | ⟨-, has⟩
    · exact hbelow
    · exact h.below q' as has
  disjoint := by
    intro q₁ q₂ as₁ as₂ i j hne h₁ h₂
    rcases look q₁ as₁ h₁ with ⟨rfl, rfl⟩ | ⟨hne₁, g₁⟩
    · rcases look q₂ as₂ h₂ with ⟨rfl, -⟩ | ⟨hne₂, g₂⟩
      · exact absurd rfl hne
      · exact hdisj q₂ as₂ i j hne₂ g₂
    · rcases look q₂ as₂ h₂ with ⟨rfl, rfl⟩ | ⟨-, g₂⟩
      · exact (hdisj q₁ as₁ j i hne₁ g₁).symm
      · exact h.disjoint q₁ q₂ as₁ as₂ i j hne g₁ g₂
  coherent := by
    intro p as hp hs has
    rcases look _ as has with ⟨he, rfl⟩ | ⟨-, has⟩
    · exact hcoh p hp hs he
    · exact h.coherent p as hp hs has
  firstpaddr := h.firstpaddr
  fresh := h.fresh

/-- A block that nobody has becomes an address space without frames, or none. -/
theorem setHeap_zero {heap : Heap} (hq : ∀ pid p, w.procs pid = some p → p.space ≠ some q)
    (hother : ∀ q' ≠ q, heap.space q' = w.heap.space q')
    (hnew : ∀ as, heap.space q = some as → as = .zero) : Inv { w with heap := heap } := by
  have hzero : ∀ i, AddrSpace.zero.pbase i = 0 := by intro i; cases i <;> rfl
  have look : ∀ q' as, heap.space q' = some as →
      (q' = q ∧ as = .zero) ∨ (q' ≠ q ∧ w.heap.space q' = some as) := by
    intro q' as has
    by_cases hqq : q' = q
    · exact .inl ⟨hqq, hnew as (hqq ▸ has)⟩
    · exact .inr ⟨hqq, (hother q' hqq).symm.trans has⟩
  refine h.setHeap (fun pid p q' hp hq' => ?_) look (fun i hi => absurd (hzero i) hi)
    (fun q' as i j _ _ => ?_) (fun _ _ _ _ _ _ => hzero) fun p hp hs he => ?_
  · have hne : q' ≠ q := fun he => hq pid p hp (he ▸ hq')
    rw [hother q' hne]
    exact h.alloc pid p q' hp hq'
  · rw [block_of_pbase_eq_zero (hzero i)]
    exact Set.empty_disjoint _
  · exact absurd (he ▸ Proc.space_of_inSpace hs (h.inSpace _ p hp hs)) (hq _ p hp)

/-- Nobody has a block that `as_create` gets. -/
theorem space_ne_of_asCreate {heap : Heap} {pid : ℕ} (hc : w.heap.asCreate q = some heap)
    (hp : w.procs pid = some p) : p.space ≠ some q := by
  intro hspace
  obtain ⟨as, has⟩ := h.alloc pid p q hp hspace
  exact ne_of_asCreate hc has rfl

/-- A block is handed out; nobody has it yet. -/
theorem create {heap : Heap} (hc : w.heap.asCreate q = some heap) :
    Inv { w with heap := heap } := by
  obtain ⟨-, hq, hother⟩ := space_asCreate hc
  exact h.setHeap_zero (fun _ _ => h.space_ne_of_asCreate hc) hother fun as has =>
    (Option.some.inj (hq.symm.trans has)).symm

/-- A block that nobody has is freed. -/
theorem destroy (hq : ∀ pid p, w.procs pid = some p → p.space ≠ some q) :
    Inv { w with heap := w.heap.asDestroy q } :=
  h.setHeap_zero hq (fun _ hne => space_asDestroy_of_ne _ hne) fun as has => by
    rw [space_asDestroy_self] at has
    cases has

/-- The fields of a block change: its frames stay below the free memory and
clear of the others. -/
theorem storeSpace (hbelow : as'.Below w.ram.firstpaddr.toNat)
    (hdisj : ∀ q' as i j, q' ≠ q → w.heap.space q' = some as →
      Disjoint (as'.block i) (as.block j))
    (hdef : ∀ pid p x, w.procs pid = some p → p.stage = .defining x → p.vmspace = q →
      ∀ i, as'.pbase i = 0)
    (hcoh : ∀ p, w.procs w.cur = some p → p.stage.InSpace → p.vmspace = q →
      Coherent as' w.tlb) : Inv { w with heap := w.heap.store q as' } := by
  have look : ∀ q' as, (w.heap.store q as').space q' = some as →
      (q' = q ∧ as = as') ∨ (q' ≠ q ∧ w.heap.space q' = some as) := by
    intro q' as has
    by_cases hqq : q' = q
    · subst hqq
      rw [space_store_self] at has
      obtain ⟨_, -, rfl⟩ := Option.map_eq_some_iff.1 has
      exact .inl ⟨rfl, rfl⟩
    · rw [space_store_of_ne _ _ hqq] at has
      exact .inr ⟨hqq, has⟩
  refine h.setHeap (fun pid p q' hp hq' => ?_) look hbelow hdisj hdef hcoh
  obtain ⟨as, has⟩ := h.alloc pid p q' hp hq'
  by_cases hqq : q' = q
  · subst hqq
    exact ⟨as', by rw [space_store_self, has, Option.map_some]⟩
  · exact ⟨as, (space_store_of_ne _ _ hqq).trans has⟩

end

end Inv

end Userprog

end Os161
