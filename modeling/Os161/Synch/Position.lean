import Os161.Synch.Frame
/-!
# Where a thread is in the function it called

The code a thread has left is a suffix of the function it called, up to
what a switch puts in front of it: the return to level 0 after a timer
interrupt, the end of `thread_sleep`, and the further turns of the loop of
`lock_acquire` (`Position`). `Step.entry` turns it around: where the code
that a running thread has left is inside a section, the thread's last
instruction is the one before it.
-/

namespace Os161

namespace Synch

open Thread Function Kernel

variable {k k' : ListKernel} {e : Event} {t : Tid} {i : Instr} {r body : List Instr}

/-- The codes that a thread in a function can have left. -/
inductive Position (body : List Instr) : List Instr → Prop
  | suffix {r : List Instr} (h : r <:+ body) : Position body r
  | back {r : List Instr} (h : r <:+ body) : Position body (.spl0 :: r)
  | awake {c : Chan} {r : List Instr} (h : .sleep c :: r <:+ body) : Position body (.awake :: r)
  | awakeSem {s : SemId} {r : List Instr} (h : .semWait s :: r <:+ body) :
      Position body (.awake :: .semWait s :: r)
  | awakeLock {l : LockId} {b : Bool} {r : List Instr} (h : .lockWait l b :: r <:+ body) :
      Position body (.awake :: .lockWait l true :: r)
  | again {l : LockId} {b : Bool} {r : List Instr} (h : .lockWait l b :: r <:+ body) :
      Position body (.lockWait l true :: r)

theorem suffix_of_cons (h : i :: r <:+ body) : r <:+ body := (List.suffix_cons i r).trans h

/-- An instruction done, the rest is a position again. -/
theorem Position.tail (h : Position body (i :: r)) : Position body r := by
  cases h with
  | suffix h | awake h | again h => exact .suffix (suffix_of_cons h)
  | back h | awakeSem h => exact .suffix h
  | awakeLock h => exact .again h

/-- A thread that blocks comes back to a position. -/
theorem Position.block {a : SleepAddr} {code next : List Instr} (h : Position body code)
    (hb : Blocks k a code next) : Position body (.awake :: next) := by
  cases hb with
  | sem =>
    cases h with
    | suffix h => exact .awakeSem h
  | lock =>
    cases h with
    | suffix h | again h => exact .awakeLock h
  | chan =>
    cases h with
    | suffix h => exact .awake h

/-- An interrupted thread comes back to a position: with interrupts on, its
code is a plain suffix. -/
theorem Position.interrupted {code : List Instr} {ns : List Spl} (h : Position body code)
    (hs : Safe code .zero ns) : Position body (.spl0 :: code) := by
  cases h with
  | suffix h => exact .back h
  | back | awake | awakeSem | awakeLock | again => cases hs.1

/-- The code of the function a thread called last. -/
def calledBody (k : ListKernel) (t : Tid) : List Instr :=
  match k.call t with
  | none => []
  | some (c, _) => c.body t

/-- Every thread is somewhere in the function it called. -/
structure Placed (k : ListKernel) : Prop where
  base : Base k
  pos : ∀ t, Position (calledBody k t) (k.code t)

/-- A step that changes the code of one thread only, within its call. -/
theorem Placed.of_update (h : Placed k) (hcall : k'.call = k.call) {u : Tid}
    (hcode : k'.code = update k.code u r) (hr : Position (calledBody k u) r) (t : Tid) :
    Position (calledBody k' t) (k'.code t) := by
  have hbody : calledBody k' t = calledBody k t := by unfold calledBody; rw [hcall]
  rw [hbody, hcode]
  by_cases htu : t = u
  · subst htu
    rw [update_self]
    exact hr
  · rw [update_of_ne htu]
    exact h.pos t

theorem Placed.step (h : Placed k) (hs : Step k e k') : Placed k' := by
  have htail : ∀ {u : Tid} {i : Instr} {r : List Instr}, k.code u = i :: r →
      Position (calledBody k u) r := fun hcode => (hcode ▸ h.pos _).tail
  refine ⟨h.base.step hs, fun t => ?_⟩
  cases hs with
  | @call u c hc hcode hh =>
    by_cases htu : t = u
    · subst htu
      have hbody : calledBody { k.goOn t (c.body t) with
          call := update k.call t (some (c, k.holds t c)) } t = c.body t := by
        simp [calledBody]
      rw [hbody]
      exact .suffix (by simp [goOn])
    · simpa [calledBody, goOn, update_of_ne htu] using h.pos t
  | spl | idleTimer | interrupt | switchTo => exact h.pos t
  | splhigh hc hcode | spl0 hc hcode | awake hc hh hcode | wakeup hc hh hcode
  | wakeupOne hc hh hcode | yield hc hh hcode => refine h.of_update ?_ ?_ (htail hcode) t <;> rfl
  | splx _ hl | semTake hl | semPost hl | lockTake hl =>
    refine h.of_update ?_ ?_ (htail hl.code) t <;> rfl
  | block hc hh hblk => refine h.of_update ?_ ?_ ((h.pos _).block hblk) t <;> rfl
  | lockDrop hl | lockKeep hl => refine h.of_update ?_ ?_ (htail hl.code) t <;> simp
  | @fork u r n ns hc hh hcode hsv =>
    -- the new thread has called nothing yet
    have hne : u ≠ k.sys.next := fun e =>
      h.base.ok.next_not_mem (Places.mem_all.2 (.inl (e ▸ hc)))
    by_cases htn : t = k.sys.next
    · subst htn
      simp only [calledBody, splTo_call, splTo_code, update_self,
        update_of_ne hne.symm]
      exact .back (List.suffix_refl [])
    · by_cases htu : t = u
      · subst htu
        simpa [calledBody, update_of_ne htn] using htail hcode
      · simpa [calledBody, update_of_ne htn, update_of_ne htu] using h.pos t
  | @exit u _ hc hh hcode =>
    refine h.of_update (u := u) ?_ ?_ (.suffix (List.nil_suffix)) t <;> rfl
  | @timer u second hc hz =>
    have hs := h.base.running u hc
    rw [hz] at hs
    refine h.of_update ?_ ?_ ((h.pos u).interrupted hs) t <;> rfl

theorem placed_boot (init : SemId → ℕ) : Placed (boot init).lists where
  base := base_boot init
  pos := fun _ => .suffix (List.nil_suffix)

/-- **How a thread comes to be inside a section**: it ran the instruction
before, or it has just called the function. -/
theorem Step.entry (hb : Base k) (hs : Step k e k') (hcode : k'.code t = i :: r)
    (hi : i ≠ .splhigh) (hsusp : ¬ Suspended (i :: r)) :
    k.sys.cur = some t ∧
      ((e = .run ∧ ∃ j, k.code t = j :: i :: r) ∨ ∃ c, e = .call c ∧ c.body t = i :: r) := by
  obtain ⟨hc', hh'⟩ := (hb.step hs).inSection hcode hi hsusp
  -- only a switch changes the current thread, and it changes no code
  have hsame : k'.code = k.code → e ≠ .run → False := fun hsm hne => by
    have hcode₀ : k.code t = i :: r := by rw [← hsm]; exact hcode
    obtain ⟨hc, hh⟩ := hb.inSection hcode₀ hi hsusp
    exact hne (run_of_high hc hh hcode₀ hs)
  -- a thread's own instruction leaves the rest of its code
  have hown : ∀ {u j r'}, k.sys.cur = some u → k'.sys.cur = some u → k.code u = j :: r' →
      k'.code u = r' → k.sys.cur = some t ∧ ∃ j, k.code t = j :: i :: r := by
    intro u j r' hc hc₁ hcu hr'
    obtain rfl : u = t := Option.some.inj (hc₁.symm.trans hc')
    exact ⟨hc, j, by rw [hcu, ← hr', hcode]⟩
  have hrun : ∀ {u j r'}, e = .run → k.sys.cur = some u → k'.sys.cur = some u →
      k.code u = j :: r' → k'.code u = r' → k.sys.cur = some t ∧
      ((e = .run ∧ ∃ j, k.code t = j :: i :: r) ∨ ∃ c, e = .call c ∧ c.body t = i :: r) := by
    intro u j r' he hc hc₁ hcu hr'
    obtain ⟨h1, h2⟩ := hown hc hc₁ hcu hr'
    exact ⟨h1, .inl ⟨he, h2⟩⟩
  cases hs with
  | @call u c hc =>
    obtain rfl : u = t := Option.some.inj (hc.symm.trans hc')
    simp only [goOn, update_self] at hcode
    exact ⟨hc, .inr ⟨c, rfl, hcode⟩⟩
  | spl | idleTimer | interrupt | switchTo => exact (hsame rfl (by rintro ⟨⟩)).elim
  | splhigh hc hcu | spl0 hc hcu | awake hc hh hcu | wakeup hc hh hcu | fork hc hh hcu =>
    exact hrun rfl hc hc hcu (update_self ..)
  | splx _ hl | semTake hl | semPost hl | lockTake hl =>
    exact hrun rfl hl.cur hl.cur hl.code (update_self ..)
  | block | yield | exit | timer => cases hc'
  | lockDrop hl =>
    exact hrun rfl hl.cur (Places.wakeupOne_cur.trans hl.cur) hl.code (by simp)
  | lockKeep hl => exact hrun rfl hl.cur (by simpa using hl.cur) hl.code (by simp)
  | wakeupOne hc hh hcu =>
    exact hrun rfl hc (Places.wakeupOne_cur.trans hc) hcu (update_self ..)

end Synch

end Os161
