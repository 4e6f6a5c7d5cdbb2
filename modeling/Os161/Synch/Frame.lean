import Os161.Synch.Spl
/-!
# What a step leaves alone

One fact a lemma about what a step changes of the parts of the kernel that
the invariants of semaphores, locks and condition variables read: the code
and the address of a thread that does not run, who is asleep and who is
ready, the counts, and the holders.
-/

namespace Os161

namespace Synch

open Thread Function Places List

variable {k k' : ListKernel} {e : Event} {t u : Tid}

/-- A thread that exists and does not run keeps its code, and the address
it sleeps on. -/
theorem Step.others (hs : Step k e k') (hu : k.sys.cur ≠ some u) (hlt : u < k.sys.next) :
    k'.code u = k.code u ∧ k'.sys.addr u = k.sys.addr u := by
  have hne : ∀ {t}, k.sys.cur = some t → u ≠ t := fun hc e => hu (e ▸ hc)
  have hnew : u ≠ k.sys.next := Nat.ne_of_lt hlt
  cases hs with
  | call hc | splhigh hc | spl0 hc | wakeup hc | yield hc | exit hc =>
    exact ⟨update_of_ne (hne hc) _ _, rfl⟩
  | spl | interrupt => exact ⟨rfl, rfl⟩
  | splx _ hl | semTake hl | semPost hl | lockTake hl => exact ⟨update_of_ne (hne hl.cur) _ _, rfl⟩
  | block hc | awake hc =>
    exact ⟨update_of_ne (hne hc) _ _, update_of_ne (hne hc) _ _⟩
  | lockDrop hl | lockKeep hl => simp [update_of_ne (hne hl.cur)]
  | wakeupOne hc =>
    exact ⟨update_of_ne (hne hc) _ _, by simp only [wakeupOne_addr]⟩
  | fork hc =>
    refine ⟨?_, update_of_ne hnew _ _⟩
    simp only [Kernel.splTo_code, update_of_ne (hne hc), update_of_ne hnew]
  | @timer _ second hc =>
    exact ⟨update_of_ne (hne hc) _ _, by cases second <;> rfl⟩
  | @idleTimer second => exact ⟨rfl, by cases second <;> rfl⟩
  | switchTo hp =>
    obtain ⟨-, _, _, -, -, -, -, haddr, -⟩ := dispatch_cases hp
    exact ⟨rfl, by simp only [haddr]⟩

/-- **Who is asleep after a step** was asleep before it, or has just gone to
sleep where the code says. -/
theorem Step.asleep_cases (hb : Base k) (hs : Step k e k') (hu : u ∈ k'.sys.asleep) :
    (u ∈ k.sys.asleep ∧ k.sys.cur ≠ some u) ∨
    (k.sys.cur = some u ∧ k'.count = k.count ∧ k'.holder = k.holder ∧
      ∃ a next, Blocks k a (k.code u) next ∧ k'.sys.addr u = some a) := by
  have hnc : u ∈ k.sys.asleep → k.sys.cur ≠ some u := fun hm hc =>
    hb.ok.not_asleep_of_cur hc hm
  have hold : u ∈ k.sys.asleep → (u ∈ k.sys.asleep ∧ k.sys.cur ≠ some u) := fun h => ⟨h, hnc h⟩
  cases hs with
  | @block t a next hc hh hblk =>
    rcases mem_append.1 hu with hu | hu
    · exact .inl (hold hu)
    · obtain rfl := mem_singleton.1 hu
      exact .inr ⟨hc, rfl, rfl, a, next, hblk, update_self ..⟩
  | semPost | wakeup | interrupt => exact .inl (hold (asleep_wakeup u hu).1)
  | lockDrop | wakeupOne => exact .inl (hold (asleep_wakeupOne u hu).1)
  | lockKeep => exact .inl (hold (by simpa using hu))
  | @timer _ second | @idleTimer second =>
    cases second
    · exact .inl (hold hu)
    · exact .inl (hold (asleep_wakeup u hu).1)
  | switchTo hp =>
    obtain ⟨-, _, _, -, -, -, has, -⟩ := dispatch_cases hp
    exact .inl (hold (has ▸ hu))
  | _ => exact .inl (hold hu)

theorem mem_ready_wakeup {a : SleepAddr} {p : Places SleepAddr} (h : u ∈ p.ready) :
    u ∈ (p.wakeup a).ready :=
  mem_append_left _ h

theorem mem_ready_wakeupOne {a : SleepAddr} {p : Places SleepAddr} (h : u ∈ p.ready) :
    u ∈ (p.wakeupOne a).ready := by
  rcases wakeupOne_cases a p with ⟨-, he⟩ | ⟨t, ts, -, he⟩ <;> rw [he]
  · exact h
  · exact mem_append_left _ h

/-- **A ready thread stays ready** until it runs. -/
theorem Step.ready_cases (hs : Step k e k') (hu : u ∈ k.sys.ready) :
    u ∈ k'.sys.ready ∨ k'.sys.cur = some u := by
  cases hs with
  | semPost | wakeup | interrupt => exact .inl (mem_ready_wakeup hu)
  | lockDrop | wakeupOne => exact .inl (mem_ready_wakeupOne hu)
  | lockKeep => exact .inl (by simpa using hu)
  | fork | yield => exact .inl (mem_append_left _ hu)
  | @timer _ second =>
    cases second
    · exact .inl (mem_append_left _ hu)
    · exact .inl (mem_append_left _ (mem_ready_wakeup hu))
  | @idleTimer second =>
    cases second
    · exact .inl hu
    · exact .inl (mem_ready_wakeup hu)
  | switchTo hp =>
    obtain ⟨-, t, ts, hr, hc, hr', -⟩ := dispatch_cases hp
    rw [hr, mem_cons] at hu
    rcases hu with rfl | hu
    · exact .inr hc
    · exact .inl (by simp only [hr']; exact hu)
  | _ => exact .inl hu

/-- **How a count changes**: not at all, by a `P` that finds it positive, or
by a `V` that wakes every sleeper. -/
theorem Step.count_cases (hs : Step k e k') :
    (k'.count = k.count ∧ k'.ups = k.ups ∧ k'.downs = k.downs) ∨
    (∃ s, 0 < k.count s ∧ k'.count = update k.count s (k.count s - 1) ∧
      k'.ups = k.ups ∧ k'.downs = update k.downs s (k.downs s + 1) ∧ k'.sys = k.sys) ∨
    ∃ s, 0 < k.count s + 1 ∧ k'.count = update k.count s (k.count s + 1) ∧
      k'.ups = update k.ups s (k.ups s + 1) ∧ k'.downs = k.downs ∧
      k'.sys = k.sys.wakeup (.sem s) := by
  cases hs with
  | semTake hl hpos => exact .inr (.inl ⟨_, hpos, rfl, rfl, rfl, rfl⟩)
  | semPost hl hpos | interrupt hi hpos => exact .inr (.inr ⟨_, hpos, rfl, rfl, rfl, rfl⟩)
  | lockDrop | lockKeep => exact .inl (by simp)
  | _ => exact .inl ⟨rfl, rfl, rfl⟩

theorem inside_setInside (k : ListKernel) (t u : Tid) (l l' : LockId) (b : Bool) :
    (k.setInside t l b).inside u l' = if u = t ∧ l' = l then b else k.inside u l' := by
  simp only [Kernel.setInside]
  by_cases hut : u = t
  · subst hut
    rw [update_self]
    by_cases hl : l' = l
    · subst hl; simp
    · rw [update_of_ne hl, if_neg fun h => hl h.2]
  · rw [update_of_ne hut, if_neg fun h => hut h.1]

/-- The release of a lock ends at most the releasing thread's being inside
it. -/
theorem inside_endInside {l l' : LockId} {own : Bool}
    (h : (k.endInside t l own).inside u l' = true) :
    k.inside u l' = true ∧ ¬ (own = true ∧ u = t ∧ l' = l) := by
  cases own with
  | false => exact ⟨h, fun hc => Bool.noConfusion hc.1⟩
  | true =>
    replace h : (k.setInside t l false).inside u l' = true := h
    rw [inside_setInside] at h
    split at h
    · cases h
    · exact ⟨h, fun hc => ‹¬ _› hc.2⟩

/-- **How a holder changes**: not at all, by a `lock_acquire` that finds the
lock free, or by a release that the holder makes. -/
theorem Step.holder_cases (hs : Step k e k') :
    (k'.holder = k.holder ∧ ∀ u l, k'.inside u l = true → k.inside u l = true) ∨
    (∃ t l b rest, k.sys.cur = some t ∧ k.code t = .lockWait l b :: rest ∧ k.holder l = none ∧
      k'.holder = update k.holder l (some t) ∧
      k'.inside = (k.setInside t l true).inside ∧ k'.sys = k.sys ∧
      k'.code = update k.code t rest) ∨
    ∃ t l own rest, k.sys.cur = some t ∧ k.code t = .lockDrop l own :: rest ∧
      k.holder l = some t ∧ k'.holder = update k.holder l none ∧
      k'.inside = (k.endInside t l own).inside ∧ k'.sys = k.sys.wakeupOne (.lock l) ∧
      k'.code = update k.code t rest := by
  cases hs with
  | lockTake hl hfree =>
    exact .inr (.inl ⟨_, _, _, _, hl.cur, hl.code, hfree, rfl, rfl, rfl, rfl⟩)
  | lockDrop hl hheld =>
    exact .inr (.inr ⟨_, _, _, _, hl.cur, hl.code, hheld, rfl, rfl, rfl, by simp⟩)
  | lockKeep => exact .inl ⟨by simp, fun u l h => (inside_endInside h).1⟩
  | fork hc hh hcode hsv =>
    refine .inl ⟨rfl, fun u l h => ?_⟩
    by_cases hu : u = k.sys.next
    · simp [hu] at h
    · simpa [update_of_ne hu] using h
  | _ => exact .inl ⟨rfl, fun _ _ h => h⟩

/-- **Where an instruction comes from**: the thread's own code before the
step, the way back from a switch, or the function it has just called. -/
theorem Step.mem_code {i : Instr} (hs : Step k e k') (hi : i ∈ k'.code t) :
    i ∈ k.code t ∨ i = .awake ∨ i = .spl0 ∨
    (∃ l b, i = .lockWait l true ∧ .lockWait l b ∈ k.code t) ∨
    ∃ c, e = .call c ∧ k.sys.cur = some t ∧ i ∈ c.body t := by
  -- what a step writes into the code of one thread, it writes only there
  have hupd : ∀ {u : Tid} {r : List Instr}, i ∈ update k.code u r t →
      i ∈ k.code t ∨ (t = u ∧ i ∈ r) := by
    intro u r h
    by_cases htu : t = u
    · subst htu
      rw [update_self] at h
      exact .inr ⟨rfl, h⟩
    · rw [update_of_ne htu] at h
      exact .inl h
  have htail : ∀ {u : Tid} {j : Instr} {r : List Instr}, k.code u = j :: r →
      i ∈ update k.code u r t → i ∈ k.code t := by
    intro u j r hcode h
    rcases hupd h with h' | ⟨rfl, h'⟩
    · exact h'
    · rw [hcode]; exact mem_cons_of_mem _ h'
  cases hs with
  | @call u c hc =>
    rcases hupd hi with h | ⟨rfl, h⟩
    · exact .inl h
    · exact .inr (.inr (.inr (.inr ⟨c, rfl, hc, h⟩)))
  | spl | idleTimer | interrupt | switchTo => exact .inl hi
  | splhigh hc hcode | spl0 hc hcode | awake hc hh hcode | wakeup hc hh hcode
  | wakeupOne hc hh hcode | yield hc hh hcode => exact .inl (htail hcode hi)
  | splx _ hl | semTake hl | semPost hl | lockTake hl => exact .inl (htail hl.code hi)
  | @block u a next hc hh hblk =>
    rcases hupd hi with h | ⟨rfl, h⟩
    · exact .inl h
    · rcases mem_cons.1 h with rfl | h
      · exact .inr (.inl rfl)
      · generalize hcode : k.code t = code at hblk
        cases hblk with
        | sem => exact .inl h
        | @lock l b rest =>
          rcases mem_cons.1 h with rfl | h
          · exact .inr (.inr (.inr (.inl ⟨l, b, rfl, mem_cons_self⟩)))
          · exact .inl (mem_cons_of_mem _ h)
        | chan => exact .inl (mem_cons_of_mem _ h)
  | lockDrop hl | lockKeep hl => exact .inl (htail hl.code (by simpa using hi))
  | @fork u rest n ns hc hh hcode =>
    simp only [Kernel.splTo_code] at hi
    by_cases htu : t = u
    · subst htu
      rw [update_self] at hi
      rw [hcode]
      exact .inl (mem_cons_of_mem _ hi)
    · rw [update_of_ne htu] at hi
      rcases hupd hi with h | ⟨rfl, h⟩
      · exact .inl h
      · exact .inr (.inr (.inl (mem_singleton.1 h)))
  | exit =>
    rcases hupd hi with h | ⟨rfl, h⟩
    · exact .inl h
    · cases h
  | timer =>
    rcases hupd hi with h | ⟨rfl, h⟩
    · exact .inl h
    · rcases mem_cons.1 h with rfl | h
      · exact .inr (.inr (.inl rfl))
      · exact .inl h

end Synch

end Os161
