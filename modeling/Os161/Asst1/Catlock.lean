import Os161.Asst1.Model.Catlock
import Os161.Common.Runs
import Os161.Common.Units
/-!
# Cats and mice at the bowls

The lock of a bowl keeps two animals from one bowl. What keeps a cat from eating
while a mouse does is a test of the other kind's counter and, later and under
another lock, an increment of the own one. Between the two an animal is at the
door: it goes in, and nobody can see it. A cat and a mouse that are at the door
together eat together (`cat_eats_with_mouse`); they never do as long as no
animal passes the test while one of the other kind is at the door
(`animals_apart`).
-/

namespace Os161

namespace Asst1

namespace Catlock

open Function Runs Os161.Units Option

/-- The bowl whose lock an animal has at a place. -/
def Place.bowl? : Place → Option Bowl
  | .check b | .lockUp b | .increment b | .unlockUp b | .eat b | .lockDown b | .decrement b
  | .unlockDown b | .release b => some b
  | _ => none

/-- At the test of the other kind's counter. -/
def Place.checks : Place → Bool
  | .check _ => true
  | _ => false

/-- Between the test of the other kind's counter and the increment of the own. -/
def Place.atDoor : Place → Bool
  | .lockUp _ | .increment _ => true
  | _ => false

/-- Between the increment and the decrement. -/
def Place.counted : Place → Bool
  | .unlockUp _ | .eat _ | .lockDown _ | .decrement _ => true
  | _ => false

/-- The animal counts for the kind. -/
def Pc.counts (k : Kind) (pc : Pc) : ℕ := if pc.kind = k ∧ pc.place.counted then 1 else 0

variable {A : Type} [DecidableEq A] {s s' : Kitchen A} {a c : A} {b : Bowl} {l : Lock}
  {p : Place}

namespace Kitchen

/-- The animal is inside `lock_eat` at the bowl. -/
def Eats (s : Kitchen A) (a : A) (b : Bowl) : Prop := (s.pc a).place = .eat b

omit [DecidableEq A] in
theorem lockAcquire_eq_some (h : s.lockAcquire a l = some s') :
    s.holder l = none ∧ s' = { s with holder := update s.holder l (some a) } := by
  unfold lockAcquire at h
  split at h
  · next hfree => exact ⟨hfree, (some.inj h).symm⟩
  · cases h

/-- A release leaves the other animals their locks. -/
theorem holder_lockRelease (hc : c ≠ a) {l' : Lock} (h : s.holder l' = some c) :
    (s.lockRelease a l).holder l' = some c := by
  unfold lockRelease
  split
  · next hheld =>
    show update s.holder l none l' = some c
    rw [update_of_ne, h]
    rintro rfl
    exact hc (some.inj (h.symm.trans hheld))
  · exact h

theorem lockRelease_same (s : Kitchen A) (a : A) (l : Lock) :
    (s.lockRelease a l).pc = s.pc ∧ (s.lockRelease a l).eatingNum = s.eatingNum ∧
      ∀ l' ≠ l, (s.lockRelease a l).holder l' = s.holder l' := by
  unfold lockRelease
  split
  · exact ⟨rfl, rfl, fun l' hl => update_of_ne hl _ _⟩
  · exact ⟨rfl, rfl, fun _ _ => rfl⟩

end Kitchen

/-! ## What a step does -/

/-- At the door or counted. -/
def Place.entered (p : Place) : Bool := p.atDoor || p.counted

/-- **What a step of animal `a` does** to the others, to the locks of the bowls
and to the counters. -/
structure Moves (s : Kitchen A) (a : A) (s' : Kitchen A) : Prop where
  kind : ∀ c, (s'.pc c).kind = (s.pc c).kind
  /-- Another animal stays where it is, or wakes up. -/
  others : ∀ c ≠ a, (s'.pc c).place = (s.pc c).place ∨
    (s.pc c).place.bowl? = none ∧ (s'.pc c).place.bowl? = none
  locks : ∀ c ≠ a, ∀ b, s.holder (.bowl b) = some c → s'.holder (.bowl b) = some c
  bowl : (∀ b, (s.pc a).place.bowl? = some b → s.holder (.bowl b) = some a) →
    ∀ b, (s'.pc a).place.bowl? = some b → s'.holder (.bowl b) = some a
  num : ∀ k, s'.eatingNum k + (s.pc a).counts k = s.eatingNum k + (s'.pc a).counts k
  /-- Only by the test does an animal come to the door. -/
  enters : (s'.pc a).place.entered = true → (s.pc a).place.entered = true ∨
    (s.pc a).place.checks = true ∧ s.eatingNum (s.pc a).kind.other = 0

namespace Moves

variable {s₁ : Kitchen A} {q : Place}

section

variable (hq : (s.pc a).place = q)

include hq

/-- The animal goes to another place after what it does to locks and
counters. -/
theorem goTo (hpc : s₁.pc = s.pc)
    (hlocks : ∀ c ≠ a, ∀ b, s.holder (.bowl b) = some c → s₁.holder (.bowl b) = some c)
    (hbowl : (∀ b, q.bowl? = some b → s.holder (.bowl b) = some a) →
      ∀ b, p.bowl? = some b → s₁.holder (.bowl b) = some a)
    (hnum : ∀ k, s₁.eatingNum k + (s.pc a).counts k =
      s.eatingNum k + Pc.counts k { s.pc a with place := p })
    (henters : p.entered = true → q.entered = true ∨
      q.checks = true ∧ s.eatingNum (s.pc a).kind.other = 0) :
    Moves s a (s₁.goTo a p) := by
  have hself : (s₁.goTo a p).pc a = { s.pc a with place := p } := by
    show update s₁.pc a _ a = _
    rw [update_self, hpc]
  have hother : ∀ c ≠ a, (s₁.goTo a p).pc c = s.pc c := by
    intro c hc
    show update s₁.pc a _ c = _
    rw [update_of_ne hc, hpc]
  refine ⟨fun c => ?_, fun c hc => .inl (by rw [hother c hc]), hlocks, ?_, fun k => ?_, ?_⟩
  · by_cases hc : c = a
    · rw [hc, hself]
    · rw [hother c hc]
  · rw [hself, hq]
    exact hbowl
  · rw [hself]
    exact hnum k
  · rw [hself, hq]
    exact henters

omit [DecidableEq A] in
/-- The counters stay, and so does whether the animal is counted. -/
theorem counts_same (hp : p.counted = q.counted) (k : Kind) :
    s.eatingNum k + (s.pc a).counts k = s.eatingNum k + Pc.counts k { s.pc a with place := p } := by
  unfold Pc.counts
  rw [hq, hp]

/-- A step that touches neither. -/
theorem walk (hbowl : p.bowl? = none ∨ p.bowl? = q.bowl?)
    (hp : p.counted = q.counted) (hdoor : p.entered = true → q.entered = true) :
    Moves s a (s.goTo a p) := by
  refine goTo hq rfl (fun _ _ _ h => h) (fun h b hb => ?_) (counts_same hq hp) fun h =>
    .inl (hdoor h)
  rcases hbowl with hnone | heq
  · rw [hnone] at hb
    cases hb
  · exact h b (heq ▸ hb)

/-- A lock is acquired, and the animal comes to a place where it has its
bowl. -/
theorem acquire (h : (s.lockAcquire a l).map (·.goTo a p) = some s')
    (hbowl : ∀ b, p.bowl? = some b → l = .bowl b ∨ q.bowl? = some b)
    (hp : p.counted = q.counted) (hdoor : p.entered = true → q.entered = true) :
    Moves s a s' := by
  obtain ⟨s₁, hs₁, rfl⟩ := map_eq_some_iff.1 h
  obtain ⟨hfree, rfl⟩ := Kitchen.lockAcquire_eq_some hs₁
  refine goTo hq rfl (fun c hc b hb => ?_) (fun hold b hb => ?_) (counts_same hq hp)
    fun h => .inl (hdoor h)
  · show update s.holder l (some a) (.bowl b) = some c
    rw [update_of_ne, hb]
    rintro rfl
    rw [hfree] at hb
    cases hb
  · show update s.holder l (some a) (.bowl b) = some a
    by_cases hl : Lock.bowl b = l
    · rw [hl, update_self]
    · rw [update_of_ne hl]
      exact hold b ((hbowl b hb).resolve_left (Ne.symm hl))

/-- A lock is released, and the animal comes to a place where it does not have
it. -/
theorem release
    (hbowl : ∀ b, p.bowl? = some b → l ≠ .bowl b ∧ q.bowl? = some b) (hp : p.counted = q.counted)
    (hdoor : p.entered = true → q.entered = true) :
    Moves s a ((s.lockRelease a l).goTo a p) := by
  obtain ⟨hpc, hnum, hholder⟩ := s.lockRelease_same a l
  refine goTo hq hpc (fun c hc b hb => Kitchen.holder_lockRelease hc hb) (fun hold b hb => ?_)
    (fun k => ?_) fun h => .inl (hdoor h)
  · obtain ⟨hl, hb'⟩ := hbowl b hb
    rw [hholder _ (Ne.symm hl)]
    exact hold b hb'
  · rw [hnum]
    exact counts_same hq hp k

/-- The counter of the animal's kind changes by as much as the animal counts. -/
theorem count {n : ℤ} (hbowl : p.bowl? = q.bowl?)
    (hn : n + q.counted.toNat = s.eatingNum (s.pc a).kind + p.counted.toNat)
    (hdoor : p.entered = true → q.entered = true) :
    Moves s a
      ({ s with eatingNum := update s.eatingNum (s.pc a).kind n }.goTo a p) := by
  refine goTo hq rfl (fun _ _ _ h => h) (fun h b hb => h b (hbowl ▸ hb)) (fun k => ?_)
    fun h => .inl (hdoor h)
  show update s.eatingNum (s.pc a).kind n k + _ = _
  unfold Pc.counts
  by_cases hk : k = (s.pc a).kind
  · rw [hk, update_self, hq]
    cases hqc : q.counted <;> cases hpc : p.counted <;> simp [hqc, hpc] at hn ⊢ <;> exact hn
  · rw [update_of_ne hk]
    simp [Ne.symm hk]

end

/-- The turn ends. -/
theorem nextTurn (hs₁ : ∀ c, (s₁.pc c).kind = (s.pc c).kind ∧
      ((s₁.pc c).place = (s.pc c).place ∨
        (s.pc c).place.bowl? = none ∧ (s₁.pc c).place.bowl? = none))
    (hlocks : ∀ c ≠ a, ∀ b, s.holder (.bowl b) = some c → s₁.holder (.bowl b) = some c)
    (hnum : s₁.eatingNum = s.eatingNum) (hcount : (s.pc a).place.counted = false) :
    Moves s a (s₁.nextTurn a) := by
  obtain ⟨pc, hpc, hkind, hplace⟩ : ∃ pc, (s₁.nextTurn a).pc a = pc ∧ pc.kind = (s.pc a).kind ∧
      (pc.place = .testFirst ∨ pc.place = .finished) := by
    refine ⟨_, update_self .., (hs₁ a).1, ?_⟩
    split
    · exact .inl rfl
    · exact .inr rfl
  have hother : ∀ c ≠ a, (s₁.nextTurn a).pc c = s₁.pc c := fun c hc => update_of_ne hc _ _
  have hidle : pc.place.bowl? = none ∧ pc.place.counted = false ∧ pc.place.entered = false := by
    rcases hplace with h | h <;> rw [h] <;> exact ⟨rfl, rfl, rfl⟩
  refine ⟨fun c => ?_, fun c hc => ?_, hlocks, fun _ b hb => ?_, fun k => ?_, fun h => ?_⟩
  · by_cases hc : c = a
    · rw [hc, hpc, hkind]
    · rw [hother c hc]
      exact (hs₁ c).1
  · rw [hother c hc]
    exact (hs₁ c).2
  · rw [hpc, hidle.1] at hb
    cases hb
  · show s₁.eatingNum k + _ = _
    rw [hnum, hpc]
    unfold Pc.counts
    rw [hcount, hidle.2.1]
    simp
  · rw [hpc, hidle.2.2] at h
    cases h

end Moves

omit [DecidableEq A] in
/-- Animals that wake up had no bowl and have none. -/
theorem wakeup_same (s : Kitchen A) (k : Kind) (c : A) :
    ((s.wakeup k).pc c).kind = (s.pc c).kind ∧
      (((s.wakeup k).pc c).place = (s.pc c).place ∨
        (s.pc c).place.bowl? = none ∧ ((s.wakeup k).pc c).place.bowl? = none) := by
  unfold Kitchen.wakeup
  dsimp only
  split
  · next b hb =>
    split
    · exact ⟨rfl, .inr ⟨by rw [hb]; rfl, rfl⟩⟩
    · exact ⟨rfl, .inl rfl⟩
  · exact ⟨rfl, .inl rfl⟩

/-- **Every step is one of these.** -/
theorem moves_of_step (h : s.step a = some s') : Moves s a s' := by
  unfold Kitchen.step at h
  dsimp only at h
  split at h
  · next hq =>
    obtain rfl := some.inj h
    split <;> exact .walk hq (.inl rfl) rfl (by nofun)
  · next hq =>
    obtain rfl := some.inj h
    split <;> exact .walk hq (.inl rfl) rfl (by nofun)
  · next b hq => exact .acquire hq h (by rintro _ ⟨⟩; exact .inl rfl) rfl (by nofun)
  · next b hq =>
    split at h
    · obtain rfl := some.inj h
      exact .release hq (by nofun) rfl (by nofun)
    · next hnum =>
      obtain rfl := some.inj h
      exact .goTo hq rfl (fun _ _ _ h => h) (fun h => h) (Moves.counts_same hq rfl)
        fun _ => .inr ⟨rfl, by simpa using hnum⟩
  · cases h
  · next b hq => exact .acquire hq h (by rintro _ ⟨⟩; exact .inl rfl) rfl (by nofun)
  · next b hq => exact .acquire hq h (by rintro _ ⟨⟩; exact .inr rfl) rfl fun _ => rfl
  · next b hq =>
    obtain rfl := some.inj h
    refine .count hq rfl ?_ fun _ => rfl
    show s.eatingNum (s.pc a).kind + 1 + (0 : ℕ) = s.eatingNum (s.pc a).kind + (1 : ℕ)
    omega
  · next b hq =>
    obtain rfl := some.inj h
    exact .release hq (by rintro _ ⟨⟩; exact ⟨by nofun, rfl⟩) rfl fun _ => rfl
  · next b hq =>
    obtain rfl := some.inj h
    exact .walk hq (.inr rfl) rfl fun _ => rfl
  · next b hq => exact .acquire hq h (by rintro _ ⟨⟩; exact .inr rfl) rfl fun _ => rfl
  · next b hq =>
    obtain rfl := some.inj h
    refine .count hq rfl ?_ (by nofun)
    show s.eatingNum (s.pc a).kind - 1 + (1 : ℕ) = s.eatingNum (s.pc a).kind + (0 : ℕ)
    omega
  · next b hq =>
    obtain rfl := some.inj h
    exact .release hq (by rintro _ ⟨⟩; exact ⟨by nofun, rfl⟩) rfl (by nofun)
  · next b hq =>
    obtain rfl := some.inj h
    exact .release hq (by nofun) rfl (by nofun)
  · next b hq =>
    split at h
    · obtain rfl := some.inj h
      exact .walk hq (.inl rfl) rfl (by nofun)
    · obtain rfl := some.inj h
      exact .nextTurn (fun _ => ⟨rfl, .inl rfl⟩) (fun _ _ _ h => h) rfl (by rw [hq]; rfl)
  · next b hq =>
    obtain rfl := some.inj h
    obtain ⟨hpc, hnum, -⟩ := (s.wakeup (s.pc a).kind.other).lockRelease_same a (.bowl b)
    refine .nextTurn (fun c => ?_) (fun c hc b' hb => ?_) hnum (by rw [hq]; rfl)
    · rw [hpc]
      exact wakeup_same s _ c
    · exact Kitchen.holder_lockRelease (s := s.wakeup _) hc hb
  · cases h

/-! ## The invariants -/

variable [Fintype A]

/-- **The invariant of the kitchen.** -/
structure Inv (s : Kitchen A) : Prop where
  bowl : ∀ a b, (s.pc a).place.bowl? = some b → s.holder (.bowl b) = some a
  num : ∀ k, s.eatingNum k = held (Pc.counts k) s.pc

omit [DecidableEq A] in
theorem Inv.catmouselock (kind : A → Kind) : Inv (catmouselock kind) := by
  refine ⟨by nofun, fun k => ?_⟩
  rw [held_eq_zero.2 fun a => ?_]
  · rfl
  · exact if_neg (by simp [Catlock.catmouselock, Place.counted])

theorem Inv.step (h : Inv s) (hs : s.step a = some s') : Inv s' := by
  have hm := moves_of_step hs
  refine ⟨fun c b hb => ?_, fun k => ?_⟩
  · by_cases hc : c = a
    · rw [hc] at hb ⊢
      exact hm.bowl (h.bowl a) b hb
    · rcases hm.others c hc with heq | ⟨-, hnone⟩
      · exact hm.locks c hc b (h.bowl c b (heq ▸ hb))
      · rw [hnone] at hb
        cases hb
  · -- the others count as they did
    have hrest : ∀ c ≠ a, (s'.pc c).counts k = (s.pc c).counts k := by
      intro c hc
      unfold Pc.counts
      rw [hm.kind c]
      have hcounted : ∀ p : Place, p.bowl? = none → p.counted = false := by
        intro p hp
        cases p <;> first | rfl | cases hp
      rcases hm.others c hc with heq | ⟨hnone, hnone'⟩
      · rw [heq]
      · rw [hcounted _ hnone, hcounted _ hnone']
    have hheld : held (Pc.counts k) s'.pc + (s.pc a).counts k =
        held (Pc.counts k) s.pc + (s'.pc a).counts k := by
      have hsplit := held_update (Pc.counts k) s.pc a (s'.pc a)
      rw [← hsplit]
      congr 1
      refine Finset.sum_congr rfl fun c _ => ?_
      by_cases hc : c = a
      · rw [hc, update_self]
      · rw [update_of_ne hc]
        exact hrest c hc
    have hnum := hm.num k
    have hbefore := h.num k
    omega

/-- **A cat and a mouse have not both gone in.** -/
def Apart (s : Kitchen A) : Prop :=
  ∀ a c, (s.pc a).kind = (s.pc c).kind.other → (s.pc a).place.entered = true →
    (s.pc c).place.entered = false

/-- The condition on the steps: an animal that passes the test finds nobody of
the other kind at the door. -/
def OneAtDoor (s : Kitchen A) (a : A) : Prop :=
  (s.pc a).place.checks = true → s.eatingNum (s.pc a).kind.other = 0 →
    ∀ c, (s.pc c).kind = (s.pc a).kind.other → (s.pc c).place.atDoor = false

omit [DecidableEq A] in
instance (s : Kitchen A) : DecidablePred (OneAtDoor s) := fun a => by
  unfold OneAtDoor
  infer_instance

theorem Kind.other_other (k : Kind) : k.other.other = k := by
  cases k <;> rfl

omit [DecidableEq A] in
/-- Nobody of a kind whose counter is 0 and that is not at the door has gone
in. -/
theorem Inv.not_entered (h : Inv s) {k : Kind} (hnum : s.eatingNum k = 0) (hc : (s.pc c).kind = k)
    (hdoor : (s.pc c).place.atDoor = false) : (s.pc c).place.entered = false := by
  have hheld : held (Pc.counts k) s.pc = 0 := by
    have := h.num k
    omega
  have hcount := held_eq_zero.1 hheld c
  have hcounted : (s.pc c).place.counted = false := by
    by_contra hne
    have hone : (s.pc c).counts k = 1 := if_pos ⟨hc, by simpa using hne⟩
    omega
  unfold Place.entered
  rw [hdoor, hcounted]
  rfl

theorem Apart.step (h : Apart s) (hinv : Inv s) (hG : OneAtDoor s a) (hs : s.step a = some s') :
    Apart s' := by
  have hm := moves_of_step hs
  have hother : ∀ c ≠ a, (s'.pc c).place.entered = true → (s.pc c).place.entered = true := by
    intro c hc hent
    rcases hm.others c hc with heq | ⟨-, hnone⟩
    · rwa [heq] at hent
    · revert hnone hent
      cases (s'.pc c).place <;> simp [Place.entered, Place.atDoor, Place.counted, Place.bowl?]
  -- an animal of the other kind than `a` has gone in only if `a` had not, and has not
  have hnew : ∀ c ≠ a, (s.pc c).kind = (s.pc a).kind.other → (s'.pc c).place.entered = true →
      (s'.pc a).place.entered = false := by
    intro c hc hk hent
    have hold := hother c hc hent
    by_contra hne
    rcases hm.enters (by simpa using hne) with hself | ⟨hcheck, hzero⟩
    · have hfree := h c a hk hold
      rw [hself] at hfree
      cases hfree
    · have hfree := hinv.not_entered hzero hk (hG hcheck hzero c hk)
      rw [hold] at hfree
      cases hfree
  intro x y hk hx
  rw [hm.kind, hm.kind] at hk
  have hne : x ≠ y := by
    rintro rfl
    revert hk
    cases (s.pc x).kind <;> nofun
  by_cases hy : y = a
  · rw [hy] at hk hne ⊢
    exact hnew x hne hk hx
  by_cases hxa : x = a
  · rw [hxa] at hk hx
    by_contra hent
    have hk' : (s.pc y).kind = (s.pc a).kind.other := by rw [hk, Kind.other_other]
    have hfree := hnew y hy hk' (by simpa using hent)
    rw [hx] at hfree
    cases hfree
  · by_contra hent
    have hfree := h x y hk (hother x hxa hx)
    rw [hother y hy (by simpa using hent)] at hfree
    cases hfree

/-- **When cats and mice do not eat together.** In every run two animals that
eat at one bowl are one. In every run all of whose passed tests find nobody of
the other kind at the door, no cat eats while a mouse does. -/
theorem animals_apart (kind : A → Kind) (s : Kitchen A)
    (h : Runs.Reachable Kitchen.step (Runs.Free _ _) (catmouselock kind) s) :
    (∀ a c b, s.Eats a b → s.Eats c b → a = c) ∧
    (Runs.Reachable Kitchen.step OneAtDoor (catmouselock kind) s →
      ∀ a c b b', (s.pc a).kind = .cat → (s.pc c).kind = .mouse → s.Eats a b → ¬ s.Eats c b') := by
  have hinv : Inv s :=
    Runs.Reachable.invariant h (Inv.catmouselock kind) fun _ _ _ hi _ hs => hi.step hs
  refine ⟨fun a c b ha hc => ?_, fun hG a c b b' hka hkc ha hc => ?_⟩
  · have hha := hinv.bowl a b (by rw [show (s.pc a).place = _ from ha]; rfl)
    have hhc := hinv.bowl c b (by rw [show (s.pc c).place = _ from hc]; rfl)
    exact some.inj (hha.symm.trans hhc)
  · have hapart : Inv s ∧ Apart s := by
      refine Runs.Reachable.invariant (I := fun s => Inv s ∧ Apart s) hG
        ⟨Inv.catmouselock kind, fun _ _ _ hx => by cases hx⟩ ?_
      intro s a s' hi hg hs
      exact ⟨hi.1.step hs, hi.2.step hi.1 hg hs⟩
    have hfree := hapart.2 a c (by rw [hka, hkc]; rfl)
      (by rw [show (s.pc a).place = _ from ha]; rfl)
    rw [show (s.pc c).place = _ from hc] at hfree
    cases hfree

/-- One cat and one mouse. -/
def catAndMouse (a : Bool) : Kind := if a then .cat else .mouse

/-- The cat comes to eat, and the mouse finds its counter and sleeps. -/
theorem animals_apart_cat_eats :
    ∃ s, Runs.Reachable Kitchen.step OneAtDoor (catmouselock catAndMouse) s ∧
      s.Eats true .first ∧ (s.pc false).place = .asleep .second ∧ ∀ b, ¬ s.Eats false b := by
  obtain ⟨s, hs, hcat, hmouse, heat, hsleep⟩ := exists_of_exec (guarded Kitchen.step OneAtDoor)
    (catmouselock catAndMouse)
    [true, true, true, true, true, true, false, false, false, false]
    (fun s => (s.pc true).kind = .cat ∧ (s.pc false).kind = .mouse ∧
      (s.pc true).place = .eat .first ∧ (s.pc false).place = .asleep .second) (by decide +kernel)
  obtain ⟨hG, hexec⟩ := reachable_of_exec_guarded hs
  have hapart := (animals_apart catAndMouse s (reachable_of_exec hexec)).2 hG
  exact ⟨s, hG, heat, hsleep, fun b => hapart true false .first b hcat hmouse heat⟩

/-- Both test before either counts itself. -/
theorem cat_eats_with_mouse :
    ∃ s, Runs.Reachable Kitchen.step (Runs.Free _ _) (catmouselock catAndMouse) s ∧
      (s.pc true).kind = .cat ∧ (s.pc false).kind = .mouse ∧
      s.Eats true .first ∧ s.Eats false .second := by
  obtain ⟨s, hs, hcat, hmouse, heat, heat'⟩ := exists_of_exec Kitchen.step
    (catmouselock catAndMouse)
    [true, true, true, false, false, false, false, true, true, true, false, false, false]
    (fun s => (s.pc true).kind = .cat ∧ (s.pc false).kind = .mouse ∧
      (s.pc true).place = .eat .first ∧ (s.pc false).place = .eat .second) (by decide +kernel)
  exact ⟨s, reachable_of_exec hs, hcat, hmouse, heat, heat'⟩

end Catlock

end Asst1

end Os161
