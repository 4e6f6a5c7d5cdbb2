import Os161.Asst1.Model.Stoplight
import Os161.Common.Runs
import Os161.Common.Units
import Mathlib.Data.Fintype.Prod
/-!
# No collision and no deadlock

A car takes each quadrant of its route before it lets go of the one before. So
the quadrants that cars hold and wait for lie in a ring, and a deadlock would
need a car in each of the four; the semaphore of the intersection lets in three
(`stoplight_safe`).
-/

namespace Os161

namespace Asst1

namespace Stoplight

open Function Os161.Units List

/-! ## The route of a car -/

/-- Where a car comes in from each side. -/
def entry (cardirection : Fin 4) : Quadrant :=
  if cardirection = 0 then .nw else if cardirection = 1 then .ne
  else if cardirection = 2 then .se else .sw

instance : Fintype Quadrant := ⟨{.nw, .ne, .sw, .se}, by rintro ⟨⟩ <;> decide⟩

/-- The quadrant after this one, the way cars go round. -/
def Quadrant.next : Quadrant → Quadrant
  | .nw => .sw
  | .sw => .se
  | .se => .ne
  | .ne => .nw

/-- **The route**: a quarter of the way round for a right turn, a half straight
on, three quarters for a left turn. -/
def route (t : Turn) : List Quadrant :=
  let q := entry t.1
  if t.2 = 0 then [q, q.next]
  else if t.2 = 1 then [q, q.next, q.next.next]
  else [q]

/-- The quadrant that an action takes. -/
def Action.enters? : Action → Option Quadrant
  | .P (.quadrant q) => some q
  | _ => none

variable {Car : Type} {turn : Car → Turn} {s s' : Crossing Car} {c c' : Car} {q : Sem}

namespace Crossing

/-- The quadrants that a car has come to, in order. -/
def visited (s : Crossing Car) (c : Car) : List Quadrant := (s.ran c).filterMap Action.enters?

/-- The car is between its `P` and its `V`. -/
def Inside (s : Crossing Car) (c : Car) (q : Sem) : Prop :=
  Action.P q ∈ s.ran c ∧ Action.V q ∉ s.ran c

/-- The car is not through yet. -/
def Unfinished (s : Crossing Car) (c : Car) : Prop := s.code c ≠ []

end Crossing

/-! ## What a car holds -/

/-- The units of `q` that the code gives back and does not take. -/
def owes (q : Sem) (code : List Action) : ℕ := code.count (.V q) - code.count (.P q)

/-- **What there is to see of a car** that has run `ran` and has `code` before
it. It gives back what it takes; it comes to the quadrants of its route in
order, holds the one it came to last while there is another to come, and waits
for the one after a quadrant that it holds. -/
structure PlaceOk (t : Turn) (ran code : List Action) : Prop where
  balanced : ∀ q, code.count (.P q) ≤ code.count (.V q)
  owes_pos : ∀ q, 0 < owes q code ↔ Action.P q ∈ ran ∧ Action.V q ∉ ran
  route : ran.filterMap Action.enters? <+: route t
  current : ∀ q, (ran.filterMap Action.enters?).getLast? = some q →
    ran.filterMap Action.enters? ≠ Stoplight.route t → 0 < owes (.quadrant q) code
  through : code = [] → ran.filterMap Action.enters? = Stoplight.route t
  within : ∀ q, 0 < owes (.quadrant q) code → 0 < owes .intersection code
  waits : ∀ q q₀, code.head? = some (.P (.quadrant q)) → 0 < owes (.quadrant q₀) code → q = q₀.next
  first : code ≠ [] → owes .intersection code = 0 → code.head? = some (.P .intersection)
  once : code.head? = some (.P .intersection) → owes .intersection code = 0

instance : Fintype Sem :=
  ⟨{nw, ne, sw, se, .intersection}, by rintro (⟨⟨⟩⟩ | _) <;> decide⟩

instance (t : Turn) (ran code : List Action) : Decidable (PlaceOk t ran code) :=
  decidable_of_iff
    ((∀ q, code.count (.P q) ≤ code.count (.V q)) ∧
      (∀ q, 0 < owes q code ↔ Action.P q ∈ ran ∧ Action.V q ∉ ran) ∧
      ran.filterMap Action.enters? <+: route t ∧
      (∀ q, (ran.filterMap Action.enters?).getLast? = some q →
        ran.filterMap Action.enters? ≠ route t → 0 < owes (.quadrant q) code) ∧
      (code = [] → ran.filterMap Action.enters? = route t) ∧
      (∀ q, 0 < owes (.quadrant q) code → 0 < owes .intersection code) ∧
      (∀ q q₀, code.head? = some (.P (.quadrant q)) → 0 < owes (.quadrant q₀) code →
        q = q₀.next) ∧
      (code ≠ [] → owes .intersection code = 0 → code.head? = some (.P .intersection)) ∧
      (code.head? = some (.P .intersection) → owes .intersection code = 0))
    ⟨fun ⟨h1, h2, h3, h4, h5, h6, h7, h8, h9⟩ => ⟨h1, h2, h3, h4, h5, h6, h7, h8, h9⟩,
      fun ⟨h1, h2, h3, h4, h5, h6, h7, h8, h9⟩ => ⟨h1, h2, h3, h4, h5, h6, h7, h8, h9⟩⟩

-- the twelve functions, at each of their places
theorem placeOk_take_drop : ∀ (t : Turn) (i : Fin 14),
    PlaceOk t ((approachintersection t).take i) ((approachintersection t).drop i) := by
  decide +kernel

theorem length_approachintersection : ∀ t : Turn, (approachintersection t).length ≤ 13 := by
  decide

theorem placeOk {t : Turn} (ran : List Action) {code : List Action}
    (h : ran ++ code = approachintersection t) :
    PlaceOk t ran code := by
  have hlen := length_approachintersection t
  have hran : ran.length < 14 := by
    rw [← h, length_append] at hlen
    omega
  have hplace := placeOk_take_drop t ⟨ran.length, hran⟩
  rwa [← h, take_left, drop_left] at hplace

variable {rest : List Action}

/-- Taking and giving back, one at a time. -/
theorem owes_P {q : Sem} (h : rest.count (.P q) + 1 ≤ rest.count (.V q))
    (q' : Sem) : owes q' rest = owes q' (.P q :: rest) + if q' = q then 1 else 0 := by
  unfold owes
  by_cases hq : q' = q
  · subst hq
    simp
    omega
  · simp [hq, Ne.symm hq]

theorem owes_V {q : Sem} (h : rest.count (.P q) ≤ rest.count (.V q))
    (q' : Sem) : owes q' (.V q :: rest) = owes q' rest + if q' = q then 1 else 0 := by
  have hP : (Action.V q :: rest).count (.P q') = rest.count (.P q') :=
    count_cons_of_ne (by simp)
  unfold owes
  by_cases hq : q' = q
  · subst hq
    simp
    omega
  · simp [hq, Ne.symm hq]

/-! ## The invariant -/

variable [Fintype Car]

/-- **The invariant of the crossing.** Each car is at a place of its function,
and the units of a semaphore are in its count or with the cars. -/
structure Inv (turn : Car → Turn) (s : Crossing Car) : Prop where
  program : ∀ c, s.ran c ++ s.code c = approachintersection (turn c)
  count : ∀ q, s.count q + held (owes q) s.code = units q

namespace Inv

theorem place (h : Inv turn s) (c : Car) : PlaceOk (turn c) (s.ran c) (s.code c) :=
  placeOk _ (h.program c)

theorem createcars : Inv turn (createcars turn) := by
  refine ⟨fun c => rfl, fun q => ?_⟩
  have hzero : held (owes q) (Stoplight.createcars turn).code = 0 := by
    refine held_eq_zero.2 fun c => ?_
    by_contra hne
    have hran := ((placeOk [] rfl).owes_pos q).1 (Nat.pos_of_ne_zero hne)
    cases hran.1
  rw [hzero]
  rfl

variable [DecidableEq Car]

/-- A car moves on, and the count changes by what it takes or gives back. -/
theorem goOn {a : Action} {count : Sem → ℕ} (h : Inv turn s)
    (hcode : s.code c = a :: rest)
    (hcount : ∀ q, count q + owes q rest = s.count q + owes q (a :: rest)) :
    Inv turn { s.goOn c a rest with count } := by
  refine ⟨fun c' => ?_, fun q => ?_⟩
  · show update s.ran c _ c' ++ update s.code c rest c' = _
    by_cases hc : c' = c
    · rw [hc, update_self, update_self, append_assoc, ← h.program c, hcode]
      rfl
    · rw [update_of_ne hc, update_of_ne hc]
      exact h.program c'
  · have hheld := held_update (owes q) s.code c rest
    have hbefore := h.count q
    have hq := hcount q
    rw [hcode] at hheld
    show count q + held (owes q) (update s.code c rest) = _
    omega

/-- **A step keeps the invariant.** -/
theorem step (h : Inv turn s) (hs : s.step c = some s') : Inv turn s' := by
  have hplace := h.place c
  unfold Crossing.step at hs
  split at hs
  · cases hs
  · next q rest hcode =>
    rw [hcode] at hplace
    have hbal := hplace.balanced q
    rw [count_cons_self, count_cons_of_ne (by simp)] at hbal
    split at hs
    · next hpos =>
      obtain rfl := Option.some.inj hs
      refine h.goOn hcode fun q' => ?_
      rw [owes_P hbal q']
      by_cases hq : q' = q
      · subst hq
        rw [update_self, if_pos rfl]
        omega
      · rw [update_of_ne hq, if_neg hq]
        rfl
    · cases hs
  · next q rest hcode =>
    obtain rfl := Option.some.inj hs
    have hbal : rest.count (.P q) ≤ rest.count (.V q) := by
      refine (placeOk (t := turn c) (s.ran c ++ [.V q]) ?_).balanced q
      rw [append_assoc, ← h.program c, hcode]
      rfl
    refine h.goOn hcode fun q' => ?_
    rw [owes_V hbal q']
    by_cases hq : q' = q
    · subst hq
      rw [update_self, if_pos rfl]
      omega
    · rw [update_of_ne hq, if_neg hq]
      rfl
  · next a rest hP hV hcode =>
    obtain rfl := Option.some.inj hs
    refine h.goOn hcode fun q => ?_
    have hPq : a ≠ .P q := hP q
    have hVq : a ≠ .V q := hV q
    unfold owes
    rw [count_cons_of_ne hPq, count_cons_of_ne hVq]

/-! ## What it gives -/

omit [DecidableEq Car] in
theorem inside_iff (h : Inv turn s) : s.Inside c q ↔ 0 < owes q (s.code c) :=
  ((h.place c).owes_pos q).symm

omit [Fintype Car] in
/-- A car that cannot take a step waits at a `P`. -/
theorem waits_of_blocked (hc : s.Unfinished c) (hs : s.step c = none) :
    ∃ q, (s.code c).head? = some (.P q) ∧ s.count q = 0 := by
  unfold Crossing.step at hs
  split at hs
  · next hcode => exact absurd hcode hc
  · next q rest hcode =>
    split at hs
    · cases hs
    · next hpos => exact ⟨q, by rw [hcode]; rfl, by omega⟩
  · cases hs
  · cases hs

/-- What holds of a quadrant, and of the next one wherever it holds, holds of
all four. -/
theorem all_of_next {p : Quadrant → Prop} {q₀ : Quadrant} (h0 : p q₀)
    (hnext : ∀ q, p q → p q.next) (q : Quadrant) : p q := by
  have h1 := hnext _ h0
  have h2 := hnext _ h1
  have h3 := hnext _ h2
  cases q₀ <;> cases q <;> assumption

theorem next_injective : Function.Injective Quadrant.next := by decide

/-- **Some car can take a step** as long as one is not through. -/
theorem exists_step (h : Inv turn s) (hc : s.Unfinished c) :
    ∃ c s', s.Unfinished c ∧ s.step c = some s' := by
  by_contra hno
  have hblocked : ∀ c, s.Unfinished c → ∃ q, (s.code c).head? = some (.P q) ∧ s.count q = 0 := by
    intro c hc
    refine waits_of_blocked hc ?_
    cases hs : s.step c with
    | none => rfl
    | some s' => exact absurd ⟨c, s', hc, hs⟩ hno
  have hunfinished : ∀ c q, 0 < owes q (s.code c) → s.Unfinished c := by
    intro c q hpos hnil
    rw [hnil] at hpos
    cases hpos
  -- a car inside the intersection waits for a quadrant, which another car holds
  have hinside : ∀ c, 0 < owes .intersection (s.code c) → ∃ q : Quadrant,
      (s.code c).head? = some (.P (.quadrant q)) ∧ ∃ d, 0 < owes (.quadrant q) (s.code d) := by
    intro c hpos
    obtain ⟨q, hhead, hcount⟩ := hblocked c (hunfinished c _ hpos)
    cases q with
    | intersection => exact absurd ((h.place c).once hhead) hpos.ne'
    | quadrant q =>
      refine ⟨q, hhead, exists_of_held_pos ?_⟩
      have hsum := h.count (.quadrant q)
      have hone : units (.quadrant q) = 1 := rfl
      omega
  obtain ⟨c₁, hc₁⟩ : ∃ c₁, 0 < owes .intersection (s.code c₁) := by
    by_contra hnone
    have hzero : ∀ c, owes .intersection (s.code c) = 0 := fun c =>
      Nat.eq_zero_of_not_pos fun hpos => hnone ⟨c, hpos⟩
    -- then the car that is not through could come in
    have hsum := h.count .intersection
    rw [held_eq_zero.2 hzero] at hsum
    obtain ⟨q, hhead, hcount⟩ := hblocked c hc
    have hfirst := (h.place c).first hc (hzero c)
    obtain rfl : q = .intersection := by simpa [hhead] using hfirst
    rw [hcount] at hsum
    cases hsum
  -- so every quadrant is held, by a car that waits for the next one
  obtain ⟨q₀, -, hheld₀⟩ := hinside c₁ hc₁
  have hnext : ∀ q, (∃ d, 0 < owes (.quadrant q) (s.code d)) →
      ∃ d, 0 < owes (.quadrant q.next) (s.code d) := by
    rintro q ⟨d, hd⟩
    obtain ⟨q', hhead, hheld⟩ := hinside d ((h.place d).within q hd)
    rwa [(h.place d).waits q' q hhead hd] at hheld
  choose d hd using all_of_next hheld₀ hnext
  have hinj : Function.Injective d := by
    intro q q' heq
    obtain ⟨p, hhead, -⟩ := hinside (d q) ((h.place _).within q (hd q))
    have hq := (h.place _).waits p q hhead (hd q)
    have hq' := (h.place _).waits p q' hhead (heq ▸ hd q')
    exact next_injective (hq.symm.trans hq')
  have hcard := card_le_held (owes .intersection) s.code
    (S := Finset.univ.image d) (by
      intro e he
      obtain ⟨q, -, rfl⟩ := Finset.mem_image.1 he
      exact (h.place _).within q (hd q))
  rw [Finset.card_image_of_injective _ hinj] at hcard
  have hsum := h.count .intersection
  have hfour : (Finset.univ : Finset Quadrant).card = 4 := rfl
  have hthree : units .intersection = 3 := rfl
  omega

end Inv

variable [DecidableEq Car]

/-- The states that the cars bring about. -/
def Reachable (turn : Car → Turn) (s : Crossing Car) : Prop :=
  Runs.Reachable Crossing.step (Runs.Free _ _) (createcars turn) s

theorem Reachable.inv (h : Reachable turn s) : Inv turn s :=
  Runs.Reachable.invariant h Inv.createcars fun _ _ _ hi _ hs => hi.step hs

/-- **The stoplight is safe and does not deadlock**, for any number of cars,
whatever each of them draws and in whatever order they run. No two cars are
inside one quadrant and no four are inside the intersection; a car has come to
quadrants of its route in order, to all of them when it is through, and holds
the last one while there is another to come; and while a car is not through,
some car that is not can take a step. -/
theorem stoplight_safe (turn : Car → Turn) (s : Crossing Car) (h : Reachable turn s) :
    (∀ (q : Quadrant) (c c' : Car), s.Inside c (.quadrant q) → s.Inside c' (.quadrant q) →
      c = c') ∧
    (∀ S : Finset Car, (∀ c ∈ S, s.Inside c .intersection) → S.card ≤ 3) ∧
    (∀ c, s.visited c <+: route (turn c) ∧
      (∀ q, (s.visited c).getLast? = some q → s.visited c ≠ route (turn c) →
        s.Inside c (.quadrant q)) ∧
      (s.code c = [] → s.visited c = route (turn c))) ∧
    ((∃ c, s.Unfinished c) → ∃ c s', s.Unfinished c ∧ s.step c = some s') := by
  have hinv := h.inv
  refine ⟨fun q c c' hc hc' => ?_, fun S hS => ?_, fun c => ⟨?_, fun q hlast hne => ?_, ?_⟩, ?_⟩
  · refine eq_of_held_le_one (owes (.quadrant q)) s.code ?_
      (hinv.inside_iff.1 hc) (hinv.inside_iff.1 hc')
    have hsum := hinv.count (.quadrant q)
    have hone : units (.quadrant q) = 1 := rfl
    omega
  · have hcard := card_le_held (owes .intersection) s.code (S := S)
      fun c hc => hinv.inside_iff.1 (hS c hc)
    have hsum := hinv.count .intersection
    have hthree : units .intersection = 3 := rfl
    omega
  · exact (hinv.place c).route
  · exact hinv.inside_iff.2 ((hinv.place c).current q hlast hne)
  · exact (hinv.place c).through
  · rintro ⟨c, hc⟩
    exact hinv.exists_step hc

/-- Two cars from the north: one goes straight on and the other turns right. -/
def twoCars : Fin 2 → Turn := fun c => if c = 0 then (0, 0) else (0, 2)

/-- The first is in the quadrant that the second waits for. -/
theorem stoplight_safe_two_cars :
    ∃ s, Reachable twoCars s ∧ s.Inside 0 nw ∧ ¬ s.Inside 1 nw ∧ s.Unfinished 1 ∧
      ∃ c s', s.Unfinished c ∧ s.step c = some s' := by
  obtain ⟨s, hs, hobs⟩ := Runs.exists_of_exec Crossing.step (createcars twoCars)
    [0, 1, 0, 1, 0] (fun s => s.ran 0 = [.P .intersection, .message .APPROACHING 0 2, .P nw] ∧
      s.code 1 = (turnright 0).drop 2) (by decide +kernel)
  have hr : Reachable twoCars s := Runs.reachable_of_exec hs
  obtain ⟨hone, -, -, hlive⟩ := stoplight_safe twoCars s hr
  have hin : s.Inside 0 nw := by
    unfold Crossing.Inside
    rw [hobs.1]
    decide
  have hun : s.Unfinished 1 := by
    unfold Crossing.Unfinished
    rw [hobs.2]
    decide
  exact ⟨s, hr, hin, fun hin' => by simpa using hone .nw 0 1 hin hin', hun, hlive ⟨1, hun⟩⟩

end Stoplight

end Asst1

end Os161
