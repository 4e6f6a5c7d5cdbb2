import Os161.Libc.MallocFree
/-!
# The heap of a user program

A program calls `malloc` and `free` as it likes, on pointers it has, and writes
where it may. `Intact` is what then holds between its calls: the headers tile
the heap without two free neighbours, and the blocks in use are those of the
pointers the program has. Each call keeps it, so that in every run
(`user_heap_intact`) no call ends in an `errx` and no two areas overlap.
-/

namespace Os161

namespace Libc

open Layout Prog List

variable {h h' : Heap} {least x n p : ℕ} {b c : Block} {bs bs' : List Block} {live : List (ℕ × ℕ)}
  {granted : ℕ → Bool} {s s' : Program}

/-- **The blocks in use are those of the live pointers**, each large enough. -/
structure Owned (live : List (ℕ × ℕ)) (lo : ℕ) (bs : List Block) : Prop where
  block : ∀ p n, (p, n) ∈ live → ∃ x b, p = x + 8 ∧ InUse lo bs x b ∧ roundUp n + 8 ≤ b.size
  owner : ∀ x b, InUse lo bs x b → ∃ n, (x + 8, n) ∈ live
  nodup : (live.map Prod.fst).Nodup

/-- **The heap is intact**: not set up yet, or tiled without two free neighbours
and with the live pointers' blocks in use. -/
def Intact (s : Program) : Prop :=
  (s.heap.heapbase = 0 ∧ s.heap.heaptop = 0 ∧ s.live = []) ∨
    ∃ bs, TiledBy 16 s.heap bs ∧ NoTwoFree bs ∧ Owned s.live s.heap.heapbase bs

/-- The size of the data area at `p`, as its header has it. -/
def areaSize (h : Heap) (p : ℕ) : ℕ := (h.mem (p - 8)).size

theorem le_roundUp (n : ℕ) : n ≤ roundUp n := by
  unfold roundUp
  omega

theorem Program.step_malloc_of_ok (hr : malloc granted n s.heap = .ok p h') :
    s.step (.malloc n granted) = some ⟨h', if p = 0 then s.live else (p, n) :: s.live⟩ := by
  rw [Program.step, hr]

theorem Program.step_malloc_of_error {e : Stop Exit} (hr : malloc granted n s.heap = .error e h') :
    s.step (.malloc n granted) = none := by
  rw [Program.step, hr]

theorem Program.step_free_of_ok {u : Unit} (hr : free p s.heap = .ok u h') :
    s.step (.free p) = some ⟨h', s.live.filter fun l => l.1 ≠ p⟩ := by
  rw [Program.step, hr]

/-! ## What the calls do to the live pointers -/

/-- A block is taken into use. -/
theorem Owned.take {lo : ℕ} (ho : Owned live lo bs) (hn : roundUp n + 8 ≤ b.size)
    (hfresh : ∀ d, ¬ InUse lo bs x d)
    (huse : ∀ y d, InUse lo bs' y d ↔ InUse lo bs y d ∨ (y = x ∧ d = b)) :
    (∀ m, (x + 8, m) ∉ live) ∧ Owned ((x + 8, n) :: live) lo bs' := by
  have hnew : ∀ m, (x + 8, m) ∉ live := by
    intro m hm
    obtain ⟨y, d, hy, hd, -⟩ := ho.block _ _ hm
    obtain rfl : y = x := by omega
    exact hfresh d hd
  refine ⟨hnew, fun p m hpm => ?_, fun y d hd => ?_, ?_⟩
  · rcases mem_cons.1 hpm with heq | hpm
    · obtain ⟨rfl, rfl⟩ := Prod.mk.inj heq
      exact ⟨x, b, rfl, (huse x b).2 (.inr ⟨rfl, rfl⟩), hn⟩
    · obtain ⟨y, d, hy, hd, hle⟩ := ho.block _ _ hpm
      exact ⟨y, d, hy, (huse y d).2 (.inl hd), hle⟩
  · rcases (huse y d).1 hd with hd | ⟨rfl, -⟩
    · obtain ⟨m, hm⟩ := ho.owner y d hd
      exact ⟨m, mem_cons_of_mem _ hm⟩
    · exact ⟨n, mem_cons_self⟩
  · rw [map_cons, nodup_cons]
    refine ⟨fun hx => ?_, ho.nodup⟩
    obtain ⟨⟨p, m⟩, hpm, rfl⟩ := mem_map.1 hx
    exact hnew m hpm

/-- A block is given back. -/
theorem Owned.drop {lo : ℕ} (ho : Owned live lo bs)
    (huse : ∀ y d, InUse lo bs' y d ↔ InUse lo bs y d ∧ y ≠ x) :
    Owned (live.filter fun l => l.1 ≠ x + 8) lo bs' := by
  refine ⟨fun p m hpm => ?_, fun y d hd => ?_, ?_⟩
  · obtain ⟨hpm, hne⟩ := mem_filter.1 hpm
    have hne : p ≠ x + 8 := of_decide_eq_true hne
    obtain ⟨y, d, hy, hd, hle⟩ := ho.block _ _ hpm
    exact ⟨y, d, hy, (huse y d).2 ⟨hd, by omega⟩, hle⟩
  · obtain ⟨hd, hne⟩ := (huse y d).1 hd
    obtain ⟨m, hm⟩ := ho.owner y d hd
    refine ⟨m, mem_filter.2 ⟨hm, decide_eq_true ?_⟩⟩
    omega
  · exact ho.nodup.sublist (filter_sublist.map _)

/-- A write to the area of a block in use touches no header. -/
theorem TiledBy.write {least a : ℕ} {mh : Mheader} (ht : TiledBy least h bs)
    (hb : InUse h.heapbase bs x b) (hlo : x + 8 ≤ a) (hhi : a < x + b.size) :
    TiledBy least { h with mem := Function.update h.mem a mh } bs := by
  have hused := hb.2
  obtain ⟨pre, post, rfl, hx⟩ := hb.1
  have hsame : { b with used := true } = b := by rw [← hused]
  suffices hmark : TiledBy least { h with mem := Function.update h.mem a mh }
      (pre ++ { b with used := true } :: post) by
    rwa [hsame] at hmark
  refine ht.mark hx true ?_ fun c hc => ?_
  · rw [Function.update_of_ne (by omega), if_pos rfl]
    have hin := (ht.at_split hx).inuse
    rw [hused, if_pos rfl] at hin
    rw [← hin]
  · exact Function.update_of_ne (by omega) _ _

section

variable (hi : Intact ⟨h, live⟩)

include hi

/-- **`malloc` keeps the heap intact and gives a pointer that was not live**, or
`NULL`. It exits only before the heap is set up. -/
theorem Intact.malloc (granted : ℕ → Bool) (hn : 1 ≤ n) (hw : roundUp n + 8 < 2 ^ 32) :
    wp (Libc.malloc granted n)
      (fun p h' => Intact ⟨h', if p = 0 then live else (p, n) :: live⟩ ∧
        (p ≠ 0 → ∀ m, (p, m) ∉ live))
      (fun e _ => h.heapbase = 0 ∧ Refused h.brk e) h := by
  have hle : 16 ≤ roundUp n + 8 := by
    unfold roundUp
    omega
  -- behind `__malloc_init`
  have hrest : ∀ h₁ bs E, TiledBy 16 h₁ bs → NoTwoFree bs → Owned live h₁.heapbase bs →
      wp (mallocInited granted n)
        (fun p h' => Intact ⟨h', if p = 0 then live else (p, n) :: live⟩ ∧
          (p ≠ 0 → ∀ m, (p, m) ∉ live)) E h₁ := by
    intro h₁ bs E ht hc ho
    refine wp_returns (wp_mallocInited ht hc (Nat.le_refl _) hle hw) fun p h' hg => ?_
    rcases hg with ⟨rfl, rfl, -⟩ | ⟨-, x, b, bs', rfl, hle, hbase, -, ht', hc', hfresh, huse⟩
    · exact ⟨.inr ⟨bs, ht, hc, ho⟩, fun h => absurd rfl h⟩
    · obtain ⟨hnew, ho'⟩ := ho.take hle hfresh huse
      exact ⟨.inr ⟨bs', ht', hc', hbase ▸ ho'⟩, fun _ => hnew⟩
  unfold Libc.malloc
  rw [wp_get_bind, wp_ite]
  rcases hi with ⟨hbase, htop, hlive⟩ | ⟨bs, ht, hc, ho⟩
  · rw [if_pos hbase]
    refine wp_seq (wp_mallocInit 16 hbase htop) (fun _ h₁ ht => ?_) fun e _ he => ⟨hbase, he⟩
    refine hrest h₁ [] _ ht isChain_nil ?_
    have hlive : live = [] := hlive
    rw [hlive]
    exact ⟨by simp, fun x b hx => absurd hx not_inUse_nil, nodup_nil⟩
  · rw [if_neg (Nat.ne_of_gt ht.base_pos)]
    exact hrest h bs _ ht hc ho

/-- **`free` keeps the heap intact** and takes exactly its pointer off. Since every area
has a cell, it points below the top. -/
theorem Intact.free (hp : p = 0 ∨ ∃ n, (p, n) ∈ live) :
    wp (Libc.free p) (fun _ h' => Intact ⟨h', live.filter fun l => l.1 ≠ p⟩)
      (fun _ _ => False) h := by
  rcases hi with ⟨hbase, htop, hlive⟩ | ⟨bs, ht, hc, ho⟩
  · subst hlive
    obtain rfl : p = 0 := hp.resolve_right (by simp)
    unfold Libc.free
    rw [if_pos rfl, wp_pure]
    exact .inl ⟨hbase, htop, rfl⟩
  rcases hp with rfl | ⟨n, hp⟩
  · unfold Libc.free
    rw [if_pos rfl, wp_pure]
    have hall : live.filter (fun l => l.1 ≠ 0) = live := by
      refine filter_eq_self.2 fun l hl => decide_eq_true ?_
      obtain ⟨x, b, hx, -⟩ := ho.block l.1 l.2 hl
      omega
    rw [hall]
    exact .inr ⟨bs, ht, hc, ho⟩
  · obtain ⟨x, b, rfl, hb, -⟩ := ho.block p n hp
    have h16 := ht.size_le b hb.1.mem
    have hend : x + b.size ≤ h.heaptop := (ht.placed_le hb.1).2
    refine wp_imp (wp_free ht hc hb (by omega)) fun _ h' hf => ?_
    obtain ⟨hbase, -, bs', hc', ht', huse⟩ := hf
    exact .inr ⟨bs', ht', hc', hbase ▸ ho.drop huse⟩

/-- A program that writes where it may does not touch a header. -/
theorem Intact.write {a : ℕ} {mh : Mheader}
    (ha : ∃ p n, (p, n) ∈ live ∧ p ≤ a ∧ a < p + roundUp n) :
    Intact ⟨{ h with mem := Function.update h.mem a mh }, live⟩ := by
  obtain ⟨p, n, hp, hlo, hhi⟩ := ha
  rcases hi with ⟨-, -, hlive⟩ | ⟨bs, ht, hc, ho⟩
  · have hlive : live = [] := hlive
    rw [hlive] at hp
    exact absurd hp not_mem_nil
  · obtain ⟨x, b, rfl, hb, hle⟩ := ho.block p n hp
    exact .inr ⟨bs, ht.write hb (by omega) (by omega), hc, ho⟩

end

/-- **Every step keeps the heap intact.** -/
theorem Intact.step {e : Event} (hi : Intact s) (ha : Allowed s e) (hs : s.step e = some s') :
    Intact s' := by
  cases e with
  | malloc n granted =>
    rcases cases_of_wp (hi.malloc granted ha.1 ha.2) with ⟨p, h', hr, hok⟩ | ⟨e, h', hr, -⟩
    · rw [Program.step_malloc_of_ok hr] at hs
      obtain rfl := Option.some.inj hs
      exact hok.1
    · rw [Program.step_malloc_of_error hr] at hs
      exact absurd hs (by nofun)
  | free p =>
    obtain ⟨u, h', hr, hok⟩ := exists_ok_of_wp (hi.free ha)
    rw [Program.step_free_of_ok hr] at hs
    obtain rfl := Option.some.inj hs
    exact hok
  | write a mh =>
    obtain rfl := Option.some.inj hs
    exact hi.write ha.2

/-! ## The areas of the live pointers -/

theorem TiledBy.areaSize_eq (ht : TiledBy least h bs) (hb : Placed Block.size h.heapbase bs x b) :
    areaSize h (x + 8) = b.size - 8 := by
  obtain ⟨q, hat⟩ := ht.header hb
  have hhi := (ht.placed_le hb).2
  have hlt := ht.top_lt
  exact hat.size_eq (by omega)

/-- **A live pointer's area lies in the heap**, is aligned, and holds what was
asked for. -/
theorem Intact.area (hi : Intact s) (hp : (p, n) ∈ s.live) :
    p % 8 = 0 ∧ n ≤ areaSize s.heap p ∧ s.heap.heapbase + 8 ≤ p ∧
      p + areaSize s.heap p ≤ s.heap.heaptop := by
  rcases hi with ⟨-, -, hlive⟩ | ⟨bs, ht, hc, ho⟩
  · rw [hlive] at hp
    exact absurd hp not_mem_nil
  · obtain ⟨x, b, rfl, hb, hle⟩ := ho.block p n hp
    have hmod := ht.placed_mod hb.1
    obtain ⟨hlo, hhi⟩ := ht.placed_le hb.1
    have hb8 := ht.size_pos b hb.1.mem
    have hn := le_roundUp n
    rw [ht.areaSize_eq hb.1]
    omega

/-- **The areas of two live pointers do not overlap.** -/
theorem Intact.apart (hi : Intact s) :
    s.live.Pairwise fun l l' => l.1 + areaSize s.heap l.1 ≤ l'.1 ∨
      l'.1 + areaSize s.heap l'.1 ≤ l.1 := by
  rcases hi with ⟨-, -, hlive⟩ | ⟨bs, ht, hc, ho⟩
  · rw [hlive]
    exact List.Pairwise.nil
  · have hdiff : s.live.Pairwise fun l l' => l.1 ≠ l'.1 := pairwise_map.1 ho.nodup
    refine hdiff.imp_of_mem fun {l l'} hl hl' hne => ?_
    obtain ⟨x, b, hx, hb, -⟩ := ho.block l.1 l.2 hl
    obtain ⟨y, c, hy, hc, -⟩ := ho.block l'.1 l'.2 hl'
    have hb8 := ht.size_pos b hb.1.mem
    have hc8 := ht.size_pos c hc.1.mem
    rw [hx, hy] at hne ⊢
    rw [ht.areaSize_eq hb.1, ht.areaSize_eq hc.1]
    rcases hb.1.apart hc.1 with ⟨rfl, -⟩ | h | h
    · exact absurd rfl hne
    · omega
    · omega

/-- **The heap of a user program stays intact.** In every run of a program that
frees and writes only what it has: the headers tile the heap, each with the
right `mh_prevblock` and magics, no two neighbours are free, and the blocks in
use are those of the live pointers. The areas of the live pointers are aligned,
large enough and apart. A `malloc` returns `NULL` and leaves the pointers as
they are, or returns one that was not live, and exits only if a call of `sbrk`
is refused while the heap is set up; a `free` returns, and takes exactly its
pointer off. -/
theorem user_heap_intact (brk : ℕ) (mem : ℕ → Mheader) (s : Program)
    (hs : Runs.Reachable Program.step Allowed (Program.start brk mem) s) :
    Intact s ∧
    (∀ p n, (p, n) ∈ s.live → p % 8 = 0 ∧ n ≤ areaSize s.heap p ∧ s.heap.heapbase + 8 ≤ p ∧
      p + areaSize s.heap p ≤ s.heap.heaptop) ∧
    (s.live.Pairwise fun l l' => l.1 + areaSize s.heap l.1 ≤ l'.1 ∨
      l'.1 + areaSize s.heap l'.1 ≤ l.1) ∧
    (∀ n granted, Allowed s (.malloc n granted) →
      (∃ e h', malloc granted n s.heap = .error e h' ∧ s.heap.heapbase = 0 ∧
        Refused s.heap.brk e) ∨
      ∃ s', s.step (.malloc n granted) = some s' ∧ Intact s' ∧
        (s'.live = s.live ∨ ∃ p, p ≠ 0 ∧ (∀ m, (p, m) ∉ s.live) ∧ s'.live = (p, n) :: s.live)) ∧
    ∀ p, Allowed s (.free p) → ∃ s', s.step (.free p) = some s' ∧ Intact s' ∧
      s'.live = s.live.filter fun l => l.1 ≠ p := by
  have hi : Intact s := hs.invariant (.inl ⟨rfl, rfl, rfl⟩) fun _ _ _ hi ha hs => hi.step ha hs
  refine ⟨hi, fun p n hp => hi.area hp, hi.apart, fun n granted ha => ?_, fun p ha => ?_⟩
  · rcases cases_of_wp (hi.malloc granted ha.1 ha.2) with
      ⟨p, h', hr, hok, hfresh⟩ | ⟨e, h', hr, he⟩
    · refine .inr ⟨_, Program.step_malloc_of_ok hr, hok, ?_⟩
      by_cases hp : p = 0
      · exact .inl (if_pos hp)
      · exact .inr ⟨p, hp, hfresh hp, if_neg hp⟩
    · exact .inl ⟨e, h', hr, he⟩
  · obtain ⟨u, h', hr, hok⟩ := exists_ok_of_wp (hi.free ha)
    exact ⟨_, Program.step_free_of_ok hr, hok, rfl⟩

/-- A program that takes three areas, gives the second one back and takes a part
of it again: what is left of it stays free between two blocks in use. -/
theorem user_heap_intact_reuse :
    ∃ s, Runs.Reachable Program.step Allowed (Program.start 0x10000 fun _ => .deadbeef) s ∧
      s.live = [(0x10018, 3), (0x10080, 24), (0x10008, 5)] ∧ Intact s ∧
      areaSize s.heap 0x10018 = 8 ∧ (s.heap.mem 0x10020).inuse = 0 ∧
      ∃ s', s.step (.free 0x10018) = some s' ∧ Intact s' ∧
        s'.live = [(0x10080, 24), (0x10008, 5)] := by
  obtain ⟨s, hs, hlive, harea, hfree⟩ := Runs.exists_of_exec (Runs.guarded Program.step Allowed)
    (Program.start 0x10000 fun _ => .deadbeef)
    [.malloc 5 fun _ => true, .malloc 96 fun _ => true, .malloc 24 fun _ => true,
      .write 0x10018 .deadbeef, .free 0x10018, .malloc 3 fun _ => true]
    (fun s => s.live = [(0x10018, 3), (0x10080, 24), (0x10008, 5)] ∧
      areaSize s.heap 0x10018 = 8 ∧ (s.heap.mem 0x10020).inuse = 0) (by decide +kernel)
  obtain ⟨hr, -⟩ := Runs.reachable_of_exec_guarded hs
  have hall := user_heap_intact 0x10000 (fun _ => .deadbeef) s hr
  obtain ⟨s', hs', hi', hlive'⟩ := hall.2.2.2.2 0x10018 (.inr ⟨3, by rw [hlive]; simp⟩)
  refine ⟨s, hr, hlive, hall.1, harea, hfree, s', hs', hi', ?_⟩
  rw [hlive', hlive]
  decide

end Libc

end Os161
