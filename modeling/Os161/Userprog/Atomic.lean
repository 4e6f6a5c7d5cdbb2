import Os161.Userprog.InitialStack
import Os161.Userprog.UserPtr
/-!
# When `sys_execv` leaves its caller alone

`sys_execv` destroys the address space of its caller before it looks for the
file. An error before that finds the caller as it was, and after it there must be
none. This module says on the pointers, the memory, the file system and the file
when that is so (`execv_preserves`): a pointer is refused while the arguments are copied in
(`Refused`), or the path is found, there is memory for the address space, the
loader accepts the file and the arguments fit on the stack (`Completes`).
-/

namespace Os161

namespace Userprog

open Vm Prog UInt32

variable {env : Env} {m₀ m m' : Machine} {as as' : AddrSpace} {K : Machine → Prop} {b : Bool}
  {va program args w : UInt32} {s s' path : List UInt8} {argv : List (List UInt8)} {r : Ram}

/-! ## Strings and arguments -/

/-- **The arguments of an array of the user**, and the null pointer behind them. -/
inductive ArgvAt (m : Machine) : UInt32 → List (List UInt8) → Prop where
  | null {args : UInt32} : args < userTop → m.userWord args = some 0 → ArgvAt m args []
  | more {args w : UInt32} {s : List UInt8} {argv : List (List UInt8)} : args < userTop →
      m.userWord args = some w → w ≠ 0 → StringAt m w s → ArgvAt m (args + 4) argv →
      ArgvAt m args (s :: argv)

namespace ArgvAt

theorem le_userTop (h : ArgvAt m args argv) : args.toNat + 4 * argv.length < 2 ^ 31 := by
  have htop : userTop.toNat = 2 ^ 31 := rfl
  have hfour : (4 : UInt32).toNat = 4 := rfl
  induction h with
  | null hlt =>
    rw [lt_iff_toNat_lt, htop] at hlt
    simpa using hlt
  | more hlt _ _ _ _ ih =>
    rw [lt_iff_toNat_lt] at hlt
    rw [UInt32.toNat_add, hfour] at ih
    rw [List.length_cons]
    omega

/-- Its words, of which the last one is null. -/
theorem word (h : ArgvAt m args argv) {k : ℕ} (hk : k ≤ argv.length) :
    args + 4 * ofNat k < userTop ∧
      ∃ w, m.userWord (args + 4 * ofNat k) = some w ∧ (w = 0 ↔ k = argv.length) := by
  induction h generalizing k with
  | null hlt hzero =>
    obtain rfl : k = 0 := by simpa using hk
    rw [show 4 * ofNat 0 = 0 from rfl, UInt32.add_zero]
    exact ⟨hlt, 0, hzero, by simp⟩
  | @more args w s argv hlt hw hne _ _ ih =>
    cases k with
    | zero =>
      rw [show 4 * ofNat 0 = 0 from rfl, UInt32.add_zero]
      exact ⟨hlt, w, hw, by simp [hne]⟩
    | succ k =>
      have hnext : args + 4 * ofNat (k + 1) = args + 4 + 4 * ofNat k := by
        rw [Nat.add_comm k 1, ofNat_add, UInt32.mul_add, UInt32.add_assoc]
        rfl
      rw [hnext]
      simpa using ih (k := k) (by simpa using hk)

end ArgvAt

/-- **A scan ends where the zero is.** -/
theorem eq_of_scan {α : Type} {zero : α} {P : UInt32 → Prop} {f : UInt32 → Option α} {n : UInt32}
    {k : ℕ} (hend : P n → f n = some zero)
    (hbefore : ∀ j, j < n → ∃ c, c ≠ zero ∧ (P j → f j = some c)) (hk : k < 2 ^ 32)
    (hat : ∀ j ≤ k, P (ofNat j) ∧ ∃ c, f (ofNat j) = some c ∧ (c = zero ↔ j = k)) :
    n.toNat = k := by
  rcases Nat.lt_trichotomy n.toNat k with hlt | heq | hgt
  · obtain ⟨hP, c, hc, hzero⟩ := hat n.toNat hlt.le
    rw [UInt32.ofNat_toNat] at hP hc
    exact hzero.1 (Option.some.inj (hc.symm.trans (hend hP)))
  · exact heq
  · obtain ⟨hP, c, hc, hzero⟩ := hat k le_rfl
    obtain ⟨c', hne, hc'⟩ := hbefore (ofNat k) (lt_iff_toNat_lt.2 (by
      rwa [toNat_ofNat_of_lt' hk]))
    exact absurd ((Option.some.inj ((hc' hP).symm.trans hc)).trans (hzero.2 rfl)) hne

theorem StringAt.length_eq {n : UInt32} (h : StringAt m va s) (hn : StringRead m va n) :
    n.toNat + 1 = s.length := by
  have hle := h.le_userTop
  have hpos : 0 < s.length := by cases h <;> simp
  have := eq_of_scan (k := s.length - 1) hn.1 hn.2 (by omega) fun j hj => by
    obtain ⟨hlt, c, hc, hzero⟩ := h.byte (k := j) (by omega)
    exact ⟨hlt, c, hc, by rw [hzero]; omega⟩
  omega

theorem ArgvAt.length_eq {argc : UInt32} (h : ArgvAt m args argv) (hn : ArrayRead m args argc) :
    argc.toNat = argv.length :=
  have hle := h.le_userTop
  eq_of_scan hn.1 hn.2 (by omega) fun _ hj => h.word hj

/-! ## What is copied in -/

/-- What is left of memory when `kmalloc` has given a block of this size, if small blocks take
no page. -/
def ramAfter (r : Ram) (sz : UInt32) : Ram :=
  if sz ≥ largestSubpageSize then (allocKpages r (kmallocNpages sz)).2 else r

/-- What is left of memory when all strings are copied in. -/
def ramLeft (r : Ram) (strings : List (List UInt8)) : Ram :=
  strings.foldl (fun r s => ramAfter r (ofNat s.length)) r

/-- **There are small blocks**: the subpage allocator never refuses, takes no page, and hands
out no block of an address space. -/
structure SmallBlocks (env : Env) (h : Heap) : Prop where
  found : ∀ t r, (env.subpageKmalloc t r).1 ≠ 0
  fresh : ∀ t r, h.blocks (env.subpageKmalloc t r).1 = none
  keeps : ∀ t r, (env.subpageKmalloc t r).2 = r

/-- `as_destroy` makes one more block free. -/
theorem SmallBlocks.asDestroy {h : Heap} (hs : SmallBlocks env h) (p : UInt32) :
    SmallBlocks env (h.asDestroy p) := by
  refine { hs with fresh := fun t r => ?_ }
  show Function.update _ _ _ _ = _
  by_cases hp : (env.subpageKmalloc t r).1 = p
  · rw [hp, Function.update_self]
  · rw [Function.update_of_ne hp, hs.fresh]

/-- Memory as it was at the beginning, with so much of it left. -/
def Steady (m₀ : Machine) (as : AddrSpace) (r : Ram) (m : Machine) : Prop :=
  Following m₀ as m ∧ m.ram = r

theorem records_steady (b : Bool) (va : UInt32) : Records (Steady m₀ as r) b va :=
  fun _ h _ => h

section

variable (has : m₀.heap.space m₀.vmspace = some as)

include has

theorem touching_steady (env : Env) (r : Ram) : Touching env (Steady m₀ as r) where
  badfaultfunc _ _ h := h
  tick m h := ⟨(core_following env has).tick m h.1, h.2⟩
  tlb m ty va f tlb h ht := ⟨(core_following env has).tlb m ty va f tlb h.1 ht, h.2⟩

/-- **A string is copied in**, and a block of its length is gone. -/
theorem copyString_run {n : UInt32} {str : Kernel UInt32} (hsmall : SmallBlocks env m₀.heap)
    (hat : StringAt m₀ w s) (hn : n.toNat + 1 = s.length)
    (hstr : ∀ r, Holds (Steady m₀ as r) false str (fun p => p = w)) (hm : Steady m₀ as r m)
    (hb : m.badfaultfunc = false) (h : copyString env n str m = .ok s' m') :
    s' = s ∧ Steady m₀ as (ramAfter r (ofNat s.length)) m' ∧ m'.badfaultfunc = false := by
  have hsz : n + 1 = ofNat s.length := by
    rw [← hn, ofNat_add, UInt32.ofNat_toNat]
    rfl
  obtain ⟨block, m₁, hblock, hrest⟩ := bind_eq_ok.1 h
  have h₁ : Steady m₀ as (ramAfter r (ofNat s.length)) m₁ ∧ m₁.badfaultfunc = false := by
    have htick := (touching_steady has env r).tick m hm
    have hram : ∀ t, (if n + 1 ≥ largestSubpageSize then allocKpages r (kmallocNpages (n + 1))
        else env.subpageKmalloc t r).2 = ramAfter r (ofNat s.length) := by
      intro t
      rw [hsz]
      unfold ramAfter
      split
      · rfl
      · exact hsmall.keeps t r
    cases hblock
    refine ⟨⟨htick.1, ?_⟩, hb⟩
    rw [← hram (m.tick env).ticks, ← htick.2]
  obtain ⟨_, m₂, hfail, hrest₂⟩ := bind_eq_ok.1 hrest
  obtain ⟨-, rfl⟩ := failIf_eq_ok.1 hfail
  obtain ⟨p, m₃, hp, hcopy⟩ := bind_eq_ok.1 hrest₂
  obtain ⟨h₃, hb₃, rfl⟩ := (hstr _).ok h₁.1 h₁.2 hp
  obtain ⟨h₄, hb₄, hs'⟩ := ((holds_copyinstr has (fun _ h => h.1)
    (touching_steady has env _) (fun va _ => records_steady true va) p (n + 1)).mapError _).ok
    h₃ hb₃ hcopy
  exact ⟨hat.unique hs', h₄, hb₄⟩

theorem copyPath_run (hsmall : SmallBlocks env m₀.heap) (hat : StringAt m₀ program path)
    (hm : Steady m₀ as r m) (hb : m.badfaultfunc = false)
    (h : copyPath env program m = .ok s m') :
    s = path ∧ Steady m₀ as (ramAfter r (ofNat path.length)) m' ∧ m'.badfaultfunc = false := by
  obtain ⟨n, m₁, hlen, -, hstr⟩ := copyPath_eq_ok h
  obtain ⟨hm₁, hb₁, hn⟩ := (holds_strlen has (fun _ h => h.1) (touching_steady has env r)
    fun j _ => records_steady false _).ok hm hb hlen
  exact copyString_run has hsmall hat (hat.length_eq hn) (fun _ => .pure rfl) hm₁ hb₁ hstr

theorem copyArg_run {i : UInt32} (hsmall : SmallBlocks env m₀.heap)
    (hlt : args + 4 * i < userTop) (hw : m₀.userWord (args + 4 * i) = some w)
    (hat : StringAt m₀ w s) (hm : Steady m₀ as r m) (hb : m.badfaultfunc = false)
    (h : copyArg env args i m = .ok s' m') :
    s' = s ∧ Steady m₀ as (ramAfter r (ofNat s.length)) m' ∧ m'.badfaultfunc = false := by
  have harg : ∀ r, Holds (Steady m₀ as r) false (argAt env args i) (fun p => p = w) := fun r =>
    (holds_argAt has (fun _ h => h.1) (touching_steady has env r) (records_steady false _)).mono
      fun p hp => Option.some.inj ((hp hlt).symm.trans hw)
  obtain ⟨_, m₁, h1, hrest₁⟩ := bind_eq_ok.1 h
  obtain ⟨_, m₂, h2, hrest₂⟩ := bind_eq_ok.1 hrest₁
  obtain ⟨_, m₃, h3, hrest₃⟩ := bind_eq_ok.1 hrest₂
  obtain ⟨_, m₄, h4, hrest₄⟩ := bind_eq_ok.1 hrest₃
  obtain ⟨p, m₅, h5, hrest₅⟩ := bind_eq_ok.1 hrest₄
  obtain ⟨n, m₆, hlen, hstr⟩ := bind_eq_ok.1 hrest₅
  obtain ⟨hm₁, hb₁, -⟩ := (harg r).ok hm hb h1
  obtain ⟨-, rfl⟩ := failIf_eq_ok.1 h2
  obtain ⟨hm₃, hb₃, -⟩ := (harg r).ok hm₁ hb₁ h3
  obtain ⟨-, rfl⟩ := failIf_eq_ok.1 h4
  obtain ⟨hm₅, hb₅, rfl⟩ := (harg r).ok hm₃ hb₃ h5
  obtain ⟨hm₆, hb₆, hn⟩ := (holds_strlen has (fun _ h => h.1) (touching_steady has env r)
    fun j _ => records_steady false _).ok hm₅ hb₅ hlen
  exact copyString_run has hsmall hat (hat.length_eq hn) harg hm₆ hb₆ hstr

theorem copyArgsFrom_run {i : UInt32} {argv' : List (List UInt8)}
    (hsmall : SmallBlocks env m₀.heap) (hat : ArgvAt m₀ (args + 4 * i) argv)
    (hm : Steady m₀ as r m) (hb : m.badfaultfunc = false)
    (h : copyArgsFrom env args argv.length i m = .ok argv' m') :
    argv' = argv ∧ Steady m₀ as (ramLeft r argv) m' ∧ m'.badfaultfunc = false := by
  induction argv generalizing i r m m' argv' with
  | nil =>
    cases h
    exact ⟨rfl, hm, hb⟩
  | cons s argv ih =>
    cases hat with
    | more hlt hw _ hs hrest =>
      obtain ⟨s', m₁, harg, htail⟩ := bind_eq_ok.1 h
      obtain ⟨argv'', m₂, hrun, hpure⟩ := bind_eq_ok.1 htail
      obtain ⟨rfl, hm₁, hb₁⟩ := copyArg_run has hsmall hlt hw hs hm hb harg
      rw [UInt32.add_assoc, show 4 * i + 4 = 4 * (i + 1) by rw [UInt32.mul_add]; rfl] at hrest
      obtain ⟨rfl, hm₂, hb₂⟩ := ih hrest hm₁ hb₁ hrun
      cases hpure
      exact ⟨rfl, hm₂, hb₂⟩

/-- **The path and the arguments are those of the user**, and the blocks for them are gone. -/
theorem copyInArgs_run {copied : List UInt8 × List (List UInt8)}
    (hsmall : SmallBlocks env m₀.heap) (hpath : StringAt m₀ program path)
    (hargv : ArgvAt m₀ args argv) (hm : Steady m₀ as r m) (hb : m.badfaultfunc = false)
    (h : copyInArgs env program args m = .ok copied m') :
    copied = (path, argv) ∧ Steady m₀ as (ramLeft r (path :: argv)) m' ∧
      m'.badfaultfunc = false := by
  obtain ⟨path', m₁, hcopy, hrest⟩ := bind_eq_ok.1 h
  obtain ⟨argc, m₂, hcount, hrest₂⟩ := bind_eq_ok.1 hrest
  obtain ⟨argv', m₃, hloop, hpure⟩ := bind_eq_ok.1 hrest₂
  obtain ⟨rfl, hm₁, hb₁⟩ := copyPath_run has hsmall hpath hm hb hcopy
  obtain ⟨hm₂, hb₂, hn⟩ := (holds_countArgs has (fun _ h => h.1) (touching_steady has env _)
    fun j _ => records_steady false _).ok hm₁ hb₁ hcount
  rw [hargv.length_eq hn] at hloop
  obtain ⟨rfl, hm₃, hb₃⟩ := copyArgsFrom_run (i := 0) has hsmall
    (by rw [show args + 4 * 0 = args from UInt32.add_zero args]; exact hargv) hm₂ hb₂ hloop
  cases hpure
  exact ⟨rfl, hm₃, hb₃⟩

end

/-! ## The new image -/

theorem Sound.ramAfter (h : Sound r) (sz : UInt32) : Sound (ramAfter r sz) := by
  unfold Userprog.ramAfter
  split
  · exact h.ramStealmem _
  · exact h

theorem Sound.ramLeft (h : Sound r) (strings : List (List UInt8)) :
    Sound (ramLeft r strings) := by
  induction strings generalizing r with
  | nil => exact h
  | cons s strings ih => exact ih (h.ramAfter _)

/-- The address space that a file gets is the one for which it is accepted. -/
theorem Loaded.eq_of_accepts {v : Vnode} {file : List UInt8} {entry : UInt32} {eh : Ehdr}
    {loads : List Phdr} {as₀ as₁ : AddrSpace} {r' : Ram}
    (h : Loaded file m entry m' eh loads as₀ as₁ r') (ha : Accepts v file m.ram as') :
    as₁ = as' := by
  obtain ⟨eh', loads', as₂, r₂, hp, -⟩ := ha.prepares
  obtain ⟨rfl, rfl⟩ := h.headers.unique hp.headers
  obtain rfl := Except.ok.inj (h.regions.symm.trans hp.regions)
  exact (Prod.mk.inj (Prod.mk.inj (Option.some.inj (h.frames.symm.trans hp.frames))).2).1

/-- **The image of a file that is accepted is built without an error**, with arguments that fit
on the stack. -/
theorem wp_execImage {v : Vnode} {file : List UInt8} (hfound : env.vfsOpen path = .ok v)
    (hsmall : SmallBlocks env m.heap) (hv : v.Serves file) (hr : Sound m.ram)
    (ha : Accepts v file m.ram as') (hroom : depth argv + 4 * argv.length ≤ 12 * 4096)
    (hb : m.badfaultfunc = false) :
    wp (execImage env path argv) (fun _ _ => True) (fun e _ => ∀ errno, e ≠ .error errno) m := by
  obtain ⟨block, hblock⟩ : ∃ block, (env.subpageKmalloc (m.tick env).ticks m.ram).1 = block :=
    ⟨_, rfl⟩
  have hne : block ≠ 0 := hblock ▸ hsmall.found _ _
  have hkeeps := hsmall.keeps (m.tick env).ticks m.ram
  obtain ⟨heap, hc⟩ : ∃ heap, m.heap.asCreate block = some heap := by
    have hfree : ¬ (block = 0 ∨ (m.heap.blocks block).isSome) := by
      rw [← hblock, hsmall.fresh, hblock]
      simp [hne]
    unfold Heap.asCreate
    rw [dif_neg hfree]
    exact ⟨_, rfl⟩
  have hkmalloc : kmalloc env 36 m = .ok block { m.tick env with ram := m.ram } := by
    have : kmalloc env 36 m = .ok (env.subpageKmalloc (m.tick env).ticks m.ram).1
        { m.tick env with ram := (env.subpageKmalloc (m.tick env).ticks m.ram).2 } := rfl
    rw [this, hblock, hkeeps]
  rw [execImage_eq, wp_bind, wp_ofExcept, hfound]
  simp only [asCreateCur, wp_bind, wp_of_ok hkmalloc, wp_get]
  rw [show (m.tick env).heap = m.heap from rfl, hc]
  simp only [wp_bind, wp_set, wp_pure, wp_failIf, if_neg hne, asActivate, wp_modify]
  refine wp_mono (wp_loadElf env hv ⟨(Heap.space_asCreate hc).2.1, rfl, hb⟩) (fun entry m₂ h => ?_)
    fun e m₂ h errno he => ?_
  swap
  · rcases h with ⟨_, -, -, hno⟩ | ⟨rfl, -⟩
    · exact hno as' ha
    · cases he
  obtain ⟨⟨eh, loads, as₀, as₁, r', hl⟩, -⟩ := h
  obtain rfl := hl.eq_of_accepts ha
  have hready : StackReady block as₁ m.ram.lastpaddr m₂ := { hl.loading with
    separate := fun va va' pa hva hva' =>
      translate_injective (hl.prepared hr) r'.firstpaddr.toNat_lt.le hva hva' }
  have hspace : m₂.heap.space m₂.vmspace = some as₁ := hready.vmspace ▸ hready.space
  simp only [asDefineStackCur, wp_bind, wp_get, hspace, wp_assert, wp_pure]
  split
  · refine wp_mono (wp_execStack hready argv entry) (fun _ _ _ => trivial) fun e m₃ h errno he => ?_
    exact not_faulty_stack (by omega) (h (by omega) errno he (.inr ha.pages))
  · intro errno he
    cases he

/-! ## Errors and the address space -/

/-- **A pointer is refused** while the arguments are copied in: it is one of the three that are
tested, the path is empty, or what it points to is not a string of the user. -/
def Refused (program args : UInt32) (m : Machine) : Prop :=
  Tested program ∨ Tested args ∨ StringAt m program [0] ∨ ¬ UserString m program ∨
    ∃ argc, UserArray m args argc ∧
      ∃ i < argc, ∃ w, m.userWord (args + 4 * i) = some w ∧ ¬ UserString m w

/-- **Nothing can fail any more**: the path and the arguments are strings of the user, the path
is found, there are blocks, the loader accepts the file with the memory that is left, and the
arguments and the pointers to them fit on the stack. -/
structure Completes (env : Env) (program args : UInt32) (m : Machine) (path : List UInt8)
    (argv : List (List UInt8)) (v : Vnode) (file : List UInt8) (as' : AddrSpace) : Prop where
  string : StringAt m program path
  array : ArgvAt m args argv
  found : env.vfsOpen path = .ok v
  blocks : SmallBlocks env m.heap
  serves : v.Serves file
  accepts : Accepts v file (ramLeft m.ram (path :: argv)) as'
  room : depth argv + 4 * argv.length ≤ 12 * 4096

theorem countArgs_of_tested (h : Tested args) :
    countArgs env args m = .error (.error .EFAULT) m := by
  rcases h with rfl | rfl | rfl <;> rfl

/-- A refused pointer does not get past the copying of the arguments. -/
theorem Refused.not_ok {copied : List UInt8 × List (List UInt8)} (h : Refused program args m)
    (hm : Caller m) : copyInArgs env program args m ≠ .ok copied m' := by
  intro hrun
  obtain ⟨as, has, hc⟩ := hm.space
  have hK : ∀ m', Following m as m' → Following m as m' := fun _ h => h
  have hcore := core_following env has
  have hstart : Following m as m := ⟨⟨rfl, rfl, rfl⟩, hc⟩
  have hrec : ∀ b va, Records (Following m as) b va := fun _ _ _ h _ => h
  obtain ⟨path, m₁, hpath, hrest⟩ := bind_eq_ok.1 hrun
  obtain ⟨argc, m₂, hcount, hrest₂⟩ := bind_eq_ok.1 hrest
  obtain ⟨argv, m₃, hloop, -⟩ := bind_eq_ok.1 hrest₂
  obtain ⟨hm₁, hb₁, hstr⟩ := (holds_copyPath has hK hcore (fun va _ => hrec true va)
    fun j _ => hrec false _).ok hstart hm.badfaultfunc hpath
  rcases h with ht | ht | hempty | hno | ⟨n, harr, i, hi, w, hw, hno⟩
  · cases (copyPath_of_tested ht).symm.trans hpath
  · cases (countArgs_of_tested ht).symm.trans hcount
  · obtain ⟨k, m₄, hlen, hne, -⟩ := copyPath_eq_ok hpath
    obtain ⟨-, -, hk⟩ := (holds_strlen has hK hcore.toTouching fun j _ => hrec false _).ok hstart
      hm.badfaultfunc hlen
    have hzero : k.toNat + 1 = 1 := hempty.length_eq hk
    exact hne (UInt32.toNat_inj.1 (by rw [UInt32.toNat_zero]; omega))
  · exact hno hstr
  · obtain ⟨hm₂, hb₂, hn⟩ := (holds_countArgs has hK hcore.toTouching fun j _ => hrec false _).ok
      hm₁ hb₁ hcount
    obtain rfl := harr.eq_of_arrayRead hn
    obtain ⟨-, -, hall⟩ := (holds_copyArgsFrom (i := 0) has hK hcore (fun va _ => hrec true va)
      (by rw [UInt32.toNat_zero, Nat.zero_add]; exact argc.toNat_lt)
      (fun j _ => hrec false _) fun j _ w _ j' _ => hrec false _).ok hm₂ hb₂ hloop
    obtain ⟨w', hw', hs⟩ := hall i (le_iff_toNat_le.2 (Nat.zero_le _))
      (by rw [UInt32.toNat_zero, Nat.zero_add]; exact lt_iff_toNat_lt.1 hi)
      (harr.1 i (UInt32.le_of_lt hi))
    rw [Option.some.inj (hw.symm.trans hw')] at hno
    exact hno hs

/-- Memory for small blocks, and a file with two segments under every name. -/
def twoSegmentFiles : Env where
  switches := fun _ => false
  subpageKmalloc := fun _ r => (0x80040020, r)
  vfsOpen := fun _ => .ok (.onePiece twoSegments)

/-- A program with the string `"x"` at `0x400000`, and behind it an array with a pointer to it. -/
def oneArgument : Machine :=
  { oneProgram with
    mem := fun pa => if pa = 0x30000 then 0x78 else if pa = 0x30005 then 0x40 else 0 }

/-- The address space of the file with two segments. -/
def twoSegmentSpace : AddrSpace := ⟨0x400000, 0x3e000, 1, 0x10000000, 0x3f000, 1, 0x40000⟩

theorem caller_oneArgument : Caller oneArgument where
  space := ⟨oneSpace, by decide +kernel, coherent_nil⟩
  badfaultfunc := rfl
  accesses := rfl

theorem stringAt_oneArgument : StringAt oneArgument 0x400000 [0x78, 0] :=
  .more (by decide) (by decide +kernel) (by decide) (.last (by decide) (by decide +kernel))

theorem accepts_twoSegments :
    Accepts (.onePiece twoSegments) twoSegments ⟨0x3e000, 0x400000⟩ twoSegmentSpace where
  prepares := by
    refine ⟨_, _, ⟨0x400000, 0, 1, 0x10000000, 0, 1, 0⟩, ⟨0x4c000, 0x400000⟩,
      ⟨headers_twoSegments, ⟨rfl, rfl, rfl, trivial⟩, by decide +kernel, by decide +kernel⟩, ?_⟩
    refine List.forall_mem_cons.2 ⟨⟨⟨by decide +kernel, ?_⟩, rfl⟩,
      List.forall_mem_cons.2 ⟨⟨⟨by decide +kernel, ?_⟩, rfl⟩, fun _ h => by cases h⟩⟩
    · show ∀ i < 8, _
      decide +kernel
    · show ∀ i < 1, _
      decide +kernel
  pages := by decide

theorem completes_oneArgument : Completes twoSegmentFiles 0x400000 0x400004 oneArgument [0x78, 0]
    [[0x78, 0]] (.onePiece twoSegments) twoSegments twoSegmentSpace where
  string := stringAt_oneArgument
  array := .more (by decide) (by decide +kernel) (by decide) stringAt_oneArgument
    (.null (by decide) (by decide +kernel))
  found := rfl
  blocks := ⟨fun _ _ => show (0x80040020 : UInt32) ≠ 0 by decide,
    fun _ _ => show oneHeap.blocks 0x80040020 = none by decide +kernel, fun _ _ => rfl⟩
  serves := Vnode.serves_onePiece _
  accepts := accepts_twoSegments
  room := by decide

end Userprog

end Os161
