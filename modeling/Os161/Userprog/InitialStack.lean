import Os161.Userprog.LoadedImage
import Os161.Userprog.Model.Runprogram
import Os161.Common.Sparse
import Mathlib.Algebra.GroupWithZero.Nat
/-!
# The initial stack of a program

`sys_execv` and `runprogram` put the arguments of a program onto its stack, and
below them the pointers to them. What a copy does is told by what user addresses
hold before and after it (`Machine.look`, and `patch`); the two loops then are
functions on that, in which nothing is left of frames and of the TLB.
-/

namespace Os161

namespace Userprog

open Vm Prog UInt32 List Option

variable {env : Env} {m m' : Machine} {q lastpaddr va stackptr : UInt32} {as : AddrSpace}
  {arg : List UInt8} {argv : List (List UInt8)} {f : ℕ → Option UInt8} {n top : ℕ}

/-! ## What user addresses hold -/

/-- What `mem` holds at a user address. -/
def view (as : AddrSpace) (mem : Memory) (a : ℕ) : Option UInt8 :=
  (as.translate (ofNat a)).map mem

/-- The byte at a user address. -/
def Machine.look (m : Machine) (a : ℕ) : Option UInt8 := m.userByte (ofNat a)

/-- **Two user addresses never share a byte of memory.** -/
def Separate (as : AddrSpace) : Prop :=
  ∀ ⦃va va' pa⦄, as.translate va = some pa → as.translate va' = some pa → va = va'

/-- **The machine when a program has been loaded.** -/
structure StackReady (q : UInt32) (as : AddrSpace) (lastpaddr : UInt32) (m : Machine) : Prop
    extends Loading q as lastpaddr m where
  separate : Separate as

theorem Loading.look_eq (h : Loading q as lastpaddr m) : m.look = view as m.mem := by
  funext a
  show (m.heap.space m.vmspace).bind _ = _
  rw [h.vmspace, h.space]
  rfl

/-- What `load_elf` leaves. -/
theorem stackReady_of_loadElf {v : Vnode} {file : List UInt8} {entry : UInt32}
    (hv : v.Serves file) (hm : Fresh m) (hr : Sound m.ram) (h : loadElf env v m = .ok entry m') :
    ∃ as, StackReady m.vmspace as m.ram.lastpaddr m' := by
  obtain ⟨⟨eh, loads, as, as', r', hl⟩, -⟩ := (wp_of_ok h).1 (wp_loadElf env hv hm)
  refine ⟨as', { hl.loading with separate := fun va va' pa hva hva' => ?_ }⟩
  exact translate_injective (hl.prepared hr) r'.firstpaddr.toNat_lt.le hva hva'

/-! ## Addresses without a frame -/

/-- An address of a run has no frame. -/
def Faulty (as : AddrSpace) (lastpaddr : UInt32) (lo hi : ℕ) : Prop :=
  ∃ a, lo ≤ a ∧ a < hi ∧ fate as lastpaddr (ofNat a) = .faults

/-- Where the TLB never runs full, an error comes from an address of the run. -/
def FailsIn (env : Env) (as : AddrSpace) (lastpaddr : UInt32) (lo hi : ℕ) (e : Stop Errno) :
    Prop :=
  ∀ errno, e = .error errno → env.Spares as → Faulty as lastpaddr lo hi

theorem FailsIn.mono {lo hi lo' hi' : ℕ} {e : Stop Errno} (h : FailsIn env as lastpaddr lo hi e)
    (hlo : lo' ≤ lo) (hhi : hi ≤ hi') : FailsIn env as lastpaddr lo' hi' e := by
  intro errno he hs
  obtain ⟨a, ha, ha', hf⟩ := h errno he hs
  exact ⟨a, by omega, by omega, hf⟩

theorem fateAt_eq {i : ℕ} :
    fateAt as lastpaddr va i = fate as lastpaddr (ofNat (va.toNat + i)) := by
  rw [fateAt, ofNat_add, UInt32.ofNat_toNat]

theorem CopyStops.failsIn {e : Stop Errno} (h : CopyStops env as lastpaddr va n e)
    (hroom : va.toNat + n ≤ userTop.toNat) :
    FailsIn env as lastpaddr va.toNat (va.toNat + n) e := by
  rintro errno rfl hs
  rcases h with ⟨_, -, hno⟩ | ⟨he, -⟩
  swap
  · cases he
  obtain ⟨hnt, hnh⟩ := hno hs
  -- the first byte that cannot be stored
  have hex : ∃ i, i < n ∧ fateAt as lastpaddr va i ≠ .stored := by
    by_contra hall
    push Not at hall
    exact hnt fun i hi => ⟨by omega, hall i hi⟩
  classical
  obtain ⟨hi, hne⟩ := Nat.find_spec hex
  refine ⟨va.toNat + Nat.find hex, by omega, by omega, ?_⟩
  rw [← fateAt_eq]
  cases hf : fateAt as lastpaddr va (Nat.find hex) with
  | stored => exact absurd hf hne
  | faults => rfl
  | crashes =>
    refine (hnh ⟨hroom, _, hi, hf, fun j hj => ?_⟩).elim
    have := Nat.find_min hex hj
    push Not at this
    exact this (by omega)

/-- **The stack has frames for its twelve pages.** -/
theorem not_faulty_stack {lo : ℕ} (hlo : 2 ^ 31 ≤ lo + 12 * 4096) :
    ¬ Faulty as lastpaddr lo (2 ^ 31) := by
  rintro ⟨a, ha, ha', hf⟩
  have hpage : (ofNat a &&& pageFrame).toNat = a / 4096 * 4096 := by
    rw [toNat_and_pageFrame, toNat_ofNat_of_lt' (show a < 2 ^ 32 by omega)]
  have hstack : as.part (ofNat a &&& pageFrame) ≠ none := by
    unfold AddrSpace.part
    simp only
    split
    · nofun
    split
    · nofun
    rw [if_pos]
    · nofun
    · have hbase : (userStack - dumbvmStackpages * pageSize).toNat = 2 ^ 31 - 12 * 4096 := by
        decide
      have htop : userStack.toNat = 2 ^ 31 := rfl
      rw [ge_iff_le, le_iff_toNat_le, lt_iff_toNat_lt, hbase, htop, hpage]
      omega
  unfold fate at hf
  split at hf
  swap
  · cases hf
  rename_i hset
  obtain ⟨i, hi⟩ := Option.ne_none_iff_exists'.1 hstack
  rw [AddrSpace.translate, AddrSpace.maps, if_pos hset, AddrSpace.frame, hi] at hf
  simp only [map_some] at hf
  split at hf
  · cases hf
  · cases hf

/-! ## One copy -/

theorem view_poke {b : UInt8} {pa : UInt32} (hsep : Separate as) (htr : as.translate va = some pa)
    (mem : Memory) {a : ℕ} (ha : a < 2 ^ 32) :
    view as (poke as mem (va, b)) a = patch (view as mem) va.toNat [some b] a := by
  have hpoke : poke as mem (va, b) = Function.update mem pa b := by
    simp only [poke, htr]
  unfold view
  by_cases hva : a = va.toNat
  · subst hva
    rw [patch_of_mem (le_refl _) (by simp) none, UInt32.ofNat_toNat, htr, hpoke]
    simp
  · have hother : patch (fun a => (as.translate (ofNat a)).map mem) va.toNat [some b] a =
        (as.translate (ofNat a)).map mem := by
      rcases Nat.lt_or_gt_of_ne hva with hlt | hgt
      · exact patch_of_lt hlt
      · exact patch_of_ge hgt
    rw [hother, hpoke]
    cases hpa : as.translate (ofNat a) with
    | none => rfl
    | some pa' =>
      have hne : pa' ≠ pa := by
        rintro rfl
        refine hva ?_
        rw [← hsep hpa htr, toNat_ofNat_of_lt' ha]
      simp only [map_some, Function.update_of_ne hne]

theorem Takes.translate (h : Takes as lastpaddr va n) (hn : 0 < n) :
    ∃ pa, as.translate va = some pa := by
  have hfate : fate as lastpaddr (va + ofNat 0) = .stored := (h 0 hn).2
  rw [show va + UInt32.ofNat 0 = va from UInt32.add_zero va] at hfate
  unfold fate at hfate
  split at hfate
  · cases htr : as.translate va with
    | none =>
      rw [htr] at hfate
      cases hfate
    | some pa => exact ⟨pa, rfl⟩
  · cases hfate

/-- **A run of bytes is stored.** -/
theorem view_storeAll {bs : List UInt8} (hsep : Separate as)
    (ht : Takes as lastpaddr va bs.length) (mem : Memory) {a : ℕ} (ha : a < 2 ^ 32) :
    view as (storeAll as mem va bs) a = patch (view as mem) va.toNat (bs.map some) a := by
  induction bs generalizing va mem with
  | nil =>
    rw [map_nil, patch_nil]
    rfl
  | cons b bs ih =>
    obtain ⟨pa, htr⟩ := ht.translate (by simp)
    have hone : Takes as lastpaddr va 1 := ht.mono (by simp)
    have hrest : Takes as lastpaddr (va + 1) bs.length := by
      refine hone.add_iff.1 ?_
      rw [Nat.add_comm]
      exact ht
    have hnext : (va + 1).toNat = va.toNat + 1 := hone.toNat_add
    have hstore : storeAll as mem va (b :: bs) = storeAll as (poke as mem (va, b)) (va + 1) bs :=
      rfl
    rw [hstore, ih hrest, hnext, map_cons, ← singleton_append, patch_append]
    unfold patch
    rw [view_poke hsep htr mem ha]
    rfl

/-! ## Strings -/

/-- The bytes of a string of the kernel, with its end. -/
def cstr (arg : List UInt8) : List UInt8 := arg.takeWhile (· ≠ 0) ++ [0]

theorem length_cstr (arg : List UInt8) :
    (cstr arg).length = (arg.takeWhile (· ≠ 0)).length + 1 := by
  unfold cstr
  rw [length_append, length_singleton]

/-- **The bytes that `copystr` reads** are those of the string, and the one that
is zero is the last. -/
theorem cstr_getD (arg : List UInt8) {i : ℕ} (hi : i < (cstr arg).length) :
    (cstr arg)[i]? = some (arg.getD i 0) ∧ (arg.getD i 0 = 0 ↔ i + 1 = (cstr arg).length) := by
  induction arg generalizing i with
  | nil =>
    obtain rfl : i = 0 := by
      have : (cstr []).length = 1 := rfl
      omega
    exact ⟨rfl, by simp [cstr]⟩
  | cons b arg ih =>
    by_cases hb : b = 0
    · subst hb
      obtain rfl : i = 0 := by
        have : (cstr (0 :: arg)).length = 1 := rfl
        omega
      exact ⟨rfl, by simp [cstr]⟩
    · have hcons : cstr (b :: arg) = b :: cstr arg := by
        simp [cstr, hb]
      rw [hcons] at hi ⊢
      cases i with
      | zero => exact ⟨rfl, by simp [hb, length_cstr]⟩
      | succ i => simpa using ih (i := i) (by simpa using hi)

theorem toNat_kstrlen (h : (cstr arg).length ≤ 2 ^ 31) :
    (kstrlen arg).toNat + 1 = (cstr arg).length := by
  rw [length_cstr] at h ⊢
  unfold kstrlen
  rw [toNat_ofNat_of_lt' (show _ < 2 ^ 32 by omega)]

/-- The loop of `copystr`, from index `k` on. -/
theorem wp_copystrFrom (hm : Loading q as lastpaddr m) (hb : m.badfaultfunc = true)
    (arg : List UInt8) (tooLong : Errno) (n k : ℕ) (hk : k < (cstr arg).length)
    (hroom : va.toNat + (k + n) ≤ userTop.toNat) :
    wp (copystrFrom (fun i => pure (arg.getD i.toNat 0)) (fun i c => storeByte env (va + i) c)
        tooLong n (ofNat k))
      (fun r m' => Loading q as lastpaddr m' ∧ (∀ bs, r = .ok bs → (cstr arg).length ≤ k + n ∧
        m'.mem = storeAll as m.mem (va + ofNat k) ((cstr arg).drop k) ∧
        ∀ j, k ≤ j → j < (cstr arg).length → fateAt as lastpaddr va j = .stored) ∧
        ∀ e, r = .error e → k + n < (cstr arg).length)
      (fun e _ => StoreStops env as
        (fun f => ∃ j < (cstr arg).length, fateAt as lastpaddr va j = f) e) m := by
  have htop : userTop.toNat = 2 ^ 31 := rfl
  induction n generalizing k m with
  | zero =>
    unfold copystrFrom
    rw [wp_pure]
    exact ⟨hm, (fun bs h => by cases h), fun _ _ => hk⟩
  | succ n ih =>
    have hkNat : (ofNat k).toNat = k := toNat_ofNat_of_lt' (show k < 2 ^ 32 by omega)
    obtain ⟨hget, hzero⟩ := cstr_getD arg hk
    have hlt : va + ofNat k < userTop := by
      rw [lt_iff_toNat_lt, toNat_add_ofNat (by omega)]
      omega
    have hdrop : (cstr arg).drop k = arg.getD k 0 :: (cstr arg).drop (k + 1) := by
      rw [drop_eq_getElem_cons hk]
      congr 1
      rw [getElem?_eq_getElem hk] at hget
      exact some.inj hget
    unfold copystrFrom
    rw [wp_bind, wp_pure, hkNat]
    refine wp_seq (wp_storeByte hm hb hlt (arg.getD k 0)) (fun _ m₁ h₁ => ?_) fun e m₁ h₁ =>
      h₁.2.imp (fun h => ⟨h.1, fun hs => ⟨k, hk, h.2 hs⟩⟩) fun h => ⟨h.1, k, hk, h.2⟩
    obtain ⟨hm₁, hb₁, hmem₁, hfate⟩ := h₁
    rw [wp_bind, wp_pure, wp_ite]
    split
    · next hend =>
      have hlast := hzero.1 hend
      rw [wp_pure]
      refine ⟨hm₁, fun bs _ => ⟨by omega, ?_, fun j hj hj' => ?_⟩, (fun _ h => by cases h)⟩
      · rw [hdrop, drop_eq_nil_of_le (by omega), hmem₁]
        rfl
      · obtain rfl : j = k := by omega
        exact hfate
    · next hend =>
      have hmore : k + 1 < (cstr arg).length := by
        have := mt hzero.2 hend
        omega
      have hnext : ofNat k + 1 = ofNat (k + 1) := (ofNat_add k 1).symm
      rw [hnext]
      refine wp_seq (ih hm₁ hb₁ (k + 1) hmore (by omega)) (fun r m₂ h₂ => ?_) fun _ _ h => h
      obtain ⟨hm₂, hok, hlong⟩ := h₂
      rw [wp_pure]
      refine ⟨hm₂, fun bs hbs => ?_, fun e he => ?_⟩
      swap
      · cases r with
        | error e' =>
          have := hlong e' rfl
          omega
        | ok bs => cases he
      cases r with
      | error e => cases hbs
      | ok bs' =>
        obtain ⟨hlen, hmem₂, hfates⟩ := hok bs' rfl
        refine ⟨by omega, ?_, fun j hj hj' => ?_⟩
        · rw [hmem₂, hdrop, hmem₁]
          show _ = storeAll as (poke as m.mem _) (va + ofNat k + 1) _
          rw [← hnext, UInt32.add_assoc]
        · by_cases hjk : j = k
          · rw [hjk]
            exact hfate
          · exact hfates j (by omega) hj'

/-- **`copyoutstr`** puts the string where it is told. -/
theorem wp_copyoutstr (hm : StackReady q as lastpaddr m) (arg : List UInt8) (len : UInt32) :
    wp (copyoutstr env arg va len)
      (fun _ m' => StackReady q as lastpaddr m' ∧
        va.toNat + (cstr arg).length ≤ userTop.toNat ∧
        ∀ a < 2 ^ 32, m'.look a = patch m.look va.toNat ((cstr arg).map some) a)
      (fun e _ => len.toNat = (cstr arg).length →
        va.toNat + (cstr arg).length ≤ userTop.toNat →
        FailsIn env as lastpaddr va.toNat (va.toNat + (cstr arg).length) e) m := by
  have hcheck : len.toNat = (cstr arg).length → va.toNat + (cstr arg).length ≤ userTop.toNat →
      copycheck va len = .ok len := by
    intro hlen hin
    have hpos := length_cstr arg
    refine copycheck_eq_self.2 ⟨⟨lt_iff_toNat_lt.2 (by omega), by omega⟩, fun hz => ?_⟩
    rw [hz, UInt32.toNat_zero] at hlen
    omega
  unfold copyoutstr
  rw [wp_bind, wp_ofExcept]
  cases hc : copycheck va len with
  | error e =>
    intro hlen hin
    cases hc.symm.trans (hcheck hlen hin)
  | ok stoplen =>
    have hroom := (copycheck_ok hc).2
    simp only [protect, setBadfaultfunc, wp_bind, wp_modify, wp_setjmp]
    have hm₁ : Loading q as lastpaddr { m with badfaultfunc := true } := { hm with }
    have hpos := length_cstr arg
    refine wp_mono (wp_copystrFrom hm₁ rfl arg _ _ 0 (by omega) (by omega)) (fun r m' h => ?_)
      fun e m' _ => ?_
    swap
    · rename_i hstop
      rcases hstop with ⟨rfl, hfault⟩ | ⟨rfl, -⟩
      · refine wp_fail.2 fun _ _ _ _ hs => ?_
        obtain ⟨j, hj, hf⟩ := hfault hs
        exact ⟨va.toNat + j, by omega, by omega, fateAt_eq ▸ hf⟩
      · intro _ _ errno he
        cases he
    obtain ⟨hm', hok, hlong⟩ := h
    simp only [wp_ofExcept]
    cases r with
    | error e =>
      intro hlen hin
      obtain rfl := Except.ok.inj (hc.symm.trans (hcheck hlen hin))
      have := hlong e rfl
      omega
    | ok bs =>
      obtain ⟨hlen, hmem, hfates⟩ := hok bs rfl
      have hready : StackReady q as lastpaddr { m' with badfaultfunc := false } :=
        { hm' with separate := hm.separate }
      have htakes : Takes as lastpaddr va (cstr arg).length := fun j hj =>
        ⟨by omega, hfates j (Nat.zero_le j) hj⟩
      refine ⟨hready, by omega, fun a ha => ?_⟩
      rw [hready.look_eq, hm.look_eq, ← view_storeAll hm.separate htakes m.mem ha]
      rw [show va + UInt32.ofNat 0 = va from UInt32.add_zero va, drop_zero] at hmem
      rw [hmem]

/-! ## The loops -/

/-- The room that an argument takes: its bytes, up to a multiple of four. -/
def blockSize (arg : List UInt8) : ℕ := ((cstr arg).length + 3) / 4 * 4

/-- The room that the arguments take. -/
def depth (argv : List (List UInt8)) : ℕ := (argv.map blockSize).sum

theorem depth_cons (arg : List UInt8) (argv : List (List UInt8)) :
    depth (arg :: argv) = blockSize arg + depth argv := sum_cons

theorem blockSize_spec (arg : List UInt8) :
    (cstr arg).length ≤ blockSize arg ∧ blockSize arg < (cstr arg).length + 4 ∧
      blockSize arg % 4 = 0 := by
  unfold blockSize
  omega

theorem depth_mod (argv : List (List UInt8)) : depth argv % 4 = 0 := by
  induction argv with
  | nil => rfl
  | cons arg argv ih =>
    have := (blockSize_spec arg).2.2
    rw [depth_cons]
    omega

/-- Where the arguments go, below `top`. -/
def argAddrs (top : ℕ) : List (List UInt8) → List ℕ
  | [] => []
  | arg :: argv => (top - depth (arg :: argv)) :: argAddrs top argv

/-- What the addresses hold when the arguments are there. -/
def argsView (f : ℕ → Option UInt8) (top : ℕ) : List (List UInt8) → ℕ → Option UInt8
  | [] => f
  | arg :: argv => patch (argsView f top argv) (top - depth (arg :: argv)) ((cstr arg).map some)

/-- What the addresses hold when the pointers are there as well. -/
def pointersView (f : ℕ → Option UInt8) (top : ℕ) : List UInt32 → ℕ → Option UInt8
  | [] => f
  | pointer :: rest =>
    patch (pointersView f top rest) (top - 4 * (rest.length + 1)) ((wordBytes pointer).map some)

theorem toNat_blockLen (h : (cstr arg).length ≤ 2 ^ 31) : (blockLen arg).toNat = blockSize arg := by
  have hfour : (4 : UInt32).toNat = 4 := rfl
  have hlen : (kstrlen arg + 1).toNat = (cstr arg).length := by
    rw [UInt32.toNat_add, UInt32.toNat_one, toNat_kstrlen h]
    omega
  have hmod : (kstrlen arg + 1) % 4 = 0 ↔ (cstr arg).length % 4 = 0 := by
    rw [← UInt32.toNat_inj, UInt32.toNat_mod, hlen, hfour, UInt32.toNat_zero]
  unfold blockLen blockSize
  dsimp only
  split
  · next h0 =>
    have := hmod.1 h0
    omega
  · next h0 =>
    have := mt hmod.2 h0
    rw [UInt32.toNat_add, UInt32.toNat_sub, UInt32.toNat_mod, hlen, hfour]
    omega

/-- The state after the arguments have been put below `stackptr`. -/
structure ArgsDone (q : UInt32) (as : AddrSpace) (lastpaddr : UInt32) (m : Machine)
    (argv : List (List UInt8)) (stackptr : UInt32) (r : List UInt32 × UInt32) (m' : Machine) :
    Prop where
  ready : StackReady q as lastpaddr m'
  room : depth argv ≤ stackptr.toNat
  sp : r.2.toNat = stackptr.toNat - depth argv
  pointers : r.1.map toNat = argAddrs stackptr.toNat argv
  look : ∀ a < 2 ^ 32, m'.look a = argsView m.look stackptr.toNat argv a

/-- One argument more. -/
theorem ArgsDone.cons {r : List UInt32 × UInt32} {m₁ : Machine}
    (h : ArgsDone q as lastpaddr m argv stackptr r m₁)
    (hready : StackReady q as lastpaddr m')
    (hroom : (r.2 - blockLen arg).toNat + (cstr arg).length ≤ userTop.toNat)
    (hlook : ∀ a < 2 ^ 32, m'.look a =
      patch m₁.look (r.2 - blockLen arg).toNat ((cstr arg).map some) a) :
    ArgsDone q as lastpaddr m (arg :: argv) stackptr
      ((r.2 - blockLen arg) :: r.1, r.2 - blockLen arg) m' := by
  have huser : userTop.toNat = 2 ^ 31 := rfl
  have hblock : (blockLen arg).toNat = blockSize arg := toNat_blockLen (by omega)
  have hsize := blockSize_spec arg
  have hlen := length_cstr arg
  have hsp := h.sp
  have hdepth := h.room
  have hcons := depth_cons arg argv
  -- a stack pointer that has wrapped around is not a user address
  have hle : blockSize arg ≤ r.2.toNat := by
    by_contra hlt
    rw [UInt32.toNat_sub, hblock] at hroom
    omega
  have hdst : (r.2 - blockLen arg).toNat = stackptr.toNat - depth (arg :: argv) := by
    rw [UInt32.toNat_sub_of_le _ _ (UInt32.le_iff_toNat_le.2 (by omega)), hblock]
    omega
  refine ⟨hready, by omega, hdst, ?_, fun a ha => ?_⟩
  · rw [map_cons, h.pointers, hdst]
    rfl
  · rw [hlook a ha, hdst]
    unfold argsView patch
    rw [h.look a ha]

/-- **The first loop of `sys_execv`.** -/
theorem wp_copyoutArgs (hm : StackReady q as lastpaddr m) (argv : List (List UInt8)) :
    wp (copyoutArgs env argv stackptr) (ArgsDone q as lastpaddr m argv stackptr)
      (fun e _ => stackptr.toNat ≤ 2 ^ 31 → depth argv ≤ stackptr.toNat →
        FailsIn env as lastpaddr (stackptr.toNat - depth argv) stackptr.toNat e) m := by
  induction argv with
  | nil =>
    unfold copyoutArgs
    rw [wp_pure]
    exact ⟨hm, Nat.zero_le _, rfl, rfl, fun _ _ => rfl⟩
  | cons arg argv ih =>
    unfold copyoutArgs
    have hcons := depth_cons arg argv
    refine wp_seq ih (fun r m₁ h₁ => ?_) fun e m₁ h₁ htop hroom =>
      (h₁ htop (by omega)).mono (by omega) le_rfl
    refine wp_seq (wp_copyoutstr h₁.ready arg _) (fun _ m₂ h₂ => ?_) fun e m₂ h₂ htop hroom => ?_
    swap
    · have hsize := blockSize_spec arg
      have hsp := h₁.sp
      have huser : userTop.toNat = 2 ^ 31 := rfl
      have hlen : (kstrlen arg + 1).toNat = (cstr arg).length := by
        rw [UInt32.toNat_add, UInt32.toNat_one, toNat_kstrlen (by omega)]
        omega
      have hdst : (r.2 - blockLen arg).toNat = stackptr.toNat - depth (arg :: argv) := by
        have hblock : (blockLen arg).toNat = blockSize arg := toNat_blockLen (by omega)
        rw [UInt32.toNat_sub_of_le _ _ (UInt32.le_iff_toNat_le.2 (by omega)), hblock]
        omega
      exact (h₂ hlen (by omega)).mono (by omega) (by omega)
    obtain ⟨hready, hroom, hlook⟩ := h₂
    rw [wp_pure]
    exact h₁.cons hready hroom hlook

theorem toInt_toInt32 (w : UInt32) : w.toInt32.toInt = (w.toNat : ℤ).bmod (2 ^ 32) :=
  BitVec.toInt_eq_toNat_bmod _

theorem toInt32_mod_four {w : UInt32} (h : w.toNat ≤ 2 ^ 31) :
    w.toInt32 % 4 = (w % 4).toInt32 := by
  have hfour : (4 : UInt32).toNat = 4 := rfl
  have hfour' : (4 : Int32).toInt = 4 := rfl
  refine Int32.toInt_inj.1 ?_
  rw [Int32.toInt_mod, toInt_toInt32, toInt_toInt32, UInt32.toNat_mod, hfour, hfour']
  rcases Nat.lt_or_ge w.toNat (2 ^ 31) with hlt | hge
  · rw [Int.bmod_eq_of_le (by omega) (by omega), Int.bmod_eq_of_le (by omega) (by omega),
      Int.tmod_eq_emod_of_nonneg (by omega)]
    omega
  · have hw : w.toNat = 2 ^ 31 := by omega
    rw [hw]
    rfl

/-- **The two computations of a block's length agree** on every string that can
be copied. -/
theorem runBlockLen_eq (h : (cstr arg).length ≤ 2 ^ 31) :
    (runBlockLen (kstrlen arg).toInt32).toUInt32 = blockLen arg := by
  have hlen : (kstrlen arg + 1).toNat ≤ 2 ^ 31 := by
    rw [UInt32.toNat_add, UInt32.toNat_one, toNat_kstrlen h]
    omega
  have hadd : (kstrlen arg).toInt32 + 1 = (kstrlen arg + 1).toInt32 :=
    (toInt32_add _ 1).symm
  have hmod := toInt32_mod_four hlen
  have hzero : (kstrlen arg + 1).toInt32 % 4 = 0 ↔ (kstrlen arg + 1) % 4 = 0 := by
    rw [hmod]
    refine ⟨fun h0 => ?_, fun h0 => by rw [h0]; rfl⟩
    have := congrArg Int32.toUInt32 h0
    rwa [toUInt32_toInt32] at this
  unfold runBlockLen blockLen
  rw [hadd]
  by_cases h0 : (kstrlen arg + 1) % 4 = 0
  · rw [if_pos h0, if_pos (hzero.2 h0), toUInt32_toInt32]
  · rw [if_neg h0, if_neg (mt hzero.1 h0), hmod, Int32.toUInt32_sub, Int32.toUInt32_add,
      toUInt32_toInt32, toUInt32_toInt32, Int32.toUInt32_ofNat,
      UInt32.sub_eq_add_neg, UInt32.sub_eq_add_neg, UInt32.add_assoc]

/-- **The first loop of `runprogram`.** -/
theorem wp_runArgs (hm : StackReady q as lastpaddr m) (argv : List (List UInt8)) :
    wp (runArgs env argv stackptr) (ArgsDone q as lastpaddr m argv stackptr)
      (fun _ _ => True) m := by
  induction argv with
  | nil =>
    unfold runArgs
    rw [wp_pure]
    exact ⟨hm, Nat.zero_le _, rfl, rfl, fun _ _ => rfl⟩
  | cons arg argv ih =>
    unfold runArgs
    refine wp_seq ih (fun r m₁ h₁ => ?_) fun _ _ _ => trivial
    refine wp_seq (wp_copyoutstr h₁.ready arg _) (fun _ m₂ h₂ => ?_) fun _ _ _ => trivial
    obtain ⟨hready, hroom, hlook⟩ := h₂
    have htop : userTop.toNat = 2 ^ 31 := rfl
    rw [runBlockLen_eq (by omega)] at hroom hlook ⊢
    rw [wp_pure]
    exact h₁.cons hready hroom hlook

/-- The state after the pointers have been put below `stackptr`. -/
structure PointersDone (q : UInt32) (as : AddrSpace) (lastpaddr : UInt32) (m : Machine)
    (pointers : List UInt32) (stackptr sp : UInt32) (m' : Machine) : Prop where
  ready : StackReady q as lastpaddr m'
  room : 4 * pointers.length ≤ stackptr.toNat
  sp : sp.toNat = stackptr.toNat - 4 * pointers.length
  look : ∀ a < 2 ^ 32, m'.look a = pointersView m.look stackptr.toNat pointers a

theorem PointersDone.nil (hm : StackReady q as lastpaddr m) :
    PointersDone q as lastpaddr m [] stackptr stackptr m :=
  ⟨hm, Nat.zero_le _, rfl, fun _ _ => rfl⟩

variable {pointers : List UInt32}

/-- One pointer more. -/
theorem PointersDone.cons {pointer sp : UInt32} {m₁ : Machine}
    (h : PointersDone q as lastpaddr m pointers stackptr sp m₁)
    (hm' : Loading q as lastpaddr m') (hmem : m'.mem = storeAll as m₁.mem (sp - 4)
      (wordBytes pointer))
    (ht : Takes as lastpaddr (sp - 4) 4) :
    PointersDone q as lastpaddr m (pointer :: pointers) stackptr (sp - 4) m' := by
  have hready : StackReady q as lastpaddr m' := { hm' with separate := h.ready.separate }
  have huser : userTop.toNat = 2 ^ 31 := rfl
  have hfour : (4 : UInt32).toNat = 4 := rfl
  have hlast := (ht 3 (by omega)).1
  have hroom := h.room
  have hsp := h.sp
  have hle : 4 ≤ sp.toNat := by
    by_contra hlt
    rw [UInt32.toNat_sub, hfour] at hlast
    omega
  have hdst : (sp - 4).toNat = stackptr.toNat - 4 * (pointers.length + 1) := by
    rw [UInt32.toNat_sub_of_le _ _ (UInt32.le_iff_toNat_le.2 (by rw [hfour]; exact hle)), hfour]
    omega
  refine ⟨hready, by rw [length_cons]; omega, hdst, fun a ha => ?_⟩
  rw [hready.look_eq, hmem, view_storeAll hready.separate ht m₁.mem ha, hdst]
  unfold pointersView patch
  rw [← h.look a ha, h.ready.look_eq]

/-- **The second loop of `sys_execv`.** -/
theorem wp_copyoutPointers (hm : StackReady q as lastpaddr m) (pointers : List UInt32) :
    wp (copyoutPointers env pointers stackptr)
      (PointersDone q as lastpaddr m pointers stackptr)
      (fun e _ => stackptr.toNat ≤ 2 ^ 31 → 4 * pointers.length ≤ stackptr.toNat →
        FailsIn env as lastpaddr (stackptr.toNat - 4 * pointers.length) stackptr.toNat e) m := by
  induction pointers with
  | nil =>
    unfold copyoutPointers
    rw [wp_pure]
    exact .nil hm
  | cons pointer pointers ih =>
    unfold copyoutPointers
    have hcons : (pointer :: pointers).length = pointers.length + 1 := rfl
    refine wp_seq ih (fun sp m₁ h₁ => ?_) fun e m₁ h₁ htop hroom =>
      (h₁ htop (by omega)).mono (by omega) le_rfl
    refine wp_seq (wp_copyout h₁.ready.toLoading
      (show 0 < (wordBytes pointer).length by simp [wordBytes]) (by simp [wordBytes]))
        (fun _ m₂ h₂ => ?_) fun e m₂ h₂ htop hroom => ?_
    swap
    · have hsp := h₁.sp
      have huser : userTop.toNat = 2 ^ 31 := rfl
      have hfour : (wordBytes pointer).length = 4 := rfl
      have hdst : (sp - 4).toNat = stackptr.toNat - 4 * (pointers.length + 1) := by
        have hle : (4 : UInt32) ≤ sp := UInt32.le_iff_toNat_le.2 (show 4 ≤ sp.toNat by omega)
        rw [UInt32.toNat_sub_of_le _ _ hle]
        show sp.toNat - 4 = _
        omega
      exact (h₂.2.failsIn (by omega)).mono (by omega) (by omega)
    obtain ⟨hm₂, -, hmem, ht⟩ := h₂
    rw [wp_pure]
    exact h₁.cons hm₂ hmem ht

/-- **The second loop of `runprogram`**, when no `copyout` fails. -/
theorem wp_runPointers (hm : StackReady q as lastpaddr m) (pointers : List UInt32) :
    wp (runPointers env pointers stackptr)
      (fun r m' => StackReady q as lastpaddr m' ∧ ((∀ x ∈ r.2, x = .ok ()) →
        PointersDone q as lastpaddr m pointers stackptr r.1 m')) (fun _ _ => True) m := by
  induction pointers with
  | nil =>
    unfold runPointers
    rw [wp_pure]
    exact ⟨hm, fun _ => .nil hm⟩
  | cons pointer pointers ih =>
    unfold runPointers
    refine wp_seq ih (fun r m₁ h₁ => ?_) fun _ _ _ => trivial
    obtain ⟨hready, hdone⟩ := h₁
    rw [wp_bind, wp_result]
    refine wp_mono (wp_copyout hready.toLoading
      (show 0 < (wordBytes pointer).length by simp [wordBytes]) (by simp [wordBytes]))
        (fun _ m₂ h₂ => ?_) fun e m₂ h₂ => ?_
    · obtain ⟨hm₂, -, hmem, ht⟩ := h₂
      rw [wp_pure]
      refine ⟨{ hm₂ with separate := hready.separate }, fun hall => ?_⟩
      exact (hdone fun x hx => hall x (mem_cons_of_mem _ hx)).cons hm₂ hmem ht
    · cases e with
      | error e =>
        dsimp only
        rw [wp_pure]
        refine ⟨{ h₂.1 with separate := hready.separate }, fun hall => ?_⟩
        cases hall _ mem_cons_self
      | longjmp | halt => trivial

/-! ## The layout -/

theorem depth_drop_le (argv : List (List UInt8)) {i j : ℕ} (h : i ≤ j) :
    depth (argv.drop j) ≤ depth (argv.drop i) := by
  induction argv generalizing i j with
  | nil => simp
  | cons arg argv ih =>
    cases j with
    | zero =>
      obtain rfl : i = 0 := by omega
      exact le_refl _
    | succ j =>
      cases i with
      | zero =>
        have := ih (Nat.zero_le j)
        rw [drop_zero] at this ⊢
        rw [drop_succ_cons, depth_cons]
        omega
      | succ i => exact ih (by omega)

theorem depth_drop (h : argv[n]? = some arg) :
    depth (argv.drop n) = blockSize arg + depth (argv.drop (n + 1)) := by
  obtain ⟨hlt, hget⟩ := List.getElem?_eq_some_iff.1 h
  rw [drop_eq_getElem_cons hlt, hget, depth_cons]

theorem getElem?_argAddrs (top : ℕ) (h : n < argv.length) :
    (argAddrs top argv)[n]? = some (top - depth (argv.drop n)) := by
  induction argv generalizing n with
  | nil => cases h
  | cons arg argv ih =>
    cases n with
    | zero => rfl
    | succ n => exact ih (by simpa using h)

/-- **An argument is where its pointer says.** -/
theorem slice_argsView (hroom : depth argv ≤ top) (h : argv[n]? = some arg) :
    slice (argsView f top argv) (top - depth (argv.drop n)) (cstr arg).length =
      (cstr arg).map some := by
  induction argv generalizing n with
  | nil => cases h
  | cons arg' argv ih =>
    have hsize := blockSize_spec arg'
    have hcons := depth_cons arg' argv
    cases n with
    | zero =>
      obtain rfl : arg' = arg := some.inj h
      have := slice_patch (f := argsView f top argv) (o := top - depth (arg' :: argv))
        (l := (cstr arg').map some)
      rwa [length_map] at this
    | succ n =>
      have hbelow := depth_drop_le argv (Nat.zero_le n)
      rw [drop_zero] at hbelow
      refine (slice_patch_of_disjoint (.inl ?_)).trans (ih (by omega) h)
      rw [length_map, drop_succ_cons]
      omega

theorem argsView_of_lt {p : ℕ} (hp : p < top - depth argv) : argsView f top argv p = f p := by
  induction argv with
  | nil => rfl
  | cons arg argv ih =>
    have hcons := depth_cons arg argv
    exact (patch_of_lt hp).trans (ih (by omega))

/-- **A pointer is where the table has it.** -/
theorem slice_pointersView {pointer : UInt32}
    (hroom : 4 * pointers.length ≤ top) (h : pointers[n]? = some pointer) :
    slice (pointersView f top pointers) (top - 4 * pointers.length + 4 * n) 4 =
      (wordBytes pointer).map some := by
  induction pointers generalizing n with
  | nil => cases h
  | cons pointer' pointers ih =>
    rw [length_cons] at hroom ⊢
    cases n with
    | zero =>
      obtain rfl : pointer' = pointer := some.inj h
      exact slice_patch (f := pointersView f top pointers)
    | succ n =>
      have hih := ih (n := n) (by omega) h
      rw [show top - 4 * (pointers.length + 1) + 4 * (n + 1) =
        top - 4 * pointers.length + 4 * n by omega]
      refine (slice_patch_of_disjoint (.inl ?_)).trans hih
      show top - 4 * (pointers.length + 1) + 4 ≤ _
      omega

/-- The pointers are below `top`. -/
theorem pointersView_of_ge {p : ℕ} (hroom : 4 * pointers.length ≤ top)
    (hp : top ≤ p) : pointersView f top pointers p = f p := by
  induction pointers with
  | nil => rfl
  | cons pointer pointers ih =>
    rw [length_cons] at hroom
    refine (patch_of_ge ?_).trans (ih (by omega))
    show top - 4 * (pointers.length + 1) + 4 ≤ p
    omega

/-- What an address holds in the end depends on what it held. -/
theorem argsView_congr {g : ℕ → Option UInt8} {p : ℕ} (h : f p = g p) :
    argsView f top argv p = argsView g top argv p := by
  induction argv with
  | nil => exact h
  | cons arg argv ih =>
    unfold argsView patch
    rw [ih]

theorem pointersView_congr {g : ℕ → Option UInt8} {p : ℕ}
    (h : f p = g p) : pointersView f top pointers p = pointersView g top pointers p := by
  induction pointers with
  | nil => exact h
  | cons pointer pointers ih =>
    unfold pointersView patch
    rw [ih]

/-! ## Both programs -/

/-- `sys_execv` after its `as_define_stack`. -/
def execStack (env : Env) (argv : List (List UInt8)) (stackptr entrypoint : UInt32) :
    Kernel Trapframe := do
  let (pointers, stackptr) ← copyoutArgs env argv stackptr
  let stackptr ← copyoutPointers env pointers stackptr
  pure (mdUsermode (ofNat argv.length) stackptr stackptr entrypoint)

theorem execImage_eq (env : Env) (programPath : List UInt8) (argv : List (List UInt8)) :
    execImage env programPath argv = (do
      let v ← Prog.ofExcept (env.vfsOpen programPath)
      let vmspace ← asCreateCur env
      Prog.failIf (vmspace = 0) .ENOMEM
      asActivate
      let entrypoint ← loadElf env v
      let stackptr ← asDefineStackCur
      execStack env argv stackptr entrypoint) := rfl

/-- **The arguments and the pointers are there**, and the program starts with
them. -/
structure StackDone (q : UInt32) (as : AddrSpace) (lastpaddr : UInt32) (m : Machine)
    (argv : List (List UInt8)) (entrypoint : UInt32) (tf : Trapframe) (m' : Machine) : Prop where
  ready : StackReady q as lastpaddr m'
  room : depth argv + 4 * argv.length ≤ 2 ^ 31
  sp : tf.tfSp.toNat = 2 ^ 31 - depth argv - 4 * argv.length
  tf : tf = mdUsermode (ofNat argv.length) tf.tfSp tf.tfSp entrypoint
  look : ∃ pointers : List UInt32, pointers.map toNat = argAddrs (2 ^ 31) argv ∧
    ∀ a < 2 ^ 32, m'.look a =
      pointersView (argsView m.look (2 ^ 31) argv) (2 ^ 31 - depth argv) pointers a

theorem length_argAddrs (top : ℕ) (argv : List (List UInt8)) :
    (argAddrs top argv).length = argv.length := by
  induction argv with
  | nil => rfl
  | cons arg argv ih => exact congrArg (· + 1) ih

variable {entrypoint : UInt32}

theorem StackDone.of_loops {r : List UInt32 × UInt32} {m₁ : Machine} {sp : UInt32}
    (h : ArgsDone q as lastpaddr m argv userStack r m₁)
    (h' : PointersDone q as lastpaddr m₁ r.1 r.2 sp m') :
    StackDone q as lastpaddr m argv entrypoint
      (mdUsermode (ofNat argv.length) sp sp entrypoint) m' := by
  have htop : userStack.toNat = 2 ^ 31 := rfl
  have hlen : r.1.length = argv.length := by
    rw [← length_argAddrs userStack.toNat argv, ← h.pointers, length_map]
  have hroom := h.room
  have hsp := h.sp
  have hroom' := h'.room
  have hsp' := h'.sp
  refine ⟨h'.ready, by omega, ?_, rfl, r.1, h.pointers, fun a ha => ?_⟩
  · show sp.toNat = _
    omega
  · rw [h'.look a ha, hsp]
    exact pointersView_congr (h.look a ha)

theorem wp_execStack (hm : StackReady q as lastpaddr m) (argv : List (List UInt8))
    (entrypoint : UInt32) :
    wp (execStack env argv userStack entrypoint) (StackDone q as lastpaddr m argv entrypoint)
      (fun e _ => depth argv + 4 * argv.length ≤ 2 ^ 31 →
        FailsIn env as lastpaddr (2 ^ 31 - (depth argv + 4 * argv.length)) (2 ^ 31) e) m := by
  have htop : userStack.toNat = 2 ^ 31 := rfl
  unfold execStack
  refine wp_seq (wp_copyoutArgs hm argv) (fun r m₁ h₁ => ?_) fun e m₁ h₁ hroom =>
    (h₁ htop.le (by omega)).mono (by omega) htop.le
  refine wp_seq (wp_copyoutPointers h₁.ready r.1) (fun sp m₂ h₂ => ?_) fun e m₂ h₂ hroom => ?_
  swap
  · have hsp := h₁.sp
    have hlen : r.1.length = argv.length := by
      rw [← length_argAddrs userStack.toNat argv, ← h₁.pointers, length_map]
    exact (h₂ (by omega) (by omega)).mono (by omega) (by omega)
  rw [wp_pure]
  exact .of_loops h₁ h₂

theorem wp_runStack (hm : StackReady q as lastpaddr m) (argv : List (List UInt8))
    (entrypoint : UInt32) :
    wp (runStack env argv userStack entrypoint)
      (fun r m' => (∀ x ∈ r.2, x = .ok ()) → StackDone q as lastpaddr m argv entrypoint r.1 m')
      (fun _ _ => True) m := by
  unfold runStack
  refine wp_seq (wp_runArgs hm argv) (fun r m₁ h₁ => ?_) fun _ _ _ => trivial
  refine wp_seq (wp_runPointers h₁.ready r.1) (fun r' m₂ h₂ => ?_) fun _ _ _ => trivial
  rw [wp_pure]
  exact fun hall => .of_loops h₁ (h₂.2 hall)

/-- **The layout of the initial stack.** -/
structure StackLayout (argv : List (List UInt8)) (sp : UInt32) (m : Machine) : Prop where
  aligned : sp.toNat % 4 = 0
  pointers : ∃ a : ℕ → UInt32, ∀ i arg, argv[i]? = some arg →
    slice m.look (sp.toNat + 4 * i) 4 = (wordBytes (a i)).map some ∧
    sp.toNat + 4 * argv.length ≤ (a i).toNat ∧
    (a i).toNat + (cstr arg).length ≤ userStack.toNat ∧
    slice m.look (a i).toNat (cstr arg).length = (cstr arg).map some ∧
    ∀ j, i < j → j < argv.length → (a i).toNat + (cstr arg).length ≤ (a j).toNat

theorem StackDone.layout {tf : Trapframe}
    (h : StackDone q as lastpaddr m argv entrypoint tf m') : StackLayout argv tf.tfSp m' := by
  obtain ⟨pointers, hpointers, hlook⟩ := h.look
  have htop : userStack.toNat = 2 ^ 31 := rfl
  have hroom := h.room
  have hsp := h.sp
  have hmod := depth_mod argv
  have hlen : pointers.length = argv.length := by
    rw [← length_argAddrs (2 ^ 31) argv, ← hpointers, length_map]
  -- the pointer to argument `i`
  have haddr : ∀ i < argv.length, (pointers.getD i 0).toNat = 2 ^ 31 - depth (argv.drop i) := by
    intro i hi
    have hget := getElem?_argAddrs (2 ^ 31) hi
    rw [← hpointers, getElem?_map, getElem?_eq_getElem (by omega)] at hget
    rw [getD_eq_getElem _ _ (by omega)]
    exact some.inj hget
  refine ⟨by omega, fun i => pointers.getD i 0, fun i arg hi => ?_⟩
  have hlt := (List.getElem?_eq_some_iff.1 hi).1
  have hdrop := depth_drop hi
  have hle := depth_drop_le argv (Nat.zero_le i)
  have hsize := blockSize_spec arg
  rw [drop_zero] at hle
  have hi' := haddr i hlt
  have hslice : slice m'.look (pointers.getD i 0).toNat (cstr arg).length =
      (cstr arg).map some := by
    rw [hi', ← slice_argsView (f := m.look) (show depth argv ≤ 2 ^ 31 by omega) hi]
    refine slice_congr fun p hp hp' => ?_
    rw [hlook p (by omega), pointersView_of_ge (by omega) (by omega)]
  dsimp only
  refine ⟨?_, by omega, by omega, hslice, fun j hij hj => ?_⟩
  · have hget : pointers[i]? = some (pointers.getD i 0) := by
      rw [getD_eq_getElem _ _ (by omega), getElem?_eq_getElem]
    rw [← slice_pointersView (f := argsView m.look (2 ^ 31) argv)
      (show 4 * pointers.length ≤ 2 ^ 31 - depth argv by omega) hget, hlen, ← hsp]
    exact slice_congr fun p hp hp' => hlook p (by omega)
  · have := depth_drop_le argv (show i + 1 ≤ j by omega)
    rw [haddr j hj]
    omega

/-- Two programs start with the same stack if they had the same. -/
theorem StackDone.unique {tf tf₂ : Trapframe} {q₂ lastpaddr₂ : UInt32}
    {as₂ : AddrSpace} {m₂ m₂' : Machine} (h : StackDone q as lastpaddr m argv entrypoint tf m')
    (h₂ : StackDone q₂ as₂ lastpaddr₂ m₂ argv entrypoint tf₂ m₂') :
    tf₂ = tf ∧ ∀ a < 2 ^ 32, m₂.look a = m.look a → m₂'.look a = m'.look a := by
  obtain ⟨pointers, hpointers, hlook⟩ := h.look
  obtain ⟨pointers₂, hpointers₂, hlook₂⟩ := h₂.look
  have hsp : tf₂.tfSp = tf.tfSp := UInt32.toNat_inj.1 (h₂.sp.trans h.sp.symm)
  have heq : pointers₂ = pointers :=
    map_injective_iff.2 (fun _ _ => UInt32.toNat_inj.1) (hpointers₂.trans hpointers.symm)
  refine ⟨by rw [h₂.tf, h.tf, hsp], fun a ha hsame => ?_⟩
  rw [hlook a ha, hlook₂ a ha, heq]
  exact pointersView_congr (argsView_congr hsame)

/-- **The initial stack.** What the loops of `sys_execv` leave when they return,
and what those of `runprogram` leave when every `copyout` succeeds. -/
theorem initial_stack {tf : Trapframe} (hm : StackReady q as lastpaddr m)
    (hrun : execStack env argv userStack entrypoint m = .ok tf m') :
    StackLayout argv tf.tfSp m' ∧ tf.tfA0.toNat = argv.length ∧ tf.tfA1 = tf.tfSp ∧
      ∀ env₂ q₂ as₂ lastpaddr₂ m₂ tf₂ results m₂', StackReady q₂ as₂ lastpaddr₂ m₂ →
        runStack env₂ argv userStack entrypoint m₂ = .ok (tf₂, results) m₂' →
        (∀ x ∈ results, x = .ok ()) →
        tf₂ = tf ∧ ∀ a < 2 ^ 32, m₂.look a = m.look a → m₂'.look a = m'.look a := by
  have hdone := (wp_of_ok hrun).1 (wp_execStack hm argv entrypoint)
  have hroom := hdone.room
  refine ⟨hdone.layout, ?_, ?_, ?_⟩
  · rw [hdone.tf]
    exact toNat_ofNat_of_lt' (show argv.length < 2 ^ 32 by omega)
  · rw [hdone.tf]
    rfl
  · intro env₂ q₂ as₂ lastpaddr₂ m₂ tf₂ results m₂' hm₂ hrun₂ hall
    exact hdone.unique ((wp_of_ok hrun₂).1 (wp_runStack hm₂ argv entrypoint) hall)

/-- Whether a program returns, in a state that passes a test. -/
def passes {α : Type} (x : Kernel α) (p : α → Machine → Bool) (m : Machine) : Bool :=
  match x m with
  | .ok a m' => p a m'
  | .error _ _ => false

theorem exists_of_passes {α : Type} {x : Kernel α} {p : α → Machine → Bool}
    (h : passes x p m = true) : ∃ a m', x m = .ok a m' ∧ p a m' = true := by
  unfold passes at h
  cases hr : x m with
  | ok a m' => exact ⟨a, m', rfl, by rwa [hr] at h⟩
  | error e m' => rw [hr] at h; cases h

theorem stackReady_of_twoSegments {entry : UInt32}
    (hload : loadElf takesTurns (.onePiece twoSegments) (newSpace ⟨0x30000, 0x400000⟩) =
      .ok entry m) : ∃ as, StackReady 0x80040000 as 0x400000 m :=
  stackReady_of_loadElf (Vnode.serves_onePiece twoSegments) (fresh_newSpace _)
    ⟨by decide, by decide⟩ hload

/-- The arguments `"a"` and `"bc"`. -/
theorem initial_stack_two_arguments :
    ∃ entry m tf m', loadElf takesTurns (.onePiece twoSegments) (newSpace ⟨0x30000, 0x400000⟩) =
        .ok entry m ∧
      execStack takesTurns [[0x61, 0], [0x62, 0x63, 0]] userStack entry m = .ok tf m' ∧
      StackLayout [[0x61, 0], [0x62, 0x63, 0]] tf.tfSp m' ∧ tf.tfA1 = tf.tfSp := by
  obtain ⟨entry, m, hload, hp⟩ := exists_ok_of (loadElf takesTurns (.onePiece twoSegments))
    (newSpace ⟨0x30000, 0x400000⟩)
    (fun entry m => passes (execStack takesTurns [[0x61, 0], [0x62, 0x63, 0]] userStack entry)
      (fun _ _ => true) m) (by decide +kernel)
  obtain ⟨as, hready⟩ := stackReady_of_twoSegments hload
  obtain ⟨tf, m', hrun, -⟩ := exists_of_passes hp
  obtain ⟨hlayout, -, hargv, -⟩ := initial_stack hready hrun
  exact ⟨entry, m, tf, m', hload, hrun, hlayout, hargv⟩

end Userprog

end Os161
