import Os161.Userprog.Stores
/-!
# The loader, one function at a time

A specification for each function between `uiomove` and `load_elf`, over a file
of which `VOP_READ` reads the bytes (`Vnode.Serves`). A structure that is read
into a buffer of the kernel leaves the machine alone. A segment that is read to
user addresses is stored there byte for byte, and where this fails the
specification says how the fates of its addresses made it fail.
-/

namespace Os161

namespace Userprog

open Vm Prog List Option

variable {env : Env} {v : Vnode} {file : List UInt8} {m m' : Machine} {q lastpaddr va : UInt32}
  {as : AddrSpace} {uio : Uio} {n k : ℕ}

/-! ## `uiomove` -/

namespace Uio

/-- A `uio` that reads into user memory. -/
structure ReadsUser (uio : Uio) (q : UInt32) : Prop where
  segflg : uio.uioSegflg ≠ .sysspace
  rw : uio.uioRw = .read
  space : uio.uioSpace = q

/-- What `uiomove` makes of the fields after `n` bytes. -/
def advance (uio : Uio) (n : UInt32) : Uio :=
  { uio with iovUbase := uio.iovUbase + n, iovLen := uio.iovLen - n,
             uioResid := uio.uioResid - n, uioOffset := uio.uioOffset + n }

theorem ReadsUser.advance (h : uio.ReadsUser q) (n : UInt32) : (uio.advance n).ReadsUser q :=
  ⟨h.segflg, h.rw, h.space⟩

@[simp] theorem advance_zero (uio : Uio) : uio.advance 0 = uio := by
  simp [advance]

theorem advance_advance (uio : Uio) (n k : UInt32) :
    (uio.advance n).advance k = uio.advance (n + k) := by
  have hsub : ∀ a : UInt32, a - n - k = a - (n + k) := fun a => by
    rw [UInt32.sub_eq_add_neg, UInt32.sub_eq_add_neg, UInt32.sub_eq_add_neg, UInt32.neg_add,
      UInt32.add_assoc, UInt32.sub_eq_add_neg]
  simp only [advance, UInt32.add_assoc, hsub]

end Uio

/-- `uiomove` of nothing. -/
theorem uiomoveLoop_zero (fuel : ℕ) (ptr : List UInt8) (uio : Uio) :
    uiomoveLoop env fuel ptr 0 uio = pure ([], uio) := by
  cases fuel with
  | zero => rfl
  | succ fuel => exact if_neg fun h => absurd h.1 (by decide)

theorem toNat_sub_ofNat {a : UInt32} (h : n + k ≤ a.toNat) :
    (a - UInt32.ofNat n).toNat = a.toNat - n := by
  have := a.toNat_lt
  rw [UInt32.toNat_sub, UInt32.toNat_ofNat_of_lt' (show n < 2 ^ 32 by omega)]
  omega

theorem le_toNat_sub {a : UInt32} (h : n + k ≤ a.toNat) : k ≤ (a - UInt32.ofNat n).toNat := by
  rw [toNat_sub_ofNat h]
  omega

/-- The assertion at the head of `uiomove`. -/
def Uio.InSpace (uio : Uio) (m : Machine) : Prop :=
  uio.uioSpace = if uio.uioSegflg = .sysspace then 0 else m.vmspace

variable {E : Stop Errno → Machine → Prop} {len : UInt32} {ptr : List UInt8}

/-- **One round of `uiomove` takes all**, if no more than that is left to read
and in the buffer. -/
theorem wp_uiomove_iff {Q : List UInt8 × Uio → Machine → Prop}
    (hspace : uio.InSpace m) (hpos : 0 < len.toNat)
    (hresid : len.toNat ≤ uio.uioResid.toNat) (hiov : len.toNat ≤ uio.iovLen.toNat) :
    wp (uiomove env ptr len uio) Q E m ↔ wp (uioCopy env ptr len uio) (fun r => Q (r.1 ++ [],
      { r.2 with iovLen := r.2.iovLen - len, uioResid := r.2.uioResid - len,
                 uioOffset := r.2.uioOffset + len })) E m := by
  obtain ⟨fuel, hfuel⟩ : ∃ fuel, len.toNat = fuel + 1 := ⟨len.toNat - 1, by omega⟩
  have hgo : len > 0 ∧ uio.uioResid > 0 := by
    constructor <;> rw [gt_iff_lt, UInt32.lt_iff_toNat_lt, UInt32.toNat_zero] <;> omega
  have hsize : (if uio.iovLen > len then len else uio.iovLen) = len := by
    split
    · rfl
    · next h =>
      refine UInt32.toNat_inj.1 ?_
      rw [gt_iff_lt, UInt32.lt_iff_toNat_lt] at h
      omega
  have hne : len ≠ 0 := fun h => by rw [h, UInt32.toNat_zero] at hpos; omega
  unfold uiomove
  unfold Uio.InSpace at hspace
  simp only [wp_bind, wp_get, wp_assert]
  rw [if_pos hspace, hfuel, uiomoveLoop, if_pos hgo]
  simp only [hsize, wp_bind, wp_assert, if_pos hne, wp_pure, UInt32.sub_self, uiomoveLoop_zero]

/-- `uiomove` of nothing leaves everything as it is. -/
theorem wp_uiomove_zero {Q : List UInt8 × Uio → Machine → Prop}
    (hspace : uio.InSpace m) :
    wp (uiomove env ptr 0 uio) Q E m ↔ Q ([], uio) m := by
  unfold uiomove
  unfold Uio.InSpace at hspace
  simp only [wp_bind, wp_get, wp_assert]
  rw [if_pos hspace, uiomoveLoop_zero, wp_pure]

/-! ## Into user memory -/

section

variable (hm : Loading q as lastpaddr m)

include hm

section

variable (hb : m.badfaultfunc = false)

include hb

/-- **`uiomove` to user memory** of no more bytes than are left to read. -/
theorem wp_uiomove (hu : uio.ReadsUser q) (hptr : len.toNat ≤ ptr.length)
    (hresid : len.toNat ≤ uio.uioResid.toNat) (hiov : len.toNat ≤ uio.iovLen.toNat) :
    wp (uiomove env ptr len uio)
      (fun r m' => Stored q as lastpaddr uio.iovUbase (ptr.take len.toNat) m m' ∧
        r.2 = uio.advance len)
      (fun e m' => Loading q as lastpaddr m' ∧
        CopyStops env as lastpaddr uio.iovUbase len.toNat e) m := by
  have hspace : uio.InSpace m := by
    rw [Uio.InSpace, if_neg hu.segflg, hu.space, hm.vmspace]
  rcases Nat.eq_zero_or_pos len.toNat with hzero | hpos
  · obtain rfl : len = 0 := UInt32.toNat_inj.1 hzero
    exact (wp_uiomove_zero hspace).2 ⟨.nil hm hb, (uio.advance_zero).symm⟩
  have htake : (ptr.take len.toNat).length = len.toNat := length_take_of_le hptr
  have hcopy : uioCopy env ptr len uio = (do
      copyout env (ptr.take len.toNat) uio.iovUbase
      pure (ptr.take len.toNat, { uio with iovUbase := uio.iovUbase + len })) := by
    unfold uioCopy
    have hrw := hu.rw
    have hseg := hu.segflg
    cases hs : uio.uioSegflg with
    | sysspace => exact absurd hs hseg
    | userispace | userspace => rw [hrw]
  have hlen := len.toNat_lt
  rw [wp_uiomove_iff hspace hpos hresid hiov, hcopy]
  simp only [wp_bind, wp_pure]
  refine wp_mono (wp_copyout hm (by omega) (by omega)) (fun _ m' h => ⟨h, rfl⟩) fun e m' h => ?_
  rw [htake] at h
  exact h

/-- The pieces of a file, one after the other. -/
theorem wp_uiomoveAll {pieces : List (List UInt8)} (hu : uio.ReadsUser q)
    (hresid : pieces.flatten.length ≤ uio.uioResid.toNat)
    (hiov : pieces.flatten.length ≤ uio.iovLen.toNat) :
    wp (uiomoveAll env pieces uio)
      (fun uio' m' => Stored q as lastpaddr uio.iovUbase pieces.flatten m m' ∧
        uio' = uio.advance (UInt32.ofNat pieces.flatten.length))
      (fun e m' => Loading q as lastpaddr m' ∧
        ReadStops env as lastpaddr uio.iovUbase pieces e) m := by
  induction pieces generalizing uio m with
  | nil =>
    exact wp_pure.2 ⟨.nil hm hb, (uio.advance_zero).symm⟩
  | cons piece pieces ih =>
    have hcons : (piece :: pieces).flatten = piece ++ pieces.flatten := rfl
    rw [hcons, length_append] at hresid hiov ⊢
    have hlt := uio.uioResid.toNat_lt
    have hn : (UInt32.ofNat piece.length).toNat = piece.length :=
      UInt32.toNat_ofNat_of_lt' (show piece.length < 2 ^ 32 by omega)
    unfold uiomoveAll
    refine wp_seq (wp_uiomove hm hb hu (by omega) (by omega) (by omega)) (fun r m₁ h₁ => ?_)
      fun e m₁ h₁ => ⟨h₁.1, ?_⟩
    · obtain ⟨bytes, uio₁⟩ := r
      obtain ⟨h₁, rfl⟩ := h₁
      rw [hn, take_length] at h₁
      refine wp_mono (ih h₁.toLoading h₁.guard (hu.advance _) (le_toNat_sub hresid)
        (le_toNat_sub hiov)) (fun uio' m' h => ?_) fun e m' h => ⟨h.1, .cons h₁.takes h.2⟩
      refine ⟨h₁.append h.1, ?_⟩
      rw [h.2, Uio.advance_advance, UInt32.ofNat_add]
    · have hstop := h₁.2
      rw [hn] at hstop
      exact hstop.readStops _

/-- **The rounds of `uiomovezeros`**, with enough of them. -/
theorem wp_uiomovezerosLoop {fuel : ℕ} (hu : uio.ReadsUser q) (hfuel : len.toNat ≤ fuel)
    (hresid : len.toNat ≤ uio.uioResid.toNat) (hiov : len.toNat ≤ uio.iovLen.toNat) :
    wp (uiomovezerosLoop env fuel len uio)
      (fun _ m' => Stored q as lastpaddr uio.iovUbase (replicate len.toNat 0) m m')
      (fun e _ => ZeroStops env as lastpaddr uio.iovUbase len.toNat e) m := by
  induction fuel generalizing uio m len with
  | zero =>
    have hzero : len.toNat = 0 := by omega
    rw [hzero]
    exact wp_pure.2 (.nil hm hb)
  | succ fuel ih =>
    unfold uiomovezerosLoop
    by_cases hgo : len > 0
    swap
    · have hzero : len.toNat = 0 := by
        rw [gt_iff_lt, UInt32.lt_iff_toNat_lt, UInt32.toNat_zero] at hgo
        omega
      rw [if_neg hgo, hzero]
      exact wp_pure.2 (.nil hm hb)
    -- what one round takes
    obtain ⟨amt, hamt⟩ : ∃ amt, (if 16 > len then len else 16) = amt := ⟨_, rfl⟩
    have hmin : amt.toNat = min 16 len.toNat := by
      have h16 : (16 : UInt32).toNat = 16 := rfl
      rw [← hamt]
      split
      · next h =>
        rw [gt_iff_lt, UInt32.lt_iff_toNat_lt, h16] at h
        omega
      · next h =>
        rw [gt_iff_lt, UInt32.lt_iff_toNat_lt, h16] at h
        omega
    have hsub : ∀ a : UInt32, len.toNat ≤ a.toNat → (a - amt).toNat = a.toNat - amt.toNat := by
      intro a ha
      have := a.toNat_lt
      rw [UInt32.toNat_sub]
      omega
    rw [if_pos hgo]
    simp only [hamt]
    refine wp_seq (wp_uiomove hm hb hu (by rw [length_replicate]; omega) (by omega)
      (by omega)) (fun r m₁ h₁ => ?_) fun e m₁ h₁ => ?_
    · obtain ⟨bytes, uio₁⟩ := r
      obtain ⟨h₁, rfl⟩ := h₁
      have hbase : (uio.advance amt).iovUbase = uio.iovUbase + UInt32.ofNat (min 16 len.toNat) := by
        rw [← hmin, UInt32.ofNat_toNat]
        rfl
      have hrest : (len - amt).toNat = len.toNat - min 16 len.toNat := by
        rw [hsub len le_rfl, hmin]
      rw [hmin, take_replicate, Nat.min_eq_left (min_le_left _ _)] at h₁
      have htakes := h₁.takes
      rw [length_replicate] at htakes
      have hih := ih h₁.toLoading h₁.guard (hu.advance amt) (by omega : (len - amt).toNat ≤ fuel)
        (by rw [show (uio.advance amt).uioResid = uio.uioResid - amt from rfl, hsub _ hresid]
            omega)
        (by rw [show (uio.advance amt).iovLen = uio.iovLen - amt from rfl, hsub _ hiov]; omega)
      rw [hbase, hrest] at hih
      refine wp_mono hih (fun _ m' h => ?_) fun e m' h => ZeroStops.add htakes h
      have happ : replicate len.toNat (0 : UInt8) = replicate (min 16 len.toNat) 0 ++
          replicate (len.toNat - min 16 len.toNat) 0 := by
        rw [replicate_append_replicate, Nat.add_sub_cancel' (min_le_right _ _)]
      rw [happ]
      refine h₁.append ?_
      rwa [length_replicate]
    · have hstop := h₁.2
      rw [hmin] at hstop
      exact hstop.zeroStops

end

end

theorem wp_uiomovezeros (env : Env) (hm : Loading q as lastpaddr m)
    (hb : m.badfaultfunc = false) (hu : uio.ReadsUser q)
    (hresid : len.toNat ≤ uio.uioResid.toNat) (hiov : len.toNat ≤ uio.iovLen.toNat) :
    wp (uiomovezeros env len uio)
      (fun _ m' => Stored q as lastpaddr uio.iovUbase (replicate len.toNat 0) m m')
      (fun e _ => ZeroStops env as lastpaddr uio.iovUbase len.toNat e) m := by
  unfold uiomovezeros
  simp only [wp_assert_bind hu.rw]
  exact wp_uiomovezerosLoop hm hb hu le_rfl hresid hiov

theorem Vnode.Serves.length_le (hv : v.Serves file) (offset n : UInt32) :
    (v.read offset n).1.flatten.length ≤ n.toNat :=
  (hv.pieces offset n).length_le.trans (length_take_le _ _)

theorem Vnode.serves_onePiece (file : List UInt8) : (Vnode.onePiece file).Serves file := by
  have hall : ∀ offset n : UInt32,
      ((Vnode.onePiece file).read offset n).1.flatten = bytesAt file offset n.toNat :=
    fun offset n => flatten_singleton
  refine ⟨fun offset n => ?_, fun offset n _ => hall offset n⟩
  exact ⟨[], by rw [append_nil, hall offset n]⟩

/-- How a `VOP_READ` to user memory ends that does not return. -/
def VopStops (env : Env) (v : Vnode) (as : AddrSpace) (lastpaddr va offset n : UInt32)
    (e : Stop Errno) : Prop :=
  (∃ errno, e = .error errno ∧ (env.Spares as →
    ¬ ((v.read offset n).2 = none ∧ Takes as lastpaddr va (v.read offset n).1.flatten.length) ∧
      ¬ ReadHits as lastpaddr va (v.read offset n).1)) ∨
  (e = .halt ∧ ReadHits as lastpaddr va (v.read offset n).1)

/-- **`VOP_READ` to user memory** stores the bytes that the file has. -/
theorem wp_vopRead (env : Env) (hv : v.Serves file) (hm : Loading q as lastpaddr m)
    (hb : m.badfaultfunc = false) (hu : uio.ReadsUser q)
    (hiov : uio.uioResid.toNat ≤ uio.iovLen.toNat) :
    wp (vopRead env v uio)
      (fun uio' m' => Stored q as lastpaddr uio.iovUbase
          (bytesAt file uio.uioOffset uio.uioResid.toNat) m m' ∧
        uio' = uio.advance
          (UInt32.ofNat (bytesAt file uio.uioOffset uio.uioResid.toNat).length) ∧
        (v.read uio.uioOffset uio.uioResid).2 = none)
      (fun e _ => VopStops env v as lastpaddr uio.iovUbase uio.uioOffset uio.uioResid e) m := by
  have hlen := hv.length_le uio.uioOffset uio.uioResid
  unfold vopRead
  refine wp_seq (wp_uiomoveAll hm hb hu hlen (hlen.trans hiov)) (fun uio' m' h => ?_)
    fun e m' h => ?_
  · cases herr : (v.read uio.uioOffset uio.uioResid).2 with
    | none =>
      rw [hv.all _ _ herr] at h
      exact wp_pure.2 ⟨h.1, h.2, rfl⟩
    | some errno =>
      refine wp_fail.2 (.inl ⟨errno, rfl, fun _ => ⟨fun hs => ?_, h.1.takes.not_readHits⟩⟩)
      rw [hs.1] at herr
      cases herr
  · rcases h.2 with ⟨errno, rfl, hno⟩ | hhits
    · exact .inl ⟨errno, rfl, fun hs => ⟨fun h => (hno hs).1 h.2, (hno hs).2⟩⟩
    · exact .inr hhits

/-! ## Into the kernel -/

/-- A `uio` that reads into a buffer of the kernel. -/
structure Uio.ReadsKernel (uio : Uio) : Prop where
  segflg : uio.uioSegflg = .sysspace
  rw : uio.uioRw = .read
  space : uio.uioSpace = 0

/-- **Pieces that are read into the kernel leave the machine alone.** -/
theorem wp_uiomoveAll_kernel {pieces : List (List UInt8)} (hu : uio.ReadsKernel)
    (hresid : pieces.flatten.length ≤ uio.uioResid.toNat)
    (hiov : pieces.flatten.length ≤ uio.iovLen.toNat) :
    wp (uiomoveAll env pieces uio)
      (fun uio' m' => m' = m ∧ uio'.iovBehind = uio.iovBehind ++ pieces.flatten ∧
        uio'.uioResid.toNat = uio.uioResid.toNat - pieces.flatten.length)
      (fun _ _ => False) m := by
  induction pieces generalizing uio with
  | nil => exact wp_pure.2 ⟨rfl, (append_nil _).symm, rfl⟩
  | cons piece pieces ih =>
    have hcons : (piece :: pieces).flatten = piece ++ pieces.flatten := rfl
    rw [hcons, length_append] at hresid hiov ⊢
    have hlt := uio.uioResid.toNat_lt
    have hn : (UInt32.ofNat piece.length).toNat = piece.length :=
      UInt32.toNat_ofNat_of_lt' (show piece.length < 2 ^ 32 by omega)
    have hspace : uio.InSpace m := by
      rw [Uio.InSpace, if_pos hu.segflg, hu.space]
    unfold uiomoveAll
    rw [wp_bind]
    rcases Nat.eq_zero_or_pos piece.length with hzero | hpos
    · obtain rfl : piece = [] := length_eq_zero_iff.1 hzero
      refine (wp_uiomove_zero hspace).2 ?_
      rw [length_nil, Nat.zero_add] at hresid hiov ⊢
      exact ih hu hresid hiov
    · rw [wp_uiomove_iff hspace (by omega) (by omega) (by omega)]
      simp only [uioCopy, hu.segflg, hu.rw, wp_pure, hn, take_length]
      refine wp_imp (ih ⟨rfl, rfl, hu.space⟩ (le_toNat_sub hresid) (le_toNat_sub hiov))
        fun uio' m' h => ?_
      obtain ⟨hm, hbehind, hres⟩ := h
      refine ⟨hm, hbehind.trans (append_assoc _ _ _), hres.trans ?_⟩
      dsimp only
      rw [toNat_sub_ofNat hresid]
      omega

/-- **A structure is read, or the file ends before its end.** -/
theorem wp_readStruct (hv : v.Serves file) {len : ℕ} (hlen : len < 2 ^ 32) (offset : UInt32) :
    wp (readStruct env v len offset)
      (fun bytes m' => m' = m ∧ structAt file offset len = some bytes ∧
        (v.read offset (UInt32.ofNat len)).2 = none)
      (fun e m' => m' = m ∧ (∃ errno, e = .error errno) ∧
        ((v.read offset (UInt32.ofNat len)).2 ≠ none ∨ structAt file offset len = none)) m := by
  have hn : (UInt32.ofNat len).toNat = len := UInt32.toNat_ofNat_of_lt' hlen
  obtain ⟨uio, huio⟩ : ∃ uio, mkKuio (replicate len 0) offset .read = uio := ⟨_, rfl⟩
  have hoff : uio.uioOffset = offset := by rw [← huio]; rfl
  have hresid : uio.uioResid = UInt32.ofNat len := by
    rw [← huio, mkKuio, length_replicate]
  have hiov : uio.iovLen = UInt32.ofNat len := by
    rw [← huio, mkKuio, length_replicate]
  have hbehind : uio.iovBehind = [] := by rw [← huio]; rfl
  have hu : uio.ReadsKernel := by rw [← huio]; exact ⟨rfl, rfl, rfl⟩
  have hle := hv.length_le offset (UInt32.ofNat len)
  unfold readStruct vopRead
  simp only [huio, hoff, hresid, wp_bind]
  refine wp_returns (wp_uiomoveAll_kernel hu (by rw [hresid]; exact hle) (by rw [hiov]; exact hle))
    fun uio' m' h => ?_
  obtain ⟨rfl, hbytes, hres⟩ := h
  cases herr : (v.read offset (UInt32.ofNat len)).2 with
  | some errno => exact wp_fail.2 ⟨rfl, ⟨errno, rfl⟩, .inl nofun⟩
  | none =>
    rw [hv.all _ _ herr, hn] at hbytes hres
    rw [hresid, hn] at hres
    simp only [wp_pure, wp_failIf]
    by_cases hfull : (bytesAt file offset len).length = len
    · have hzero : ¬ uio'.uioResid ≠ 0 := by
        rw [not_not, ← UInt32.toNat_inj, hres, hfull, UInt32.toNat_zero]
        omega
      rw [if_neg hzero, hbytes, hbehind]
      exact ⟨trivial, if_pos hfull, trivial⟩
    · have hshort : (bytesAt file offset len).length ≤ len := length_take_le _ _
      have hne : uio'.uioResid ≠ 0 := fun hzero => by
        rw [hzero, UInt32.toNat_zero] at hres
        omega
      rw [if_pos hne]
      exact ⟨trivial, ⟨_, rfl⟩, .inr (if_neg hfull)⟩

/-! ## The program headers -/

/-- **The loop over the program headers**, with what holds after the headers
`done` as its invariant: it returns after all those with `PT_LOAD`, or it ends
where a `load` ends, or with an error of its own. -/
theorem wp_forPhdrs (hv : v.Serves file) {eh : Ehdr} {load : Phdr → Kernel Unit}
    {I : List Phdr → Machine → Prop} {i : UInt32}
    (done : List Phdr)
    (hE : ∀ errno m', (¬ v.ReadsFrom eh n i ∨ loadsFrom file eh n i = none) → E (.error errno) m')
    (hload : ∀ pre ph m', I pre m' → (∀ loads, loadsFrom file eh n i = some loads →
      ∃ rest, done ++ loads = pre ++ ph :: rest) → wp (load ph) (fun _ => I (pre ++ [ph])) E m')
    (hI : I done m) :
    wp (forPhdrs env v eh load n i)
      (fun _ m' => v.ReadsFrom eh n i ∧
        ∃ loads, loadsFrom file eh n i = some loads ∧ I (done ++ loads) m') E m := by
  induction n generalizing i done m with
  | zero => exact wp_pure.2 ⟨trivial, [], rfl, by rwa [append_nil]⟩
  | succ n ih =>
    unfold forPhdrs
    refine wp_seq (wp_readStruct hv (by decide) _) (fun bytes m₁ h₁ => ?_) fun e m₁ h₁ => ?_
    · obtain ⟨rfl, hbytes, hread⟩ := h₁
      have hreads : v.ReadsFrom eh (n + 1) i ↔ v.ReadsFrom eh n (i + 1) := and_iff_right hread
      have hph : phdrAt file eh i = some (Phdr.ofBytes bytes) := by
        rw [phdrAt, hbytes, map_some]
      obtain ⟨ph, hph'⟩ : ∃ ph, Phdr.ofBytes bytes = ph := ⟨_, rfl⟩
      simp only [hph'] at hph ⊢
      have hfrom : loadsFrom file eh (n + 1) i = if ph.Skipped then loadsFrom file eh n (i + 1)
          else if ph.pType = 1 then (loadsFrom file eh n (i + 1)).map (ph :: ·) else none := by
        rw [loadsFrom, hph, bind_some]
      by_cases hskip : ph.Skipped
      · rw [if_pos hskip] at hfrom ⊢
        rw [hfrom] at hE hload ⊢
        rw [hreads] at hE ⊢
        exact ih done hE hload hI
      rw [if_neg hskip] at hfrom ⊢
      by_cases hone : ph.pType = 1
      swap
      · rw [if_neg hone] at hfrom ⊢
        exact wp_fail.2 (hE _ _ (.inr hfrom))
      rw [if_pos hone] at hfrom ⊢
      rw [hfrom] at hE hload ⊢
      rw [hreads] at hE ⊢
      refine wp_then (hload done ph m₁ hI ?_) fun _ m₂ h₂ => ?_
      · intro loads hl
        obtain ⟨rest, -, rfl⟩ := map_eq_some_iff.1 hl
        exact ⟨rest, rfl⟩
      · refine wp_imp (ih (done ++ [ph]) (fun errno m' hf => hE errno m' ?_)
          (fun pre ph' m' hpre hsplit => hload pre ph' m' hpre ?_) h₂) fun _ m' h => ?_
        · exact hf.imp id fun hnone => by rw [hnone, map_none]
        · intro loads hl
          obtain ⟨rest, hrest, rfl⟩ := map_eq_some_iff.1 hl
          obtain ⟨rest', h'⟩ := hsplit rest hrest
          exact ⟨rest', by rw [← h', append_assoc]; rfl⟩
        · obtain ⟨hr, rest, hrest, hI'⟩ := h
          refine ⟨hr, ph :: rest, by rw [hrest, map_some], ?_⟩
          rwa [append_assoc] at hI'
    · obtain ⟨-, ⟨errno, rfl⟩, hwhy⟩ := h₁
      refine hE errno m₁ (hwhy.imp (fun hne h => hne h.1) fun hnone => ?_)
      rw [loadsFrom, phdrAt, hnone, map_none, bind_none]

/-! ## A segment -/

theorem Phdr.filesize_add_fillamt (ph : Phdr) : ph.filesize + ph.fillamt = ph.pMemsz.toNat :=
  Nat.add_sub_cancel' (min_le_right _ _)

/-- A segment that `VOP_READ` reads without an error. -/
theorem Vnode.Serves.readBy (hv : v.Serves file) {ph : Phdr} (hr : (ph.readBy v).2 = none) :
    (ph.readBy v).1.flatten = ph.data file := by
  have hlt : ph.filesize < 2 ^ 32 := (min_le_right _ _).trans_lt ph.pMemsz.toNat_lt
  refine (hv.all _ _ hr).trans ?_
  rw [UInt32.toNat_ofNat_of_lt' hlt]
  rfl

/-- A segment that fits does not crash the loader. -/
theorem Phdr.Fits.not_crashes (hv : v.Serves file) {ph : Phdr} (h : ph.Fits file as lastpaddr)
    (hr : (ph.readBy v).2 = none) : ¬ ph.Crashes file as lastpaddr v := by
  have htakes : Takes as lastpaddr ph.pVaddr ph.filesize := h.takes.mono (min_le_right _ _)
  rintro (hhits | ⟨-, -, i, hi, -, hc, -⟩)
  · refine Takes.not_readHits ?_ hhits
    rw [hv.readBy hr, h.data]
    exact htakes
  · have hfit := h.takes
    rw [← ph.filesize_add_fillamt, htakes.add_iff] at hfit
    rw [(hfit i hi).2] at hc
    cases hc

/-- How the loading of a segment ends that does not return. -/
def Phdr.LoadStops (env : Env) (v : Vnode) (ph : Phdr) (file : List UInt8) (as : AddrSpace)
    (lastpaddr : UInt32) (e : Stop Errno) : Prop :=
  (∃ errno, e = .error errno ∧ (env.Spares as →
    ¬ (ph.Fits file as lastpaddr ∧ (ph.readBy v).2 = none) ∧ ¬ ph.Crashes file as lastpaddr v)) ∨
  (e = .halt ∧ ph.Crashes file as lastpaddr v)

/-- The zeros after the bytes of the file, at the end of `load_segment`. -/
theorem wp_fill (hv : v.Serves file) {ph : Phdr} {m₀ : Machine}
    (hst : Stored q as lastpaddr ph.pVaddr (ph.data file) m₀ m) (hu : uio.ReadsUser q)
    (hbase : uio.iovUbase = ph.pVaddr + UInt32.ofNat ph.filesize) (hlen : len.toNat = ph.fillamt)
    (hresid : uio.uioResid.toNat = ph.fillamt) (hiov : uio.iovLen.toNat = ph.fillamt)
    (hall : (ph.data file).length = ph.filesize) (hr : (ph.readBy v).2 = none) :
    wp (uiomovezeros env len uio)
      (fun _ m' => Stored q as lastpaddr ph.pVaddr (ph.image file) m₀ m' ∧
        ph.Fits file as lastpaddr)
      (fun e _ => ph.LoadStops env v file as lastpaddr e) m := by
  have hsum := ph.filesize_add_fillamt
  have htakes := hst.takes
  have hzeros := wp_uiomovezeros env hst.toLoading hst.guard hu (hlen.trans hresid.symm).le
    (hlen.trans hiov.symm).le
  rw [hbase, hlen, ← hall] at hzeros
  rw [hall] at htakes
  refine wp_mono hzeros (fun _ m' h => ?_) fun e m' h => ?_
  · have hdone := hst.append h
    have hfit := hdone.takes
    rw [length_append, length_replicate, hall, hsum] at hfit
    exact ⟨hdone, hall, hfit⟩
  rw [hall] at h
  rcases h with ⟨errno, rfl, hno⟩ | ⟨rfl, hh⟩
  · refine .inl ⟨errno, rfl, fun h => ?_⟩
    obtain ⟨hnt, hnz⟩ := hno h
    refine ⟨fun hf => hnt ?_, fun hc => hc.elim ?_ fun h => hnz h.2.2⟩
    · have hfits := hf.1.takes
      rwa [← hsum, htakes.add_iff] at hfits
    · refine Takes.not_readHits ?_
      rw [hv.readBy hr, hall]
      exact htakes
  · exact .inr ⟨rfl, .inr ⟨⟨hr, hall⟩, htakes, hh⟩⟩

/-- The `uio` of `load_segment`. -/
def segmentUio (ph : Phdr) (q size : UInt32) (isExecutable : Bool) : Uio where
  iovUbase := ph.pVaddr
  iovBehind := []
  iovKbase := []
  iovLen := ph.pMemsz
  uioOffset := ph.pOffset
  uioResid := size
  uioSegflg := if isExecutable then .userispace else .userspace
  uioRw := .read
  uioSpace := q

theorem readsUser_segmentUio (ph : Phdr) (q size : UInt32) (isExecutable : Bool) :
    (segmentUio ph q size isExecutable).ReadsUser q := by
  refine ⟨?_, rfl, rfl⟩
  cases isExecutable <;> nofun

/-- **`load_segment` stores the image of the segment**, if it fits. -/
theorem wp_loadSegment (hv : v.Serves file) (hm : Loading q as lastpaddr m)
    (hb : m.badfaultfunc = false) (ph : Phdr) (isExecutable : Bool) :
    wp (loadSegment env v ph.pOffset ph.pVaddr ph.pMemsz ph.pFilesz isExecutable)
      (fun _ m' => Stored q as lastpaddr ph.pVaddr (ph.image file) m m' ∧
        ph.Fits file as lastpaddr ∧ (ph.readBy v).2 = none)
      (fun e _ => ph.LoadStops env v file as lastpaddr e) m := by
  obtain rfl := hm.vmspace
  obtain ⟨size, hsize⟩ :
      ∃ size, (if ph.pFilesz > ph.pMemsz then ph.pMemsz else ph.pFilesz) = size :=
    ⟨_, rfl⟩
  have hsz : size.toNat = ph.filesize := by
    unfold Phdr.filesize
    rw [← hsize]
    split
    all_goals
      next h =>
      rw [gt_iff_lt, UInt32.lt_iff_toNat_lt] at h
      omega
  have hsum := ph.filesize_add_fillamt
  have hmemsz := ph.pMemsz.toNat_lt
  have hfill : (ph.pMemsz - size).toNat = ph.fillamt := by
    rw [UInt32.toNat_sub, hsz]
    omega
  obtain ⟨uio, huio⟩ : ∃ uio, segmentUio ph m.vmspace size isExecutable = uio := ⟨_, rfl⟩
  have hu : uio.ReadsUser m.vmspace := huio ▸ readsUser_segmentUio ph m.vmspace size isExecutable
  have hbase : uio.iovUbase = ph.pVaddr := by rw [← huio]; rfl
  have hiov : uio.iovLen = ph.pMemsz := by rw [← huio]; rfl
  have hresid : uio.uioResid = size := by rw [← huio]; rfl
  have hdata : bytesAt file uio.uioOffset uio.uioResid.toNat = ph.data file := by
    rw [hresid, hsz, ← huio]
    rfl
  unfold loadSegment
  simp only [hsize, wp_bind, wp_get]
  have hread := wp_vopRead env hv hm hb hu (by rw [hresid, hiov]; omega)
  have hby : v.read uio.uioOffset uio.uioResid = ph.readBy v := by
    rw [hresid, ← huio, Phdr.readBy, ← hsz, UInt32.ofNat_toNat]
    rfl
  unfold VopStops at hread
  rw [hdata, hbase, hby, ← huio, segmentUio] at hread
  refine wp_mono hread (fun u m₁ h₁ => ?_) fun e m₁ h₁ => ?_
  · obtain ⟨h₁, hu₁, hr⟩ := h₁
    have htakes := h₁.takes
    have hu' : u = uio.advance (UInt32.ofNat (ph.data file).length) := by
      rw [hu₁, ← huio, segmentUio]
    have hshort : (ph.data file).length ≤ ph.filesize := length_take_le _ _
    have hn : (UInt32.ofNat (ph.data file).length).toNat = (ph.data file).length :=
      UInt32.toNat_ofNat_of_lt' (show _ < 2 ^ 32 by omega)
    have hleft : u.uioResid.toNat = ph.filesize - (ph.data file).length := by
      rw [hu', Uio.advance, UInt32.toNat_sub, hresid, hn]
      omega
    rw [wp_failIf]
    by_cases hall : (ph.data file).length = ph.filesize
    swap
    · -- the file ends inside the segment
      have hne : u.uioResid ≠ 0 := fun hz => by
        rw [hz, UInt32.toNat_zero] at hleft
        omega
      rw [if_pos hne]
      refine .inl ⟨_, rfl, fun _ => ⟨fun hfit => hall hfit.1.data, ?_⟩⟩
      rw [← hv.readBy hr] at htakes
      exact fun hc => hc.elim htakes.not_readHits fun h => hall h.1.2
    have hzero : u.uioResid = 0 := by
      rw [← UInt32.toNat_inj, hleft, hall, UInt32.toNat_zero, Nat.sub_self]
    rw [if_neg (not_not.2 hzero)]
    rw [hall] at htakes
    by_cases hgo : ph.pMemsz - size > 0
    swap
    · have hnone : ph.fillamt = 0 := by
        rw [gt_iff_lt, UInt32.lt_iff_toNat_lt, hfill, UInt32.toNat_zero] at hgo
        omega
      rw [if_neg hgo]
      refine wp_pure.2 ⟨?_, ⟨hall, ?_⟩, hr⟩
      · rwa [Phdr.image, hnone, replicate_zero, append_nil]
      · rwa [← hsum, hnone, Nat.add_zero]
    rw [if_pos hgo, wp_bind]
    have hbase' : u.iovUbase = ph.pVaddr + UInt32.ofNat ph.filesize := by
      rw [hu', Uio.advance, hall, hbase]
    have hiov' : u.iovLen.toNat = ph.fillamt := by
      rw [hu', Uio.advance, UInt32.toNat_sub, hiov, hn]
      omega
    have hu₂ : u.ReadsUser m.vmspace := hu' ▸ hu.advance _
    refine wp_mono (wp_fill hv h₁ ⟨hu₂.segflg, hu₂.rw, hu₂.space⟩ hbase' hfill ?_ hiov' hall hr)
      (fun _ m₂ h₂ => wp_pure.2 ⟨h₂.1, h₂.2, hr⟩) fun _ _ h => h
    rw [hzero, UInt32.zero_add, hfill]
  · rcases h₁ with ⟨errno, rfl, hno⟩ | ⟨rfl, hh⟩
    · refine .inl ⟨errno, rfl, fun hs => ?_⟩
      obtain ⟨hnt, hnh⟩ := hno hs
      refine ⟨fun hf => hnt ⟨hf.2, ?_⟩, fun hc => hc.elim hnh fun h => hnt ⟨h.1.1, ?_⟩⟩
      · rw [hv.readBy hf.2, hf.1.data]
        exact hf.1.takes.mono (min_le_right _ _)
      · rw [hv.readBy h.1.1, h.1.2]
        exact h.2.1
    · exact .inr ⟨rfl, .inl hh⟩

end Userprog

end Os161
