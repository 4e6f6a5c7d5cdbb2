import Os161.Userprog.Loader
/-!
# Which executables stop the kernel

`load_elf` over a new address space: what the machine looks like when it
returns, and how the file made it stop when it does not. From the two follows
which files can stop the kernel (`loader_returns_iff`). Most files do not, but
one with a single segment does: `as_prepare_load` finds frames for no region as
for any other, and the first byte that is stored then meets the assertions of
`vm_fault`.
-/

namespace Os161

namespace Userprog

open Vm Prog Heap Option

variable {env : Env} {v : Vnode} {file : List UInt8} {m m' : Machine} {q : UInt32}
  {as : AddrSpace}

/-! ## Regions -/

theorem defineAll_append (as : AddrSpace) (pre : List Phdr) (ph : Phdr) (rest : List Phdr) :
    defineAll as (pre ++ ph :: rest) = (do
      let as' ← defineAll as pre
      let as'' ← asDefineRegion as' ph.pVaddr ph.pMemsz
      defineAll as'' rest) := by
  unfold defineAll
  rw [List.foldlM_append]
  rfl

/-- **The machine while the regions are defined**, after the segments `done`. -/
structure Defining (m₀ : Machine) (q : UInt32) (done : List Phdr) (m : Machine) : Prop where
  space : ∃ as, defineAll .zero done = .ok as ∧ m.heap.space q = some as
  vmspace : m.vmspace = q
  tlb : m.tlb = []
  badfaultfunc : m.badfaultfunc = false
  ram : m.ram = m₀.ram
  mem : m.mem = m₀.mem

theorem Fresh.defining (h : Fresh m) : Defining m m.vmspace [] m where
  space := ⟨.zero, rfl, h.space⟩
  vmspace := rfl
  tlb := h.tlb
  badfaultfunc := h.badfaultfunc
  ram := rfl
  mem := rfl

variable {done : List Phdr}

/-- `as_define_region` of the next segment. -/
theorem wp_asDefineRegionCur {m₀ : Machine} (h : Defining m₀ q done m)
    (ph : Phdr) :
    wp (asDefineRegionCur ph.pVaddr ph.pMemsz) (fun _ => Defining m₀ q (done ++ [ph]))
      (fun e _ => ∃ errno, e = .error errno ∧
        ∀ rest as, defineAll .zero (done ++ ph :: rest) ≠ .ok as) m := by
  obtain ⟨as, hdef, hspace⟩ := h.space
  unfold asDefineRegionCur
  simp only [wp_get_bind, h.vmspace, hspace]
  cases hr : asDefineRegion as ph.pVaddr ph.pMemsz with
  | error errno =>
    refine wp_fail.2 ⟨errno, rfl, fun rest as' hok => ?_⟩
    rw [defineAll_append, hdef] at hok
    simp only [bind, Except.bind, hr, reduceCtorEq] at hok
  | ok as' =>
    refine wp_set.2 ⟨⟨as', ?_, ?_⟩, rfl, h.tlb, h.badfaultfunc, h.ram, h.mem⟩
    · rw [defineAll_append, hdef]
      simp only [bind, Except.bind, hr]
      rfl
    · rw [space_store_self, hspace, map_some]

/-- Frames are found from what is left of the same memory. -/
theorem asPrepareLoad_lastpaddr {e : Option Errno} {as' : AddrSpace} {r r' : Ram}
    (h : asPrepareLoad as r = some (e, as', r')) : r'.lastpaddr = r.lastpaddr := by
  have hget : ∀ (r : Ram) n, (getppages r n).2.lastpaddr = r.lastpaddr := by
    intro r n
    unfold getppages ramStealmem
    simp only
    split <;> rfl
  unfold asPrepareLoad at h
  simp only at h
  split at h
  swap
  · cases h
  split at h
  · rw [← (Prod.mk.inj (Prod.mk.inj (some.inj h)).2).2, hget]
  split at h
  · rw [← (Prod.mk.inj (Prod.mk.inj (some.inj h)).2).2, hget, hget]
  · rw [← (Prod.mk.inj (Prod.mk.inj (some.inj h)).2).2, hget, hget, hget]

/-- Regions are defined before frames are found. -/
theorem defineAll_pbase {as₀ : AddrSpace} (h : defineAll as₀ done = .ok as)
    (i : Part) : as.pbase i = as₀.pbase i := by
  induction done generalizing as₀ with
  | nil =>
    cases h
    rfl
  | cons ph done ih =>
    unfold defineAll at h
    rw [List.foldlM_cons] at h
    cases hr : asDefineRegion as₀ ph.pVaddr ph.pMemsz with
    | error errno =>
      rw [hr] at h
      cases h
    | ok as₁ =>
      rw [hr] at h
      exact (ih h).trans (asDefineRegion_pbase hr i)

/-- `as_prepare_load` does not meet its assertions. -/
theorem exists_asPrepareLoad (h : defineAll .zero done = .ok as) (r : Ram) :
    ∃ e as' r', asPrepareLoad as r = some (e, as', r') := by
  have hzero : as.pbase1 = 0 ∧ as.pbase2 = 0 ∧ as.stackpbase = 0 :=
    ⟨defineAll_pbase h .one, defineAll_pbase h .two, defineAll_pbase h .stack⟩
  unfold asPrepareLoad
  rw [if_pos hzero]
  simp only
  split
  · exact ⟨_, _, _, rfl⟩
  split
  · exact ⟨_, _, _, rfl⟩
  · exact ⟨_, _, _, rfl⟩

/-! ## `load_elf` -/

/-- What memory holds after the segments are stored in their order. -/
def storeSegments (file : List UInt8) (as : AddrSpace) (mem : Memory) (loads : List Phdr) :
    Memory :=
  loads.foldl (fun mem ph => storeAll as mem ph.pVaddr (ph.image file)) mem

/-- **The machine after a `load_elf` that returned.** -/
structure Loaded (file : List UInt8) (m : Machine) (entry : UInt32) (m' : Machine) (eh : Ehdr)
    (loads : List Phdr) (as as' : AddrSpace) (r' : Ram) : Prop where
  headers : Headers file eh loads
  entry : entry = eh.eEntry
  regions : defineAll .zero loads = .ok as
  frames : asPrepareLoad as m.ram = some (none, as', r')
  loading : Loading m.vmspace as' m.ram.lastpaddr m'
  fits : ∀ ph ∈ loads, ph.Fits file as' m.ram.lastpaddr
  mem : m'.mem = storeSegments file as' m.mem loads

/-- The headers of the file are read and accepted, and there are frames for the regions. -/
structure Prepares (v : Vnode) (file : List UInt8) (r : Ram) (eh : Ehdr) (loads : List Phdr)
    (as as' : AddrSpace) (r' : Ram) : Prop where
  headers : Headers file eh loads
  reads : v.ReadsHeaders eh
  regions : defineAll .zero loads = .ok as
  frames : asPrepareLoad as r = some (none, as', r')

/-- **The executables that the loader accepts**, with this memory left, and the address space
that they get: every segment fits, and the TLB has room for all pages. -/
structure Accepts (v : Vnode) (file : List UInt8) (r : Ram) (as' : AddrSpace) : Prop where
  prepares : ∃ eh loads as r', Prepares v file r eh loads as as' r' ∧
    ∀ ph ∈ loads, ph.Fits file as' r.lastpaddr ∧ (ph.readBy v).2 = none
  pages : pageCount as' ≤ numTlb

/-- How a `load_elf` ends that does not return. -/
def ElfStops (env : Env) (v : Vnode) (file : List UInt8) (r : Ram) (e : Stop Errno) : Prop :=
  (∃ errno, e = .error errno ∧ (env.Switching → ¬ LoaderCrashes v file r) ∧
    ∀ as', ¬ Accepts v file r as') ∨
    (e = .halt ∧ LoaderCrashes v file r)

theorem LoaderCrashes.prepares {r : Ram} (h : LoaderCrashes v file r) :
    ∃ eh loads as as' r', Prepares v file r eh loads as as' r' := by
  obtain ⟨eh, loads, as, as', r', done, ph, rest, hh, hreads, hdef, hprep, -⟩ := h
  exact ⟨eh, loads, as, as', r', hh, hreads, hdef, hprep⟩

/-- A file for which the loader comes to no segment. -/
theorem ElfStops.of_not_prepares {r : Ram} (errno : Errno)
    (h : ¬ ∃ eh loads as as' r', Prepares v file r eh loads as as' r') :
    ElfStops env v file r (.error errno) := by
  refine .inl ⟨errno, rfl, fun _ hc => h hc.prepares, fun as' ha => h ?_⟩
  obtain ⟨eh, loads, as, r', hp, -⟩ := ha.prepares
  exact ⟨eh, loads, as, as', r', hp⟩

/-- The headers of a file are what they are. -/
theorem Headers.unique {eh eh' : Ehdr} {loads loads' : List Phdr} (h : Headers file eh loads)
    (h' : Headers file eh' loads') : eh = eh' ∧ loads = loads' := by
  obtain rfl := some.inj (h.ehdr.symm.trans h'.ehdr)
  exact ⟨rfl, some.inj (h.loads.symm.trans h'.loads)⟩

/-- A file is prepared in one way. -/
theorem Prepares.unique {eh eh' : Ehdr} {loads loads' : List Phdr} {as as' as₁ as₁' : AddrSpace}
    {r r' r₁ : Ram} (h : Prepares v file r eh loads as as' r')
    (h' : Prepares v file r eh' loads' as₁ as₁' r₁) : loads' = loads ∧ as₁' = as' := by
  obtain ⟨rfl, rfl⟩ := h.headers.unique h'.headers
  obtain rfl := Except.ok.inj (h.regions.symm.trans h'.regions)
  exact ⟨rfl, (Prod.mk.inj (Prod.mk.inj (some.inj (h.frames.symm.trans h'.frames))).2).1.symm⟩

/-- The segment of a file that crashes the loader is among these. -/
theorem LoaderCrashes.segment {eh : Ehdr} {loads : List Phdr} {as' : AddrSpace} {r r' : Ram}
    (hh : Headers file eh loads) (hdef : defineAll .zero loads = .ok as)
    (hprep : asPrepareLoad as r = some (none, as', r')) (h : LoaderCrashes v file r) :
    ∃ done ph rest, loads = done ++ ph :: rest ∧
      (∀ p ∈ done, p.Fits file as' r.lastpaddr ∧ (p.readBy v).2 = none) ∧
      ph.Crashes file as' r.lastpaddr v := by
  obtain ⟨eh', loads', as₁, as₁', r₁, done, ph, rest, hh', -, hdef', hprep', hsplit⟩ := h
  obtain ⟨rfl, rfl⟩ := hh.unique hh'
  obtain rfl := Except.ok.inj (hdef.symm.trans hdef')
  obtain ⟨rfl, -⟩ : as' = as₁' ∧ r' = r₁ := by
    simpa using hprep.symm.trans hprep'
  exact ⟨done, ph, rest, hsplit⟩

/-- The second loop of `load_elf`, once there are frames. -/
theorem wp_loadSegments (hv : v.Serves file) {eh : Ehdr} {loads : List Phdr} {as' : AddrSpace}
    {r r' : Ram} {mem : Memory} (hh : Headers file eh loads) (hreads : v.ReadsHeaders eh)
    (hdef : defineAll .zero loads = .ok as) (hprep : asPrepareLoad as r = some (none, as', r'))
    (hm : Loading q as' r.lastpaddr m) (hb : m.badfaultfunc = false) (hmem : m.mem = mem) :
    wp (forPhdrs env v eh (fun ph => loadSegment env v ph.pOffset ph.pVaddr ph.pMemsz ph.pFilesz
        (ph.pFlags &&& 1 ≠ 0)) eh.ePhnum.toNat 0)
      (fun _ m' => Loading q as' r.lastpaddr m' ∧ m'.mem = storeSegments file as' mem loads ∧
        ∀ ph ∈ loads, ph.Fits file as' r.lastpaddr ∧ (ph.readBy v).2 = none)
      (fun e _ => ElfStops env v file r e) m := by
  refine wp_imp (wp_forPhdrs (I := fun done m' => Loading q as' r.lastpaddr m' ∧
    m'.badfaultfunc = false ∧ m'.mem = storeSegments file as' mem done ∧
    ∀ ph ∈ done, ph.Fits file as' r.lastpaddr ∧ (ph.readBy v).2 = none) hv [] ?_ ?_
    ⟨hm, hb, hmem, by simp⟩) fun _ m' h => ?_
  · rintro errno m' (hno | hnone)
    · exact absurd hreads.2 hno
    · rw [hh.loads] at hnone
      cases hnone
  · rintro pre ph m₁ ⟨hm₁, hb₁, hmem₁, hfits⟩ hsplit
    obtain ⟨rest, hrest⟩ := hsplit loads hh.loads
    refine wp_mono (wp_loadSegment hv hm₁ hb₁ ph _) (fun _ m₂ h₂ => ?_) fun e m₂ h₂ => ?_
    · obtain ⟨h₂, hfit⟩ := h₂
      refine ⟨h₂.toLoading, h₂.guard, ?_, ?_⟩
      · rw [h₂.mem, hmem₁, storeSegments, storeSegments, List.foldl_append]
        rfl
      · intro p hp
        rcases List.mem_append.1 hp with hp | hp
        · exact hfits p hp
        · rw [List.mem_singleton.1 hp]
          exact hfit
    · rcases h₂ with ⟨errno, rfl, hno⟩ | ⟨rfl, hc⟩
      · -- the first segment that does not fit is this one, and it does not crash
        refine .inl ⟨errno, rfl, fun hs => ?_, fun as₁ ha => ?_⟩
        swap
        · obtain ⟨eh₁, loads₁, as₀, r₁, hp₁, hfits₁⟩ := ha.prepares
          obtain ⟨hloads₁, rfl⟩ := Prepares.unique ⟨hh, hreads, hdef, hprep⟩ hp₁
          have hmem : ph ∈ [] ++ loads := by
            rw [hrest]
            simp
          exact (hno (.inr ha.pages)).1 (hfits₁ ph (hloads₁ ▸ hmem))
        obtain ⟨hnfit, hncrash⟩ := hno (.inl hs)
        intro hcrash
        obtain ⟨done, ph', rest', hsplit', hfits', hc'⟩ := hcrash.segment hh hdef hprep
        rcases List.append_eq_append_iff.1 (hrest.symm.trans hsplit') with
          ⟨mid, hmid, hcons⟩ | ⟨mid, hmid, hcons⟩
        · rcases mid with _ | ⟨p, mid⟩
          · obtain ⟨rfl, -⟩ := List.cons.inj hcons
            exact hncrash hc'
          · obtain ⟨rfl, -⟩ := List.cons.inj hcons
            exact hnfit (hfits' ph (by simp [hmid]))
        · rcases mid with _ | ⟨p, mid⟩
          · obtain ⟨rfl, -⟩ := List.cons.inj hcons
            exact hncrash hc'
          · obtain ⟨rfl, -⟩ := List.cons.inj hcons
            obtain ⟨hfit, hread⟩ := hfits ph' (by simp [hmid])
            exact hfit.not_crashes hv hread hc'
      · exact .inr ⟨rfl, eh, loads, as, as', r', pre, ph, rest, hh, hreads, hdef, hprep, hrest,
          hfits, hc⟩
  · obtain ⟨-, loads', hl, hm', -, hmem', hfits⟩ := h
    obtain rfl := some.inj (hh.loads.symm.trans hl)
    exact ⟨hm', hmem', hfits⟩

/-- **What `load_elf` does with a file**, over a new address space. -/
theorem wp_loadElf (env : Env) (hv : v.Serves file) (hm : Fresh m) :
    wp (loadElf env v)
      (fun entry m' => (∃ eh loads as as' r', Loaded file m entry m' eh loads as as' r') ∧
        ¬ LoaderCrashes v file m.ram)
      (fun e _ => ElfStops env v file m.ram e) m := by
  have hfail : ∀ errno, (¬ ∃ eh loads as as' r', Prepares v file m.ram eh loads as as' r') →
      ElfStops env v file m.ram (.error errno) := fun errno => .of_not_prepares errno
  unfold loadElf
  rw [wp_bind]
  refine wp_mono (wp_readStruct hv (by decide) 0) (fun bytes m₁ h₁ => ?_) fun e m₁ h₁ => ?_
  swap
  · obtain ⟨-, ⟨errno, rfl⟩, hwhy⟩ := h₁
    refine hfail errno ?_
    rintro ⟨eh, _, _, _, _, hp⟩
    rcases hwhy with hne | hnone
    · exact hne hp.reads.1
    · have hehdr := hp.headers.ehdr
      rw [hnone] at hehdr
      cases hehdr
  obtain ⟨rfl, hbytes, hread⟩ := h₁
  have hehdr : (structAt file 0 52).map Ehdr.ofBytes = some (Ehdr.ofBytes bytes) := by
    rw [hbytes, map_some]
  obtain ⟨eh, heh⟩ : ∃ eh, Ehdr.ofBytes bytes = eh := ⟨_, rfl⟩
  rw [heh] at hehdr
  simp only [heh, wp_bind, wp_failIf]
  by_cases hgood : eh.Good
  swap
  · rw [if_pos hgood]
    refine hfail _ ?_
    rintro ⟨eh', _, _, _, _, hp⟩
    obtain rfl := some.inj (hehdr.symm.trans hp.headers.ehdr)
    exact hgood hp.headers.good
  rw [if_neg (not_not.2 hgood)]
  -- the headers of a file that is prepared are these
  have hprepares : (∀ loads as, loadsFrom file eh eh.ePhnum.toNat 0 = some loads →
      v.ReadsFrom eh eh.ePhnum.toNat 0 → defineAll .zero loads = .ok as → False) →
      ¬ ∃ eh loads as as' r', Prepares v file m₁.ram eh loads as as' r' := by
    rintro hno ⟨eh', loads, as, _, _, hp⟩
    obtain rfl := some.inj (hehdr.symm.trans hp.headers.ehdr)
    exact hno loads as hp.headers.loads hp.reads.2 hp.regions
  refine wp_mono (wp_forPhdrs (I := Defining m₁ m₁.vmspace) hv [] ?_ ?_ hm.defining)
    (fun _ m₂ h₂ => ?_) fun _ _ h => h
  · rintro errno m' (hno | hnone)
    · exact hfail errno (hprepares fun _ _ _ hreads _ => hno hreads)
    · refine hfail errno (hprepares fun loads _ hl _ _ => ?_)
      rw [hnone] at hl
      cases hl
  · intro pre ph m' hpre hsplit
    refine wp_mono (wp_asDefineRegionCur hpre ph) (fun _ _ h => h) ?_
    rintro e m'' ⟨errno, rfl, hno⟩
    refine hfail errno (hprepares fun loads as hl _ hdef => ?_)
    obtain ⟨rest, rfl⟩ := hsplit loads hl
    exact hno rest as hdef
  obtain ⟨hreads, loads, hloads, hdefs⟩ := h₂
  have hh : Headers file eh loads := ⟨hehdr, hgood, hloads⟩
  obtain ⟨as, hdef, hspace⟩ := hdefs.space
  obtain ⟨e, as', r', hprep⟩ := exists_asPrepareLoad hdef m₁.ram
  have hbind : ((m₂.heap.space m₂.vmspace).bind fun as => asPrepareLoad as m₂.ram) =
      some (e, as', r') := by
    rw [hdefs.vmspace, hspace, bind_some, hdefs.ram, hprep]
  unfold asPrepareLoadCur
  simp only [wp_bind, wp_get, hbind, wp_set]
  cases e with
  | some errno =>
    refine wp_fail.2 (hfail errno ?_)
    rintro ⟨eh', loads', as₁, as₁', r₁, hp⟩
    obtain ⟨rfl, rfl⟩ := hh.unique hp.headers
    obtain rfl := Except.ok.inj (hdef.symm.trans hp.regions)
    cases hprep.symm.trans hp.frames
  | none =>
    refine wp_pure.2 ?_
    have hloading : Loading m₁.vmspace as' m₁.ram.lastpaddr
        { m₂ with heap := m₂.heap.store m₂.vmspace as', ram := r' } := by
      refine ⟨hdefs.vmspace, ?_, asPrepareLoad_lastpaddr hprep, ?_, ?_⟩
      · rw [hdefs.vmspace, space_store_self, hspace, map_some]
      · rw [hdefs.tlb]
        exact fun _ h => by cases h
      · rw [hdefs.tlb]
        exact paged_nil
    refine wp_mono (wp_loadSegments hv hh ⟨hread, hreads⟩ hdef hprep hloading
      hdefs.badfaultfunc hdefs.mem) (fun _ m₃ h₃ => ?_) fun _ _ h => h
    obtain ⟨hm₃, hmem₃, hfits⟩ := h₃
    refine wp_pure.2 ⟨⟨eh, loads, as, as', r', hh, rfl, hdef, hprep, hm₃,
      fun ph hph => (hfits ph hph).1, hmem₃⟩, fun hc => ?_⟩
    obtain ⟨done, ph, rest, rfl, -, hc⟩ := hc.segment hh hdef hprep
    obtain ⟨hfit, hr⟩ := hfits ph (by simp)
    exact hfit.not_crashes hv hr hc

/-! ## The files that are safe -/

/-- The program returns, with or without an error. -/
def Returns {α : Type} (x : Kernel α) (m : Machine) : Prop :=
  (∃ a m', x m = .ok a m') ∨ ∃ errno m', x m = .error (.error errno) m'

/-- A machine with a new address space. -/
def newSpace (r : Ram) : Machine where
  ram := r
  mem := fun _ => 0
  tlb := []
  heap := (empty.asCreate 0x80040000).getD .empty
  vmspace := 0x80040000
  badfaultfunc := false
  ticks := 0
  accesses := []

theorem fresh_newSpace (r : Ram) : Fresh (newSpace r) := by
  refine ⟨?_, rfl, rfl⟩
  cases hc : empty.asCreate 0x80040000 with
  | none =>
    unfold asCreate at hc
    cases hc
  | some heap =>
    show ((empty.asCreate 0x80040000).getD .empty).space 0x80040000 = some .zero
    rw [hc]
    exact (space_asCreate hc).2.1

/-- An environment in which the threads take turns at every access. -/
def takesTurns : Env where
  switches := fun _ => true
  subpageKmalloc := fun _ r => (0, r)
  vfsOpen := fun _ => .error .ENOENT

/-- The header of an executable with `phnum` program headers behind it. -/
def elfHeader (phnum : UInt8) : List UInt8 :=
  [0x7f, 0x45, 0x4c, 0x46, 1, 2, 1] ++ List.replicate 9 0 ++ [0, 2, 0, 8] ++ wordBytes 1 ++
    wordBytes 0x400000 ++ wordBytes 52 ++ wordBytes 0 ++ wordBytes 0 ++
    [0, 52, 0, 32, 0, phnum, 0, 0, 0, 0, 0, 0]

/-- A program header with `PT_LOAD`. -/
def loadHeader (offset vaddr filesz memsz : UInt32) : List UInt8 :=
  wordBytes 1 ++ wordBytes offset ++ wordBytes vaddr ++ wordBytes vaddr ++ wordBytes filesz ++
    wordBytes memsz ++ wordBytes 5 ++ wordBytes 4096

/-- An executable with one segment of four bytes. -/
def oneSegment : List UInt8 := elfHeader 1 ++ loadHeader 0 0x400000 4 4

/-- **Which executables the loader survives.** For every file system that serves a file,
`load_elf` returns whenever the threads switch, if and only if the file is not one of those
in `LoaderCrashes`. -/
theorem loader_returns_iff (file : List UInt8) (v : Vnode) (hv : v.Serves file) (r : Ram) :
    (∀ env m, Fresh m → m.ram = r → Returns (loadElf env v) m) ↔ ¬ LoaderCrashes v file r := by
  constructor
  · intro hsafe hcrash
    have hrun := wp_loadElf takesTurns hv (fresh_newSpace r)
    rcases hsafe takesTurns _ (fresh_newSpace r) rfl with ⟨entry, m', hok⟩ | ⟨errno, m', herr⟩
    · exact ((wp_of_ok hok).1 hrun).2 hcrash
    · rcases (wp_of_error herr).1 hrun with ⟨-, -, hno, -⟩ | ⟨h, -⟩
      · exact hno (fun _ => rfl) hcrash
      · cases h
  · intro hsafe env m hm hr
    subst hr
    rcases cases_of_wp (wp_loadElf env hv hm) with ⟨entry, m', hok, -⟩ | ⟨e, m', herr, hstop⟩
    · exact .inl ⟨entry, m', hok⟩
    · rcases hstop with ⟨errno, rfl, -⟩ | ⟨-, hcrash⟩
      · exact .inr ⟨errno, m', herr⟩
      · exact absurd hcrash hsafe

/-- An executable with a segment of eight bytes across `USERTOP`, behind a segment of four. -/
def acrossTop : List UInt8 :=
  elfHeader 2 ++ loadHeader 0 0x400000 4 4 ++ loadHeader 0 0x7ffffffc 8 8

/-- A copy that runs over `USERTOP` returns the error. -/
theorem loader_returns_iff_acrossTop :
    Returns (loadElf takesTurns (.onePiece acrossTop)) (newSpace ⟨0x30000, 0x400000⟩) ∧
      ¬ LoaderCrashes (.onePiece acrossTop) acrossTop ⟨0x30000, 0x400000⟩ := by
  have hiff := loader_returns_iff acrossTop _ (Vnode.serves_onePiece _) ⟨0x30000, 0x400000⟩
  suffices hno : ¬ LoaderCrashes (.onePiece acrossTop) acrossTop ⟨0x30000, 0x400000⟩ from
    ⟨hiff.2 hno takesTurns _ (fresh_newSpace _) rfl, hno⟩
  obtain ⟨e, m', hrun, he⟩ := exists_error_of (loadElf takesTurns (.onePiece acrossTop))
    (newSpace ⟨0x30000, 0x400000⟩) (fun e _ => e = .error .EFAULT) (by decide +kernel)
  rcases (wp_of_error hrun).1 (wp_loadElf takesTurns (Vnode.serves_onePiece _)
    (fresh_newSpace _)) with ⟨-, -, hno, -⟩ | ⟨h, -⟩
  · exact hno fun _ => rfl
  · rw [he] at h
    cases h

/-- **An executable with one segment stops the kernel.** -/
theorem one_segment_crashes :
    (Vnode.onePiece oneSegment).Serves oneSegment ∧ Fresh (newSpace ⟨0x30000, 0x400000⟩) ∧
      ∃ m', loadElf takesTurns (.onePiece oneSegment) (newSpace ⟨0x30000, 0x400000⟩) =
        .error .halt m' := by
  refine ⟨Vnode.serves_onePiece _, fresh_newSpace _, ?_⟩
  obtain ⟨e, m', hrun, he⟩ := exists_error_of (loadElf takesTurns (.onePiece oneSegment))
    (newSpace ⟨0x30000, 0x400000⟩) (fun e _ => e = .halt) (by decide +kernel)
  exact ⟨m', he ▸ hrun⟩

end Userprog

end Os161
