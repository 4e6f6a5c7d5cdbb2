import Os161.Userprog.Model.Loadelf
/-!
# What an executable file asks of the loader

The contents of a file, apart from the code that loads it: which bytes a
`VOP_READ` may hand over, what the headers say, and what becomes of a byte that
is stored at a user address of an address space. `LoaderCrashes` puts these
together into the executables that stop the kernel.
-/

namespace Os161

namespace Userprog

open Vm

/-! ## The bytes of a file -/

/-- The bytes of a file from an offset on, at most `n` of them. -/
def bytesAt (file : List UInt8) (offset : UInt32) (n : ℕ) : List UInt8 :=
  (file.drop offset.toNat).take n

/-- **`VOP_READ` reads the bytes of `file`** at the offset of the `uio`: all
that were asked for and the file has, unless it returns an error. -/
structure Vnode.Serves (v : Vnode) (file : List UInt8) : Prop where
  pieces : ∀ offset n, (v.read offset n).1.flatten <+: bytesAt file offset n.toNat
  all : ∀ offset n, (v.read offset n).2 = none →
    (v.read offset n).1.flatten = bytesAt file offset n.toNat

/-- A file system that never fails and hands over all at once, as SFS does with what is in
one block. -/
def Vnode.onePiece (file : List UInt8) : Vnode where
  read offset n := ([bytesAt file offset n.toNat], none)

/-- A structure of `len` bytes, if the file does not end before. -/
def structAt (file : List UInt8) (offset : UInt32) (len : ℕ) : Option (List UInt8) :=
  if (bytesAt file offset len).length = len then some (bytesAt file offset len) else none

/-- The program header number `i`. -/
def phdrAt (file : List UInt8) (eh : Ehdr) (i : UInt32) : Option Phdr :=
  (structAt file (eh.ePhoff + i * eh.ePhentsize) 32).map Phdr.ofBytes

/-- The headers with `PT_LOAD` among the `n` from number `i` on; `none` where
one of the `n` is cut off or has a type that the loader does not know. -/
def loadsFrom (file : List UInt8) (eh : Ehdr) : ℕ → UInt32 → Option (List Phdr)
  | 0, _ => some []
  | n + 1, i =>
    (phdrAt file eh i).bind fun ph =>
      if ph.Skipped then loadsFrom file eh n (i + 1)
      else if ph.pType = 1 then (loadsFrom file eh n (i + 1)).map (ph :: ·)
      else none

/-- The headers of a file that the loader accepts. -/
structure Headers (file : List UInt8) (eh : Ehdr) (loads : List Phdr) : Prop where
  ehdr : (structAt file 0 52).map Ehdr.ofBytes = some eh
  good : eh.Good
  loads : loadsFrom file eh eh.ePhnum.toNat 0 = some loads

/-- `VOP_READ` returns no error for the `n` program headers from number `i` on. -/
def Vnode.ReadsFrom (v : Vnode) (eh : Ehdr) : ℕ → UInt32 → Prop
  | 0, _ => True
  | n + 1, i => (v.read (eh.ePhoff + i * eh.ePhentsize) 32).2 = none ∧ v.ReadsFrom eh n (i + 1)

/-- `VOP_READ` returns no error for any header. -/
def Vnode.ReadsHeaders (v : Vnode) (eh : Ehdr) : Prop :=
  (v.read 0 52).2 = none ∧ v.ReadsFrom eh eh.ePhnum.toNat 0

/-- The regions of the segments, defined one after the other. -/
def defineAll (as : AddrSpace) (loads : List Phdr) : Except Errno AddrSpace :=
  loads.foldlM (fun as ph => asDefineRegion as ph.pVaddr ph.pMemsz) as

namespace Phdr

/-- How much of a segment comes from the file. -/
def filesize (ph : Phdr) : ℕ := min ph.pFilesz.toNat ph.pMemsz.toNat

/-- How much of a segment is filled with zeros. -/
def fillamt (ph : Phdr) : ℕ := ph.pMemsz.toNat - ph.filesize

/-- The bytes that the file has for a segment. -/
def data (ph : Phdr) (file : List UInt8) : List UInt8 := bytesAt file ph.pOffset ph.filesize

/-- **The bytes of a segment in memory.** -/
def image (ph : Phdr) (file : List UInt8) : List UInt8 :=
  ph.data file ++ List.replicate ph.fillamt 0

/-- The segment has a byte at a user address. -/
def Covers (ph : Phdr) (va : UInt32) : Prop := (va - ph.pVaddr).toNat < ph.pMemsz.toNat
  deriving Decidable

end Phdr

/-! ## What becomes of a store -/

/-- A store at a user address succeeds, or `vm_fault` returns an error for it,
or it never comes back. -/
inductive Fate where
  | stored | faults | crashes
  deriving DecidableEq, Repr

/-- What the address space makes of a store: `vm_fault` asserts that it is set
up, and a frame beyond the end of memory is a bus error. -/
def fate (as : AddrSpace) (lastpaddr va : UInt32) : Fate :=
  if as.SetUp then
    match as.translate va with
    | none => .faults
    | some pa => if pa < lastpaddr then .stored else .crashes
  else .crashes

section

variable (as : AddrSpace) (lastpaddr va : UInt32)

/-- The fate of the byte `i` of those from `va` on. -/
def fateAt (i : ℕ) : Fate := fate as lastpaddr (va + UInt32.ofNat i)

/-- `n` bytes from `va` on can all be stored. -/
def Takes (n : ℕ) : Prop :=
  ∀ i < n, va.toNat + i < userTop.toNat ∧ fateAt as lastpaddr va i = .stored

/-- Among `n` bytes from `va` on, the first that cannot be stored has the fate
`f`. -/
def StopsIn (n : ℕ) (f : Fate) : Prop :=
  ∃ i < n, fateAt as lastpaddr va i = f ∧ ∀ j < i, fateAt as lastpaddr va j = .stored

/-- A copy of `n` bytes to `va` never comes back: all of them are user addresses, which is
tested first, and then a store does not return. -/
def CopyHits (n : ℕ) : Prop :=
  va.toNat + n ≤ userTop.toNat ∧ StopsIn as lastpaddr va n .crashes

/-- The same for the zeros of `uiomovezeros`, which copies sixteen bytes a round. -/
def ZeroHits (n : ℕ) : Prop :=
  ∃ i < n, va.toNat + min (16 * (i / 16 + 1)) n ≤ userTop.toNat ∧
    fateAt as lastpaddr va i = .crashes ∧ ∀ j < i, fateAt as lastpaddr va j = .stored

end

/-- Of the pieces that `VOP_READ` hands over, one behind the other, the copy of one never
comes back and those before it are stored. -/
def ReadHits (as : AddrSpace) (lastpaddr : UInt32) : UInt32 → List (List UInt8) → Prop
  | _, [] => False
  | va, piece :: pieces => CopyHits as lastpaddr va piece.length ∨
    Takes as lastpaddr va piece.length ∧
      ReadHits as lastpaddr (va + UInt32.ofNat piece.length) pieces

namespace Phdr

/-- What `VOP_READ` does for a segment. -/
def readBy (ph : Phdr) (v : Vnode) : List (List UInt8) × Option Errno :=
  v.read ph.pOffset (UInt32.ofNat ph.filesize)

variable (ph : Phdr) (file : List UInt8) (as : AddrSpace) (lastpaddr : UInt32)

/-- The loader stores the whole segment. -/
structure Fits : Prop where
  data : (ph.data file).length = ph.filesize
  takes : Takes as lastpaddr ph.pVaddr ph.pMemsz.toNat

/-- A store of the loader for this segment never comes back: one of the bytes
of the file, or one of the zeros after them. -/
def Crashes (v : Vnode) : Prop :=
  ReadHits as lastpaddr ph.pVaddr (ph.readBy v).1 ∨
    ((ph.readBy v).2 = none ∧ (ph.data file).length = ph.filesize) ∧
      Takes as lastpaddr ph.pVaddr ph.filesize ∧
      ZeroHits as lastpaddr (ph.pVaddr + UInt32.ofNat ph.filesize) ph.fillamt

end Phdr

/-- **The executables that stop the kernel**, as the file system reads them and with this
memory left: the headers are read and accepted, there are frames for the regions, and a
segment that the loader comes to has an address whose store never comes back. -/
def LoaderCrashes (v : Vnode) (file : List UInt8) (r : Ram) : Prop :=
  ∃ eh loads as as' r' done ph rest, Headers file eh loads ∧ v.ReadsHeaders eh ∧
    defineAll .zero loads = .ok as ∧ asPrepareLoad as r = some (none, as', r') ∧
    loads = done ++ ph :: rest ∧
    (∀ p ∈ done, p.Fits file as' r.lastpaddr ∧ (p.readBy v).2 = none) ∧
    ph.Crashes file as' r.lastpaddr v

/-- The machine with a new address space, after `as_activate`. -/
structure Fresh (m : Machine) : Prop where
  space : m.heap.space m.vmspace = some .zero
  tlb : m.tlb = []
  badfaultfunc : m.badfaultfunc = false

end Userprog

end Os161
