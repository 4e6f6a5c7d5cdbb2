import Os161.Fs.Model.Disk
/-!
# What is on the disk

`kern/include/kern/sfs.h`: the superblock, the inode and the directory entry,
as values and as the bytes that the machine, which is big-endian, has for them.
The unused words of an inode (`sfi_waste`) and of the superblock are zero.
-/

namespace Os161

namespace Fs

open Userprog (wordBytes)

/-- The word at a position in bytes. -/
def wordFrom (f : ℕ → UInt8) (i : ℕ) : UInt32 :=
  (f i).toUInt32 <<< 24 ||| (f (i + 1)).toUInt32 <<< 16 ||| (f (i + 2)).toUInt32 <<< 8 |||
    (f (i + 3)).toUInt32

namespace Sector

/-- Byte number `i`. -/
def byte (b : Sector) (i : ℕ) : UInt8 := if h : i < 512 then b ⟨i, h⟩ else 0

/-- Word number `k`. -/
def word (b : Sector) (k : ℕ) : UInt32 := wordFrom b.byte (4 * k)

/-- The block with these 128 words. -/
def ofWords (w : ℕ → UInt32) : Sector := fun i => (wordBytes (w (i / 4))).getD (i % 4) 0

/-- `memmove(b + skip, bytes, ..)`. -/
def splice (b : Sector) (skip : ℕ) (bytes : List UInt8) : Sector := fun i =>
  if skip ≤ i.val ∧ i.val < skip + bytes.length then bytes.getD (i - skip) 0 else b i

end Sector

/-- `SFS_TYPE_INVAL`, `SFS_TYPE_FILE` and `SFS_TYPE_DIR`. -/
def typeInval : UInt16 := 0

@[inherit_doc typeInval] def typeFile : UInt16 := 1

@[inherit_doc typeInval] def typeDir : UInt16 := 2

/-- `struct sfs_inode`. -/
structure SfsInode where
  size : UInt32
  type : UInt16
  linkcount : UInt16
  direct : Fin 15 → UInt32
  indirect : UInt32

namespace SfsInode

def toWords (n : SfsInode) (k : ℕ) : UInt32 :=
  if k = 0 then n.size
  else if k = 1 then n.type.toUInt32 <<< 16 ||| n.linkcount.toUInt32
  else if h : k - 2 < 15 then n.direct ⟨k - 2, h⟩
  else if k = 17 then n.indirect
  else 0

def toSector (n : SfsInode) : Sector := Sector.ofWords n.toWords

def ofSector (b : Sector) : SfsInode where
  size := b.word 0
  type := (b.word 1 >>> 16).toUInt16
  linkcount := (b.word 1).toUInt16
  direct k := b.word (k + 2)
  indirect := b.word 17

end SfsInode

/-- `struct sfs_super`. -/
structure SfsSuper where
  magic : UInt32
  nblocks : UInt32
  volname : List UInt8

/-- `SFS_MAGIC`. -/
def sfsMagic : UInt32 := 0xabadf001

namespace SfsSuper

def toSector (sp : SfsSuper) : Sector :=
  .ofList (wordBytes sp.magic ++ wordBytes sp.nblocks ++ sp.volname)

def ofSector (b : Sector) : SfsSuper where
  magic := b.word 0
  nblocks := b.word 1
  volname := (List.range' 8 32).map b.byte

end SfsSuper

/-- `struct sfs_dir`, with its 60 bytes for the name. -/
structure SfsDir where
  ino : UInt32
  name : List UInt8

namespace SfsDir

def toBytes (sd : SfsDir) : List UInt8 := wordBytes sd.ino ++ sd.name

def ofBytes (bytes : List UInt8) : SfsDir where
  ino := wordFrom (fun i => bytes.getD i 0) 0
  name := bytes.drop 4

end SfsDir

/-- A string of C, without the NUL at its end. -/
structure CString where
  bytes : List UInt8
  nul_not_mem : 0 ∉ bytes

/-- The string in a buffer. -/
def cstring (buf : List UInt8) : List UInt8 := buf.takeWhile (· ≠ 0)

/-- A name in the 60 bytes of a directory entry, the rest zero. -/
def CString.padded (name : CString) : List UInt8 :=
  name.bytes ++ List.replicate (60 - name.bytes.length) 0

/-- `SFS_BITBLOCKS`, with the roundings in `u_int32_t`. -/
def bitBlocks (nblocks : UInt32) : ℕ := (nblocks.toNat + 4095) % 2 ^ 32 / 4096

/-- `SFS_BITMAPSIZE`. -/
def bitmapSize (nblocks : UInt32) : ℕ := bitBlocks nblocks * 4096

end Fs

end Os161
