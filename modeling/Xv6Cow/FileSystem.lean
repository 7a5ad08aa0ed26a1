import Xv6Cow.Kernel

/- fs.c: blocks, inodes and the contents of inodes. The disk is what the buffer cache
shows of it. -/
namespace Xv6Cow.Fs

open Prog (read update halt)

def NDIRECT : Nat := 12
def NINDIRECT : Nat := 128
def MAXFILE : Nat := NDIRECT + NINDIRECT
/-- Inodes per block. -/
def IPB : Nat := 8
/-- Bitmap bits per block. -/
def BPB : Nat := 4096
def NINODE : Nat := 50
def DIRSIZ : Nat := 14
def slash : Byte := 47
def T_DIR : BitVec 16 := 1
def T_FILE : BitVec 16 := 2
def T_DEV : BitVec 16 := 3

/-- An inode has block numbers. -/
instance slots : NeZero 13 := ⟨by decide⟩

/-- `struct superblock`, as far as fs.c uses it. Its fields are uints, and the inode blocks
come before the bitmap. -/
structure Superblock where
  size : Nat
  ninodes : Nat
  inodestart : Nat
  bmapstart : Nat
  size_lt : size < 4294967296
  inodes_first : inodestart + ninodes / IPB + 1 ≤ bmapstart

/-- The first block after the bitmap. -/
def Superblock.nmeta (sb : Superblock) : Nat := sb.bmapstart + sb.size / BPB + 1

/-- `struct dinode`. -/
structure Dinode where
  type : BitVec 16
  major : BitVec 16
  minor : BitVec 16
  nlink : BitVec 16
  size : Word
  addrs : Fin 13 → Word

/-- `struct inode`: `copy` is only meaningful while `valid`. -/
structure Inode where
  ref : Nat
  valid : Bool
  copy : Dinode

/-- The disk, the inode cache by inode number, and the blocks handed to log_write so far,
the last one first. -/
structure State where
  disk : Nat → Block
  icache : Nat → Inode
  written : List Nat

abbrev P : Type → Type := Prog String State

/-! ## The layout of inodes and bits in blocks -/

/-- A dinode is 16 words long. Its first two hold two shorts each. -/
def Dinode.words (d : Dinode) : Fin 16 → Word := fun k =>
  if k.val = 0 then d.major ++ d.type
  else if k.val = 1 then d.nlink ++ d.minor
  else if k.val = 2 then d.size
  else d.addrs ⟨k.val - 3, by omega⟩

def Dinode.ofWords (w : Fin 16 → Word) : Dinode where
  type := (w 0).setWidth 16
  major := (w 0 >>> 16).setWidth 16
  minor := (w 1).setWidth 16
  nlink := (w 1 >>> 16).setWidth 16
  size := w 2
  addrs := fun k => w ⟨k.val + 3, by omega⟩

def noDinode : Dinode := ⟨0, 0, 0, 0, 0, fun _ => 0⟩

variable (sb : Superblock)

/-- IBLOCK. -/
def iblock (inum : Nat) : Nat := inum / IPB + sb.inodestart

/-- BBLOCK. -/
def bblock (b : Nat) : Nat := b / BPB + sb.bmapstart

def dinodeAt (disk : Nat → Block) (inum : Nat) : Dinode :=
  Dinode.ofWords (fun k => disk (iblock sb inum) ⟨16 * (inum % IPB) + k.val, by unfold IPB; omega⟩)

def storeDinode (disk : Nat → Block) (inum : Nat) (d : Dinode) : Nat → Block :=
  Function.update disk (iblock sb inum) (fun j =>
    if j.val / 16 = inum % IPB then d.words ⟨j.val % 16, by omega⟩ else disk (iblock sb inum) j)

def bitIndex (b : Nat) : Fin 128 := ⟨b % BPB / 32, by unfold BPB; omega⟩

/-- Bit `bi % 8` of byte `bi / 8` is bit `bi % 32` of word `bi / 32`. -/
def bitAt (disk : Nat → Block) (b : Nat) : Bool :=
  (disk (bblock sb b) (bitIndex b)).getLsbD (b % 32)

def storeBit (disk : Nat → Block) (b : Nat) (bit : Bool) : Nat → Block :=
  let w := disk (bblock sb b) (bitIndex b)
  Function.update disk (bblock sb b) (Function.update (disk (bblock sb b)) (bitIndex b)
    (if bit then w ||| BitVec.twoPow 32 (b % 32) else w &&& ~~~(BitVec.twoPow 32 (b % 32))))

/-! ## Blocks -/

/-- A block changes, through log_write. -/
def logWrite (blockno : Nat) (change : (Nat → Block) → (Nat → Block)) : P Unit :=
  update (fun s => { s with disk := change s.disk, written := blockno :: s.written })

def zeroBlock : Block := fun _ => 0#32

/-- The first block whose bit is clear, in the order of the loops. -/
def firstClear (disk : Nat → Block) : Option Nat :=
  (List.range sb.size).find? (fun b => !bitAt sb disk b)

def balloc : P Nat := do
  let s ← read
  match firstClear sb s.disk with
  | none => halt "balloc: out of blocks"
  | some b => do
    logWrite (bblock sb b) (fun disk => storeBit sb disk b true)
    logWrite b (fun disk => Function.update disk b zeroBlock)
    pure b

def bfree (b : Nat) : P Unit := do
  let s ← read
  if bitAt sb s.disk b then logWrite (bblock sb b) (fun disk => storeBit sb disk b false)
  else halt "freeing free block"

/-! ## Inodes -/

/-- How many entries of the cache are in use. -/
def cached (s : State) : Nat :=
  ((List.range sb.ninodes).filter (fun i => 0 < (s.icache i).ref)).length

def setInode (inum : Nat) (ip : Inode) : P Unit :=
  update (fun s => { s with icache := Function.update s.icache inum ip })

def iget (inum : Nat) : P Unit := do
  let s ← read
  if 0 < (s.icache inum).ref then
    setInode inum { s.icache inum with ref := (s.icache inum).ref + 1 }
  else if NINODE ≤ cached sb s then halt "iget: no inodes"
  else setInode inum { s.icache inum with ref := 1, valid := false }

def idup (inum : Nat) : P Unit := do
  let s ← read
  setInode inum { s.icache inum with ref := (s.icache inum).ref + 1 }

def ilock (inum : Nat) : P Unit := do
  let s ← read
  if (s.icache inum).ref < 1 then halt "ilock"
  else if (s.icache inum).valid then pure ()
  else if (dinodeAt sb s.disk inum).type = 0 then halt "ilock: no type"
  else setInode inum { s.icache inum with valid := true, copy := dinodeAt sb s.disk inum }

def iupdate (inum : Nat) : P Unit := do
  let s ← read
  logWrite (iblock sb inum) (fun disk => storeDinode sb disk inum (s.icache inum).copy)

def setCopy (inum : Nat) (copy : Dinode) : P Unit := do
  let s ← read
  setInode inum { s.icache inum with copy := copy }

/-! ## The contents of inodes -/

/-- ip->addrs[k] = b. -/
def setAddr (inum : Nat) (k : Fin 13) (b : Nat) : P Unit := do
  let s ← read
  let copy := (s.icache inum).copy
  setCopy inum { copy with addrs := Function.update copy.addrs k (BitVec.ofNat 32 b) }

/-- The block ip->addrs[k], allocated if there is none. -/
def ensureAddr (inum : Nat) (k : Fin 13) : P Nat := do
  let s ← read
  let addr := (s.icache inum).copy.addrs k
  if addr = 0 then do
    let b ← balloc sb
    setAddr inum k b
    pure b
  else pure addr.toNat

/-- The block a[j] of the indirect block `ind`, allocated if there is none. -/
def ensureEntry (ind : Nat) (j : Fin 128) : P Nat := do
  let s ← read
  let addr := s.disk ind j
  if addr = 0 then do
    let b ← balloc sb
    logWrite ind
      (fun disk => Function.update disk ind (Function.update (disk ind) j (BitVec.ofNat 32 b)))
    pure b
  else pure addr.toNat

theorem slot_lt {bn : Nat} (direct : bn < NDIRECT) : bn < 13 := by
  unfold NDIRECT at direct
  omega

def bmap (inum bn : Nat) : P Nat :=
  if direct : bn < NDIRECT then ensureAddr sb inum ⟨bn, slot_lt direct⟩
  else if indirect : bn - NDIRECT < NINDIRECT then do
    let ind ← ensureAddr sb inum 12
    ensureEntry sb ind ⟨bn - NDIRECT, indirect⟩
  else halt "bmap: out of range"

/-- The direct blocks of itrunc. -/
def truncDirect (inum : Nat) : List (Fin 13) → P Unit
  | [] => pure ()
  | k :: rest => do
    let s ← read
    let addr := (s.icache inum).copy.addrs k
    if addr = 0 then truncDirect inum rest
    else do
      bfree sb addr.toNat
      setAddr inum k 0
      truncDirect inum rest

/-- The blocks an indirect block lists. -/
def truncEntries (ind : Nat) : List (Fin 128) → P Unit
  | [] => pure ()
  | j :: rest => do
    let s ← read
    if s.disk ind j = 0 then truncEntries ind rest
    else do
      bfree sb (s.disk ind j).toNat
      truncEntries ind rest

def truncIndirect (inum : Nat) : P Unit := do
  let s ← read
  let addr := (s.icache inum).copy.addrs 12
  if addr = 0 then pure ()
  else do
    truncEntries sb addr.toNat (List.finRange 128)
    bfree sb addr.toNat
    setAddr inum 12 0

def itrunc (inum : Nat) : P Unit := do
  truncDirect sb inum [0, 1, 2, 3, 4, 5, 6, 7, 8, 9, 10, 11]
  truncIndirect sb inum
  let s ← read
  setCopy inum { (s.icache inum).copy with size := 0 }
  iupdate sb inum

/-- What iput does to an inode without links that nobody else refers to. -/
def ifree (inum : Nat) : P Unit := do
  itrunc sb inum
  let s ← read
  setCopy inum { (s.icache inum).copy with type := 0 }
  iupdate sb inum
  let s ← read
  setInode inum { s.icache inum with valid := false }

def iput (inum : Nat) : P Unit := do
  let s ← read
  if (s.icache inum).valid ∧ (s.icache inum).copy.nlink = 0 ∧
    (s.icache inum).ref = 1 then ifree sb inum
  else pure ()
  let s ← read
  setInode inum { s.icache inum with ref := (s.icache inum).ref - 1 }

def Block.byte (blk : Block) (offset : Nat) : Byte :=
  (blk ⟨offset / 4 % 128, Nat.mod_lt _ (by decide)⟩ >>> (8 * (offset % 4))).setWidth 8

/-- memmove of `src` into a block. -/
def Block.patch (blk : Block) (offset : Nat) (src : List Byte) : Block := fun i =>
  let bytes := fun k => if offset ≤ k ∧ k < offset + src.length then src.getD (k - offset) 0
    else Block.byte blk k
  joinBytes (bytes (4 * i.val)) (bytes (4 * i.val + 1)) (bytes (4 * i.val + 2))
    (bytes (4 * i.val + 3))

/-- The loop of readi, for `n` more bytes. -/
def readLoop (inum : Nat) (off n : Nat) : P (List Byte) :=
  if n = 0 then pure []
  else do
    let b ← bmap sb inum (off / BSIZE)
    let s ← read
    let m := min n (BSIZE - off % BSIZE)
    let rest ← readLoop inum (off + m) (n - m)
    pure ((List.range m).map (fun k => Block.byte (s.disk b) (off % BSIZE + k)) ++ rest)
termination_by n
decreasing_by
  have : off % BSIZE < BSIZE := Nat.mod_lt off (by decide)
  omega

/-- readi, on an inode that is locked. Devices are not modelled. -/
def readi (inum : Nat) (off n : Nat) : P (Option (List Byte)) := do
  let s ← read
  let ip := (s.icache inum).copy
  if ip.type = T_DEV then pure none
  else if ip.size.toNat < off ∨ (off + n) % 2 ^ 32 < off then pure none
  else do
    let bytes ← readLoop sb inum off (if ip.size.toNat < off + n then ip.size.toNat - off else n)
    pure (some bytes)

/-- The loop of writei, for the bytes that are left; it returns the offset it ends at. -/
def writeLoop (inum : Nat) (off : Nat) (src : List Byte) : P Nat :=
  if src = [] then pure off
  else do
    let b ← bmap sb inum (off / BSIZE)
    let m := min src.length (BSIZE - off % BSIZE)
    logWrite b (fun disk =>
      Function.update disk b (Block.patch (disk b) (off % BSIZE) (src.take m)))
    writeLoop inum (off + m) (src.drop m)
termination_by src.length
decreasing_by
  have : off % BSIZE < BSIZE := Nat.mod_lt off (by decide)
  have : 0 < src.length := List.length_pos_iff.mpr (by assumption)
  rw [List.length_drop]
  omega

/-- writei, on an inode that is locked; `none` is -1. -/
def writei (inum : Nat) (off : Nat) (src : List Byte) : P (Option Nat) := do
  let s ← read
  let ip := (s.icache inum).copy
  if ip.type = T_DEV then pure none
  else if ip.size.toNat < off ∨ (off + src.length) % 2 ^ 32 < off then pure none
  else if MAXFILE * BSIZE < (off + src.length) % 2 ^ 32 then pure none
  else do
    let last ← writeLoop sb inum off src
    let s ← read
    if 0 < src.length ∧ (s.icache inum).copy.size.toNat < last then do
      setCopy inum { (s.icache inum).copy with size := BitVec.ofNat 32 last }
      iupdate sb inum
      pure (some src.length)
    else pure (some src.length)

end Xv6Cow.Fs
