import Xv6Cow.DiskLayout

/- mkfs.c: the program that builds the first file-system image. -/
namespace Xv6Cow.Mkfs

open Function (update_self update_of_ne)
open Fs
open Prog (read update halt bind_ok_iff read_bind pure_ok_iff update_ok_iff)

/-- FSSIZE, LOGSIZE, SWAPBLOCKS and NINODES. -/
structure Params where
  fssize : Nat
  logsize : Nat
  swapblocks : Nat
  ninodes : Nat
  fssize_lt : fssize < 4294967296
  /-- nblocks is not negative. -/
  meta_le : 2 + logsize + (ninodes / IPB + 1) + swapblocks + (fssize / BPB + 1) ≤ fssize

/-- param.h and mkfs.c. -/
def params : Params := ⟨10000, 30, 400 * 8, 200, by decide, by decide⟩

def Params.superblock (c : Params) : Superblock where
  size := c.fssize
  ninodes := c.ninodes
  inodestart := 2 + c.logsize + c.swapblocks
  bmapstart := 2 + c.logsize + (c.ninodes / IPB + 1) + c.swapblocks
  size_lt := c.fssize_lt
  inodes_first := by omega

/-- The image file, and the two counters. Every block of it is zero at first. -/
structure Image where
  disk : Nat → Block
  freeinode : Nat
  freeblock : Nat

abbrev M : Type → Type := Prog String Image

variable (c : Params)

/-- A block beyond the end of the file cannot be read. -/
def rsect (sec : Nat) : M Block := do
  let img ← read
  if sec < c.fssize then pure (img.disk sec) else halt "read"

def wsect (sec : Nat) (buf : Block) : M Unit :=
  update (fun img => { img with disk := Function.update img.disk sec buf })

def winode (inum : Nat) (d : Dinode) : M Unit := do
  let _ ← rsect c (iblock c.superblock inum)
  update (fun img => { img with disk := storeDinode c.superblock img.disk inum d })

def rinode (inum : Nat) : M Dinode := do
  let _ ← rsect c (iblock c.superblock inum)
  let img ← read
  pure (dinodeAt c.superblock img.disk inum)

def ialloc (type : BitVec 16) : M Nat := do
  let img ← read
  update (fun img => { img with freeinode := img.freeinode + 1 })
  winode c img.freeinode { noDinode with type := type, nlink := 1 }
  pure img.freeinode

/-- freeblock++. -/
def takeBlock : M Nat := do
  let img ← read
  update (fun img => { img with freeblock := img.freeblock + 1 })
  pure img.freeblock

/-- The block din.addrs[k], from freeblock if there is none. -/
def ensureSlot (din : Dinode) (k : Fin 13) : M (Dinode × Nat) :=
  if din.addrs k = 0 then do
    let b ← takeBlock
    pure ({ din with addrs := Function.update din.addrs k (BitVec.ofNat 32 b) },
      (BitVec.ofNat 32 b).toNat)
  else pure (din, (din.addrs k).toNat)

/-- The block that iappend writes block `fbn` of the file to. -/
def appendBlock (din : Dinode) (fbn : Nat) : M (Dinode × Nat) :=
  if direct : fbn < NDIRECT then ensureSlot din ⟨fbn, slot_lt direct⟩
  else do
    let (din, ind) ← ensureSlot din 12
    let indirect ← rsect c ind
    let j : Fin 128 := ⟨(fbn - NDIRECT) % 128, Nat.mod_lt _ (by decide)⟩
    if indirect j = 0 then do
      let b ← takeBlock
      wsect ind (Function.update indirect j (BitVec.ofNat 32 b))
      pure (din, (BitVec.ofNat 32 b).toNat)
    else pure (din, (indirect j).toNat)

/-- iappend's loop. -/
def appendLoop (din : Dinode) (off : Nat) (src : List Byte) : M (Dinode × Nat) :=
  if src = [] then pure (din, off)
  else if MAXFILE ≤ off / BSIZE then halt "assert"
  else do
    let (din, x) ← appendBlock c din (off / BSIZE)
    let n1 := min src.length (BSIZE - off % BSIZE)
    let buf ← rsect c x
    wsect x (Block.patch buf (off % BSIZE) (src.take n1))
    appendLoop din (off + n1) (src.drop n1)
termination_by src.length
decreasing_by
  have : off % BSIZE < BSIZE := Nat.mod_lt off (by decide)
  have : 0 < src.length := List.length_pos_iff.mpr (by assumption)
  rw [List.length_drop]
  omega

def iappend (inum : Nat) (src : List Byte) : M Unit := do
  let din ← rinode c inum
  let (din, off) ← appendLoop c din din.size.toNat src
  winode c inum { din with size := BitVec.ofNat 32 off }

/-- The loop of balloc: bits 0 to used - 1. -/
def markFirst : Nat → Block
  | 0 => zeroBlock
  | i + 1 =>
    Function.update (markFirst i) (bitIndex i)
      (markFirst i (bitIndex i) ||| BitVec.twoPow 32 (i % 32))

def balloc (used : Nat) : M Unit :=
  if used < BSIZE * 8 then wsect c.superblock.bmapstart (markFirst used) else halt "assert"

/-- struct dirent, with strncpy's copy of the name. -/
def dirent (inum : Nat) (name : List Byte) : List Byte :=
  [BitVec.ofNat 8 inum, BitVec.ofNat 8 (inum / 256)] ++
    (List.range DIRSIZ).map (fun k => name.getD k 0)

/-- A file on the command line: its name, which is a C string, and what the calls of read
return. -/
structure Input where
  name : List Byte
  chunks : List (List Byte)
  nul_free : 0 ∉ name := by decide

def underscore : Byte := 95
def dot : Byte := 46

/-- The name without a leading underscore. -/
def Input.stored (input : Input) : List Byte :=
  match input.name with
  | b :: rest => if b = underscore then rest else b :: rest
  | [] => []

def appendChunks (inum : Nat) : List (List Byte) → M Unit
  | [] => pure ()
  | chunk :: rest => do
    iappend c inum chunk
    appendChunks inum rest

local instance lawful : LawfulBEq Byte := inferInstance

def addFile (rootino : Nat) (input : Input) : M Unit :=
  if slash ∈ input.name then halt "assert"
  else do
    let inum ← ialloc c T_FILE
    iappend c rootino (dirent inum input.stored)
    appendChunks c inum input.chunks

def addFiles (rootino : Nat) : List Input → M Unit
  | [] => pure ()
  | input :: rest => do
    addFile c rootino input
    addFiles rootino rest

/-- The words of block 1. -/
def sbBlock : Block := fun k =>
  BitVec.ofNat 32 ([c.fssize, c.fssize - c.superblock.nmeta, c.ninodes, c.logsize, c.swapblocks, 2,
    2 + c.swapblocks, c.superblock.inodestart, c.superblock.bmapstart].getD k.val 0)

/-- The root directory's size is rounded up, past its last block if that is full. -/
def fixRoot (rootino : Nat) : M Unit := do
  let din ← rinode c rootino
  winode c rootino { din with size := BitVec.ofNat 32 ((din.size.toNat / BSIZE + 1) * BSIZE) }

def main (inputs : List Input) : M Unit := do
  wsect 1 (sbBlock c)
  let rootino ← ialloc c T_DIR
  if rootino = 1 then do
    iappend c rootino (dirent rootino [dot])
    iappend c rootino (dirent rootino [dot, dot])
    addFiles c rootino inputs
    fixRoot c rootino
    let img ← read
    balloc c img.freeblock
  else halt "assert"

/-- What main starts from. -/
def blank : Image := ⟨fun _ => zeroBlock, 1, c.superblock.nmeta⟩

/-! ## One block at a time -/

/-- The inodes on the disk. -/
def onDisk (disk : Nat → Block) : Nat → Dinode := fun i =>
  if i ≤ c.ninodes then dinodeAt c.superblock disk i else noDinode

/-- What holds of the image at every point: the blocks that inodes name are between the
metadata and freeblock, and what is above is untouched, as is the bitmap. -/
structure Good (view : Nat → Dinode) (img : Image) : Prop where
  sound : Sound c.superblock.nmeta (fun b => b < img.freeblock) view img.disk
  untouched : ∀ b, img.freeblock ≤ b → img.disk b = zeroBlock
  bitmap : ∀ b, c.superblock.bmapstart ≤ b → b < c.superblock.nmeta → img.disk b = zeroBlock
  least : c.superblock.nmeta ≤ img.freeblock
  most : img.freeblock ≤ c.fssize

/-- A file of that size has a block for each of its bytes and no other. -/
def Filled (view : Nat → Dinode) (disk : Nat → Block) (i size : Nat) : Prop :=
  ∀ bn < MAXFILE, owns view disk (i, placeOf bn) ≠ none ↔ bn * BSIZE < size

variable {c} {view : Nat → Dinode} {img img' : Image} {i : Nat} {din din' : Dinode}

theorem rsect_ok {sec : Nat} {blk : Block} :
    rsect c sec img = .ok (blk, img') ↔ sec < c.fssize ∧ blk = img.disk sec ∧ img' = img := by
  unfold rsect
  rw [read_bind]
  split
  · rename_i inside
    rw [pure_ok_iff]
    constructor
    · rintro ⟨rfl, rfl⟩
      exact ⟨inside, rfl, rfl⟩
    · rintro ⟨-, rfl, rfl⟩
      exact ⟨rfl, rfl⟩
  · rename_i outside
    rw [Prog.halt_ok_iff]
    exact ⟨False.elim, fun both => outside both.1⟩

/-- What placing a block at `place` does. -/
structure Placed (c : Params) (view : Nat → Dinode) (i : Nat) (place : Place) (b : Nat)
    (img img' : Image)
    (din din' : Dinode) : Prop where
  header : din' = { din with addrs := din'.addrs }
  here : owns (Function.update view i din') img'.disk (i, place) = some b
  others : ∀ x, x ≠ (i, place) → x ≠ (i, .slot 12) →
    owns (Function.update view i din') img'.disk x = owns (Function.update view i din) img.disk x
  bytes : ∀ j o, byteOf (Function.update view i din') img'.disk j o =
    byteOf (Function.update view i din) img.disk j o
  inodes : img'.freeinode = img.freeinode
  below : ∀ b, b < c.superblock.nmeta → img'.disk b = img.disk b

theorem takeBlock_ok {b : Nat} : takeBlock img = .ok (b, img') ↔
    b = img.freeblock ∧ img' = { img with freeblock := img.freeblock + 1 } := by
  unfold takeBlock
  rw [read_bind, Prog.update_bind, pure_ok_iff]

theorem Good.unowned (good : Good c view img) (x : Nat × Place) :
    owns view img.disk x ≠ some img.freeblock :=
  fun owned => Nat.lt_irrefl _ (good.sound.data owned).2

theorem Good.freeblock_lt (good : Good c view img) : img.freeblock < 2 ^ 32 :=
  Nat.lt_of_le_of_lt good.most c.fssize_lt

theorem Good.freeblock_pos (good : Good c view img) : 0 < img.freeblock := by
  have least := good.least
  unfold Superblock.nmeta at least
  exact Nat.lt_of_lt_of_le (Nat.succ_pos _) least

theorem ensureSlot_spec (good : Good c (Function.update view i din) img) {k : Fin 13} {b : Nat}
    (run : ensureSlot din k img = .ok ((din', b), img')) (inside : b < c.fssize) :
    Good c (Function.update view i din') img' ∧
      Placed c view i (.slot k) b img img' din din' ∧
      ∀ x, x ≠ (i, .slot k) →
        owns (Function.update view i din') img'.disk x =
        owns (Function.update view i din) img.disk x := by
  unfold ensureSlot at run
  split at run
  · rename_i vacant
    rw [bind_ok_iff] at run
    obtain ⟨fb, img1, took, done⟩ := run
    obtain ⟨rfl, rfl⟩ := takeBlock_ok.mp took
    rw [pure_ok_iff] at done
    obtain ⟨same, rfl⟩ := done
    cases same
    have small := good.freeblock_lt
    rw [toNat_ofNat_of_lt small] at inside ⊢
    have view' : withSlot (Function.update view i din) i k img.freeblock = Function.update view i
        { din with addrs := Function.update din.addrs k (BitVec.ofNat 32 img.freeblock) } := by
      simp [withSlot]
    have empty : (Function.update view i din i).addrs k = 0 := by
      rw [update_self]
      exact vacant
    have targets := owns_withSlot empty good.freeblock_pos small (good.untouched _ (Nat.le_refl _))
    rw [view'] at targets
    have before : owns (Function.update view i din) img.disk (i, .slot k) = none := by
      rw [owns_slot, update_self, if_pos vacant]
    refine ⟨⟨?_, ?_, good.bitmap, ?_, inside⟩, ⟨rfl, ?_, ?_, ?_, rfl, fun _ _ => rfl⟩, ?_⟩
    · exact good.sound.adopt good.least (Nat.lt_succ_self _) good.unowned
        (fun _ _ _ lower => Nat.lt_succ_of_lt lower) targets
    · exact fun b above => good.untouched b (Nat.le_of_succ_le above)
    · exact Nat.le_succ_of_le good.least
    · rw [targets, if_pos rfl]
    · intro x apart _
      rw [targets, if_neg apart]
    · exact byteOf_adopt before (good.untouched _ (Nat.le_refl _)) targets fun _ _ _ _ => rfl
    · intro x apart
      rw [targets, if_neg apart]
  · rename_i taken
    rw [pure_ok_iff] at run
    obtain ⟨same, rfl⟩ := run
    cases same
    refine ⟨good, ⟨rfl, ?_, fun _ _ _ => rfl, fun _ _ => rfl, rfl, fun _ _ => rfl⟩, fun _ _ => rfl⟩
    rw [owns_slot, update_self, if_neg taken]

theorem appendBlock_spec (good : Good c (Function.update view i din) img) {fbn b : Nat}
    (run : appendBlock c din fbn img = .ok ((din', b), img')) (inside : b < c.fssize) :
    Good c (Function.update view i din') img' ∧
      Placed c view i (placeOf fbn) b img img' din din' := by
  unfold appendBlock at run
  split at run
  · rename_i direct
    obtain ⟨good', placed, -⟩ := ensureSlot_spec good run inside
    rw [placeOf_slot direct]
    exact ⟨good', placed⟩
  · rename_i indirect
    rw [placeOf_entry indirect]
    rw [bind_ok_iff] at run
    obtain ⟨⟨din1, ind⟩, img1, first, run⟩ := run
    rw [bind_ok_iff] at run
    obtain ⟨blk, img2, fetched, run⟩ := run
    obtain ⟨within, rfl, rfl⟩ := rsect_ok.mp fetched
    obtain ⟨good1, placed1, others1⟩ := ensureSlot_spec good first within
    have slot : owns (Function.update view i din1) img2.disk (i, .slot 12) = some ind :=
      placed1.here
    dsimp only at run
    generalize (⟨(fbn - NDIRECT) % 128, Nat.mod_lt _ (by decide)⟩ : Fin 128) = j at run ⊢
    split at run
    · rename_i vacant
      rw [bind_ok_iff] at run
      obtain ⟨fb, img3, took, run⟩ := run
      obtain ⟨rfl, rfl⟩ := takeBlock_ok.mp took
      rw [bind_ok_iff] at run
      obtain ⟨_, img4, wrote, done⟩ := run
      rw [wsect, update_ok_iff] at wrote
      subst wrote
      rw [pure_ok_iff] at done
      obtain ⟨same, rfl⟩ := done
      cases same
      have small := good1.freeblock_lt
      rw [toNat_ofNat_of_lt small] at inside ⊢
      have targets := owns_withEntry good1.sound slot vacant good1.freeblock_pos small
      have lower := (good1.sound.data slot).2
      have data := (good1.sound.data slot).1
      have before : owns (Function.update view i din') img2.disk (i, .entry j) = none := by
        rw [owns_entry, slot]
        simp only [vacant, if_true]
      have elsewhere : ∀ b, b ≠ ind → Function.update img2.disk ind
          (Function.update (img2.disk ind) j (BitVec.ofNat 32 img2.freeblock)) b = img2.disk b :=
        fun b apart => update_of_ne apart ..
      refine ⟨⟨?_, ?_, ?_, ?_, inside⟩, ⟨placed1.header, ?_, ?_, ?_, placed1.inodes, ?_⟩⟩
      · exact good1.sound.adopt good1.least (Nat.lt_succ_self _) good1.unowned
          (fun _ _ _ lower => Nat.lt_succ_of_lt lower) targets
      · intro b above
        dsimp only at above ⊢
        rw [elsewhere b (by omega)]
        exact good1.untouched b (Nat.le_of_succ_le above)
      · intro b low high
        dsimp only
        rw [elsewhere b (by omega)]
        exact good1.bitmap b low high
      · exact Nat.le_succ_of_le good1.least
      · rw [targets, if_pos rfl]
      · intro x apart apart'
        rw [targets, if_neg apart]
        exact others1 x apart'
      · intro k o
        rw [← placed1.bytes k o]
        refine byteOf_adopt before ?_ targets (fun y b owned notSlot => elsewhere b ?_) k o
        · rw [elsewhere _ (by omega)]
          exact good1.untouched _ (Nat.le_refl _)
        · rintro rfl
          have both := good1.sound.once owned slot
          exact notSlot (congrArg Prod.snd both)
      · intro b low
        dsimp only
        rw [elsewhere b (by omega)]
        exact placed1.below b low
    · rename_i taken
      rw [pure_ok_iff] at run
      obtain ⟨same, rfl⟩ := run
      cases same
      refine ⟨good1, placed1.header, ?_, ?_, placed1.bytes, placed1.inodes, placed1.below⟩
      · rw [owns_entry, slot]
        simp only [if_neg taken]
      · intro x apart apart'
        exact others1 x apart'

/-- What iappend's loop does. -/
structure Appended (c : Params) (view : Nat → Dinode) (i off : Nat) (src : List Byte)
    (img img' : Image)
    (din din' : Dinode) : Prop where
  header : din' = { din with addrs := din'.addrs }
  range : off + src.length ≤ MAXFILE * BSIZE
  filled : Filled (Function.update view i din') img'.disk i (off + src.length)
  others : ∀ j place, j ≠ i → owns (Function.update view i din') img'.disk (j, place) =
    owns (Function.update view i din) img.disk (j, place)
  bytes : ∀ j o, o < MAXFILE * BSIZE → byteOf (Function.update view i din') img'.disk j o =
    if j = i ∧ off ≤ o ∧ o < off + src.length then src.getD (o - off) 0
    else byteOf (Function.update view i din) img.disk j o
  inodes : img'.freeinode = img.freeinode
  below : ∀ b, b < c.superblock.nmeta → img'.disk b = img.disk b

theorem Placed.patched {off m x : Nat} {src : List Byte}
    (good : Good c (Function.update view i din') img')
    (placed : Placed c view i (placeOf (off / BSIZE)) x img img' din din')
    (filled : Filled (Function.update view i din) img.disk i off) (index : off / BSIZE < MAXFILE)
    (length : src.length = m) (some : 0 < m) (fits : m ≤ BSIZE - off % BSIZE) :
    Good c (Function.update view i din')
        { img' with disk :=
          Function.update img'.disk x (Block.patch (img'.disk x) (off % BSIZE) src) } ∧
      Appended c view i off src img
        { img' with disk :=
          Function.update img'.disk x (Block.patch (img'.disk x) (off % BSIZE) src) }
        din din' := by
  have here := placed.here
  obtain ⟨data, lower⟩ := good.sound.data here
  have same := owns_patch good.sound here (Block.patch (img'.disk x) (off % BSIZE) src)
  have elsewhere : ∀ b, b ≠ x → Function.update img'.disk x
      (Block.patch (img'.disk x) (off % BSIZE) src) b = img'.disk b :=
    fun b apart => update_of_ne apart ..
  have split := Nat.div_add_mod off BSIZE
  have bound := Nat.mod_lt off (show 0 < BSIZE by decide)
  have start : off / BSIZE * BSIZE + off % BSIZE = off := by rw [Nat.mul_comm]; exact split
  have stop : off + src.length ≤ (off / BSIZE + 1) * BSIZE := by
    rw [Nat.succ_mul]
    omega
  refine ⟨⟨?_, ?_, ?_, good.least, good.most⟩, ⟨placed.header, ?_, ?_, ?_, ?_, placed.inodes, ?_⟩⟩
  · exact ⟨fun {y b} owned => good.sound.data ((same y).symm.trans owned),
      fun {y z b} first second => good.sound.once ((same y).symm.trans first)
      ((same z).symm.trans second)⟩
  · intro b above
    dsimp only at above ⊢
    rw [elsewhere b (by omega)]
    exact good.untouched b above
  · intro b low high
    dsimp only
    rw [elsewhere b (by omega)]
    exact good.bitmap b low high
  · exact Nat.le_trans stop (Nat.mul_le_mul_right BSIZE (Nat.succ_le_of_lt index))
  · intro bn range
    dsimp only
    rw [same]
    by_cases now : bn = off / BSIZE
    · subst now
      rw [here]
      simp only [ne_eq, reduceCtorEq, not_false_eq_true, true_iff]
      omega
    · have apart : (i, placeOf bn) ≠ (i, placeOf (off / BSIZE)) := by
        intro both
        exact now (placeOf_inj range index (Prod.mk.inj both).2)
      have notSlot :
        (i, placeOf bn) ≠ (i, .slot 12) := fun both => placeOf_ne bn (Prod.mk.inj both).2
      rw [placed.others _ apart notSlot, filled bn range]
      unfold BSIZE at *
      omega
  · intro j place apart
    dsimp only
    rw [same, placed.others] <;> simp [apart]
  · intro j o inside
    dsimp only
    rw [byteOf_patch good.sound index here _ _ inside, start, placed.bytes]
    by_cases within : j = i ∧ off ≤ o ∧ o < off + src.length
    · rw [if_pos within, if_pos ⟨within.1, within.2.1, within.2.2, by omega⟩]
    · rw [if_neg within, if_neg (fun both => within ⟨both.1, both.2.1, both.2.2.1⟩)]
  · intro b low
    dsimp only
    rw [elsewhere b (by omega)]
    exact placed.below b low

theorem Appended.trans {off m : Nat} {src : List Byte} {img'' : Image} {din'' : Dinode}
    (first : Appended c view i off (src.take m) img img' din din') (cut : (src.take m).length = m)
    (second : Appended c view i (off + m) (src.drop m) img' img'' din' din'') :
    Appended c view i off src img img'' din din'' := by
  have total : off + m + (src.drop m).length = off + src.length := by
    rw [List.length_drop]
    rw [List.length_take] at cut
    omega
  constructor
  · rw [second.header, first.header]
  · rw [← total]
    exact second.range
  · rw [← total]
    exact second.filled
  · intro j place apart
    rw [second.others j place apart, first.others j place apart]
  · intro j o inside
    rw [second.bytes j o inside, first.bytes j o inside, cut]
    by_cases same : j = i
    · simp only [same, true_and]
      exact splice_cut cut o _
    · simp only [same, false_and, if_false]
  · rw [second.inodes, first.inodes]
  · intro b low
    rw [second.below b low, first.below b low]

theorem appendLoop_spec (src : List Byte) {off off' : Nat}
    (good : Good c (Function.update view i din) img)
    (filled : Filled (Function.update view i din) img.disk i off)
    (small : off ≤ MAXFILE * BSIZE)
    (run : appendLoop c din off src img = .ok ((din', off'), img')) :
    off' = off + src.length ∧ Good c (Function.update view i din') img' ∧
      Appended c view i off src img img' din din' := by
  obtain ⟨n, len⟩ : ∃ n, n = src.length := ⟨_, rfl⟩
  induction n using Nat.strongRecOn generalizing src off din img with
  | ind n ih =>
  unfold appendLoop at run
  split at run
  · rename_i none
    subst none
    rw [pure_ok_iff] at run
    obtain ⟨same, rfl⟩ := run
    cases same
    refine ⟨rfl, good, rfl, by simpa using small, by simpa using filled, fun _ _ _ => rfl, ?_, rfl,
      fun _ _ => rfl⟩
    intro j o _
    rw [if_neg]
    rintro ⟨-, low, high⟩
    rw [List.length_nil] at high
    omega
  · rename_i some
    split at run
    · rw [Prog.halt_ok_iff] at run
      exact run.elim
    · rename_i range
      have index : off / BSIZE < MAXFILE := Nat.lt_of_not_le range
      rw [bind_ok_iff] at run
      obtain ⟨⟨din1, x⟩, img1, first, run⟩ := run
      rw [bind_ok_iff] at run
      obtain ⟨blk, img2, fetched, run⟩ := run
      obtain ⟨within, rfl, rfl⟩ := rsect_ok.mp fetched
      obtain ⟨good1, placed⟩ := appendBlock_spec good first within
      rw [bind_ok_iff] at run
      obtain ⟨_, img3, wrote, run⟩ := run
      rw [wsect, update_ok_iff] at wrote
      subst wrote
      have bound := Nat.mod_lt off (show 0 < BSIZE by decide)
      have nonempty : 0 < src.length := List.length_pos_iff.mpr some
      obtain ⟨m, cut⟩ : ∃ m, m = min src.length (BSIZE - off % BSIZE) := ⟨_, rfl⟩
      rw [← cut] at run
      have taken : (src.take m).length = m := by
        rw [List.length_take]
        omega
      obtain ⟨good2, appended⟩ := placed.patched good1 filled index taken (by omega) (by omega)
      have short : (src.drop m).length < n := by
        rw [List.length_drop]
        omega
      have now := appended.filled
      have range' := appended.range
      rw [taken] at now range'
      obtain ⟨ends, good3, rest⟩ := ih _ short (src.drop m) good2 now range' run rfl
      rw [List.length_drop] at ends
      refine ⟨by omega, good3, ?_⟩
      exact appended.trans taken rest

/-! ## Whole calls -/

/-- Between calls of iappend the inodes on the disk describe the files. -/
structure Built (c : Params) (img : Image) : Prop where
  good : Good c (onDisk c img.disk) img
  filled : ∀ i, Filled (onDisk c img.disk) img.disk i (onDisk c img.disk i).size.toNat
  sizes : ∀ i, (onDisk c img.disk i).size.toNat ≤ MAXFILE * BSIZE
  unborn : ∀ i, img.freeinode ≤ i → onDisk c img.disk i = noDinode

theorem iblock_lt_nmeta (known : i ≤ c.ninodes) : iblock c.superblock i < c.superblock.nmeta := by
  have low := iblock_lt c.superblock known
  unfold Superblock.nmeta BPB
  omega

theorem onDisk_store (disk : Nat → Block) (known : i ≤ c.ninodes) (d : Dinode) :
    onDisk c (storeDinode c.superblock disk i d) = Function.update (onDisk c disk) i d := by
  funext j
  unfold onDisk
  by_cases same : j = i
  · subst same
    rw [update_self, if_pos known, dinodeAt_store]
  · rw [update_of_ne same, dinodeAt_store_ne _ _ same]

theorem onDisk_congr {disk disk' : Nat → Block}
    (same : ∀ b, b < c.superblock.bmapstart → disk' b = disk b) :
    onDisk c disk' = onDisk c disk := by
  funext j
  unfold onDisk
  split
  · rename_i known
    unfold dinodeAt
    rw [same _ (iblock_lt c.superblock known)]
  · rfl

theorem nmeta_le (c : Params) : c.superblock.nmeta ≤ c.fssize := by
  have fits := c.meta_le
  unfold Superblock.nmeta Params.superblock
  dsimp only
  omega

theorem bmapstart_lt_nmeta (c : Params) : c.superblock.bmapstart < c.superblock.nmeta := by
  unfold Superblock.nmeta BPB
  omega

theorem Good.winode (good : Good c (Function.update (onDisk c img.disk) i din) img)
    (known : i ≤ c.ninodes) {d : Dinode} (addrs : d.addrs = din.addrs) :
    Good c (onDisk c (storeDinode c.superblock img.disk i d))
        { img with disk := storeDinode c.superblock img.disk i d } ∧
      (∀ x, owns (onDisk c (storeDinode c.superblock img.disk i d))
        (storeDinode c.superblock img.disk i d) x =
        owns (Function.update (onDisk c img.disk) i din) img.disk x) ∧
      ∀ j o, byteOf (onDisk c (storeDinode c.superblock img.disk i d))
        (storeDinode c.superblock img.disk i d) j o =
        byteOf (Function.update (onDisk c img.disk) i din) img.disk j o := by
  have low := iblock_lt_nmeta known
  have lower := iblock_lt c.superblock known
  have outside : ∀ x b, owns (Function.update (onDisk c img.disk) i din) img.disk x = some b →
      storeDinode c.superblock img.disk i d b = img.disk b := by
    intro x b owned
    have data := (good.sound.data owned).1
    exact storeDinode_ne _ _ (by omega)
  have same : ∀ j, (onDisk c (storeDinode c.superblock img.disk i d) j).addrs =
      (Function.update (onDisk c img.disk) i din j).addrs := by
    intro j
    rw [onDisk_store img.disk known]
    by_cases here : j = i
    · subst here
      rw [update_self, update_self, addrs]
    · rw [update_of_ne here, update_of_ne here]
  have targets : ∀ x, owns (onDisk c (storeDinode c.superblock img.disk i d))
      (storeDinode c.superblock img.disk i d) x =
      owns (Function.update (onDisk c img.disk) i din) img.disk x := by
    intro x
    rw [owns_addrs _ same, owns_frame outside]
  refine ⟨⟨⟨?_, ?_⟩, ?_, ?_, good.least, good.most⟩, targets, ?_⟩
  · intro x b owned
    rw [targets] at owned
    exact good.sound.data owned
  · intro x y b first second
    rw [targets] at first second
    exact good.sound.once first second
  · intro b above
    have least := good.least
    dsimp only at above ⊢
    rw [storeDinode_ne _ _ (by omega)]
    exact good.untouched b above
  · intro b above high
    dsimp only
    rw [storeDinode_ne _ _ (by omega)]
    exact good.bitmap b above high
  · intro j o
    rw [byteOf_addrs _ same, byteOf_frame outside]

theorem winode_ok {d : Dinode} {value : Unit} : winode c i d img = .ok (value, img') →
    img' = { img with disk := storeDinode c.superblock img.disk i d } := by
  unfold winode
  intro run
  rw [bind_ok_iff] at run
  obtain ⟨blk, img1, fetched, run⟩ := run
  obtain ⟨-, -, rfl⟩ := rsect_ok.mp fetched
  rw [update_ok_iff] at run
  exact run

theorem rinode_ok {d : Dinode} : rinode c i img = .ok (d, img') →
    d = dinodeAt c.superblock img.disk i ∧ img' = img := by
  unfold rinode
  intro run
  rw [bind_ok_iff] at run
  obtain ⟨blk, img1, fetched, run⟩ := run
  obtain ⟨-, -, rfl⟩ := rsect_ok.mp fetched
  rw [read_bind, pure_ok_iff] at run
  exact run

/-- The type and the number of links of an inode. -/
def kind (d : Dinode) : BitVec 16 × BitVec 16 := (d.type, d.nlink)

/-- What iappend does to the files. -/
structure Grown (c : Params) (i : Nat) (src : List Byte) (img img' : Image) : Prop where
  size : (onDisk c img'.disk i).size.toNat = (onDisk c img.disk i).size.toNat + src.length
  kind : kind (onDisk c img'.disk i) = kind (onDisk c img.disk i)
  others : ∀ j, j ≠ i → onDisk c img'.disk j = onDisk c img.disk j
  bytes : ∀ j o, o < MAXFILE * BSIZE → byteOf (onDisk c img'.disk) img'.disk j o =
    if j = i ∧ (onDisk c img.disk i).size.toNat ≤ o ∧
        o < (onDisk c img.disk i).size.toNat + src.length
    then src.getD (o - (onDisk c img.disk i).size.toNat) 0
    else byteOf (onDisk c img.disk) img.disk j o
  inodes : img'.freeinode = img.freeinode

theorem iappend_spec (built : Built c img) (known : i ≤ c.ninodes) (born : i < img.freeinode)
    {src : List Byte} {value : Unit} (run : iappend c i src img = .ok (value, img')) :
    Built c img' ∧ Grown c i src img img' := by
  unfold iappend at run
  rw [bind_ok_iff] at run
  obtain ⟨din, img0, fetched, run⟩ := run
  obtain ⟨rfl, rfl⟩ := rinode_ok fetched
  rw [bind_ok_iff] at run
  obtain ⟨⟨din', off⟩, img1, looped, run⟩ := run
  have written := winode_ok run
  have start : Function.update (onDisk c img0.disk) i (dinodeAt c.superblock img0.disk i) =
      onDisk c img0.disk := by
    have here : dinodeAt c.superblock img0.disk i = onDisk c img0.disk i := by
      unfold onDisk
      rw [if_pos known]
    rw [here, Function.update_eq_self]
  have here : onDisk c img0.disk i = dinodeAt c.superblock img0.disk i := if_pos known
  have small := built.sizes i
  have good : Good c (Function.update (onDisk c img0.disk) i (dinodeAt c.superblock img0.disk i))
      img0 := by
    rw [start]
    exact built.good
  have filled : Filled (Function.update (onDisk c img0.disk) i (dinodeAt c.superblock img0.disk i))
      img0.disk i (dinodeAt c.superblock img0.disk i).size.toNat := by
    rw [start, ← here]
    exact built.filled i
  rw [here] at small
  obtain ⟨rfl, good1, appended⟩ := appendLoop_spec src good filled small looped
  have range := appended.range
  have same : onDisk c img1.disk = onDisk c img0.disk := 
    onDisk_congr fun b low => appended.below b (Nat.lt_trans low (bmapstart_lt_nmeta c))
  have value :
    (BitVec.ofNat 32 ((dinodeAt c.superblock img0.disk i).size.toNat + src.length)).toNat =
      (dinodeAt c.superblock img0.disk i).size.toNat + src.length := by
    refine toNat_ofNat_of_lt (Nat.lt_of_le_of_lt range ?_)
    decide
  rw [← same] at good1
  obtain ⟨good2, targets, bytes⟩ := good1.winode known (d := { din' with
    size := BitVec.ofNat 32 ((dinodeAt c.superblock img0.disk i).size.toNat + src.length) }) rfl
  have view := onDisk_store (c := c) img1.disk known { din' with
    size := BitVec.ofNat 32 ((dinodeAt c.superblock img0.disk i).size.toNat + src.length) }
  have mine : onDisk c (storeDinode c.superblock img1.disk i { din' with
      size := BitVec.ofNat 32 ((dinodeAt c.superblock img0.disk i).size.toNat + src.length) }) i =
      { din' with
        size := BitVec.ofNat 32
          ((dinodeAt c.superblock img0.disk i).size.toNat + src.length) } := by
    rw [view, update_self]
  have theirs : ∀ j, j ≠ i → onDisk c (storeDinode c.superblock img1.disk i { din' with
      size := BitVec.ofNat 32 ((dinodeAt c.superblock img0.disk i).size.toNat + src.length) }) j =
      onDisk c img0.disk j := by
    intro j apart
    rw [view, update_of_ne apart, same]
  rw [same] at targets bytes
  subst written
  refine ⟨⟨good2, ?_, ?_, ?_⟩, ⟨?_, ?_, theirs, ?_, appended.inodes⟩⟩
  · intro j
    by_cases target : j = i
    · subst target
      rw [mine]
      dsimp only
      rw [value]
      intro bn bound
      rw [targets]
      exact appended.filled bn bound
    · rw [theirs j target]
      intro bn bound
      rw [targets, appended.others j _ target, start]
      exact built.filled j bn bound
  · intro j
    by_cases target : j = i
    · subst target
      rw [mine]
      dsimp only
      rw [value]
      exact range
    · rw [theirs j target]
      exact built.sizes j
  · intro j above
    have later : j ≠ i := by
      rintro rfl
      rw [show ({ img1 with disk := _ } : Image).freeinode =
        img0.freeinode from appended.inodes] at above
      omega
    rw [theirs j later]
    refine built.unborn j ?_
    rw [← appended.inodes]
    exact above
  · rw [mine, here]
    exact value
  · rw [mine, here, appended.header]
    rfl
  · intro j o inside
    rw [here]
    have moved := appended.bytes j o inside
    rw [start] at moved
    rw [bytes, moved]

end Xv6Cow.Mkfs
