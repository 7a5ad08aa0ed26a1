import Mathlib.Data.List.Basic
import Mathlib.Tactic.Common
import Xv6Cow.FileSystem

/- The on-disk format, apart from who reads and writes it: where inodes and bits are,
which blocks an inode names, and the bytes of a file. The inodes are given by a `view`:
those on the disk, or the copies in memory. -/
namespace Xv6Cow.Fs

open Function (update_self update_of_ne)

variable (sb : Superblock) {disk : Nat → Block}

/-! ## Inodes and bits -/

theorem Dinode.ofWords_words (d : Dinode) : Dinode.ofWords d.words = d := by
  unfold Dinode.ofWords Dinode.words
  obtain ⟨type, major, minor, nlink, size, addrs⟩ := d
  simp only [Dinode.mk.injEq]
  have halves : ∀ high low : BitVec 16, ((high ++ low : Word).setWidth 16) = low ∧
      ((high ++ low : Word) >>> 16).setWidth 16 = high := by
    intro high low
    constructor <;> ext i inside
    · have bit := @BitVec.getLsbD_append 16 16 i high low
      simp [bit, inside]
    · have bit := @BitVec.getLsbD_append 16 16 (16 + i) high low
      simp [bit, show ¬16 + i < 16 by omega, inside]
  refine ⟨(halves major type).1, (halves major type).2, (halves nlink minor).1,
    (halves nlink minor).2, rfl, ?_⟩
  funext k
  simp

theorem dinodeAt_store (i : Nat) (d : Dinode) : dinodeAt sb (storeDinode sb disk i d) i = d := by
  unfold dinodeAt storeDinode
  rw [update_self]
  conv_rhs => rw [← d.ofWords_words]
  congr 1
  funext k
  have place : (16 * (i % IPB) + k.val) / 16 = i % IPB := by omega
  have word : (16 * (i % IPB) + k.val) % 16 = k.val := by omega
  simp only [place, word, if_true]

theorem dinodeAt_store_ne {i j : Nat} (d : Dinode) (apart : j ≠ i) :
    dinodeAt sb (storeDinode sb disk i d) j = dinodeAt sb disk j := by
  unfold dinodeAt storeDinode
  by_cases same : iblock sb j = iblock sb i
  · rw [same, update_self]
    congr 1
    funext k
    have other : (16 * (j % IPB) + k.val) / 16 ≠ i % IPB := by
      unfold iblock IPB at same
      unfold IPB
      omega
    simp only [other, if_false]
  · rw [update_of_ne same]

theorem storeDinode_ne {i b : Nat} (d : Dinode) (apart : b ≠ iblock sb i) :
    storeDinode sb disk i d b = disk b := update_of_ne apart ..

theorem iblock_lt {i : Nat} (known : i ≤ sb.ninodes) : iblock sb i < sb.bmapstart := by
  have order := sb.inodes_first
  have share := Nat.div_le_div_right (c := IPB) known
  unfold iblock
  omega

theorem bblock_range {b : Nat} (inside : b < sb.size) :
    sb.bmapstart ≤ bblock sb b ∧ bblock sb b < sb.nmeta := by
  unfold bblock Superblock.nmeta BPB
  omega

/-! ## The blocks of an inode -/

/-- Where an inode keeps a block number: in the inode, or in its indirect block. -/
inductive Place
  | slot (k : Fin 13)
  | entry (j : Fin 128)
  deriving DecidableEq

/-- The block number kept there; 0 is none. -/
def addr (d : Dinode) (disk : Nat → Block) : Place → Word
  | .slot k => d.addrs k
  | .entry j => if d.addrs 12 = 0 then 0 else disk (d.addrs 12).toNat j

/-- The place for block `bn` of a file. -/
def placeOf (bn : Nat) : Place :=
  if direct : bn < 12 then .slot ⟨bn, slot_lt direct⟩ else .entry ⟨(bn - 12) % 128, by omega⟩

def owns (view : Nat → Dinode) (disk : Nat → Block) (x : Nat × Place) : Option Nat :=
  if addr (view x.1) disk x.2 = 0 then none else some (addr (view x.1) disk x.2).toNat

/-- Byte `o` of a file; what has no block reads as 0. -/
def byteOf (view : Nat → Dinode) (disk : Nat → Block) (i o : Nat) : Byte :=
  match owns view disk (i, placeOf (o / BSIZE)) with
  | none => 0
  | some b => Block.byte (disk b) (o % BSIZE)

/-- Owned blocks are data blocks, in use, and have one owner. -/
structure Sound (low : Nat) (used : Nat → Prop) (view : Nat → Dinode) (disk : Nat → Block) :
    Prop where
  data : ∀ {x b}, owns view disk x = some b → low ≤ b ∧ used b
  once : ∀ {x y b}, owns view disk x = some b → owns view disk y = some b → x = y

variable {low : Nat} {used : Nat → Prop} {view : Nat → Dinode} {i b : Nat}

theorem placeOf_entry {fbn : Nat} (indirect : ¬fbn < NDIRECT) :
    placeOf fbn = .entry ⟨(fbn - NDIRECT) % 128, Nat.mod_lt _ (by decide)⟩ := by
  unfold placeOf NDIRECT at *
  rw [dif_neg indirect]

theorem placeOf_slot {fbn : Nat} (direct : fbn < NDIRECT) :
    placeOf fbn = .slot ⟨fbn, slot_lt direct⟩ := by
  unfold placeOf NDIRECT at *
  rw [dif_pos direct]

theorem placeOf_ne (bn : Nat) : placeOf bn ≠ .slot 12 := by
  unfold placeOf
  split
  · rename_i direct
    intro same
    have value := congrArg Fin.val (Place.slot.inj same)
    simp at value
    omega
  · simp

theorem placeOf_inj {m n : Nat} (first : m < MAXFILE) (second : n < MAXFILE)
    (same : placeOf m = placeOf n) : m = n := by
  unfold MAXFILE NDIRECT NINDIRECT at first second
  unfold placeOf at same
  split at same <;> split at same <;> simp at same <;> omega

theorem owns_slot (k : Fin 13) :
    owns view disk (i, .slot k) =
      if (view i).addrs k = 0 then none else some ((view i).addrs k).toNat := rfl

theorem owns_entry (j : Fin 128) :
    owns view disk (i, .entry j) = match owns view disk (i, .slot 12) with
      | none => none
      | some b => if disk b j = 0 then none else some (disk b j).toNat := by
  unfold owns addr
  dsimp only
  by_cases vacant : (view i).addrs 12 = 0
  · simp only [if_pos vacant]
    rfl
  · simp only [if_neg vacant]

theorem owns_frame {disk' : Nat → Block}
    (same : ∀ x b, owns view disk x = some b → disk' b = disk b)
    (x : Nat × Place) : owns view disk' x = owns view disk x := by
  obtain ⟨i, k | j⟩ := x
  · rfl
  · rw [owns_entry, owns_entry]
    have slot : owns view disk' (i, .slot 12) = owns view disk (i, .slot 12) := rfl
    rw [slot]
    cases here : owns view disk (i, .slot 12) with
    | none => rfl
    | some b => simp only [same _ b here]

theorem byteOf_frame {disk' : Nat → Block}
    (same : ∀ x b, owns view disk x = some b → disk' b = disk b)
    (i o : Nat) : byteOf view disk' i o = byteOf view disk i o := by
  unfold byteOf
  rw [owns_frame same]
  cases here : owns view disk (i, placeOf (o / BSIZE)) with
  | none => rfl
  | some b => simp only [same _ b here]

theorem Sound.frame {disk' : Nat → Block} (sound : Sound low used view disk)
    (same : ∀ x b, owns view disk x = some b → disk' b = disk b) {used' : Nat → Prop}
    (still : ∀ x b, owns view disk x = some b → used b → used' b) : Sound low used' view disk' := by
  refine ⟨fun {x b} here => ?_, fun {x y b} first second => ?_⟩
  · rw [owns_frame same] at here
    exact ⟨(sound.data here).1, still x b here (sound.data here).2⟩
  · rw [owns_frame same] at first second
    exact sound.once first second

/-- Sets a direct block, or the indirect block. -/
def withSlot (view : Nat → Dinode) (i : Nat) (k : Fin 13) (b : Nat) : Nat → Dinode :=
  Function.update view i
  { view i with addrs := Function.update (view i).addrs k (BitVec.ofNat 32 b) }

theorem ofNat_ne_zero {b : Nat} (positive : 0 < b) (small : b < 2 ^ 32) :
    BitVec.ofNat 32 b ≠ 0#32 := by
  intro zero
  have value := congrArg BitVec.toNat zero
  simp only [BitVec.toNat_ofNat, Nat.zero_mod, Nat.mod_eq_of_lt small] at value
  omega

theorem toNat_ofNat_of_lt {b : Nat} (small : b < 2 ^ 32) : (BitVec.ofNat 32 b).toNat = b := by
  rw [BitVec.toNat_ofNat, Nat.mod_eq_of_lt small]

theorem owns_withSlot {k : Fin 13} (vacant : (view i).addrs k = 0) (positive : 0 < b)
    (small : b < 2 ^ 32) (blank : disk b = zeroBlock) (x : Nat × Place) :
    owns (withSlot view i k b) disk x = if x = (i, .slot k) then some b else owns view disk x := by
  have nonzero := ofNat_ne_zero positive small
  have value := toNat_ofNat_of_lt small
  obtain ⟨j, place⟩ := x
  by_cases here : j = i
  · subst here
    have now : (withSlot view j k b j).addrs = Function.update (view j).addrs k
        (BitVec.ofNat 32 b) := by
      simp [withSlot]
    cases place with
    | slot l =>
      rw [owns_slot, owns_slot, now]
      by_cases same : l = k
      · subst same
        simp [nonzero, value]
      · simp [same]
    | entry m =>
      rw [owns_entry, owns_entry, owns_slot, owns_slot, now]
      by_cases same : 12 = k
      · subst same
        simp [nonzero, value, vacant, blank, zeroBlock]
      · simp [update_of_ne same]
  · have other : withSlot view i k b j = view j := update_of_ne here ..
    unfold owns
    simp [other, here]

/-- A new block of zeros in an empty entry of the indirect block. -/
theorem owns_withEntry (sound : Sound low used view disk) {ind : Nat} {j : Fin 128}
    (indirect : owns view disk (i, .slot 12) = some ind) (vacant : disk ind j = 0)
    (positive : 0 < b) (small : b < 2 ^ 32) (x : Nat × Place) :
    owns view (Function.update disk ind (Function.update (disk ind) j (BitVec.ofNat 32 b))) x =
      if x = (i, .entry j) then some b else owns view disk x := by
  have nonzero := ofNat_ne_zero positive small
  have value := toNat_ofNat_of_lt small
  obtain ⟨m, k | l⟩ := x
  · simp [owns_slot]
  · rw [owns_entry, owns_entry]
    have slot : owns view (Function.update disk ind
        (Function.update (disk ind) j (BitVec.ofNat 32 b))) (m, .slot 12) =
        owns view disk (m, .slot 12) := rfl
    rw [slot]
    cases here : owns view disk (m, .slot 12) with
    | none =>
      have apart : m ≠ i := by
        rintro rfl
        rw [indirect] at here
        cases here
      simp [apart]
    | some c =>
      by_cases same : m = i
      · subst same
        rw [indirect] at here
        cases here
        simp only [update_self]
        by_cases entry : l = j
        · subst entry
          simp [nonzero, value]
        · simp [entry]
      · have apart : c ≠ ind := by
          rintro rfl
          have both := sound.once here indirect
          simp at both
          exact same both
        simp [update_of_ne apart, same]

theorem byteOf_eq (i o : Nat) : byteOf view disk i o =
    match owns view disk (i, placeOf (o / BSIZE)) with
    | none => 0
    | some b => Block.byte (disk b) (o % BSIZE) := rfl

theorem byte_zeroBlock (o : Nat) : Block.byte zeroBlock o = 0 := by
  unfold Block.byte zeroBlock
  simp

theorem byteOf_adopt {view' : Nat → Dinode} {disk' : Nat → Block} {x : Nat × Place}
    (vacant : owns view disk x = none) (blank : disk' b = zeroBlock)
    (targets : ∀ y, owns view' disk' y = if y = x then some b else owns view disk y)
    (files : ∀ y c, owns view disk y = some c → y.2 ≠ .slot 12 → disk' c = disk c) (i o : Nat) :
    byteOf view' disk' i o = byteOf view disk i o := by
  rw [byteOf_eq, byteOf_eq, targets]
  by_cases here : (i, placeOf (o / BSIZE)) = x
  · rw [if_pos here, here, vacant]
    dsimp only
    rw [blank, byte_zeroBlock]
  · rw [if_neg here]
    cases there : owns view disk (i, placeOf (o / BSIZE)) with
    | none => rfl
    | some c =>
      dsimp only
      rw [files _ c there (placeOf_ne _)]

theorem Sound.adopt {view' : Nat → Dinode} {disk' : Nat → Block} {used' : Nat → Prop}
    {x : Nat × Place} (sound : Sound low used view disk) (data : low ≤ b) (marked : used' b)
    (unowned : ∀ y, owns view disk y ≠ some b)
    (still : ∀ y c, owns view disk y = some c → used c → used' c)
    (targets : ∀ y, owns view' disk' y = if y = x then some b else owns view disk y) :
    Sound low used' view' disk' := by
  refine ⟨fun {y c} here => ?_, fun {y z c} first second => ?_⟩
  · rw [targets] at here
    split at here
    · cases here
      exact ⟨data, marked⟩
    · exact ⟨(sound.data here).1, still y c here (sound.data here).2⟩
  · rw [targets] at first second
    split at first <;> split at second
    · rename_i one two
      rw [one, two]
    · cases first
      exact absurd second (unowned z)
    · cases second
      exact absurd first (unowned y)
    · exact sound.once first second

/-! ## Bytes -/

theorem byte_patch (blk : Block) (offset : Nat) (src : List Byte) {k : Nat} (inside : k < BSIZE) :
    Block.byte (Block.patch blk offset src) k =
      if offset ≤ k ∧
      k < offset + src.length then src.getD (k - offset) 0 else Block.byte blk k := by
  have small : k < PGSIZE := by
    rw [PGSIZE_eq]
    unfold BSIZE at inside
    omega
  let bytes := fun k => if offset ≤ k ∧ k < offset + src.length then src.getD (k - offset) 0
    else Block.byte blk k
  have page := Page.byte_ofBytes bytes k small
  change _ = bytes k
  rw [← page]
  have words : Block.patch blk offset src ⟨k / 4 % 128, Nat.mod_lt _ (by decide)⟩ =
      Page.ofBytes bytes (wordIndex k) := by
    unfold BSIZE at inside
    have same : k / 4 % 128 = (wordIndex k).val := by
      unfold wordIndex
      dsimp only
      omega
    unfold Block.patch Page.ofBytes
    simp only [same, bytes]
  unfold Page.byte
  rw [← words]
  rfl

theorem owns_patch (sound : Sound low used view disk) {bn : Nat}
    (here : owns view disk (i, placeOf bn) = some b) (blk : Block) (x : Nat × Place) :
    owns view (Function.update disk b blk) x = owns view disk x := by
  obtain ⟨m, k | l⟩ := x
  · rfl
  · rw [owns_entry, owns_entry]
    have slot : owns view (Function.update disk b blk) (m, .slot 12) =
        owns view disk (m, .slot 12) := rfl
    rw [slot]
    cases there : owns view disk (m, .slot 12) with
    | none => rfl
    | some c =>
      have apart : c ≠ b := by
        rintro rfl
        have both := sound.once there here
        exact placeOf_ne bn (Prod.mk.inj both).2.symm
      simp only [update_of_ne apart]

theorem byteOf_patch (sound : Sound low used view disk) {bn : Nat} (range : bn < MAXFILE)
    (here : owns view disk (i, placeOf bn) = some b) (offset : Nat) (src : List Byte)
    {j o : Nat} (inside : o < MAXFILE * BSIZE) :
    byteOf view (Function.update disk b (Block.patch (disk b) offset src)) j o =
      if j = i ∧ bn * BSIZE + offset ≤ o ∧ o < bn * BSIZE + offset + src.length ∧
      o < (bn + 1) * BSIZE
      then src.getD (o - (bn * BSIZE + offset)) 0 else byteOf view disk j o := by
  have split := Nat.div_add_mod o BSIZE
  have bound := Nat.mod_lt o (show 0 < BSIZE by decide)
  have index : o / BSIZE < MAXFILE := Nat.div_lt_of_lt_mul (by rw [Nat.mul_comm]; exact inside)
  rw [byteOf_eq, byteOf_eq, owns_patch sound here]
  by_cases target : j = i ∧ o / BSIZE = bn
  · obtain ⟨rfl, rfl⟩ := target
    rw [here]
    dsimp only
    rw [update_self, byte_patch _ _ _ bound]
    unfold BSIZE at *
    by_cases within : offset ≤ o % 512 ∧ o % 512 < offset + src.length
    · rw [if_pos within, if_pos (by omega)]
      congr 1
      omega
    · rw [if_neg within, if_neg (by omega)]
  · have outside : ¬(j = i ∧ bn * BSIZE + offset ≤ o ∧ o < bn * BSIZE + offset + src.length ∧
        o < (bn + 1) * BSIZE) := by
      rintro ⟨same, low', -, high⟩
      refine target ⟨same, ?_⟩
      unfold BSIZE at *
      omega
    rw [if_neg outside]
    cases there : owns view disk (j, placeOf (o / BSIZE)) with
    | none => rfl
    | some c =>
      have apart : c ≠ b := by
        rintro rfl
        have both := Prod.mk.inj (sound.once there here)
        exact target ⟨both.1, placeOf_inj index range both.2⟩
      simp only [update_of_ne apart]

theorem owns_addrs {view view' : Nat → Dinode} (disk : Nat → Block)
    (same : ∀ j, (view' j).addrs = (view j).addrs) (x : Nat × Place) :
    owns view' disk x = owns view disk x := by
  obtain ⟨j, k | l⟩ := x
  · rw [owns_slot, owns_slot, same]
  · rw [owns_entry, owns_entry, owns_slot, owns_slot, same]

theorem byteOf_addrs {view view' : Nat → Dinode} (disk : Nat → Block)
    (same : ∀ j, (view' j).addrs = (view j).addrs) (j o : Nat) :
    byteOf view' disk j o = byteOf view disk j o := by
  rw [byteOf_eq, byteOf_eq, owns_addrs disk same]

theorem getElem?_map_range (byte : Nat → Byte) (n o : Nat) :
    ((List.range n).map byte)[o]? = if o < n then some (byte o) else none := by
  rw [List.getElem?_map]
  split
  · rename_i inside
    rw [List.getElem?_range inside]
    rfl
  · rename_i outside
    rw [List.getElem?_eq_none (by rw [List.length_range]; omega)]
    rfl

theorem splice_cut {src : List Byte} {off m : Nat} (cut : (src.take m).length = m) (o : Nat)
    (old : Byte) :
    (if off + m ≤ o ∧ o < off + m + (src.drop m).length then (src.drop m).getD (o - (off + m)) 0
      else if off ≤ o ∧ o < off + m then (src.take m).getD (o - off) 0 else old) =
      if off ≤ o ∧ o < off + src.length then src.getD (o - off) 0 else old := by
  have total : (src.drop m).length = src.length - m := List.length_drop ..
  rw [List.length_take] at cut
  by_cases late : off + m ≤ o ∧ o < off + m + (src.drop m).length
  · rw [if_pos late, if_pos ⟨by omega, by omega⟩]
    rw [List.getD_eq_getElem?_getD, List.getD_eq_getElem?_getD, List.getElem?_drop]
    congr 2
    omega
  · rw [if_neg late]
    by_cases early : off ≤ o ∧ o < off + m
    · rw [if_pos early, if_pos ⟨early.1, by omega⟩]
      rw [List.getD_eq_getElem?_getD, List.getD_eq_getElem?_getD,
        List.getElem?_take_of_lt (by omega)]
    · rw [if_neg early, if_neg]
      rintro ⟨low, high⟩
      omega

end Xv6Cow.Fs
