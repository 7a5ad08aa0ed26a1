import Xv6Cow.Mkfs
import Xv6Cow.FileReads

/- The image that mkfs builds from its command line. -/
namespace Xv6Cow.Mkfs

open Function (update_self update_of_ne)
open Prog (bind_ok_iff pure_ok_iff)
open Fs

variable {c : Params} {img img' : Image} {i : Nat}

/-- The bytes of a file, as its inode on the disk describes them. -/
def contents (c : Params) (img : Image) (i : Nat) : List Byte :=
  (List.range (onDisk c img.disk i).size.toNat).map fun o => byteOf (onDisk c img.disk) img.disk i o

theorem length_contents (c : Params) (img : Image) (i : Nat) :
    (contents c img i).length = (onDisk c img.disk i).size.toNat := by
  unfold contents
  rw [List.length_map, List.length_range]

theorem getElem?_contents (c : Params) (img : Image) (i o : Nat) :
    (contents c img i)[o]? = if o < (onDisk c img.disk i).size.toNat
      then some (byteOf (onDisk c img.disk) img.disk i o) else none :=
  getElem?_map_range ..

theorem Grown.contents_same {src : List Byte} (built' : Built c img')
    (grown : Grown c i src img img') : contents c img' i = contents c img i ++ src := by
  have size := grown.size
  have small := built'.sizes i
  apply List.ext_getElem?
  intro o
  rw [getElem?_contents, List.getElem?_append, getElem?_contents, length_contents, size]
  by_cases old : o < (onDisk c img.disk i).size.toNat
  · rw [if_pos (by omega), if_pos old, if_pos old, grown.bytes i o (by omega), if_neg (by omega)]
  · rw [if_neg old]
    by_cases new : o < (onDisk c img.disk i).size.toNat + src.length
    · rw [if_pos new, grown.bytes i o (by omega), if_pos ⟨rfl, by omega, new⟩,
        List.getD_eq_getElem?_getD, List.getElem?_eq_getElem (by omega)]
      rfl
    · rw [if_neg new, List.getElem?_eq_none (by omega)]

theorem Grown.contents_other {src : List Byte} {j : Nat} (built : Built c img)
    (grown : Grown c i src img img') (apart : j ≠ i) : contents c img' j = contents c img j := by
  have small := built.sizes j
  unfold contents
  rw [grown.others j apart]
  apply List.map_congr_left
  intro o member
  rw [List.mem_range] at member
  rw [grown.bytes j o (by omega), if_neg (fun both => apart both.1)]

theorem ialloc_spec (built : Built c img) (room : img.freeinode ≤ c.ninodes)
    {type : BitVec 16} {n : Nat} (run : ialloc c type img = .ok (n, img')) :
    n = img.freeinode ∧ Built c img' ∧ img'.freeinode = img.freeinode + 1 ∧
      onDisk c img'.disk n = { noDinode with type := type, nlink := 1 } ∧
      contents c img' n = [] ∧ ∀ j, j ≠ n → onDisk c img'.disk j = onDisk c img.disk j ∧
        contents c img' j = contents c img j := by
  unfold ialloc at run
  rw [Prog.read_bind, Prog.update_bind, bind_ok_iff] at run
  obtain ⟨_, img1, wrote, done⟩ := run
  rw [pure_ok_iff] at done
  obtain ⟨rfl, rfl⟩ := done
  have written := winode_ok wrote
  have unborn := built.unborn img.freeinode (Nat.le_refl _)
  have start : Function.update (onDisk c img.disk) img.freeinode noDinode = onDisk c img.disk := by
    rw [← unborn, Function.update_eq_self]
  have good : Good c (Function.update (onDisk c img.disk) img.freeinode noDinode)
      { img with freeinode := img.freeinode + 1 } := by
    rw [start]
    exact ⟨built.good.sound, built.good.untouched, built.good.bitmap, built.good.least,
      built.good.most⟩
  have addrs : ({ noDinode with type := type, nlink := 1 } : Dinode).addrs = noDinode.addrs := rfl
  obtain ⟨good', targets, bytes⟩ :=
    @Good.winode c { img with freeinode := img.freeinode + 1 } img.freeinode
    noDinode good room { noDinode with type := type, nlink := 1 } addrs
  have view := onDisk_store (c := c) img.disk room { noDinode with type := type, nlink := 1 }
  dsimp only at good' targets bytes
  rw [start] at targets bytes
  subst written
  have mine : onDisk c (storeDinode c.superblock img.disk img.freeinode
      { noDinode with type := type, nlink := 1 }) img.freeinode =
      { noDinode with type := type, nlink := 1 } := by
    rw [view, update_self]
  have theirs : ∀ j, j ≠ img.freeinode → onDisk c (storeDinode c.superblock img.disk img.freeinode
      { noDinode with type := type, nlink := 1 }) j = onDisk c img.disk j := by
    intro j apart
    rw [view, update_of_ne apart]
  have zero : ({ noDinode with type := type, nlink := 1 } : Dinode).size.toNat = 0 := rfl
  refine ⟨rfl, ⟨good', ?_, ?_, ?_⟩, rfl, mine, ?_, ?_⟩
  · intro j bn bound
    dsimp only
    rw [targets]
    have before := built.filled j bn bound
    by_cases target : j = img.freeinode
    · subst target
      rw [mine, before, unborn]
    · rw [theirs j target]
      exact before
  · intro j
    by_cases target : j = img.freeinode
    · subst target
      dsimp only
      rw [mine, zero]
      exact Nat.zero_le _
    · dsimp only
      rw [theirs j target]
      exact built.sizes j
  · intro j above
    dsimp only at above ⊢
    rw [theirs j (by omega)]
    exact built.unborn j (by omega)
  · unfold contents
    dsimp only
    rw [mine, zero]
    rfl
  · intro j apart
    refine ⟨theirs j apart, ?_⟩
    unfold contents
    dsimp only
    rw [theirs j apart]
    apply List.map_congr_left
    intro o _
    rw [bytes]

theorem appendChunks_spec {chunks : List (List Byte)} (built : Built c img) (known : i ≤ c.ninodes)
    (born : i < img.freeinode)
    {value : Unit} (run : appendChunks c i chunks img = .ok (value, img')) :
    Built c img' ∧ img'.freeinode = img.freeinode ∧
      contents c img' i = contents c img i ++ chunks.flatten ∧
      kind (onDisk c img'.disk i) = kind (onDisk c img.disk i) ∧
      ∀ j, j ≠ i → onDisk c img'.disk j = onDisk c img.disk j ∧
      contents c img' j = contents c img j := by
  induction chunks generalizing img with
  | nil =>
    rw [appendChunks, pure_ok_iff] at run
    obtain ⟨-, rfl⟩ := run
    exact ⟨built, rfl, (List.append_nil _).symm, rfl, fun _ _ => ⟨rfl, rfl⟩⟩
  | cons chunk rest ih =>
    rw [appendChunks, bind_ok_iff] at run
    obtain ⟨_, img1, first, later⟩ := run
    obtain ⟨built1, grown⟩ := iappend_spec built known born first
    obtain ⟨built', count, mine, type, theirs⟩ := ih built1 (by rw [grown.inodes]; exact born) later
    refine ⟨built', count.trans grown.inodes, ?_, type.trans grown.kind, fun j apart => ?_⟩
    · rw [mine, grown.contents_same built1, List.flatten_cons, List.append_assoc]
    · obtain ⟨inode, same⟩ := theirs j apart
      exact ⟨inode.trans (grown.others j apart), same.trans (grown.contents_other built apart)⟩

/-- The entries of the root directory for the files of the command line. -/
def listing : Nat → List Input → List Byte
  | _, [] => []
  | inum, input :: rest => dirent inum input.stored ++ listing (inum + 1) rest

theorem length_dirent (inum : Nat) (name : List Byte) : (dirent inum name).length = 16 := by
  unfold dirent DIRSIZ
  rw [List.length_append, List.length_map, List.length_range]
  rfl

theorem length_listing (inum : Nat) (inputs : List Input) :
    (listing inum inputs).length = 16 * inputs.length := by
  induction inputs generalizing inum with
  | nil => rfl
  | cons input rest ih =>
    rw [listing, List.length_append, length_dirent, ih, List.length_cons]
    omega

theorem addFile_spec {input : Input} (built : Built c img) (old : 1 < img.freeinode)
    (room : img.freeinode ≤ c.ninodes)
    {value : Unit} (run : addFile c 1 input img = .ok (value, img')) :
    Built c img' ∧ img'.freeinode = img.freeinode + 1 ∧
      contents c img' 1 = contents c img 1 ++ dirent img.freeinode input.stored ∧
      kind (onDisk c img'.disk 1) = kind (onDisk c img.disk 1) ∧
      contents c img' img.freeinode = input.chunks.flatten ∧
      kind (onDisk c img'.disk img.freeinode) = (T_FILE, 1) ∧
      ∀ j, j ≠ 1 → j ≠ img.freeinode →
        onDisk c img'.disk j = onDisk c img.disk j ∧ contents c img' j = contents c img j := by
  unfold addFile at run
  split at run
  · rw [Prog.halt_ok_iff] at run
    exact run.elim
  rw [bind_ok_iff] at run
  obtain ⟨n, img1, made, run⟩ := run
  rw [bind_ok_iff] at run
  obtain ⟨_, img2, named, run⟩ := run
  obtain ⟨rfl, built1, count1, inode1, empty, same1⟩ := ialloc_spec built room made
  obtain ⟨built2, grown⟩ := iappend_spec built1 (by omega) (by omega) named
  obtain ⟨built', count', mine, type, same'⟩ :=
    appendChunks_spec built2 room (by rw [grown.inodes]; omega) run
  have apart : 1 ≠ img.freeinode := by omega
  refine ⟨built', ?_, ?_, ?_, ?_, ?_, ?_⟩
  · rw [count', grown.inodes, count1]
  · rw [(same' 1 apart).2, grown.contents_same built2, (same1 1 apart).2]
  · rw [(same' 1 apart).1, grown.kind, (same1 1 apart).1]
  · rw [mine, grown.contents_other built1 apart.symm, empty, List.nil_append]
  · rw [type, grown.others _ apart.symm, inode1]
    rfl
  · intro j notRoot notNew
    refine ⟨?_, ?_⟩
    · rw [(same' j notNew).1, grown.others j notRoot, (same1 j notNew).1]
    · rw [(same' j notNew).2, grown.contents_other built1 notRoot, (same1 j notNew).2]

theorem addFiles_spec {inputs : List Input} (built : Built c img) (old : 1 < img.freeinode)
    (room : img.freeinode + inputs.length ≤ c.ninodes + 1) {value : Unit}
    (run : addFiles c 1 inputs img = .ok (value, img')) :
    Built c img' ∧ img'.freeinode = img.freeinode + inputs.length ∧
      contents c img' 1 = contents c img 1 ++ listing img.freeinode inputs ∧
      kind (onDisk c img'.disk 1) = kind (onDisk c img.disk 1) ∧
      (∀ k input, inputs[k]? = some input →
        contents c img' (img.freeinode + k) = input.chunks.flatten ∧
        kind (onDisk c img'.disk (img.freeinode + k)) = (T_FILE, 1)) ∧
      ∀ j, j ≠ 1 → j < img.freeinode →
        onDisk c img'.disk j = onDisk c img.disk j ∧ contents c img' j = contents c img j := by
  induction inputs generalizing img with
  | nil =>
    rw [addFiles, pure_ok_iff] at run
    obtain ⟨-, rfl⟩ := run
    refine ⟨built, rfl, (List.append_nil _).symm, rfl, ?_, fun _ _ _ => ⟨rfl, rfl⟩⟩
    intro k input named
    cases named
  | cons first rest ih =>
    rw [addFiles, bind_ok_iff] at run
    obtain ⟨_, img1, added, later⟩ := run
    rw [List.length_cons] at room
    obtain ⟨built1, count1, root1, type1, mine, file, same1⟩ :=
      addFile_spec built old (by omega) added
    obtain ⟨built', count', root', type', files, same'⟩ := ih built1 (by omega) (by omega) later
    rw [count1] at count' root' files same'
    refine ⟨built', ?_, ?_, type'.trans type1, ?_, ?_⟩
    · rw [count', List.length_cons]
      omega
    · rw [root', root1, listing, List.append_assoc]
    · intro k input named
      cases k with
      | zero =>
        cases named
        obtain ⟨inode, bytes⟩ := same' img.freeinode (by omega) (by omega)
        rw [Nat.add_zero, bytes, inode]
        exact ⟨mine, file⟩
      | succ k =>
        have shifted : img.freeinode + (k + 1) = img.freeinode + 1 + k := by omega
        rw [shifted]
        exact files k input named
    · intro j notRoot below
      obtain ⟨inode, bytes⟩ := same' j notRoot (by omega)
      obtain ⟨inode1, bytes1⟩ := same1 j notRoot (by omega)
      exact ⟨inode.trans inode1, bytes.trans bytes1⟩

/-! ## The whole program -/

theorem dinodeAt_zero {disk : Nat → Block} (sb : Superblock)
    (zero : disk (iblock sb i) = zeroBlock) :
    dinodeAt sb disk i = noDinode := by
  unfold dinodeAt Dinode.ofWords
  rw [zero]
  simp [zeroBlock, noDinode]

theorem owns_noDinode {view : Nat → Dinode} (disk : Nat → Block) (none' : view i = noDinode)
    (place : Place) :
    owns view disk (i, place) = none := by
  have slots : ∀ k, owns view disk (i, .slot k) = none := by
    intro k
    rw [owns_slot, none']
    rfl
  cases place with
  | slot k => exact slots k
  | entry j => rw [owns_entry, slots]

theorem built_blank (c : Params) :
    Built c { blank c with disk := Function.update (blank c).disk 1 (sbBlock c) } := by
  have fits := c.meta_le
  unfold IPB BPB at fits
  have zero : ∀ b, b ≠ 1 → Function.update (blank c).disk 1 (sbBlock c) b = zeroBlock :=
    fun b apart => update_of_ne apart ..
  have bare : ∀ i, onDisk c (Function.update (blank c).disk 1 (sbBlock c)) i = noDinode := by
    intro i
    unfold onDisk
    split
    · refine dinodeAt_zero _ (zero _ ?_)
      unfold iblock Params.superblock IPB
      dsimp only
      omega
    · rfl
  have unowned := fun i => owns_noDinode (Function.update (blank c).disk 1 (sbBlock c)) (bare i)
  have size : noDinode.size.toNat = 0 := rfl
  refine ⟨⟨⟨?_, ?_⟩, ?_, ?_, Nat.le_refl _, ?_⟩, ?_, ?_, fun i _ => bare i⟩
  · rintro ⟨i, place⟩ b owned
    rw [unowned] at owned
    cases owned
  · rintro ⟨i, place⟩ y b owned
    rw [unowned] at owned
    cases owned
  · intro b above
    refine zero b ?_
    unfold blank Superblock.nmeta Params.superblock IPB BPB at above
    dsimp only at above
    omega
  · intro b above _
    refine zero b ?_
    unfold Params.superblock IPB at above
    dsimp only at above
    omega
  · exact nmeta_le c
  · intro i bn _
    dsimp only
    rw [unowned, bare, size]
    simp
  · intro i
    dsimp only
    rw [bare, size]
    exact Nat.zero_le _

theorem markFirst_bit {used b : Nat} (most : used ≤ BPB) (inside : b < BPB) :
    (markFirst used (bitIndex b)).getLsbD (b % 32) = decide (b < used) := by
  induction used with
  | zero => simp [markFirst, zeroBlock]
  | succ n ih =>
    have before := ih (by omega)
    rw [markFirst]
    unfold BPB at *
    by_cases word : bitIndex b = bitIndex n
    · rw [word, update_self, BitVec.getLsbD_or, ← word, before, BitVec.getLsbD_twoPow]
      have index := congrArg Fin.val word
      unfold bitIndex BPB at index
      dsimp only at index
      have same : (n % 32 = b % 32) ↔ b = n := by omega
      have width : n % 32 < 32 := Nat.mod_lt n (by decide)
      simp only [same, width, decide_true, Bool.true_and]
      by_cases equal : b = n
      · simp [equal]
      · simp only [equal, decide_false, Bool.or_false]
        rw [decide_eq_decide]
        omega
    · rw [update_of_ne word, before, decide_eq_decide]
      have apart : b ≠ n := fun equal => word (by rw [equal])
      omega

theorem bitAt_marked {disk : Nat → Block} {used b : Nat}
    (zero : ∀ b, c.superblock.bmapstart ≤ b → b < c.superblock.nmeta → disk b = zeroBlock)
    (assertion : used < BSIZE * 8) (inside : b < c.fssize) :
    bitAt c.superblock (Function.update disk c.superblock.bmapstart (markFirst used)) b =
      decide (b < used) := by
  unfold bitAt
  unfold BSIZE at assertion
  by_cases first : b < BPB
  · have block : bblock c.superblock b = c.superblock.bmapstart := by
      unfold bblock BPB at *
      omega
    rw [block, update_self, markFirst_bit (by unfold BPB; omega) first]
  · have block : bblock c.superblock b ≠ c.superblock.bmapstart := by
      unfold bblock BPB at *
      omega
    obtain ⟨low, high⟩ := bblock_range c.superblock inside
    rw [update_of_ne block, zero _ low high]
    have past : ¬b < used := by
      unfold BPB at first
      omega
    simp [zeroBlock, past]

/-- The entries of the root directory. -/
def rootListing (inputs : List Input) : List Byte :=
  dirent 1 [dot] ++ dirent 1 [dot, dot] ++ listing 2 inputs

theorem length_rootListing (inputs : List Input) :
    (rootListing inputs).length = 16 * (inputs.length + 2) := by
  unfold rootListing
  rw [List.length_append, List.length_append, length_dirent, length_dirent, length_listing]
  omega

/-- The image that mkfs leaves. -/
structure Finished (c : Params) (inputs : List Input) (img : Image) : Prop where
  sound : Sound c.superblock.nmeta (fun b => b < img.freeblock) (onDisk c img.disk) img.disk
  bits : ∀ b, b < c.fssize → bitAt c.superblock img.disk b = decide (b < img.freeblock)
  most : img.freeblock ≤ c.fssize
  marked : img.freeblock < BSIZE * 8
  filled : ∀ i, i ≠ 1 → Filled (onDisk c img.disk) img.disk i (onDisk c img.disk i).size.toNat
  sizes : ∀ i, i ≠ 1 → (onDisk c img.disk i).size.toNat ≤ MAXFILE * BSIZE
  root : Filled (onDisk c img.disk) img.disk 1 (rootListing inputs).length
  rootFits : (rootListing inputs).length ≤ MAXFILE * BSIZE
  rootSize : (onDisk c img.disk 1).size.toNat = ((rootListing inputs).length / BSIZE + 1) * BSIZE
  rootKind : kind (onDisk c img.disk 1) = (T_DIR, 1)
  entries : ∀ o, o < (rootListing inputs).length →
    byteOf (onDisk c img.disk) img.disk 1 o = (rootListing inputs).getD o 0
  files : ∀ k input, inputs[k]? = some input →
    kind (onDisk c img.disk (2 + k)) = (T_FILE, 1) ∧ contents c img (2 + k) = input.chunks.flatten

theorem files_spec {inputs : List Input} {value : Unit} {start : Image} (run : (do
      let rootino ← ialloc c T_DIR
      if rootino = 1 then do
        iappend c rootino (dirent rootino [dot])
        iappend c rootino (dirent rootino [dot, dot])
        addFiles c rootino inputs
        fixRoot c rootino
        let img ← Prog.read
        balloc c img.freeblock
      else Prog.halt "assert" : M Unit) start = .ok (value, img'))
    (built : Built c start) (first : start.freeinode = 1) (few : inputs.length < c.ninodes) :
    ∃ img, Built c img ∧ contents c img 1 = rootListing inputs ∧
      kind (onDisk c img.disk 1) = (T_DIR, 1) ∧
      (∀ k input, inputs[k]? = some input →
        kind (onDisk c img.disk (2 + k)) = (T_FILE, 1) ∧
        contents c img (2 + k) = input.chunks.flatten) ∧
      (do
        fixRoot c 1
        let img ← Prog.read
        balloc c img.freeblock : M Unit) img = .ok (value, img') := by
  rw [bind_ok_iff] at run
  obtain ⟨root, img1, made, run⟩ := run
  obtain ⟨rfl, built1, count1, inode1, empty, -⟩ := ialloc_spec built (by omega) made
  rw [first] at run inode1 empty count1
  rw [if_pos rfl, bind_ok_iff] at run
  obtain ⟨_, img2, self, run⟩ := run
  rw [bind_ok_iff] at run
  obtain ⟨_, img3, parent, run⟩ := run
  rw [bind_ok_iff] at run
  obtain ⟨_, img4, added, run⟩ := run
  obtain ⟨built2, grown2⟩ := iappend_spec built1 (by omega) (by omega) self
  have count2 := grown2.inodes
  obtain ⟨built3, grown3⟩ := iappend_spec built2 (by omega) (by omega) parent
  have count3 := grown3.inodes
  obtain ⟨built4, -, root4, type4, files4, -⟩ := addFiles_spec built3 (by omega) (by omega) added
  have two : img3.freeinode = 2 := by omega
  rw [two] at root4 files4
  refine ⟨img4, built4, ?_, ?_, fun k input named => (files4 k input named).symm, run⟩
  · rw [root4, grown3.contents_same built3, grown2.contents_same built2, empty]
    rfl
  · rw [type4, grown3.kind, grown2.kind, inode1]
    rfl

theorem main_spec {inputs : List Input} {value : Unit}
    (run : main c inputs (blank c) = .ok (value, img'))
    (few : inputs.length < c.ninodes) : Finished c inputs img' := by
  unfold main at run
  rw [wsect, Prog.update_bind] at run
  obtain ⟨img, built, listed, typed, files, run⟩ := files_spec run (built_blank c) rfl few
  have known : 1 ≤ c.ninodes := by omega
  -- The root's size changes, and no block number.
  rw [bind_ok_iff] at run
  obtain ⟨_, img1, fixed, run⟩ := run
  rw [fixRoot, bind_ok_iff] at fixed
  obtain ⟨din, img0, fetched, fixed⟩ := fixed
  obtain ⟨rfl, rfl⟩ := rinode_ok fetched
  have written := winode_ok fixed
  have here : dinodeAt c.superblock img0.disk 1 = onDisk c img0.disk 1 := (if_pos known).symm
  have long : (onDisk c img0.disk 1).size.toNat = (rootListing inputs).length := by
    rw [← listed, length_contents]
  rw [here, long] at written
  have same : Function.update (onDisk c img0.disk) 1 (onDisk c img0.disk 1) = onDisk c img0.disk :=
    Function.update_eq_self ..
  obtain ⟨d, dIs⟩ : ∃ d : Dinode, d = { onDisk c img0.disk 1 with
    size := BitVec.ofNat 32 (((rootListing inputs).length / BSIZE + 1) * BSIZE) } := ⟨_, rfl⟩
  rw [← dIs] at written
  have addrs : d.addrs = (onDisk c img0.disk 1).addrs := by rw [dIs]
  obtain ⟨good1, targets1, bytes1⟩ := @Good.winode c img0 1 (onDisk c img0.disk 1)
    (by rw [same]; exact built.good) known d addrs
  rw [same] at targets1 bytes1
  have view1 := onDisk_store img0.disk known d
  have fits := built.sizes 1
  rw [long] at fits
  subst written
  -- The bitmap is written last.
  rw [Prog.read_bind] at run
  unfold balloc at run
  split at run
  swap
  · rw [Prog.halt_ok_iff] at run
    exact run.elim
  rename_i assertion
  rw [wsect, Prog.update_ok_iff] at run
  subst run
  dsimp only at assertion ⊢ good1
  generalize storeDinode c.superblock img0.disk 1 d = disk1 at *
  have bitmap := bmapstart_lt_nmeta c
  have elsewhere : ∀ b, b ≠ c.superblock.bmapstart →
      Function.update disk1 c.superblock.bmapstart (markFirst img0.freeblock) b = disk1 b :=
    fun b apart => update_of_ne apart ..
  have view2 : onDisk c (Function.update disk1 c.superblock.bmapstart (markFirst img0.freeblock)) =
      onDisk c disk1 := onDisk_congr fun b low => elsewhere b (by omega)
  have outside : ∀ x b, owns (onDisk c disk1) disk1 x = some b →
      Function.update disk1 c.superblock.bmapstart (markFirst img0.freeblock) b = disk1 b := by
    intro x b owned
    have data := (good1.sound.data owned).1
    exact elsewhere b (by omega)
  have targets : ∀ x, owns (onDisk c (Function.update disk1 c.superblock.bmapstart
      (markFirst img0.freeblock))) (Function.update disk1 c.superblock.bmapstart
      (markFirst img0.freeblock)) x = owns (onDisk c img0.disk) img0.disk x := by
    intro x
    rw [view2, owns_frame outside, targets1]
  have bytes : ∀ i o, byteOf (onDisk c (Function.update disk1 c.superblock.bmapstart
      (markFirst img0.freeblock))) (Function.update disk1 c.superblock.bmapstart
      (markFirst img0.freeblock)) i o = byteOf (onDisk c img0.disk) img0.disk i o := by
    intro i o
    rw [view2, byteOf_frame outside, bytes1]
  have mine :
      onDisk c (Function.update disk1 c.superblock.bmapstart (markFirst img0.freeblock)) 1 = d := by
    rw [view2, view1, update_self]
  have theirs : ∀ i, i ≠ 1 → onDisk c (Function.update disk1 c.superblock.bmapstart
      (markFirst img0.freeblock)) i = onDisk c img0.disk i := by
    intro i apart
    rw [view2, view1, update_of_ne apart]
  refine ⟨?_, ?_, good1.most, assertion, ?_, ?_, ?_, fits, ?_, ?_, ?_, ?_⟩
  · rw [view2]
    exact good1.sound.frame outside fun _ _ _ lower => lower
  · exact fun b inside => bitAt_marked good1.bitmap assertion inside
  · intro i apart
    dsimp only
    rw [theirs i apart]
    intro bn bound
    rw [targets]
    exact built.filled i bn bound
  · intro i apart
    dsimp only
    rw [theirs i apart]
    exact built.sizes i
  · intro bn bound
    dsimp only
    rw [targets, built.filled 1 bn bound, long]
  · dsimp only
    rw [mine, dIs]
    refine toNat_ofNat_of_lt ?_
    unfold MAXFILE NDIRECT NINDIRECT BSIZE at *
    omega
  · dsimp only
    rw [mine, dIs]
    exact typed
  · intro o inside
    dsimp only
    have entry := getElem?_contents c img0 1 o
    rw [listed, long, if_pos inside] at entry
    rw [bytes, List.getD_eq_getElem?_getD, entry]
    rfl
  · intro k input named
    obtain ⟨type, flat⟩ := files k input named
    dsimp only
    rw [theirs _ (by omega)]
    refine ⟨type, ?_⟩
    rw [← flat]
    unfold contents
    dsimp only
    rw [theirs _ (by omega)]
    apply List.map_congr_left
    intro o _
    rw [bytes]

/-- The root is the only file that can have a hole, where its rounded size begins a block. -/
theorem Finished.noHoles_iff {inputs : List Input} (done : Finished c inputs img) :
    NoHoles (onDisk c img.disk) img.disk ↔ (inputs.length + 2) % 32 ≠ 0 := by
  have length := length_rootListing inputs
  have fits := done.rootFits
  have size := done.rootSize
  constructor
  · intro whole full
    -- The block after the last entry.
    obtain ⟨range, owned⟩ := whole 1 ((rootListing inputs).length / BSIZE) (by
      rw [size]
      exact Nat.mul_lt_mul_of_pos_right (Nat.lt_succ_self _) (by decide))
    have inside := (done.root _ range).mp owned
    unfold BSIZE at inside
    omega
  · intro partly i bn below
    by_cases root : i = 1
    · subst root
      rw [size] at below
      have inside : bn * BSIZE < (rootListing inputs).length := by
        unfold BSIZE at *
        omega
      have range : bn < MAXFILE := by
        unfold BSIZE at *
        omega
      exact ⟨range, (done.root bn range).mpr inside⟩
    · have small := done.sizes i root
      have range : bn < MAXFILE := by
        unfold BSIZE at *
        omega
      exact ⟨range, (done.filled i root bn range).mpr below⟩

end Xv6Cow.Mkfs
