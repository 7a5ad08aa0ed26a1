import Xv6Cow.MkfsImage

/- Command lines that mkfs accepts: files without an indirect block, and a disk with room. -/
namespace Xv6Cow.Mkfs

open Prog (bind_of_ok update_bind)
open Fs

variable {c : Params} {view : Nat → Dinode} {img : Image} {i : Nat} {din : Dinode}

theorem rsect_accepts {sec : Nat} (inside : sec < c.fssize) :
    rsect c sec img = .ok (img.disk sec, img) :=
  rsect_ok.mpr ⟨inside, rfl, rfl⟩

theorem winode_accepts (known : i ≤ c.ninodes) (d : Dinode) :
    winode c i d img = .ok ((), { img with disk := storeDinode c.superblock img.disk i d }) := by
  have low := iblock_lt_nmeta known
  have fits := nmeta_le c
  unfold winode
  rw [bind_of_ok (rsect_accepts (by omega))]
  rfl

theorem rinode_accepts (known : i ≤ c.ninodes) :
    rinode c i img = .ok (dinodeAt c.superblock img.disk i, img) := by
  have low := iblock_lt_nmeta known
  have fits := nmeta_le c
  unfold rinode
  rw [bind_of_ok (rsect_accepts (by omega))]
  rfl

theorem appendBlock_accepts (good : Good c (Function.update view i din) img) {fbn : Nat}
    (direct : fbn < NDIRECT) (room : img.freeblock < c.fssize) :
    ∃ din' b img', appendBlock c din fbn img = .ok ((din', b), img') ∧ b < c.fssize ∧
      img'.freeblock ≤ img.freeblock + 1 := by
  unfold appendBlock
  rw [dif_pos direct]
  unfold ensureSlot
  split
  · refine ⟨_, _, _, bind_of_ok (takeBlock_ok.mpr ⟨rfl, rfl⟩), ?_, Nat.le_refl _⟩
    rw [toNat_ofNat_of_lt good.freeblock_lt]
    exact room
  · rename_i taken
    refine ⟨_, _, _, rfl, ?_, Nat.le_succ _⟩
    have owned : owns (Function.update view i din) img.disk
        (i, .slot ⟨fbn, slot_lt direct⟩) =
        some (din.addrs ⟨fbn, slot_lt direct⟩).toNat := by
      rw [owns_slot, Function.update_self, if_neg taken]
    exact Nat.lt_trans (good.sound.data owned).2 room

theorem appendLoop_accepts (src : List Byte) {off : Nat}
    (good : Good c (Function.update view i din) img)
    (filled : Filled (Function.update view i din) img.disk i off)
    (small : off + src.length ≤ NDIRECT * BSIZE) (room : img.freeblock + src.length ≤ c.fssize) :
    ∃ result img', appendLoop c din off src img = .ok (result, img') ∧
      img'.freeblock ≤ img.freeblock + src.length := by
  obtain ⟨n, len⟩ : ∃ n, n = src.length := ⟨_, rfl⟩
  induction n using Nat.strongRecOn generalizing src off din img with
  | ind n ih =>
  unfold appendLoop
  by_cases none : src = []
  · rw [if_pos none]
    exact ⟨_, _, rfl, Nat.le_add_right ..⟩
  · have nonempty : 0 < src.length := List.length_pos_iff.mpr none
    have bound := Nat.mod_lt off (show 0 < BSIZE by decide)
    have direct : off / BSIZE < NDIRECT := by
      unfold BSIZE NDIRECT at *
      omega
    have index : off / BSIZE < MAXFILE := Nat.lt_of_lt_of_le direct (Nat.le_add_right ..)
    rw [if_neg none, if_neg (Nat.not_le_of_lt index)]
    obtain ⟨din1, x, img1, placing, inside, spent⟩ := appendBlock_accepts good direct (by omega)
    obtain ⟨good1, placed⟩ := appendBlock_spec good placing inside
    rw [bind_of_ok placing]
    dsimp only
    rw [bind_of_ok (rsect_accepts inside), wsect, update_bind]
    obtain ⟨m, cut⟩ : ∃ m, m = min src.length (BSIZE - off % BSIZE) := ⟨_, rfl⟩
    rw [← cut]
    have taken : (src.take m).length = m := by
      rw [List.length_take]
      omega
    obtain ⟨good2, appended⟩ := placed.patched good1 filled index taken (by omega) (by omega)
    have now := appended.filled
    rw [taken] at now
    have rest : (src.drop m).length = src.length - m := List.length_drop ..
    obtain ⟨result, img', run, used⟩ := ih (src.drop m).length (by omega) (src.drop m) good2 now
      (by omega) (by dsimp only; omega) rfl
    refine ⟨result, img', run, ?_⟩
    dsimp only at used
    omega

theorem iappend_accepts (built : Built c img) (known : i ≤ c.ninodes) (src : List Byte)
    (small : (contents c img i).length + src.length ≤ NDIRECT * BSIZE)
    (room : img.freeblock + src.length ≤ c.fssize) :
    ∃ img', iappend c i src img = .ok ((), img') ∧ img'.freeblock ≤ img.freeblock + src.length := by
  have here : onDisk c img.disk i = dinodeAt c.superblock img.disk i := if_pos known
  have start : Function.update (onDisk c img.disk) i (dinodeAt c.superblock img.disk i) =
      onDisk c img.disk := by
    rw [← here, Function.update_eq_self]
  have filled := built.filled i
  rw [length_contents] at small
  rw [here] at small filled
  unfold iappend
  rw [bind_of_ok (rinode_accepts known)]
  obtain ⟨⟨din', off⟩, img1, run, used⟩ := appendLoop_accepts src
    (by rw [start]; exact built.good) (by rw [start]; exact filled) small room
  rw [bind_of_ok run]
  exact ⟨_, winode_accepts known _, used⟩

theorem appendChunks_accepts (chunks : List (List Byte)) (built : Built c img)
    (known : i ≤ c.ninodes) (born : i < img.freeinode)
    (small : (contents c img i).length + chunks.flatten.length ≤ NDIRECT * BSIZE)
    (room : img.freeblock + chunks.flatten.length ≤ c.fssize) :
    ∃ img', appendChunks c i chunks img = .ok ((), img') ∧
      img'.freeblock ≤ img.freeblock + chunks.flatten.length := by
  induction chunks generalizing img with
  | nil => exact ⟨img, rfl, Nat.le_add_right ..⟩
  | cons chunk rest ih =>
    rw [List.flatten_cons, List.length_append] at *
    obtain ⟨img1, first, used1⟩ := iappend_accepts built known chunk (by omega) (by omega)
    obtain ⟨built1, grown⟩ := iappend_spec built known born first
    have longer := congrArg List.length (grown.contents_same built1)
    rw [List.length_append] at longer
    obtain ⟨img', later, used⟩ := ih built1 (by rw [grown.inodes]; exact born) (by omega) (by omega)
    refine ⟨img', ?_, by omega⟩
    rw [appendChunks, bind_of_ok first]
    exact later

/-- The blocks that the files of a command line can take, at most. -/
def demand (inputs : List Input) : Nat :=
  (inputs.map fun input => 16 + input.chunks.flatten.length).sum

def Input.Small (input : Input) : Prop :=
  slash ∉ input.name ∧ input.chunks.flatten.length ≤ NDIRECT * BSIZE

theorem ialloc_accepts (img : Image) (room : img.freeinode ≤ c.ninodes) (type : BitVec 16) :
    ∃ img', ialloc c type img = .ok (img.freeinode, img') ∧ img'.freeblock = img.freeblock := by
  unfold ialloc
  rw [Prog.read_bind, update_bind, bind_of_ok (winode_accepts room _)]
  exact ⟨_, rfl, rfl⟩

theorem fixRoot_accepts (img : Image) (known : i ≤ c.ninodes) :
    ∃ img', fixRoot c i img = .ok ((), img') ∧ img'.freeblock = img.freeblock := by
  unfold fixRoot
  rw [bind_of_ok (rinode_accepts known)]
  exact ⟨_, winode_accepts known _, rfl⟩

theorem addFiles_accepts {inputs : List Input} (built : Built c img) (old : 1 < img.freeinode)
    (few : img.freeinode + inputs.length ≤ c.ninodes + 1) (small : ∀ input ∈ inputs, input.Small)
    (root : (contents c img 1).length + 16 * inputs.length ≤ NDIRECT * BSIZE)
    (room : img.freeblock + demand inputs ≤ c.fssize) :
    ∃ img', addFiles c 1 inputs img = .ok ((), img') ∧
      img'.freeblock ≤ img.freeblock + demand inputs := by
  induction inputs generalizing img with
  | nil => exact ⟨img, rfl, Nat.le_add_right ..⟩
  | cons input rest ih =>
    obtain ⟨plain, short⟩ := small input List.mem_cons_self
    have total : demand (input :: rest) = 16 + input.chunks.flatten.length + demand rest := by
      simp [demand]
    rw [total] at room ⊢
    rw [List.length_cons] at few root
    obtain ⟨img1, made, used1⟩ := ialloc_accepts (c := c) img (by omega) T_FILE
    obtain ⟨-, built1, count1, inode1, empty, same1⟩ := ialloc_spec built (by omega) made
    have apart : 1 ≠ img.freeinode := by omega
    have name := length_dirent img.freeinode input.stored
    obtain ⟨img2, named, used2⟩ := iappend_accepts built1 (i := 1) (by omega)
      (dirent img.freeinode input.stored) (by rw [(same1 1 apart).2]; omega) (by omega)
    obtain ⟨built2, grown⟩ := iappend_spec built1 (by omega) (by omega) named
    have fresh := grown.contents_other built1 apart.symm
    rw [empty] at fresh
    obtain ⟨img3, filled, used3⟩ := appendChunks_accepts input.chunks built2
      (i := img.freeinode) (by omega) (by rw [grown.inodes]; omega)
      (by rw [fresh]; simpa using short) (by omega)
    have run : addFile c 1 input img = .ok ((), img3) := by
      unfold addFile
      rw [if_neg plain, bind_of_ok made, bind_of_ok named]
      exact filled
    obtain ⟨built3, count3, listed, -⟩ := addFile_spec built old (by omega) run
    have longer := congrArg List.length listed
    rw [List.length_append] at longer
    obtain ⟨img', later, used⟩ := ih built3 (by omega) (by omega)
      (fun input member => small input (List.mem_cons_of_mem _ member)) (by omega) (by omega)
    refine ⟨img', ?_, by omega⟩
    rw [addFiles, bind_of_ok run]
    exact later

/-- mkfs accepts every command line of files with direct blocks only that leave room. -/
theorem main_accepts (inputs : List Input) (few : inputs.length < c.ninodes)
    (small : ∀ input ∈ inputs, input.Small) (root : 16 * (inputs.length + 2) ≤ NDIRECT * BSIZE)
    (room : c.superblock.nmeta + 32 + demand inputs ≤ c.fssize)
    (bitmap : c.superblock.nmeta + 32 + demand inputs < BSIZE * 8) :
    ∃ img, main c inputs (blank c) = .ok ((), img) := by
  obtain ⟨img0, start⟩ : ∃ img0, img0 =
    { blank c with disk := Function.update (blank c).disk 1 (sbBlock c) } := ⟨_, rfl⟩
  have built0 := built_blank c
  rw [← start] at built0
  have blocks0 : img0.freeblock = c.superblock.nmeta := by rw [start]; rfl
  have inodes0 : img0.freeinode = 1 := by rw [start]; rfl
  obtain ⟨img1, made, used1⟩ := ialloc_accepts (c := c) img0 (by omega) T_DIR
  obtain ⟨-, built1, count1, -, empty, -⟩ := ialloc_spec built0 (by omega) made
  rw [inodes0] at made empty
  have one := length_dirent 1 [dot]
  have two := length_dirent 1 [dot, dot]
  have none : (contents c img1 1).length = 0 := by rw [empty]; rfl
  obtain ⟨img2, self, used2⟩ := iappend_accepts built1 (i := 1) (by omega) (dirent 1 [dot])
    (by omega) (by omega)
  obtain ⟨built2, grown2⟩ := iappend_spec built1 (by omega) (by omega) self
  have longer2 := congrArg List.length (grown2.contents_same built2)
  rw [List.length_append] at longer2
  have count2 := grown2.inodes
  obtain ⟨img3, parent, used3⟩ := iappend_accepts built2 (i := 1) (by omega) (dirent 1 [dot, dot])
    (by omega) (by omega)
  obtain ⟨built3, grown3⟩ := iappend_spec built2 (by omega) (by omega) parent
  have longer3 := congrArg List.length (grown3.contents_same built3)
  rw [List.length_append] at longer3
  have count3 := grown3.inodes
  obtain ⟨img4, added, used4⟩ := addFiles_accepts built3 (by omega) (by omega) small (by omega)
    (by omega)
  have known : 1 ≤ c.ninodes := by omega
  unfold main
  rw [wsect, update_bind, ← start, bind_of_ok made, if_pos rfl, bind_of_ok self,
    bind_of_ok parent, bind_of_ok added]
  obtain ⟨img5, fixed, used5⟩ := fixRoot_accepts img4 known
  rw [bind_of_ok fixed, Prog.read_bind]
  unfold balloc
  rw [if_pos (by omega)]
  exact ⟨_, rfl⟩

/-- Whether the image has no holes depends on how many files there are: the root's size is
rounded past its last block when its entries fill that block. The other blocks are in order in
any case. Without holes the kernel's readi leaves the disk as mkfs wrote it. -/
theorem image_hole_free {c : Params} {inputs : List Input} {img : Image}
    (accepted : main c inputs (blank c) = .ok ((), img)) (few : inputs.length < c.ninodes) :
    Sound c.superblock.nmeta (fun b => b < c.fssize) (onDisk c img.disk) img.disk ∧
      (∀ b, b < c.fssize → bitAt c.superblock img.disk b = decide (b < img.freeblock)) ∧
      (NoHoles (onDisk c img.disk) img.disk ↔ (inputs.length + 2) % 32 ≠ 0) ∧
      ((inputs.length + 2) % 32 ≠ 0 → ∀ (s : State) (i off n : Nat), s.disk = img.disk →
        (s.icache i).copy = onDisk c img.disk i →
          ∃ result, readi c.superblock i off n s = .ok (result, s)) := by
  have done := main_spec accepted few
  have whole := done.noHoles_iff
  refine ⟨⟨fun {x b} owned => ?_, done.sound.once⟩, done.bits, whole, ?_⟩
  · exact ⟨(done.sound.data owned).1, Nat.lt_of_lt_of_le (done.sound.data owned).2 done.most⟩
  · intro partly s i off n disk copy
    have holes := whole.mpr partly
    rw [← disk] at holes copy
    exact readi_unchanged holes copy off n

theorem image_hole_free_one :
    ∃ img, main params [⟨[97], [[104, 105]], by decide⟩] (blank params) = .ok ((), img) ∧
    NoHoles (onDisk params img.disk) img.disk := by
  obtain ⟨img, accepted⟩ := main_accepts [⟨[97], [[104, 105]], by decide⟩] (c := params) (by decide)
    (by unfold Input.Small; decide) (by decide) (by decide) (by decide)
  exact ⟨img, accepted, (image_hole_free accepted (by decide)).2.2.1.mpr (by decide)⟩

/-- Thirty files: the root has 32 entries, which fill its only block. -/
theorem thirty_files_leave_hole : ∃ img,
    main params (List.replicate 30 ⟨[97], [], by decide⟩) (blank params) = .ok ((), img) ∧
      (onDisk params img.disk 1).size.toNat = 2 * BSIZE ∧
      owns (onDisk params img.disk) img.disk (1, placeOf 1) = none := by
  obtain ⟨img, accepted⟩ := main_accepts (List.replicate 30 ⟨[97], [], by decide⟩) (c := params)
    (by decide)
    (by unfold Input.Small; decide) (by decide) (by decide) (by decide)
  have done := main_spec accepted (by decide)
  have length :
    (rootListing (List.replicate 30 ⟨[97], [], by decide⟩)).length = 512 := length_rootListing _
  refine ⟨img, accepted, ?_, ?_⟩
  · rw [done.rootSize, length]
    rfl
  · have hole := done.root 1 (by decide)
    rw [length] at hole
    by_contra owned
    exact absurd (hole.mp owned) (by decide)

end Xv6Cow.Mkfs
