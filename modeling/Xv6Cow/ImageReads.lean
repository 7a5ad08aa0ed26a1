import Mathlib.Data.Finset.Prod
import Mathlib.Order.Interval.Finset.Nat
import Xv6Cow.MkfsAccepts
import Xv6Cow.Paths

/- The kernel reads the files of the image that mkfs wrote. -/
namespace Xv6Cow.Mkfs

open Prog (bind_of_ok)
open Fs

/-- The entries of the root directory, one by one. -/
def rootDirents (inputs : List Input) : List (List Byte) :=
  dirent 1 [dot] :: dirent 1 [dot, dot] ::
  inputs.mapIdx (fun k input => dirent (2 + k) input.stored)

theorem listing_eq (inum : Nat) (inputs : List Input) :
    listing inum inputs =
      (inputs.mapIdx fun k input => dirent (inum + k) input.stored).flatten := by
  induction inputs generalizing inum with
  | nil => rfl
  | cons input rest ih =>
    rw [listing, ih, List.mapIdx_cons, List.flatten_cons]
    have shift : ∀ k, inum + 1 + k = inum + (k + 1) := fun k => by omega
    simp only [shift, Nat.add_zero]

theorem rootListing_eq (inputs : List Input) :
    rootListing inputs = (rootDirents inputs).flatten := by
  unfold rootListing rootDirents
  rw [listing_eq, List.flatten_cons, List.flatten_cons, List.append_assoc]

theorem length_of_mem_rootDirents {inputs : List Input} {de : List Byte}
    (member : de ∈ rootDirents inputs) :
    de.length = 16 := by
  unfold rootDirents at member
  rw [List.mem_cons, List.mem_cons, List.mem_mapIdx] at member
  rcases member with rfl | rfl | ⟨k, -, rfl⟩ <;> exact length_dirent ..

theorem getD_flatten_dirents {des : List (List Byte)} (sizes : ∀ de ∈ des, de.length = 16)
    {j k : Nat} {de : List Byte} (here : des[j]? = some de) (inside : k < 16) :
    16 * j + k < des.flatten.length ∧ des.flatten.getD (16 * j + k) 0 = de.getD k 0 := by
  induction des generalizing j with
  | nil => cases here
  | cons first rest ih =>
    have size := sizes first List.mem_cons_self
    rw [List.flatten_cons, List.length_append]
    cases j with
    | zero =>
      cases here
      refine ⟨by omega, ?_⟩
      rw [List.getD_eq_getElem?_getD, List.getElem?_append_left (by omega),
        List.getD_eq_getElem?_getD,
        Nat.mul_zero, Nat.zero_add]
    | succ j =>
      obtain ⟨below, value⟩ := ih (fun de member => sizes de (List.mem_cons_of_mem _ member)) here
      refine ⟨by omega, ?_⟩
      rw [← value, List.getD_eq_getElem?_getD, List.getElem?_append_right (by omega),
        List.getD_eq_getElem?_getD, size]
      congr 2
      omega

theorem direntInum_dirent {inum : Nat} (small : inum < 65536) (name : List Byte) :
    direntInum (dirent inum name) = inum := by
  unfold direntInum dirent
  simp only [List.cons_append, List.getD_cons_zero, List.getD_cons_succ, BitVec.toNat_ofNat]
  omega

theorem namecmp_dirent {name stored : List Byte} (plain : 0 ∉ name) (plain' : 0 ∉ stored)
    (inum : Nat) :
    namecmp (name.take DIRSIZ) ((dirent inum stored).drop 2) = 0 ↔
      name.take DIRSIZ = stored.take DIRSIZ := by
  have tail : (dirent inum stored).drop 2 = (List.range DIRSIZ).map fun k => stored.getD k 0 := rfl
  have short : 0 ∉ name.take DIRSIZ := fun member => plain (List.mem_of_mem_take member)
  unfold namecmp
  rw [strncmp_zero_iff, tail, cut_padded stored plain', cut_plain _ short, List.take_take,
    Nat.min_self]

variable {c : Params} {inputs : List Input} {img : Image}

theorem Finished.lists (done : Finished c inputs img) {s : State} (disk : s.disk = img.disk)
    (copy : (s.icache 1).copy = onDisk c img.disk 1) :
    Lists c.superblock 1 (onDisk c img.disk 1).size.toNat (rootDirents inputs) s := by
  intro j de here
  have length := length_of_mem_rootDirents (List.mem_of_getElem? here)
  have flat := rootListing_eq inputs
  have sizes :
    ∀ de ∈ rootDirents inputs, de.length = 16 := fun _ member => length_of_mem_rootDirents member
  obtain ⟨last, -⟩ := getD_flatten_dirents sizes here (show 15 < 16 by decide)
  rw [← flat] at last
  have fits := done.rootFits
  have rounded := done.rootSize
  have long : 16 * j + 16 ≤ (onDisk c img.disk 1).size.toNat := by
    unfold BSIZE at *
    omega
  have directory : (onDisk c img.disk 1).type = T_DIR := congrArg Prod.fst done.rootKind
  refine ⟨by omega, ?_, length⟩
  rw [← disk] at copy long directory
  have filled : ∀ bn, bn * BSIZE < 16 * j + 16 → bn * BSIZE < (onDisk c s.disk 1).size.toNat →
      bn < MAXFILE ∧ owns (onDisk c s.disk) s.disk (1, placeOf bn) ≠ none := by
    intro bn below _
    have range : bn < MAXFILE := by
      unfold BSIZE at *
      omega
    rw [disk]
    exact ⟨range, (done.root bn range).mpr (by omega)⟩
  rw [readi_filled copy (by rw [directory]; decide) filled,
    if_neg (by unfold MAXFILE NDIRECT NINDIRECT BSIZE at fits; omega), Nat.min_eq_left (by omega)]
  congr 3
  apply List.ext_getElem?
  intro k
  rw [List.getElem?_map]
  by_cases inside : k < 16
  · obtain ⟨within, value⟩ := getD_flatten_dirents sizes here inside
    rw [← flat] at within value
    rw [List.getElem?_range inside, List.getElem?_eq_getElem (by omega)]
    have read := done.entries _ within
    rw [value, List.getD_eq_getElem?_getD, List.getElem?_eq_getElem (by omega)] at read
    rw [disk]
    exact congrArg some read
  · rw [List.getElem?_eq_none (by rw [List.length_range]; omega), List.getElem?_eq_none (by omega)]
    rfl

/-- What the names of the command line must be for the files to be found. -/
structure Named (inputs : List Input) : Prop where
  nonempty : ∀ input ∈ inputs, input.stored ≠ []
  plain : ∀ input ∈ inputs, slash ∉ input.name
  distinct : (inputs.map fun input => input.stored.take DIRSIZ).Nodup
  special : ∀ input ∈ inputs, input.stored.take DIRSIZ ≠ [dot] ∧
    input.stored.take DIRSIZ ≠ [dot, dot]

theorem stored_subset (input : Input) : input.stored ⊆ input.name := by
  unfold Input.stored
  split
  · rename_i b rest whole
    rw [whole]
    split
    · exact List.subset_cons_self b rest
    · exact List.Subset.refl _
  · exact List.nil_subset _

theorem Named.first (named : Named inputs)
    {k : Nat} {input : Input} (here : inputs[k]? = some input)
    {name : List Byte} (plain : 0 ∉ name) (same : name.take DIRSIZ = input.stored.take DIRSIZ) :
    ∀ j < 2 + k, ∀ de, (rootDirents inputs)[j]? = some de →
      namecmp (name.take DIRSIZ) (de.drop 2) ≠ 0 := by
  intro j before de there
  obtain ⟨notDot, notDots⟩ := named.special input (List.mem_of_getElem? here)
  rw [← same] at notDot notDots
  match j with
  | 0 =>
    cases there
    rw [Ne, namecmp_dirent plain (by decide)]
    exact notDot
  | 1 =>
    cases there
    rw [Ne, namecmp_dirent plain (by decide)]
    exact notDots
  | j + 2 =>
    unfold rootDirents at there
    rw [List.getElem?_cons_succ, List.getElem?_cons_succ, List.getElem?_mapIdx] at there
    cases other : inputs[j]? with
    | none =>
      rw [other] at there
      cases there
    | some input' =>
      rw [other] at there
      cases there
      have clean : 0 ∉ input'.stored := fun member => input'.nul_free (stored_subset input' member)
      rw [Ne, namecmp_dirent plain clean, same]
      intro equal
      have index := (List.getElem?_inj (i := k) (j := j) (by
        rw [List.length_map]
        by_contra past
        rw [List.getElem?_eq_none (by omega)] at here
        cases here) named.distinct).mp (by
          rw [List.getElem?_map, List.getElem?_map, here, other]
          exact congrArg some equal)
      omega

/-- namei on an absolute path with one element, in a kernel that has just booted from the
image. -/
theorem namei_root (done : Finished c inputs img) (named : Named inputs)
    (few : inputs.length + 2 ≤ c.ninodes)
    (shorts : c.ninodes < 65536) {s : State} (disk : s.disk = img.disk)
    (fresh : ∀ i, (s.icache i).ref = 0)
    {k : Nat} {input : Input} (here : inputs[k]? = some input) {name : List Byte} (plain : 0 ∉ name)
    (word : slash ∉ name) (same : name.take DIRSIZ = input.stored.take DIRSIZ) (cwd : Nat) :
    ∃ s', namei c.superblock cwd (slash :: name) s = .ok (some (2 + k), s') ∧ s'.disk = s.disk ∧
      (s'.icache (2 + k)).ref = 1 ∧ (s'.icache (2 + k)).valid = false := by
  have member := List.mem_of_getElem? here
  have count : k < inputs.length := by
    by_contra past
    rw [List.getElem?_eq_none (by omega)] at here
    cases here
  have some : name ≠ [] := by
    rintro rfl
    rw [List.take_nil] at same
    have none := named.nonempty input member
    cases empty : input.stored with
    | nil => exact none empty
    | cons b rest =>
      rw [empty] at same
      cases same
  have onRoot : dinodeAt c.superblock s.disk 1 = onDisk c img.disk 1 := by
    unfold onDisk
    rw [if_pos (by omega), disk]
  have kind := done.rootKind
  have directory : (onDisk c img.disk 1).type = T_DIR := congrArg Prod.fst kind
  have links : (onDisk c img.disk 1).nlink = 1 := congrArg Prod.snd kind
  -- The root is taken into the cache and locked.
  obtain ⟨s1, got, frame1, held, stale⟩ := iget_fresh (fresh 1) (Nat.lt_of_le_of_lt
    (@cached_le_one c.superblock s 1 fun j _ => fresh j) (by decide))
  obtain ⟨s2, locked, frame2, held2, copy⟩ := @ilock_fetch c.superblock s1 1 (by omega) stale
    (by rw [frame1.1, onRoot, directory]; decide)
  rw [frame1.1, onRoot] at copy
  have disk2 : s2.disk = img.disk := by rw [frame2.1, frame1.1, disk]
  have others : ∀ j, j ≠ 1 → (s2.icache j).ref = 0 := by
    intro j apart
    rw [frame2.2 j apart, frame1.2 j apart]
    exact fresh j
  -- Its entries are searched, and the file is taken into the cache.
  have entry : (rootDirents inputs)[2 + k]? = .some (dirent (2 + k) input.stored) := by
    have shift : 2 + k = k + 1 + 1 := by omega
    unfold rootDirents
    rw [shift, List.getElem?_cons_succ, List.getElem?_cons_succ, List.getElem?_mapIdx,
      here, ← shift]
    rfl
  have inum := direntInum_dirent (show 2 + k < 65536 by omega) input.stored
  have clean : 0 ∉ input.stored := fun inside => input.nul_free (stored_subset input inside)
  have lookup := lookupFrom_lists (done.lists disk2 copy) entry (by rw [inum]; omega)
    ((namecmp_dirent plain clean (2 + k)).mpr same) (named.first here plain same)
  obtain ⟨s3, took, frame3, held3, stale3⟩ := iget_fresh (others (2 + k) (by omega))
    (Nat.lt_of_le_of_lt
    (@cached_le_one c.superblock s2 1 others) (by decide))
  rw [inum, bind_of_ok took] at lookup
  have found : dirlookup c.superblock 1 (name.take DIRSIZ) s2 =
      .ok (.some (2 + k, 16 * (2 + k)), s3) := by
    unfold dirlookup
    rw [Prog.read_bind, copy, if_neg (not_not_intro directory)]
    exact lookup
  obtain ⟨s4, put, frame4⟩ := @iput_linked c.superblock s3 1 (by
    rw [frame3.2 1 (by omega), copy, links]
    decide)
  refine ⟨s4, ?_, ?_, ?_, ?_⟩
  · have first : charAt (slash :: name) = slash := rfl
    unfold namei namex
    rw [if_pos first]
    have done :
        walk c.superblock false 1 (slash :: name)
        [] s1 = .ok (.some (2 + k, name.take DIRSIZ), s4) := by
      rw [walk]
      split
      · rename_i none
        rw [skipelem_absolute some word] at none
        cases none
      · rename_i elem rest next
        rw [skipelem_absolute some word] at next
        cases next
        rw [bind_of_ok locked, Prog.read_bind, copy, if_neg (not_not_intro directory),
          if_neg (fun both => Bool.false_ne_true both.1), bind_of_ok found, bind_of_ok put]
        dsimp only
        rw [walk]
        split
        · rfl
        · rename_i more
          cases more
    have whole : (do
        iget c.superblock 1
        walk c.superblock false 1 (slash :: name) [] : P (Option (Nat × List Byte))) s =
        .ok (.some (2 + k, name.take DIRSIZ), s4) := by
      rw [bind_of_ok got, done]
    rw [bind_of_ok whole]
    rfl
  · rw [frame4.1, frame3.1, disk2, disk]
  · rw [frame4.2 _ (by omega), held3]
  · rw [frame4.2 _ (by omega), stale3]

theorem Finished.reads (done : Finished c inputs img) {s : State} (disk : s.disk = img.disk)
    {k : Nat}
    {input : Input} (here : inputs[k]? = some input)
    (copy : (s.icache (2 + k)).copy = onDisk c img.disk (2 + k))
    {n : Nat} (whole : input.chunks.flatten.length ≤ n) :
    readi c.superblock (2 + k) 0 n s = .ok (some input.chunks.flatten, s) := by
  obtain ⟨kind, bytes⟩ := done.files k input here
  have type : (onDisk c img.disk (2 + k)).type = T_FILE := congrArg Prod.fst kind
  have size : (onDisk c img.disk (2 + k)).size.toNat = input.chunks.flatten.length := by
    rw [← bytes, length_contents]
  have small := done.sizes (2 + k) (by omega)
  rw [← disk] at copy
  have filled : ∀ bn, bn * BSIZE < 0 + n → bn * BSIZE < (onDisk c s.disk (2 + k)).size.toNat →
      bn < MAXFILE ∧ owns (onDisk c s.disk) s.disk (2 + k, placeOf bn) ≠ none := by
    intro bn _ below
    rw [disk] at below ⊢
    have range : bn < MAXFILE := by
      unfold BSIZE at *
      omega
    exact ⟨range, (done.filled (2 + k) (by omega) bn range).mpr below⟩
  rw [readi_filled copy (by rw [disk, type]; decide) filled, if_neg (by omega), disk, ← bytes]
  unfold contents
  rw [size, Nat.sub_zero, Nat.min_eq_right whole]
  simp only [Nat.zero_add]

/-- Every file of a command line that mkfs accepts is found under its name, the leading
underscore dropped, and read back whole. -/
theorem kernel_reads_image {inputs : List Input} {img : Image}
    (accepted : main params inputs (blank params) = .ok ((), img))
    (few : inputs.length + 2 ≤ params.ninodes)
    (named : Named inputs) {k : Nat} {input : Input} (here : inputs[k]? = some input) {s : State}
    (disk : s.disk = img.disk) (fresh : ∀ i, (s.icache i).ref = 0)
    {name : List Byte} (plain : 0 ∉ name)
    (word : slash ∉ name) (same : name.take DIRSIZ = input.stored.take DIRSIZ) (cwd : Nat) {n : Nat}
    (whole : input.chunks.flatten.length ≤ n) :
    ∃ s', (do
      let found ← namei params.superblock cwd (slash :: name)
      match found with
      | none => pure none
      | some ip => do
        ilock params.superblock ip
        readi params.superblock ip 0 n : P (Option (List Byte))) s =
      .ok (some input.chunks.flatten, s') ∧ s'.disk = s.disk := by
  have done := main_spec accepted (by omega)
  obtain ⟨s1, found, disk1, held, stale⟩ :=
    namei_root done named few (by decide) disk fresh here plain word same cwd
  have count : k < inputs.length := by
    by_contra past
    rw [List.getElem?_eq_none (by omega)] at here
    cases here
  have inode : dinodeAt params.superblock s1.disk (2 + k) = onDisk params img.disk (2 + k) := by
    unfold onDisk
    rw [if_pos (by omega), disk1, disk]
  have type :
    (onDisk params img.disk (2 + k)).type = T_FILE := congrArg Prod.fst (done.files k input here).1
  obtain ⟨s2, locked, frame, -, copy⟩ := @ilock_fetch params.superblock s1 (2 + k) (by omega) stale
    (by rw [inode, type]; decide)
  rw [inode] at copy
  have disk2 : s2.disk = img.disk := by rw [frame.1, disk1, disk]
  refine ⟨s2, ?_, by rw [disk2, disk]⟩
  rw [bind_of_ok found]
  dsimp only
  rw [bind_of_ok locked]
  exact done.reads disk2 here copy whole

theorem kernel_reads_image_hi :
    ∃ img, main params [⟨[95, 97], [[104], [105]], by decide⟩] (blank params) =
    .ok ((), img) ∧ ∀ s : State, s.disk = img.disk → (∀ i, (s.icache i).ref = 0) → ∃ s', (do
      let found ← namei params.superblock 1 [slash, 97]
      match found with
      | none => pure none
      | some ip => do
        ilock params.superblock ip
        readi params.superblock ip 0 2 : P (Option (List Byte))) s = .ok (some [104, 105], s') ∧
      s'.disk = s.disk := by
  obtain ⟨img, accepted⟩ := main_accepts [⟨[95, 97], [[104], [105]], by decide⟩] (c := params)
    (by decide)
    (by unfold Input.Small; decide) (by decide) (by decide) (by decide)
  refine ⟨img, accepted, fun s disk fresh => ?_⟩
  exact kernel_reads_image accepted (by decide) ⟨by decide, by decide, by decide, by decide⟩
    (k := 0) rfl
    disk fresh (by decide) (by decide) rfl 1 (by decide)

/-- Files of the largest size. -/
def large (name : Byte) (nonzero : name ≠ 0) : Input :=
  ⟨[name], List.replicate MAXFILE (List.replicate BSIZE 0), by simpa using nonzero.symm⟩

def sixLarge : List Input :=
  [large 97 (by decide), large 98 (by decide), large 99 (by decide), large 100 (by decide),
    large 101 (by decide), large 102 (by decide)]

theorem Finished.blocks_le (done : Finished c inputs img) {m : Nat}
    (sizes : ∀ k < m, (onDisk c img.disk (2 + k)).size.toNat = MAXFILE * BSIZE) :
    m * MAXFILE ≤ img.freeblock - c.superblock.nmeta := by
  have owned : ∀ x ∈ Finset.range m ×ˢ Finset.range MAXFILE,
      ∃ b, owns (onDisk c img.disk) img.disk (2 + x.1, placeOf x.2) = some b := by
    intro x member
    rw [Finset.mem_product, Finset.mem_range, Finset.mem_range] at member
    refine Option.ne_none_iff_exists'.mp ((done.filled (2 + x.1) (by omega) x.2 member.2).mpr ?_)
    rw [sizes _ member.1]
    exact Nat.mul_lt_mul_of_pos_right member.2 (by decide)
  have count := Finset.card_le_card_of_injOn
    (fun x : Nat × Nat => (owns (onDisk c img.disk) img.disk (2 + x.1, placeOf x.2)).getD 0)
    (s := Finset.range m ×ˢ Finset.range MAXFILE) (t := Finset.Ico c.superblock.nmeta img.freeblock)
    (by
      intro x member
      obtain ⟨b, here⟩ := owned x member
      obtain ⟨low, high⟩ := done.sound.data here
      dsimp only
      rw [here]
      exact Finset.mem_coe.mpr (Finset.mem_Ico.mpr ⟨low, high⟩))
    (by
      intro x memberX y memberY same
      obtain ⟨b, hereX⟩ := owned x memberX
      obtain ⟨b', hereY⟩ := owned y memberY
      dsimp only at same
      rw [hereX, hereY] at same
      change b = b' at same
      subst same
      have places := done.sound.once hereX hereY
      have inX := (Finset.mem_product.mp memberX).2
      have inY := (Finset.mem_product.mp memberY).2
      rw [Finset.mem_range] at inX inY
      have files : 2 + x.1 = 2 + y.1 := congrArg Prod.fst places
      exact Prod.ext (by omega) (placeOf_inj inX inY (congrArg Prod.snd places)))
  rw [Finset.card_product, Finset.card_range, Finset.card_range, Nat.card_Ico] at count
  exact count

/-- Six files of the largest size, with plain names: their blocks are more than mkfs's balloc
can mark in its one block of the bitmap, and it stops. -/
theorem six_large_files_refused : sixLarge.length + 2 ≤ params.ninodes ∧ Named sixLarge ∧
    (∀ input ∈ sixLarge, input.chunks.flatten.length ≤ MAXFILE * BSIZE ∧
      ∀ chunk ∈ input.chunks, chunk.length ≤ BSIZE) ∧
    ∀ img, main params sixLarge (blank params) ≠ .ok ((), img) := by
  have each :
      ∀ input ∈ sixLarge, input.chunks = List.replicate MAXFILE (List.replicate BSIZE 0) := by
    unfold sixLarge
    simp [large]
  have total :
      (List.replicate MAXFILE (List.replicate BSIZE (0 : Byte))).flatten.length =
        MAXFILE * BSIZE := by
    simp
  refine ⟨by decide, ⟨by decide, by decide, by decide, by decide⟩, ?_, ?_⟩
  · intro input member
    rw [each input member, total]
    refine ⟨Nat.le_refl _, fun chunk inside => ?_⟩
    rw [(List.mem_replicate.mp inside).2, List.length_replicate]
  · intro img accepted
    have done := main_spec accepted (by decide)
    have marked := done.marked
    have blocks := done.blocks_le (m := 6) (by
      intro k below
      have here : sixLarge[k]? = some (sixLarge.get ⟨k, below⟩) := List.getElem?_eq_getElem below
      rw [← length_contents, (done.files k _ here).2, each _ (List.get_mem ..), total])
    have metadata : params.superblock.nmeta = 3261 := by decide
    rw [metadata] at blocks
    unfold MAXFILE NDIRECT NINDIRECT BSIZE at *
    omega

end Xv6Cow.Mkfs
