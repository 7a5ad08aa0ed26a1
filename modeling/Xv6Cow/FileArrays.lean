import Xv6Cow.FileBlocks

/- fs.c: readi, writei and itrunc, on inodes that own their blocks, as operations on arrays of
bytes. -/
namespace Xv6Cow.Fs

open Function (update_self update_of_ne)
open Prog (bind_of_ok read_bind)

variable {sb : Superblock} {live : Nat → Prop} [DecidablePred live] {s s' : State} {i : Nat}

/-! ## Reading -/

theorem readLoop_spec (n : Nat) {off : Nat} (owned : Owned live sb s) (member : live i)
    (range : off + n ≤ MAXFILE * BSIZE) :
    Outcome live sb i (needs off n) s (readLoop sb i off n s) fun bytes s' => Grew live sb s s' ∧
      bytes = (List.range n).map fun k => byteOf (viewOf live s) s.disk i (off + k) := by
  induction n using Nat.strongRecOn generalizing off s with
  | ind n ih =>
  unfold readLoop
  by_cases done : n = 0
  · rw [if_pos done, done, needs_zero]
    exact .pure ⟨.refl owned, rfl⟩
  · rw [if_neg done]
    have bound := Nat.mod_lt off (show 0 < BSIZE by decide)
    have split := Nat.div_add_mod off BSIZE
    have index : off / BSIZE < MAXFILE := by
      unfold BSIZE at *
      omega
    obtain ⟨m, cut⟩ : ∃ m, m = min n (BSIZE - off % BSIZE) := ⟨_, rfl⟩
    rw [← cut, needs_round (by omega) range cut]
    refine Outcome.bind ((bmap_spec owned member index).imp fun b s1 => ?_)
    rintro ⟨grew, here⟩
    rw [read_bind]
    dsimp only
    refine Outcome.finish ((ih (n - m) (by omega) grew.owned (by omega)).imp fun rest s2 => ?_)
    rintro ⟨grew', bytes⟩
    refine .pure ⟨grew.trans grew', ?_⟩
    have join : n = m + (n - m) := by omega
    have first : (List.range m).map (fun k => Block.byte (s1.disk b) (off % BSIZE + k)) =
        (List.range m).map (fun k => byteOf (viewOf live s) s.disk i (off + k)) := by
      apply List.map_congr_left
      intro k inside
      rw [List.mem_range] at inside
      have block : (off + k) / BSIZE = off / BSIZE := by
        unfold BSIZE at *
        omega
      have within : (off + k) % BSIZE = off % BSIZE + k := by
        unfold BSIZE at *
        omega
      rw [← grew.bytes, byteOf_eq, block, here, within]
    rw [first, bytes]
    simp only [grew.bytes]
    conv_rhs => rw [join, List.range_add, List.map_append, List.map_map]
    simp only [Function.comp_def, Nat.add_assoc]

/-! ## Writing -/

/-- What putting the bytes `src` at `off` of a file does. -/
structure Wrote (live : Nat → Prop) [DecidablePred live] (sb : Superblock) (i off : Nat)
    (src : List Byte)
    (s s' : State) : Prop where
  owned : Owned live sb s'
  bytes : ∀ j o, o < MAXFILE * BSIZE → byteOf (viewOf live s') s'.disk j o =
    if j = i ∧ off ≤ o ∧ o < off + src.length then src.getD (o - off) 0
    else byteOf (viewOf live s) s.disk j o
  header : ∀ j, (s'.icache j).copy.size = (s.icache j).copy.size ∧
    (s'.icache j).copy.type = (s.icache j).copy.type

/-- Block `b` is written, through log_write. -/
def patched (s : State) (b : Nat) (patch : Block) : State :=
  { s with disk := Function.update s.disk b patch, written := b :: s.written }

theorem Grew.patch {off b : Nat} {src : List Byte} (grew : Grew live sb s s')
    (here : owns (viewOf live s') s'.disk (i, placeOf (off / BSIZE)) = some b)
    (index : off / BSIZE < MAXFILE) (fits : src.length ≤ BSIZE - off % BSIZE) :
    Wrote live sb i off src s (patched s' b (Block.patch (s'.disk b) (off % BSIZE) src)) ∧
      Fills live sb i ∅ s' (patched s' b (Block.patch (s'.disk b) (off % BSIZE) src)) := by
  obtain ⟨data, -⟩ := grew.owned.sound.data here
  have targets := owns_patch grew.owned.sound here (Block.patch (s'.disk b) (off % BSIZE) src)
  have bound := Nat.mod_lt off (show 0 < BSIZE by decide)
  have split := Nat.div_add_mod off BSIZE
  have start : off / BSIZE * BSIZE + off % BSIZE = off := by rw [Nat.mul_comm]; exact split
  have stop : off + src.length ≤ (off / BSIZE + 1) * BSIZE := by
    rw [Nat.succ_mul]
    omega
  have bits : ∀ x, x < sb.size →
      bitAt sb (patched s' b (Block.patch (s'.disk b) (off % BSIZE) src)).disk x =
        bitAt sb s'.disk x := fun x within =>
    bitAt_congr (fun c _ high => update_of_ne (by omega) ..) within
  refine ⟨⟨⟨grew.owned.known, grew.owned.plain, grew.owned.sizes, ⟨?_, ?_⟩, ?_⟩, ?_, grew.header⟩,
    .of_same targets bits⟩
  · intro x c owner
    have before := grew.owned.sound.data ((targets x).symm.trans owner)
    refine ⟨before.1, before.2.1, ?_⟩
    rw [bits c before.2.1]
    exact before.2.2
  · intro x y c first second
    exact grew.owned.sound.once ((targets x).symm.trans first) ((targets y).symm.trans second)
  · intro c low within
    rw [bits c within]
    exact grew.owned.reserved c low within
  · intro j o inside
    have moved := byteOf_patch grew.owned.sound index here (off % BSIZE) src (j := j) inside
    rw [start, grew.bytes] at moved
    refine Eq.trans moved ?_
    by_cases within : j = i ∧ off ≤ o ∧ o < off + src.length
    · rw [if_pos within, if_pos ⟨within.1, within.2.1, within.2.2, by omega⟩]
    · rw [if_neg within, if_neg (fun both => within ⟨both.1, both.2.1, both.2.2.1⟩)]

theorem Wrote.trans {off m : Nat} {src : List Byte} {s'' : State}
    (first : Wrote live sb i off (src.take m) s s') (cut : (src.take m).length = m)
    (second : Wrote live sb i (off + m) (src.drop m) s' s'') : Wrote live sb i off src s s'' := by
  refine ⟨second.owned, fun j o inside => ?_, fun j => ?_⟩
  · rw [second.bytes j o inside, first.bytes j o inside, cut]
    by_cases same : j = i
    · simp only [same, true_and]
      exact splice_cut cut o _
    · simp only [same, false_and, if_false]
  · exact ⟨(second.header j).1.trans (first.header j).1,
      (second.header j).2.trans (first.header j).2⟩

theorem writeLoop_spec (src : List Byte) {off : Nat} (owned : Owned live sb s) (member : live i)
    (range : off + src.length ≤ MAXFILE * BSIZE) :
    Outcome live sb i (needs off src.length) s (writeLoop sb i off src s) fun last s' =>
      last = off + src.length ∧ Wrote live sb i off src s s' := by
  obtain ⟨n, len⟩ : ∃ n, n = src.length := ⟨_, rfl⟩
  induction n using Nat.strongRecOn generalizing src off s with
  | ind n ih =>
  unfold writeLoop
  by_cases none : src = []
  · rw [if_pos none, none, List.length_nil, needs_zero]
    refine .pure ⟨rfl, owned, fun j o _ => ?_, fun _ => ⟨rfl, rfl⟩⟩
    rw [if_neg]
    rintro ⟨-, low, high⟩
    exact absurd high (Nat.not_lt_of_le low)
  · rw [if_neg none]
    have nonempty : 0 < src.length := List.length_pos_iff.mpr none
    have bound := Nat.mod_lt off (show 0 < BSIZE by decide)
    have index : off / BSIZE < MAXFILE := by
      unfold BSIZE at *
      omega
    obtain ⟨m, cut⟩ : ∃ m, m = min src.length (BSIZE - off % BSIZE) := ⟨_, rfl⟩
    rw [needs_round nonempty range cut]
    refine Outcome.bind ((bmap_spec owned member index).imp fun b s1 => ?_)
    rintro ⟨grew, here⟩
    dsimp only
    rw [← cut]
    have taken : (src.take m).length = m := by
      rw [List.length_take]
      omega
    have short : (src.take m).length ≤ BSIZE - off % BSIZE := by omega
    obtain ⟨wrote, same⟩ := grew.patch here index short
    have rest : (src.drop m).length = src.length - m := List.length_drop ..
    have later := ih (src.drop m).length (by omega) (src.drop m) wrote.owned
      (show off + m + (src.drop m).length ≤ MAXFILE * BSIZE by omega) rfl
    rw [rest] at later
    rw [← Finset.empty_union (needs (off + m) (src.length - m))]
    refine Outcome.bind (.inr ⟨(), _, rfl, same, later.imp fun last s2 => ?_⟩)
    rintro ⟨ends, wrote'⟩
    exact ⟨by omega, wrote.trans taken wrote'⟩

/-! ## Whole calls -/

/-- The bytes of a file. -/
def fileOf (live : Nat → Prop) [DecidablePred live] (s : State) (i : Nat) : List Byte :=
  (List.range (viewOf live s i).size.toNat).map fun o => byteOf (viewOf live s) s.disk i o

theorem length_fileOf (s : State) (i : Nat) :
    (fileOf live s i).length = (viewOf live s i).size.toNat := by
  unfold fileOf
  rw [List.length_map, List.length_range]

theorem getElem?_fileOf (s : State) (i o : Nat) : (fileOf live s i)[o]? =
    if o < (viewOf live s i).size.toNat then some (byteOf (viewOf live s) s.disk i o) else none :=
  getElem?_map_range ..

theorem viewOf_size {s s' : State} (j : Nat)
    (same : (s'.icache j).copy.size = (s.icache j).copy.size) :
    (viewOf live s' j).size = (viewOf live s j).size := by
  unfold viewOf
  split
  · exact same
  · rfl

theorem Owned.size_le (owned : Owned live sb s) (j : Nat) :
    (viewOf live s j).size.toNat ≤ MAXFILE * BSIZE := by
  unfold viewOf
  split
  · rename_i member
    exact owned.sizes j member
  · exact Nat.zero_le _

theorem Grew.fileOf_eq (grew : Grew live sb s s') (j : Nat) :
    fileOf live s' j = fileOf live s j := by
  unfold fileOf
  rw [viewOf_size j (grew.header j).1]
  simp only [grew.bytes]

theorem slice_fileOf (s : State)
    (i : Nat) {off n : Nat} (inside : off ≤ (viewOf live s i).size.toNat) :
    (List.range (min n ((viewOf live s i).size.toNat - off))).map
      (fun k => byteOf (viewOf live s) s.disk i (off + k)) =
        ((fileOf live s i).drop off).take n := by
  apply List.ext_getElem?
  intro k
  rw [getElem?_map_range, List.getElem?_take, List.getElem?_drop, getElem?_fileOf]
  by_cases short : k < n
  · rw [if_pos short]
    by_cases within : off + k < (viewOf live s i).size.toNat
    · rw [if_pos within, if_pos (by omega)]
    · rw [if_neg within, if_neg (by omega)]
  · rw [if_neg short, if_neg (by omega)]

theorem readi_spec (owned : Owned live sb s) (member : live i) (off n : Nat) :
    Outcome live sb i (if (fileOf live s i).length < off ∨ (off + n) % 2 ^ 32 < off then ∅
        else needs off (min n ((fileOf live s i).length - off))) s
      (readi sb i off n s) fun result s' => Grew live sb s s' ∧
      result = if (fileOf live s i).length < off ∨ (off + n) % 2 ^ 32 < off then none
        else some (((fileOf live s i).drop off).take n) := by
  have view := viewOf_live (s := s) member
  have small := owned.sizes i member
  unfold readi
  rw [read_bind, length_fileOf, view]
  dsimp only
  rw [if_neg (owned.plain i member)]
  by_cases refused : (s.icache i).copy.size.toNat < off ∨ (off + n) % 2 ^ 32 < off
  · rw [if_pos refused, if_pos refused, if_pos refused]
    exact .pure ⟨.refl owned, rfl⟩
  · rw [if_neg refused, if_neg refused, if_neg refused]
    have count :
      (if (s.icache i).copy.size.toNat < off + n then (s.icache i).copy.size.toNat - off else n) =
        min n ((s.icache i).copy.size.toNat - off) := by
      split <;> omega
    rw [count]
    refine Outcome.finish ((readLoop_spec _ owned member (by omega)).imp fun bytes s1 => ?_)
    rintro ⟨grew, value⟩
    refine .pure ⟨grew, ?_⟩
    rw [value, ← view, slice_fileOf s i (by rw [view]; omega)]

theorem Owned.resize (owned : Owned live sb s) (member : live i) {size : Word}
    (small : size.toNat ≤ MAXFILE * BSIZE) {s1 : State}
    (cache : s1.icache = Function.update s.icache i
      { s.icache i with copy := { (s.icache i).copy with size := size } })
    (disk : ∀ b, sb.bmapstart ≤ b → s1.disk b = s.disk b) :
    Owned live sb s1 ∧ (viewOf live s1 i).size = size ∧
      (∀ j, j ≠ i → (viewOf live s1 j).size = (viewOf live s j).size) ∧
      (∀ j o, byteOf (viewOf live s1) s1.disk j o = byteOf (viewOf live s) s.disk j o) ∧
      (∀ x, owns (viewOf live s1) s1.disk x = owns (viewOf live s) s.disk x) ∧
      Fills live sb i ∅ s s1 := by
  have order : sb.bmapstart ≤ sb.nmeta := by
    unfold Superblock.nmeta BPB
    omega
  have others : ∀ j, j ≠ i → s1.icache j = s.icache j := by
    intro j apart
    rw [cache, update_of_ne apart]
  have mine : (s1.icache i).copy = { (s.icache i).copy with size := size } := by
    rw [cache, update_self]
  have addrs : ∀ j, (viewOf live s1 j).addrs = (viewOf live s j).addrs := by
    intro j
    unfold viewOf
    split
    · by_cases same : j = i
      · rw [same, mine]
      · rw [others j same]
    · rfl
  have outside : ∀ x b, owns (viewOf live s) s.disk x = some b → s1.disk b = s.disk b := by
    intro x b here
    have data := (owned.sound.data here).1
    exact disk b (by omega)
  have targets : ∀ x, owns (viewOf live s1) s1.disk x = owns (viewOf live s) s.disk x := by
    intro x
    rw [owns_addrs _ addrs, owns_frame outside]
  have bits : ∀ x, x < sb.size → bitAt sb s1.disk x = bitAt sb s.disk x :=
    fun x within => bitAt_congr (fun c low _ => disk c low) within
  refine ⟨⟨owned.known, ?_, ?_, ⟨?_, ?_⟩, ?_⟩, ?_, ?_, ?_, targets, .of_same targets bits⟩
  · intro j memberJ
    by_cases same : j = i
    · rw [same, mine]
      exact owned.plain i member
    · rw [others j same]
      exact owned.plain j memberJ
  · intro j memberJ
    by_cases same : j = i
    · rw [same, mine]
      exact small
    · rw [others j same]
      exact owned.sizes j memberJ
  · intro x b here
    rw [targets] at here
    have before := owned.sound.data here
    refine ⟨before.1, before.2.1, ?_⟩
    rw [bits b before.2.1]
    exact before.2.2
  · intro x y b first second
    rw [targets] at first second
    exact owned.sound.once first second
  · intro b low within
    rw [bits b within]
    exact owned.reserved b low within
  · rw [viewOf_live member, mine]
  · intro j apart
    exact viewOf_size j (by rw [others j apart])
  · intro j o
    rw [byteOf_addrs _ addrs, byteOf_frame outside]

theorem setSize_run (i : Nat) (size : Word) (s : State) :
    ∃ s1, (do
        setCopy i { (s.icache i).copy with size := size }
        iupdate sb i : P Unit) s = .ok ((), s1) ∧
      (∀ value : Option Nat, (do
        setCopy i { (s.icache i).copy with size := size }
        iupdate sb i
        pure value : P (Option Nat)) s = .ok (value, s1)) ∧
      s1.icache =
      Function.update s.icache i { s.icache i with copy :=
        { (s.icache i).copy with size := size } } ∧
      (∀ b, b ≠ iblock sb i → s1.disk b = s.disk b) ∧ s1.written = iblock sb i :: s.written :=
  ⟨_, rfl, fun _ => rfl, rfl, fun _ apart => storeDinode_ne _ _ apart, rfl⟩

/-- The bytes of a file after `src` is put at `off`. -/
def splice (file : List Byte) (off : Nat) (src : List Byte) : List Byte :=
  file.take off ++ src ++ file.drop (off + src.length)

theorem length_splice (file : List Byte) {off : Nat} (src : List Byte)
    (inside : off ≤ file.length) :
    (splice file off src).length = max file.length (off + src.length) := by
  unfold splice
  rw [List.length_append, List.length_append, List.length_take, List.length_drop]
  omega

theorem getElem?_splice {file : List Byte} {off : Nat} (inside : off ≤ file.length)
    (src : List Byte) (o : Nat) :
    (splice file off src)[o]? = if off ≤ o ∧ o < off + src.length then some (src.getD (o - off) 0)
      else file[o]? := by
  unfold splice
  have cut : (file.take off).length = off := by
    rw [List.length_take]
    omega
  rw [List.append_assoc, List.getElem?_append, List.getElem?_append, cut]
  by_cases before : o < off
  · rw [if_pos before, if_neg (by omega), List.getElem?_take_of_lt before]
  · rw [if_neg before]
    by_cases within : o - off < src.length
    · rw [if_pos within, if_pos ⟨by omega, by omega⟩, List.getD_eq_getElem?_getD,
        List.getElem?_eq_getElem within]
      rfl
    · rw [if_neg within, if_neg (by omega), List.getElem?_drop]
      congr 1
      omega

theorem Wrote.fileOf_eq {off : Nat} {src : List Byte} (wrote : Wrote live sb i off src s s')
    {s'' : State} (owned : Owned live sb s'') (inside : off ≤ (fileOf live s i).length)
    (size : (viewOf live s'' i).size.toNat = max (fileOf live s i).length (off + src.length))
    (others : ∀ j, j ≠ i → (viewOf live s'' j).size = (viewOf live s j).size)
    (bytes : ∀ j o, byteOf (viewOf live s'') s''.disk j o = byteOf (viewOf live s') s'.disk j o)
    (j : Nat) :
    fileOf live s'' j = Function.update (fileOf live s) i (splice (fileOf live s i) off src) j := by
  have small := owned.size_le j
  apply List.ext_getElem?
  intro o
  rw [getElem?_fileOf, bytes]
  by_cases same : j = i
  · subst same
    rw [update_self, getElem?_splice inside, getElem?_fileOf, size]
    rw [size] at small
    rw [length_fileOf] at *
    by_cases new : off ≤ o ∧ o < off + src.length
    · rw [if_pos (by omega), if_pos new, wrote.bytes j o (by omega), if_pos ⟨rfl, new⟩]
    · rw [if_neg new]
      by_cases old : o < (viewOf live s j).size.toNat
      · rw [if_pos (by omega), if_pos old, wrote.bytes j o (by omega),
          if_neg (fun both => new both.2)]
      · rw [if_neg (by omega), if_neg old]
  · rw [update_of_ne same, getElem?_fileOf, others j same]
    rw [others j same] at small
    split
    · rw [wrote.bytes j o (by omega), if_neg (fun both => same both.1)]
    · rfl

/-- writei puts the bytes into the file, or refuses and changes nothing. -/
theorem writei_spec (owned : Owned live sb s) (member : live i) (off : Nat) (src : List Byte)
    (word : src.length < 2 ^ 32) :
    Outcome live sb i (if (fileOf live s i).length < off ∨ 2 ^ 32 ≤ off + src.length ∨
        MAXFILE * BSIZE < off + src.length then ∅ else needs off src.length) s
      (writei sb i off src s) fun result s' => Owned live sb s' ∧
      (∀ j, (s'.icache j).copy.type = (s.icache j).copy.type) ∧
      if (fileOf live s i).length < off ∨ 2 ^ 32 ≤ off + src.length ∨
      MAXFILE * BSIZE < off + src.length
      then result = none ∧ s' = s
      else result = some src.length ∧
        ∀ j, fileOf live s' j = Function.update (fileOf live s) i (splice (fileOf live s i) off src)
        j := by
  have view := viewOf_live (s := s) member
  have small := owned.sizes i member
  have top : MAXFILE * BSIZE < 2 ^ 32 := by decide
  unfold writei
  rw [read_bind, length_fileOf, view]
  dsimp only
  rw [if_neg (owned.plain i member)]
  by_cases refused : (s.icache i).copy.size.toNat < off ∨ (off + src.length) % 2 ^ 32 < off
  · rw [if_pos refused, if_pos (by omega)]
    refine .pure ⟨owned, fun _ => rfl, ?_⟩
    rw [if_pos (by omega)]
    exact ⟨rfl, rfl⟩
  · rw [if_neg refused]
    by_cases large : MAXFILE * BSIZE < (off + src.length) % 2 ^ 32
    · rw [if_pos large, if_pos (by omega)]
      refine .pure ⟨owned, fun _ => rfl, ?_⟩
      rw [if_pos (by omega)]
      exact ⟨rfl, rfl⟩
    · rw [if_neg large]
      have fits : off + src.length ≤ MAXFILE * BSIZE := by omega
      have accepted : ¬((s.icache i).copy.size.toNat < off ∨ 2 ^ 32 ≤ off + src.length ∨
          MAXFILE * BSIZE < off + src.length) := by omega
      have inside : off ≤ (fileOf live s i).length := by
        rw [length_fileOf, view]
        omega
      simp only [if_neg accepted]
      refine Outcome.finish ((writeLoop_spec src owned member fits).imp fun last s1 => ?_)
      rintro ⟨rfl, wrote⟩
      have sizes :
        ∀ j, (viewOf live s1 j).size = (viewOf live s j).size :=
        fun j => viewOf_size j (wrote.header j).1
      have same := (wrote.header i).1
      rw [read_bind, same]
      by_cases longer : 0 < src.length ∧ (s.icache i).copy.size.toNat < off + src.length
      · rw [if_pos longer]
        have value : (BitVec.ofNat 32 (off + src.length)).toNat = off + src.length :=
          toNat_ofNat_of_lt (by omega)
        have low := iblock_lt sb (owned.known i member)
        obtain ⟨s2, -, ran, cache, disk, -⟩ :=
          @setSize_run sb i (BitVec.ofNat 32 (off + src.length)) s1
        obtain ⟨owned2, size, others, bytes, -, fills⟩ :=
          wrote.owned.resize member (by rw [value]; exact fits) cache
          (fun b high => disk b (by omega))
        refine .inr ⟨_, s2, ran _, fills, owned2, fun j => ?_, rfl, ?_⟩
        · rw [cache, ← (wrote.header j).2]
          by_cases same : j = i
          · rw [same, update_self]
          · rw [update_of_ne same]
        refine wrote.fileOf_eq owned2 inside ?_ ?_ bytes
        · rw [size, value, length_fileOf, view]
          omega
        · intro j apart
          rw [others j apart, sizes j]
      · rw [if_neg longer]
        refine .pure ⟨wrote.owned, fun j => (wrote.header j).2, rfl, ?_⟩
        refine wrote.fileOf_eq wrote.owned inside ?_ (fun j _ => sizes j) (fun _ _ => rfl)
        rw [sizes i, length_fileOf, view]
        omega

/-! ## Truncating -/

/-- What giving up blocks of inode `i` leaves as it is. -/
structure Shrunk (live : Nat → Prop) [DecidablePred live] (sb : Superblock) (i : Nat)
    (s s' : State) : Prop where
  owned : Owned live sb s'
  bytes : ∀ j o, j ≠ i → byteOf (viewOf live s') s'.disk j o = byteOf (viewOf live s) s.disk j o
  header : ∀ j, (s'.icache j).copy.size = (s.icache j).copy.size ∧
    (s'.icache j).copy.type = (s.icache j).copy.type

theorem Shrunk.refl (owned : Owned live sb s) : Shrunk live sb i s s :=
  ⟨owned, fun _ _ _ => rfl, fun _ => ⟨rfl, rfl⟩⟩

theorem Shrunk.trans {s'' : State} (first : Shrunk live sb i s s')
    (second : Shrunk live sb i s' s'') :
    Shrunk live sb i s s'' := by
  refine ⟨second.owned, fun j o apart => ?_, fun j => ?_⟩
  · rw [second.bytes j o apart, first.bytes j o apart]
  · exact ⟨(second.header j).1.trans (first.header j).1,
      (second.header j).2.trans (first.header j).2⟩

theorem Shrunk.of_less (owned : Owned live sb s) (gone : Place → Prop) [DecidablePred gone]
    (targets : ∀ y, owns (viewOf live s') s'.disk y =
      if y.1 = i ∧ gone y.2 then none else owns (viewOf live s) s.disk y)
    (bits : ∀ x, x < sb.size →
      (∀ place, gone place → owns (viewOf live s) s.disk (i, place) ≠ some x) →
      bitAt sb s'.disk x = bitAt sb s.disk x)
    (disk : ∀ b, sb.nmeta ≤ b → s'.disk b = s.disk b)
    (header : ∀ j, (s'.icache j).copy.size = (s.icache j).copy.size ∧
      (s'.icache j).copy.type = (s.icache j).copy.type) : Shrunk live sb i s s' := by
  have less : ∀ y b, owns (viewOf live s') s'.disk y = some b →
      owns (viewOf live s) s.disk y = some b ∧ ¬(y.1 = i ∧ gone y.2) := by
    intro y b here
    rw [targets] at here
    split at here
    · cases here
    · rename_i still
      exact ⟨here, still⟩
  refine ⟨⟨owned.known, ?_, ?_, ⟨?_, ?_⟩, ?_⟩, ?_, header⟩
  · intro j member
    rw [(header j).2]
    exact owned.plain j member
  · intro j member
    rw [(header j).1]
    exact owned.sizes j member
  · intro y b here
    obtain ⟨before, still⟩ := less y b here
    obtain ⟨data, inside, marked⟩ := owned.sound.data before
    refine ⟨data, inside, ?_⟩
    rw [bits b inside]
    · exact marked
    · intro place goes there
      have same := owned.sound.once before there
      exact still ⟨congrArg Prod.fst same, by rw [congrArg Prod.snd same]; exact goes⟩
  · intro x y b first second
    exact owned.sound.once (less x b first).1 (less y b second).1
  · intro b low inside
    rw [bits b inside]
    · exact owned.reserved b low inside
    · intro place _ there
      have data := (owned.sound.data there).1
      omega
  · intro j o apart
    rw [byteOf_eq, byteOf_eq, targets, if_neg (fun both => apart both.1)]
    cases here : owns (viewOf live s) s.disk (j, placeOf (o / BSIZE)) with
    | none => rfl
    | some b =>
      dsimp only
      rw [disk b (owned.sound.data here).1]

theorem bfree_run {b : Nat} (marked : bitAt sb s.disk b = true) :
    bfree sb b s = .ok ((), { s with
      disk := storeBit sb s.disk b false
      written := bblock sb b :: s.written }) := by
  unfold bfree
  rw [read_bind, if_pos marked]
  rfl

theorem owns_withAddr_zero (member : live i) (disk : Nat → Block) (k : Fin 13) (y : Nat × Place) :
    owns (viewOf live (withAddr s i k 0)) disk y =
      if y.1 = i ∧ (y.2 = .slot k ∨ (k = 12 ∧ ∃ j, y.2 = .entry j)) then none
      else owns (viewOf live s) disk y := by
  rw [viewOf_withAddr member]
  have slots : ∀ j l, owns (withSlot (viewOf live s) i k 0) disk (j, .slot l) =
      if j = i ∧ l = k then none else owns (viewOf live s) disk (j, .slot l) := by
    intro j l
    rw [owns_slot, owns_slot]
    unfold withSlot
    by_cases here : j = i
    · subst here
      by_cases same : l = k
      · simp [same]
      · simp [same]
    · simp [here]
  obtain ⟨j, l | l⟩ := y
  · rw [slots]
    simp
  · rw [owns_entry, slots, owns_entry]
    by_cases both : j = i ∧ 12 = k
    · rw [if_pos both, if_pos ⟨both.1, .inr ⟨both.2.symm, l, rfl⟩⟩]
    · rw [if_neg both, if_neg]
      rintro ⟨same, slot | ⟨twelve, -⟩⟩
      · cases slot
      · exact both ⟨same, twelve.symm⟩

theorem freeSlot_spec (owned : Owned live sb s) (member : live i) {k : Fin 13} (direct : k ≠ 12)
    (taken : (s.icache i).copy.addrs k ≠ 0) :
    ∃ s', (do
      bfree sb ((s.icache i).copy.addrs k).toNat
      setAddr i k 0 : P Unit) s = .ok ((), s') ∧ Shrunk live sb i s s' := by
  have here :
      owns (viewOf live s) s.disk (i, .slot k) = some ((s.icache i).copy.addrs k).toNat := by
    rw [owns_slot, viewOf_live member, if_neg taken]
  obtain ⟨data, inside, marked⟩ := owned.sound.data here
  have bitmap := (bblock_range sb inside).2
  have frame : ∀ y c, owns (viewOf live s) s.disk y = some c →
      storeBit sb s.disk ((s.icache i).copy.addrs k).toNat false c = s.disk c := by
    intro y c there
    have low := (owned.sound.data there).1
    exact storeBit_ne false (by omega)
  rw [bind_of_ok (bfree_run marked), setAddr_run]
  refine ⟨_, rfl, Shrunk.of_less owned (fun place => place = .slot k) ?_ ?_ ?_ ?_⟩
  · intro y
    refine (owns_withAddr_zero member _ k y).trans ?_
    have view :
      owns (viewOf live s) (storeBit sb s.disk ((s.icache i).copy.addrs k).toNat false) y =
        owns (viewOf live s) s.disk y := owns_frame frame y
    simp only [direct, false_and, or_false]
    exact ite_congr rfl (fun _ => rfl) (fun _ => view)
  · intro x within other
    have apart : x ≠ ((s.icache i).copy.addrs k).toNat := by
      rintro rfl
      exact other _ rfl here
    exact (bitAt_storeBit ..).trans (if_neg apart)
  · intro b high
    exact storeBit_ne false (by omega)
  · exact withAddr_header k 0

theorem truncDirect_spec (ks : List (Fin 13)) (direct : ∀ k ∈ ks, k ≠ 12) (owned : Owned live sb s)
    (member : live i) : ∃ s', truncDirect sb i ks s = .ok ((), s') ∧ Shrunk live sb i s s' := by
  induction ks generalizing s with
  | nil => exact ⟨s, rfl, Shrunk.refl owned⟩
  | cons k rest ih =>
    have later : ∀ k ∈ rest, k ≠ 12 := fun k inside => direct k (List.mem_cons_of_mem _ inside)
    rw [truncDirect, read_bind]
    dsimp only
    split
    · exact ih later owned
    · rename_i taken
      obtain ⟨s1, freed, shrunk⟩ := freeSlot_spec owned member (direct k List.mem_cons_self) taken
      obtain ⟨s2, ran, shrunk'⟩ := ih later shrunk.owned
      rw [Prog.bind_ok_iff] at freed
      obtain ⟨_, s0, first, second⟩ := freed
      refine ⟨s2, ?_, shrunk.trans shrunk'⟩
      rw [bind_of_ok first, bind_of_ok second]
      exact ran

/-- The blocks that an indirect block lists are freed: bits of other blocks, and blocks outside
the bitmap, stay. -/
theorem truncEntries_spec {ind : Nat} (data : sb.nmeta ≤ ind) (js : List (Fin 128))
    (distinct : js.Nodup)
    (marked : ∀ j ∈ js, s.disk ind j ≠ 0 → (s.disk ind j).toNat < sb.size ∧
      bitAt sb s.disk (s.disk ind j).toNat = true)
    (once : ∀ j j', s.disk ind j ≠ 0 → (s.disk ind j).toNat = (s.disk ind j').toNat → j = j') :
    ∃ s', truncEntries sb ind js s = .ok ((), s') ∧ s'.icache = s.icache ∧
      (∀ b, sb.nmeta ≤ b → s'.disk b = s.disk b) ∧
      ∀ x, (∀ j ∈ js, s.disk ind j ≠ 0 → (s.disk ind j).toNat ≠ x) →
      bitAt sb s'.disk x = bitAt sb s.disk x := by
  induction js generalizing s with
  | nil => exact ⟨s, rfl, rfl, fun _ _ => rfl, fun _ _ => rfl⟩
  | cons j rest ih =>
    rw [List.nodup_cons] at distinct
    rw [truncEntries, read_bind]
    split
    · obtain ⟨s', ran, cache, disk, bits⟩ := ih distinct.2
        (fun j inside => marked j (List.mem_cons_of_mem _ inside)) once
      exact ⟨s', ran, cache, disk, fun x other => bits x fun j inside =>
        other j (List.mem_cons_of_mem _ inside)⟩
    · rename_i taken
      obtain ⟨inside, set⟩ := marked j List.mem_cons_self taken
      have bitmap := (bblock_range sb inside).2
      have same : ∀ b, sb.nmeta ≤ b → storeBit sb s.disk (s.disk ind j).toNat false b = s.disk b :=
        fun b high => storeBit_ne false (by omega)
      have table := same ind data
      rw [bind_of_ok (bfree_run set)]
      obtain ⟨s', ran, cache, disk, bits⟩ := @ih { s with
          disk := storeBit sb s.disk (s.disk ind j).toNat false
          written := bblock sb (s.disk ind j).toNat :: s.written } distinct.2 (by
        intro j' member
        dsimp only
        rw [table]
        intro taken'
        obtain ⟨inside', set'⟩ := marked j' (List.mem_cons_of_mem _ member) taken'
        refine ⟨inside', ?_⟩
        have apart : (s.disk ind j').toNat ≠ (s.disk ind j).toNat := by
          intro equal
          have index := once j' j taken' equal
          rw [index] at member
          exact distinct.1 member
        rw [bitAt_storeBit, if_neg apart, set']) (by
        intro j j'
        dsimp only
        rw [table]
        exact once j j')
      refine ⟨s', ran, cache, fun b high => (disk b high).trans (same b high), fun x other => ?_⟩
      have step := bits x (by
        intro j' member
        dsimp only
        rw [table]
        exact other j' (List.mem_cons_of_mem _ member))
      rw [step]
      dsimp only
      rw [bitAt_storeBit, if_neg (other j List.mem_cons_self taken).symm]

theorem truncIndirect_spec (owned : Owned live sb s) (member : live i) :
    ∃ s', truncIndirect sb i s = .ok ((), s') ∧ Shrunk live sb i s s' := by
  unfold truncIndirect
  rw [read_bind]
  dsimp only
  split
  · exact ⟨s, rfl, Shrunk.refl owned⟩
  · rename_i taken
    obtain ⟨ind, indIs⟩ : ∃ ind, ind = ((s.icache i).copy.addrs 12).toNat := ⟨_, rfl⟩
    rw [← indIs]
    have slot : owns (viewOf live s) s.disk (i, .slot 12) = some ind := by
      rw [owns_slot, viewOf_live member, if_neg taken, indIs]
    have entry :
        ∀ j, s.disk ind j ≠ 0 →
        owns (viewOf live s) s.disk (i, .entry j) = some (s.disk ind j).toNat := by
      intro j nonzero
      rw [owns_entry, slot]
      simp only [if_neg nonzero]
    obtain ⟨data, inside, marked⟩ := owned.sound.data slot
    obtain ⟨s1, listed, cache, disk, bits⟩ := truncEntries_spec data (List.finRange 128)
      (List.nodup_finRange 128)
      (fun j _ nonzero => (owned.sound.data (entry j nonzero)).2) (by
        intro j j' nonzero equal
        by_cases other : s.disk ind j' = 0
        · rw [other] at equal
          exact absurd (BitVec.eq_of_toNat_eq equal) nonzero
        · have here := entry j nonzero
          rw [equal] at here
          have same := owned.sound.once here (entry j' other)
          cases same
          rfl)
    have listedNot : ∀ j ∈ List.finRange 128, s.disk ind j ≠ 0 → (s.disk ind j).toNat ≠ ind := by
      intro j _ nonzero equal
      have here := entry j nonzero
      rw [equal] at here
      have same := owned.sound.once here slot
      cases same
    have still : bitAt sb s1.disk ind = true := by rw [bits ind listedNot, marked]
    have bitmap := (bblock_range sb inside).2
    rw [bind_of_ok listed, bind_of_ok (bfree_run still), setAddr_run]
    refine ⟨_, rfl, Shrunk.of_less owned (fun place => place = .slot 12 ∨ ∃ j, place = .entry j)
      ?_ ?_ ?_ ?_⟩
    · intro y
      refine (owns_withAddr_zero member _ 12 y).trans ?_
      have frame :
          ∀ y c, owns (viewOf live s) s.disk y = some c →
          storeBit sb s1.disk ind false c = s.disk c := by
        intro y c there
        have low := (owned.sound.data there).1
        rw [storeBit_ne false (by omega), disk c low]
      have view : viewOf live { s1 with
          disk := storeBit sb s1.disk ind false
          written := bblock sb ind :: s1.written } = viewOf live s := by
        unfold viewOf
        dsimp only
        rw [cache]
      rw [view]
      simp only [true_and]
      exact ite_congr rfl (fun _ => rfl) (fun _ => owns_frame frame y)
    · intro x within other
      have apart : x ≠ ind := by
        rintro rfl
        exact other _ (.inl rfl) slot
      refine (bitAt_storeBit ..).trans ((if_neg apart).trans (bits x ?_))
      rintro j - nonzero rfl
      exact other _ (.inr ⟨j, rfl⟩) (entry j nonzero)
    · intro b high
      exact (storeBit_ne false (by omega)).trans (disk b high)
    · intro j
      refine ⟨(withAddr_header 12 0 j).1.trans ?_, (withAddr_header 12 0 j).2.trans ?_⟩
        <;> dsimp only <;> rw [cache]

theorem itrunc_spec (owned : Owned live sb s) (member : live i) :
    ∃ s', itrunc sb i s = .ok ((), s') ∧ Owned live sb s' ∧
      ∀ j, fileOf live s' j = Function.update (fileOf live s) i [] j := by
  obtain ⟨s1, direct, shrunk1⟩ :=
    truncDirect_spec [0, 1, 2, 3, 4, 5, 6, 7, 8, 9, 10, 11] (by decide) owned member
  obtain ⟨s2, indirect, shrunk2⟩ := truncIndirect_spec shrunk1.owned member
  obtain ⟨s3, ran, -, cache, disk, -⟩ := @setSize_run sb i 0 s2
  have shrunk := shrunk1.trans shrunk2
  have low := iblock_lt sb (owned.known i member)
  obtain ⟨owned3, size, others, bytes, -⟩ := shrunk.owned.resize member (Nat.zero_le _) cache
    (fun b high => disk b (by omega))
  refine ⟨s3, ?_, owned3, fun j => ?_⟩
  · unfold itrunc
    rw [bind_of_ok direct, bind_of_ok indirect, read_bind]
    exact ran
  · by_cases same : j = i
    · subst same
      rw [update_self]
      unfold fileOf
      rw [size]
      rfl
    · rw [update_of_ne same]
      unfold fileOf
      rw [others j same, viewOf_size j (shrunk.header j).1]
      apply List.map_congr_left
      intro o _
      rw [bytes, shrunk.bytes j o same]

end Xv6Cow.Fs
