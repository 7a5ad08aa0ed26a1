import Xv6Cow.FileRefs
import Xv6Cow.FileCalls
import Xv6Cow.Logging

/- file.c: filewrite, which writes a file in chunks, one transaction of the log each, and the
blocks that each chunk hands to log_write. -/
namespace Xv6Cow.Fs

open Prog (read update halt bind_ok_iff bind_of_ok bind_of_error read_bind)
open Logging (MAXOPBLOCKS)

/-- The most that one transaction writes. -/
def maxChunk : Nat := (MAXOPBLOCKS - 1 - 1 - 2) / 2 * 512

/-- One call of writei by filewrite, and the blocks it handed to log_write. -/
structure Chunk where
  off : Nat
  n : Nat
  logged : List Nat

theorem maxChunk_pos : 0 < maxChunk := by decide

variable (sb : Superblock)

/-- The loop of filewrite, for the bytes that are left: the chunks, f->off, and whether every
byte was written. -/
def writeChunks (ip off : Nat) (src : List Byte) : P (List Chunk × Nat × Bool) :=
  if src = [] then pure ([], off, true)
  else do
    let n1 := min src.length maxChunk
    ilock sb ip
    let before ← read
    let r ← writei sb ip off (src.take n1)
    let after ← read
    let chunk := ⟨off, n1, after.written.take (after.written.length - before.written.length)⟩
    match r with
    | none => pure ([chunk], off, false)
    | some r =>
      if r ≠ n1 then halt "short filewrite"
      else do
        let rest ← writeChunks ip ((off + n1) % 2 ^ 32) (src.drop n1)
        pure (chunk :: rest.1, rest.2)
termination_by src.length
decreasing_by
  have some : 0 < src.length := List.length_pos_iff.mpr (by assumption)
  have chunk := maxChunk_pos
  rw [List.length_drop]
  omega

/-- filewrite, on a file that is no pipe: what it returns, where it leaves f->off, and the chunks;
`none` is -1. -/
def filewrite (writable : Bool) (ip off : Nat) (src : List Byte) :
    P (Option Nat × Nat × List Chunk) :=
  if writable then do
    let done ← writeChunks sb ip off src
    pure (if done.2.2 then some src.length else none, done.2.1, done.1)
  else pure (none, off, [])

/-! ## What a call hands to log_write -/

variable {sb} {live : Nat → Prop} [DecidablePred live] {s s' s1 s2 : State} {i : Nat}

/-- Everything handed to log_write on the way is in `blocks`. -/
def Logged (blocks : Finset Nat) (s s' : State) : Prop :=
  ∃ new, s'.written = new ++ s.written ∧ ∀ b ∈ new, b ∈ blocks

theorem Logged.refl (blocks : Finset Nat) (s : State) : Logged blocks s s :=
  ⟨[], rfl, fun _ member => by cases member⟩

theorem Logged.trans {first second : Finset Nat} (left : Logged first s s1)
    (right : Logged second s1 s2) :
    Logged (first ∪ second) s s2 := by
  obtain ⟨new, here, inside⟩ := left
  obtain ⟨more, there, within⟩ := right
  refine ⟨more ++ new, by rw [there, here, List.append_assoc], fun b member => ?_⟩
  rw [Finset.mem_union]
  rcases List.mem_append.mp member with late | early
  · exact .inr (within b late)
  · exact .inl (inside b early)

theorem Logged.mono {first second : Finset Nat} (logged : Logged first s s')
    (subset : first ⊆ second) :
    Logged second s s' := by
  obtain ⟨new, here, inside⟩ := logged
  exact ⟨new, here, fun b member => subset (inside b member)⟩

/-- The indirect block of the inode and the bitmap block that it is in. -/
def indirectBlocks (live : Nat → Prop) [DecidablePred live] (sb : Superblock) (i : Nat)
    (s : State) : Finset Nat :=
  match owns (viewOf live s) s.disk (i, .slot 12) with
  | none => ∅
  | some ind => {ind, bblock sb ind}

theorem indirectBlocks_some {ind : Nat}
    (slot : owns (viewOf live s) s.disk (i, .slot 12) = some ind) :
    indirectBlocks live sb i s = {ind, bblock sb ind} := by
  unfold indirectBlocks
  rw [slot]

theorem indirectBlocks_card (s : State) : (indirectBlocks live sb i s).card ≤ 2 := by
  unfold indirectBlocks
  split
  · exact Nat.zero_le _
  · exact Finset.card_le_two

/-- Blocks are added to the files and none is taken away. -/
def Keeps (live : Nat → Prop) [DecidablePred live] (s s' : State) : Prop :=
  ∀ x b, owns (viewOf live s) s.disk x = some b → owns (viewOf live s') s'.disk x = some b

theorem Keeps.indirect (keeps : Keeps live s s') :
    indirectBlocks live sb i s ⊆ indirectBlocks live sb i s' := by
  cases slot : owns (viewOf live s) s.disk (i, .slot 12) with
  | none =>
    unfold indirectBlocks
    rw [slot]
    exact Finset.empty_subset _
  | some ind => rw [indirectBlocks_some slot, indirectBlocks_some (keeps _ _ slot)]

theorem balloc_logged {b : Nat} (ran : balloc sb s = .ok (b, s')) :
    Logged {b, bblock sb b} s s' := by
  unfold balloc at ran
  rw [read_bind] at ran
  cases choice : firstClear sb s.disk with
  | none =>
    rw [choice] at ran
    cases ran
  | some c =>
    rw [choice] at ran
    cases ran
    refine ⟨[b, bblock sb b], rfl, fun c member => ?_⟩
    simpa using member

theorem ensureAddr_logged {k : Fin 13} {b : Nat} (ran : ensureAddr sb i k s = .ok (b, s')) :
    Logged {b, bblock sb b} s s' := by
  unfold ensureAddr at ran
  rw [read_bind] at ran
  dsimp only at ran
  split at ran
  · obtain ⟨c, s1, took, rest⟩ := bind_ok_iff.mp ran
    have logged := balloc_logged took
    cases rest
    exact logged
  · cases ran
    exact Logged.refl _ _

theorem ensureEntry_logged {ind : Nat} {j : Fin 128} {b : Nat}
    (ran : ensureEntry sb ind j s = .ok (b, s')) :
    Logged ({b, bblock sb b} ∪ {ind}) s s' := by
  unfold ensureEntry at ran
  rw [read_bind] at ran
  dsimp only at ran
  split at ran
  · obtain ⟨c, s1, took, rest⟩ := bind_ok_iff.mp ran
    have logged := balloc_logged took
    cases rest
    refine logged.trans ⟨[ind], rfl, fun c member => ?_⟩
    simpa using member
  · cases ran
    exact Logged.refl _ _

/-- bmap logs the new block and its bitmap block, besides what belongs to the indirect block. -/
theorem bmap_logged (owned : Owned live sb s) (member : live i) {bn b : Nat} (range : bn < MAXFILE)
    (ran : bmap sb i bn s = .ok (b, s')) :
    Logged ({b, bblock sb b} ∪ indirectBlocks live sb i s') s s' := by
  unfold bmap at ran
  by_cases direct : bn < NDIRECT
  · rw [dif_pos direct] at ran
    exact (ensureAddr_logged ran).mono Finset.subset_union_left
  · have indirect : bn - NDIRECT < NINDIRECT := by
      unfold MAXFILE at range
      omega
    rw [dif_neg direct, dif_pos indirect] at ran
    obtain ⟨ind, s1, first, second⟩ := bind_ok_iff.mp ran
    rcases ensureAddr_spec owned member 12 with ⟨failed, -⟩ | ⟨_, _, done, -, grew, slot⟩
    · rw [first] at failed
      cases failed
    · rw [first] at done
      cases done
      rcases ensureEntry_spec grew.owned ⟨bn - NDIRECT, indirect⟩ slot with
        ⟨failed, -⟩ | ⟨_, _, done, -, grew', -⟩
      · rw [second] at failed
        cases failed
      · rw [second] at done
        cases done
        rw [indirectBlocks_some (grew'.more _ _ slot)]
        refine ((ensureAddr_logged first).trans (ensureEntry_logged second)).mono fun c => ?_
        simp only [Finset.mem_union, Finset.mem_insert, Finset.mem_singleton]
        tauto

/-- What writing `n` bytes at `off` does to the blocks of the file: they are there afterwards, and
at most two blocks were logged for each of them, but one less if the first was there before. -/
structure Covers (live : Nat → Prop) [DecidablePred live] (sb : Superblock) (i off n : Nat)
    (s s' : State) :
    Prop where
  keeps : Keeps live s s'
  filled : 0 < n → ∀ bn, off / BSIZE ≤ bn → bn * BSIZE < off + n →
    owns (viewOf live s') s'.disk (i, placeOf bn) ≠ none
  logged : ∀ r, (n = 0 ∨ off % BSIZE + n ≤ r * BSIZE) → ∃ data : Finset Nat,
    Logged (data ∪ indirectBlocks live sb i s') s s' ∧ data.card ≤ 2 * r ∧
      (0 < n → owns (viewOf live s) s.disk (i, placeOf (off / BSIZE)) ≠ none →
        data.card + 1 ≤ 2 * r)

theorem round_covers {bn b : Nat} (owned : Owned live sb s) (member : live i) (range : bn < MAXFILE)
    (mapped : bmap sb i bn s = .ok (b, s1)) (patch : Block) :
    Keeps live s (patched s1 b patch) ∧
      owns (viewOf live (patched s1 b patch)) (patched s1 b patch).disk (i, placeOf bn) = some b ∧
      ∃ data : Finset Nat, Logged (data ∪ indirectBlocks live sb i (patched s1 b patch)) s
      (patched s1 b patch) ∧
        data.card ≤ 2 ∧ (owns (viewOf live s) s.disk (i, placeOf bn) ≠ none → data.card ≤ 1) := by
  rcases bmap_spec owned member range with ⟨failed, -⟩ | ⟨_, _, done, -, grew, here⟩
  · rw [mapped] at failed
    cases failed
  · rw [mapped] at done
    cases done
    have targets : ∀ x, owns (viewOf live (patched s1 b patch)) (patched s1 b patch).disk x =
        owns (viewOf live s1) s1.disk x := owns_patch grew.owned.sound here patch
    have indirect :
        indirectBlocks live sb i s1 = indirectBlocks live sb i (patched s1 b patch) := by
      unfold indirectBlocks
      rw [targets]
    refine ⟨fun x c there => ?_, ?_, ?_⟩
    · rw [targets]
      exact grew.more x c there
    · rw [targets]
      exact here
    · by_cases had : owns (viewOf live s) s.disk (i, placeOf bn) = none
      · refine ⟨{b, bblock sb b}, ?_, Finset.card_le_two, fun some => absurd had some⟩
        obtain ⟨new, wrote, inside⟩ := bmap_logged owned member range mapped
        refine ⟨b :: new, congrArg (List.cons b) wrote, fun c among => ?_⟩
        rw [← indirect]
        rcases List.mem_cons.mp among with rfl | among
        · simp
        · exact inside c among
      · obtain ⟨c, had'⟩ := Option.ne_none_iff_exists'.mp had
        have same := @bmap_owned sb s _ i bn c (viewOf_live member).symm range had'
        rw [mapped] at same
        cases same
        refine ⟨{b}, ⟨[b], rfl, fun c among => ?_⟩, by simp, fun _ => by simp⟩
        rw [List.mem_singleton] at among
        rw [among]
        simp

theorem writeLoop_covers (src : List Byte) {off last : Nat} (owned : Owned live sb s)
    (member : live i)
    (range : off + src.length ≤ MAXFILE * BSIZE) (ran : writeLoop sb i off src s = .ok (last, s')) :
    Covers live sb i off src.length s s' := by
  obtain ⟨n, len⟩ : ∃ n, n = src.length := ⟨_, rfl⟩
  induction n using Nat.strongRecOn generalizing src off s with
  | ind n ih =>
  unfold writeLoop at ran
  by_cases none : src = []
  · rw [if_pos none] at ran
    cases ran
    rw [none]
    refine ⟨fun _ _ here => here, fun positive => ?_, fun r _ =>
      ⟨∅, Logged.refl _ _, Nat.zero_le _, ?_⟩⟩
    · cases positive
    · intro positive
      cases positive
  · rw [if_neg none] at ran
    have nonempty : 0 < src.length := List.length_pos_iff.mpr none
    have bound := Nat.mod_lt off (show 0 < BSIZE by decide)
    have index : off / BSIZE < MAXFILE := by
      unfold BSIZE at *
      omega
    obtain ⟨b, s1, mapped, rest⟩ := bind_ok_iff.mp ran
    obtain ⟨m, cut⟩ : ∃ m, m = min src.length (BSIZE - off % BSIZE) := ⟨_, rfl⟩
    dsimp only at rest
    rw [← cut] at rest
    obtain ⟨_, s2, wrote, later⟩ := bind_ok_iff.mp rest
    change Except.ok ((), patched s1 b (Block.patch (s1.disk b) (off % BSIZE) (src.take m)))
      = _ at wrote
    cases wrote
    obtain ⟨keeps, here, data, logged, two, one⟩ := round_covers owned member index mapped
      (Block.patch (s1.disk b) (off % BSIZE) (src.take m))
    have owned2 :
        Owned live sb (patched s1 b (Block.patch (s1.disk b) (off % BSIZE) (src.take m))) := by
      rcases bmap_spec owned member index with ⟨failed, -⟩ | ⟨_, _, done, -, grew, there⟩
      · rw [mapped] at failed
        cases failed
      · rw [mapped] at done
        cases done
        refine ((Grew.refl grew.owned).patch there index ?_).1.owned
        rw [List.length_take]
        omega
    have left : (src.drop m).length = src.length - m := List.length_drop ..
    have next := ih (src.drop m).length (by omega) (src.drop m) owned2
      (show off + m + (src.drop m).length ≤ MAXFILE * BSIZE by omega) later rfl
    rw [left] at next
    refine ⟨fun x c there => next.keeps x c (keeps x c there), fun _ bn low high => ?_,
      fun r fits => ?_⟩
    · by_cases first : bn = off / BSIZE
      · rw [first, next.keeps _ _ here]
        exact Option.some_ne_none b
      · refine next.filled ?_ bn ?_ ?_
        all_goals
          unfold BSIZE at *
          omega
    · have more : src.length - m = 0 ∨ (off + m) % BSIZE + (src.length - m) ≤ (r - 1) * BSIZE := by
        unfold BSIZE at *
        omega
      have positive : 0 < r := by
        by_contra zero
        rw [show r = 0 by omega] at fits
        omega
      obtain ⟨data', logged', card, -⟩ := next.logged (r - 1) more
      have union := Finset.card_union_le data data'
      refine ⟨data ∪ data', (logged.trans logged').mono fun c => ?_, by omega, fun _ had => ?_⟩
      · have grows := @Keeps.indirect sb live _ _ _ i next.keeps c
        simp only [Finset.mem_union]
        rintro ((early | old) | (late | new))
        · exact .inl (.inl early)
        · exact .inr (grows old)
        · exact .inl (.inr late)
        · exact .inr new
      · have fewer := one had
        omega

/-! ## One chunk -/

/-- Every block of the file below its size is there. -/
def Filled (live : Nat → Prop) [DecidablePred live] (i : Nat) (s : State) : Prop :=
  ∀ bn, bn * BSIZE < (viewOf live s i).size.toNat →
  owns (viewOf live s) s.disk (i, placeOf bn) ≠ none

theorem Filled.grow {off n : Nat} {size : Word} (filled : Filled live i s)
    (covers : Covers live sb i off n s s1)
    (targets : ∀ x, owns (viewOf live s') s'.disk x = owns (viewOf live s1) s1.disk x)
    (start : off ≤ (viewOf live s i).size.toNat) (after : (viewOf live s' i).size = size)
    (bound : size.toNat ≤ (viewOf live s i).size.toNat ∨ 0 < n ∧ size.toNat ≤ off + n) :
    Filled live i s' := by
  intro bn inside
  rw [after] at inside
  rw [targets]
  by_cases old : bn * BSIZE < (viewOf live s i).size.toNat
  · obtain ⟨b, here⟩ := Option.ne_none_iff_exists'.mp (filled bn old)
    rw [covers.keeps _ _ here]
    exact Option.some_ne_none b
  · refine covers.filled (by omega) bn ?_ (by omega)
    unfold BSIZE at *
    omega

/-- The blocks of one chunk, without the inode: a chunk that starts inside a block finds that
block there. -/
theorem Covers.count {off n : Nat} (covers : Covers live sb i off n s s1) (filled : Filled live i s)
    (start : off ≤ (viewOf live s i).size.toNat) (short : n ≤ maxChunk) :
    ∃ blocks : Finset Nat, Logged blocks s s1 ∧ blocks.card ≤ 9 := by
  have chunk : maxChunk = 3 * BSIZE := by decide
  have two := @indirectBlocks_card sb live _ i s1
  by_cases aligned : off % BSIZE = 0
  · obtain ⟨data, logged, card, -⟩ := covers.logged 3 (.inr (by omega))
    have union := Finset.card_union_le data (indirectBlocks live sb i s1)
    exact ⟨_, logged, by omega⟩
  · by_cases nothing : n = 0
    · obtain ⟨data, logged, card, -⟩ := covers.logged 3 (.inl nothing)
      have union := Finset.card_union_le data (indirectBlocks live sb i s1)
      exact ⟨_, logged, by omega⟩
    · have bound := Nat.mod_lt off (show 0 < BSIZE by decide)
      obtain ⟨data, logged, -, card⟩ := covers.logged 4 (.inr (by omega))
      have first := filled (off / BSIZE) (by unfold BSIZE at *; omega)
      have fewer := card (by omega) first
      have union := Finset.card_union_le data (indirectBlocks live sb i s1)
      exact ⟨_, logged, by omega⟩

theorem writei_quota {src : List Byte} {off : Nat} {r : Option Nat} (owned : Owned live sb s)
    (member : live i)
    (filled : Filled live i s) (short : src.length ≤ maxChunk)
    (ran : writei sb i off src s = .ok (r, s')) :
    Filled live i s' ∧ ∃ blocks : Finset Nat, Logged blocks s s' ∧ blocks.card ≤ MAXOPBLOCKS := by
  have view := viewOf_live (s := s) member
  have small := owned.sizes i member
  have chunk : maxChunk = 1536 := by decide
  have top : MAXFILE * BSIZE = 71680 := by decide
  have unchanged : ∀ {r'}, Except.ok (r', s) = (Except.ok (r, s') : Except String _) →
      Filled live i s' ∧ ∃ blocks : Finset Nat, Logged blocks s s' ∧ blocks.card ≤ MAXOPBLOCKS := by
    intro r' same
    cases same
    exact ⟨filled, ∅, Logged.refl _ _, Nat.zero_le _⟩
  unfold writei at ran
  rw [read_bind] at ran
  dsimp only at ran
  rw [if_neg (owned.plain i member)] at ran
  by_cases refused : (s.icache i).copy.size.toNat < off ∨ (off + src.length) % 2 ^ 32 < off
  · rw [if_pos refused] at ran
    exact unchanged ran
  rw [if_neg refused] at ran
  by_cases large : MAXFILE * BSIZE < (off + src.length) % 2 ^ 32
  · rw [if_pos large] at ran
    exact unchanged ran
  rw [if_neg large] at ran
  obtain ⟨last, s1, loop, rest⟩ := bind_ok_iff.mp ran
  have start : off ≤ (viewOf live s i).size.toNat := by
    rw [view]
    omega
  have fits : off + src.length ≤ MAXFILE * BSIZE := by omega
  have covers := writeLoop_covers src owned member fits loop
  obtain ⟨blocks, logged, nine⟩ := covers.count filled start short
  rcases writeLoop_spec src owned member fits with ⟨failed, -⟩ | ⟨_, _, done, -, ends, wrote⟩
  · rw [loop] at failed
    cases failed
  rw [loop] at done
  cases done
  have same := (wrote.header i).1
  rw [read_bind, same] at rest
  by_cases longer : 0 < src.length ∧ (s.icache i).copy.size.toNat < last
  · rw [if_pos longer] at rest
    have value : (BitVec.ofNat 32 last).toNat = last := toNat_ofNat_of_lt (by omega)
    have low := iblock_lt sb (owned.known i member)
    obtain ⟨s2, -, ran2, cache, disk, written⟩ := @setSize_run sb i (BitVec.ofNat 32 last) s1
    rw [ran2] at rest
    cases rest
    obtain ⟨-, size, -, -, targets, -⟩ := wrote.owned.resize member (by rw [value]; omega) cache
      (fun b high => disk b (by omega))
    refine ⟨filled.grow covers targets start size (.inr ⟨longer.1, by omega⟩),
      blocks ∪ {iblock sb i}, ?_, ?_⟩
    · refine logged.trans ⟨[iblock sb i], written, fun b among => ?_⟩
      simpa using among
    · have union := Finset.card_union_le blocks {iblock sb i}
      rw [Finset.card_singleton] at union
      unfold MAXOPBLOCKS
      omega
  · rw [if_neg longer] at rest
    cases rest
    have size : (viewOf live s' i).size = (viewOf live s i).size := viewOf_size i same
    refine ⟨filled.grow covers (fun _ => rfl) start size (.inl (le_refl _)), blocks, logged, ?_⟩
    unfold MAXOPBLOCKS
    omega

/-! ## Every chunk -/

/-- The chunks stand one after the other, from `a` to `b`. -/
def Tiles : Nat → List Chunk → Nat → Prop
  | a, [], b => a = b
  | a, chunk :: rest, b => chunk.off = a ∧ 0 < chunk.n ∧ chunk.n ≤ maxChunk ∧
      Tiles (a + chunk.n) rest b

theorem tiles_le {a b : Nat} {chunks : List Chunk} (tiles : Tiles a chunks b) :
    b ≤ a + chunks.length * maxChunk := by
  induction chunks generalizing a with
  | nil =>
    rw [tiles]
    exact Nat.le_add_right ..
  | cons chunk rest ih =>
    obtain ⟨-, -, short, later⟩ := tiles
    have bound := ih later
    rw [List.length_cons, Nat.succ_mul]
    omega

/-- The blocks handed to log_write during the chunk are no more than its transaction may write. -/
def Chunk.Fits (chunk : Chunk) : Prop := chunk.logged.toFinset.card ≤ MAXOPBLOCKS

theorem Logged.fits {blocks : Finset Nat} (logged : Logged blocks s s')
    (few : blocks.card ≤ MAXOPBLOCKS)
    (off n : Nat) :
    (⟨off, n, s'.written.take (s'.written.length - s.written.length)⟩ : Chunk).Fits := by
  obtain ⟨new, written, inside⟩ := logged
  have length : s'.written.length - s.written.length = new.length := by
    rw [written, List.length_append]
    omega
  have recorded : s'.written.take (s'.written.length - s.written.length) = new := by
    rw [length, written, List.take_left]
  unfold Chunk.Fits
  dsimp only
  rw [recorded]
  refine (Finset.card_le_card fun b among => ?_).trans few
  exact inside b (List.mem_toFinset.mp among)

/-- ilock finds the inode of an open file in memory. -/
def Fetched (i : Nat) (s : State) : Prop := 1 ≤ (s.icache i).ref ∧ (s.icache i).valid = true

theorem ilock_fetched (fetched : Fetched i s) : ilock sb i s = .ok ((), s) := by
  unfold ilock
  rw [read_bind, if_neg (by have held := fetched.1; omega), if_pos fetched.2]
  rfl

/-- How the loop of filewrite ends, for `n` bytes at `off` of a file of `size` bytes. -/
def Issued (size off n : Nat) (chunks : List Chunk) (ok : Bool) : Prop :=
  (∀ chunk ∈ chunks, chunk.Fits) ∧ (ok = true ↔ n = 0 ∨ off ≤ size ∧ off + n ≤ MAXFILE * BSIZE) ∧
    ∃ e, Tiles off chunks e ∧ e ≤ off + n ∧ (ok = true → e = off + n)

theorem writeChunks_issues (src : List Byte) (off : Nat) (owned : Owned live sb s) (member : live i)
    (filled : Filled live i s) (fetched : Fetched i s) :
    (writeChunks sb i off src s = .error "balloc: out of blocks" ∧
      free sb s < lacking live s i (needs off src.length)) ∨
    ∃ chunks last ok s', writeChunks sb i off src s = .ok ((chunks, last, ok), s') ∧
      Issued (viewOf live s i).size.toNat off src.length chunks ok := by
  obtain ⟨total, len⟩ : ∃ total, total = src.length := ⟨_, rfl⟩
  induction total using Nat.strongRecOn generalizing src off s with
  | ind total ih =>
  unfold writeChunks
  by_cases none : src = []
  · rw [if_pos none, none]
    refine .inr ⟨[], off, true, s, rfl, ?_⟩
    refine ⟨fun chunk among => ?_, ⟨fun _ => .inl rfl, fun _ => rfl⟩, off, rfl, Nat.le_refl _,
      fun _ => rfl⟩
    cases among
  · rw [if_neg none, bind_of_ok (ilock_fetched fetched), read_bind]
    have nonempty : 0 < src.length := List.length_pos_iff.mpr none
    have positive := maxChunk_pos
    have top : MAXFILE * BSIZE < 2 ^ 32 := by decide
    have size : (fileOf live s i).length = (viewOf live s i).size.toNat := length_fileOf s i
    obtain ⟨n1, cut⟩ : ∃ n1, n1 = min src.length maxChunk := ⟨_, rfl⟩
    rw [← cut]
    have taken : (src.take n1).length = n1 := by
      rw [List.length_take]
      omega
    have top' : maxChunk < 2 ^ 32 := by decide
    have chunk : needs off n1 ⊆ needs off src.length := needs_mono (Nat.le_refl _) (by omega)
    have outcome := writei_spec owned member off (src.take n1) (by omega)
    rw [taken] at outcome
    rcases outcome with ⟨failed, short⟩ | ⟨result, s1, wrote, fills, owned1, -, value⟩
    · refine .inl ⟨bind_of_error failed, short.trans_le ?_⟩
      split
      · exact lacking_mono (Finset.empty_subset _)
      · exact lacking_mono chunk
    · rw [bind_of_ok wrote, read_bind]
      obtain ⟨filled1, blocks, logged, few⟩ := writei_quota owned member filled (by omega) wrote
      have fits := logged.fits few off n1
      rw [size] at value fills
      by_cases refused :
        (viewOf live s i).size.toNat < off ∨ 2 ^ 32 ≤ off + n1 ∨ MAXFILE * BSIZE < off + n1
      · rw [if_pos refused] at value
        rw [value.1]
        refine .inr ⟨_, off, false, s1, rfl, ?_, ?_, off + n1, ⟨rfl, ?_, ?_, rfl⟩, ?_, ?_⟩
        · intro chunk among
          rw [List.mem_singleton] at among
          rw [among]
          exact fits
        · simp only [Bool.false_eq_true, false_iff]
          omega
        · change 0 < n1
          omega
        · change n1 ≤ maxChunk
          omega
        · omega
        · intro wrong
          cases wrong
      · rw [if_neg refused] at value fills
        have refs := writei_refs _ _ _ _ _ _ wrote
        have fetched1 : Fetched i s1 := by
          unfold Fetched
          rw [(refs i).1, (refs i).2]
          exact fetched
        have size1 :
            (viewOf live s1 i).size.toNat = max (viewOf live s i).size.toNat (off + n1) := by
          rw [← length_fileOf, value.2 i, Function.update_self, length_splice _ _ (by omega), size,
            taken]
        have rest : (src.drop n1).length = src.length - n1 := List.length_drop ..
        have offset : (off + n1) % 2 ^ 32 = off + n1 := Nat.mod_eq_of_lt (by omega)
        rw [value.1]
        dsimp only
        rw [if_neg (not_not_intro rfl), offset]
        rcases ih (src.drop n1).length (by omega) (src.drop n1)
          (off + n1) owned1 filled1 fetched1 rfl with
          ⟨failed, short⟩ | ⟨chunks, last, ok, s', ran, allFit, done, e, tiles, inside, whole⟩
        · refine .inl ⟨bind_of_error failed, ?_⟩
          have both : needs off n1 ∪ needs (off + n1) (src.length - n1) ⊆ needs off src.length :=
            Finset.union_subset chunk (needs_mono (Nat.le_add_right _ _) (by omega))
          have more := @lacking_mono s i live _ _ _ both
          have spent := fills.spent
          rw [fills.lacking_union] at more
          rw [rest] at short
          omega
        · rw [rest] at done inside whole
          refine .inr ⟨_, last, ok, s', bind_of_ok ran, ?_, ?_, e, ⟨rfl, ?_, ?_, tiles⟩, by omega,
            ?_⟩
          · intro chunk among
            rcases List.mem_cons.mp among with rfl | later
            · exact fits
            · exact allFit chunk later
          · rw [done, size1]
            omega
          · change 0 < n1
            omega
          · change n1 ≤ maxChunk
            omega
          · intro yes
            have ends := whole yes
            omega

/-- One chunk of filewrite hands at most MAXOPBLOCKS different blocks to log_write, and the chunks
of a filewrite stand one after the other and cover what it writes. It stops the kernel in balloc
only if fewer blocks are free than the file lacks in the range. -/
theorem write_chunks_fit (owned : Owned live sb s) (member : live i) (filled : Filled live i s)
    (fetched : Fetched i s) :
    (∀ off (src : List Byte) r s', src.length ≤ maxChunk → writei sb i off src s = .ok (r, s') →
      ∃ new, s'.written = new ++ s.written ∧ new.toFinset.card ≤ MAXOPBLOCKS) ∧
    ∀ off src, (filewrite sb true i off src s = .error "balloc: out of blocks" ∧
        free sb s < lacking live s i (needs off src.length)) ∨
      ∃ result last chunks s', filewrite sb true i off src s = .ok ((result, last, chunks), s') ∧
        (∀ chunk ∈ chunks, chunk.logged.toFinset.card ≤ MAXOPBLOCKS) ∧
        (result = some src.length ↔
          src = [] ∨ off ≤ (s.icache i).copy.size.toNat ∧ off + src.length ≤ MAXFILE * BSIZE) ∧
        ∃ e, Tiles off chunks e ∧ e ≤ off + src.length ∧
        (result = some src.length → e = off + src.length) := by
  refine ⟨fun off src r s' short ran => ?_, fun off src => ?_⟩
  · obtain ⟨-, blocks, ⟨new, written, inside⟩, few⟩ := writei_quota owned member filled short ran
    refine ⟨new, written, (Finset.card_le_card fun b among => ?_).trans few⟩
    exact inside b (List.mem_toFinset.mp among)
  · unfold filewrite
    rw [if_pos rfl]
    rcases writeChunks_issues src off owned member filled fetched with
      ⟨failed, short⟩ | ⟨chunks, last, ok, s', ran, allFit, done, e, tiles, inside, whole⟩
    · exact .inl ⟨bind_of_error failed, short⟩
    · have returned : (if ok then some src.length else none) = some src.length ↔ ok = true := by
        cases ok <;> simp
      refine .inr ⟨_, last, chunks, s', bind_of_ok ran, allFit, ?_, e, tiles, inside, ?_⟩
      · rw [returned, done, viewOf_live member, List.length_eq_zero_iff]
      · intro all
        exact whole (returned.mp all)

theorem freshState_filled : Filled (· = 1) 1 freshState := by
  intro bn inside
  have size : (viewOf (· = 1) freshState 1).size.toNat = 0 := rfl
  rw [size] at inside
  cases inside

/-- 4000 bytes on a disk with room for them, in three chunks or more. -/
theorem write_chunks_fit_fresh : ∃ last chunks s',
    filewrite smallDisk true 1 0 (List.replicate 4000 7) freshState =
    .ok ((some 4000, last, chunks), s') ∧
      (∀ chunk ∈ chunks, chunk.logged.toFinset.card ≤ MAXOPBLOCKS) ∧ Tiles 0 chunks 4000 ∧
      3 ≤ chunks.length := by
  have fetched : Fetched 1 freshState := ⟨Nat.le_refl 1, rfl⟩
  have length : (List.replicate 4000 (7 : Byte)).length = 4000 := List.length_replicate ..
  have issued := (write_chunks_fit freshState_owned rfl freshState_filled fetched).2 0
    (List.replicate 4000 7)
  rw [length] at issued
  rcases issued with ⟨-, short⟩ | ⟨result, last, chunks, s', ran, fit, all, e, tiles, -, whole⟩
  · have few : lacking (· = 1) freshState 1 (needs 0 4000) ≤ 8 :=
      (lacking_le_card ..).trans (by decide +kernel)
    rw [freshState_free] at short
    omega
  · have done := all.mpr (.inr ⟨Nat.zero_le _, by decide⟩)
    have ends := whole done
    rw [done] at ran
    rw [ends] at tiles
    have reach := tiles_le tiles
    rw [show maxChunk = 1536 by decide] at reach
    exact ⟨last, chunks, s', ran, fit, tiles, by omega⟩

end Xv6Cow.Fs
