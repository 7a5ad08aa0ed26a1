import Xv6Cow.FileArrays

/- Sequences of readi, writei and itrunc against arrays of bytes. -/
namespace Xv6Cow.Fs

open Prog (bind_of_ok bind_of_error)

/-- A call on a locked inode. Offsets and counts are uints. -/
inductive Call
  | read (inum : Nat) (off n : Word)
  | write (inum : Nat) (off : Word) (src : List Byte) (short : src.length < 2 ^ 32)
  | trunc (inum : Nat)

def Call.inum : Call → Nat
  | .read inum _ _ => inum
  | .write inum _ _ _ => inum
  | .trunc inum => inum

/-- What a call returns; `none` is -1. -/
inductive Reply
  | bytes (result : Option (List Byte))
  | count (result : Option Nat)
  | done

def Call.run (sb : Superblock) : Call → P Reply
  | .read inum off n => do
    let result ← readi sb inum off.toNat n.toNat
    pure (.bytes result)
  | .write inum off src _ => do
    let result ← writei sb inum off.toNat src
    pure (.count result)
  | .trunc inum => do
    itrunc sb inum
    pure .done

def runCalls (sb : Superblock) : List Call → P (List Reply)
  | [] => pure []
  | call :: rest => do
    let reply ← call.run sb
    let replies ← runCalls sb rest
    pure (reply :: replies)

/-! ## Files as arrays of bytes -/

/-- The contents of every file. -/
abbrev Files := Nat → List Byte

/-- What a call does to the arrays. -/
def Call.apply (files : Files) : Call → Reply × Files
  | .read inum off n =>
    if (files inum).length < off.toNat ∨ 2 ^ 32 ≤ off.toNat + n.toNat then (.bytes none, files)
    else (.bytes (some (((files inum).drop off.toNat).take n.toNat)), files)
  | .write inum off src _ =>
    if (files inum).length < off.toNat ∨ 2 ^ 32 ≤ off.toNat + src.length ∨
        MAXFILE * BSIZE < off.toNat + src.length then (.count none, files)
    else (.count (some src.length), Function.update files inum (splice (files inum) off.toNat src))
  | .trunc inum => (.done, Function.update files inum [])

def applyCalls (files : Files) : List Call → List Reply × Files
  | [] => ([], files)
  | call :: rest =>
    let (reply, files) := call.apply files
    let (replies, files) := applyCalls files rest
    (reply :: replies, files)

/-- Where a call needs blocks. -/
def Call.places (files : Files) : Call → Finset Place
  | .read inum off n =>
    if (files inum).length < off.toNat ∨ 2 ^ 32 ≤ off.toNat + n.toNat then ∅
    else needs off.toNat (min n.toNat ((files inum).length - off.toNat))
  | .write inum off src _ =>
    if (files inum).length < off.toNat ∨ 2 ^ 32 ≤ off.toNat + src.length ∨
        MAXFILE * BSIZE < off.toNat + src.length then ∅
    else needs off.toNat src.length
  | .trunc _ => ∅

variable {sb : Superblock} {live : Nat → Prop} [DecidablePred live] {s : State}

/-- As many blocks are free as the call needs and its file does not have. -/
def Call.Affords (live : Nat → Prop) [DecidablePred live] (sb : Superblock) (call : Call)
    (s : State) : Prop :=
  lacking live s call.inum (call.places (fileOf live s)) ≤ free sb s

/-- Every call of a sequence finds the free blocks that it needs. -/
def Enough (live : Nat → Prop) [DecidablePred live] (sb : Superblock) : List Call → State → Prop
  | [], _ => True
  | call :: rest, s => call.Affords live sb s ∧
    ∀ reply s', call.run sb s = .ok (reply, s') → Enough live sb rest s'

theorem Outcome.imp_affords {α : Type} {W : Finset Place} {i : Nat}
    {result : Except String (α × State)} {good : α → State → Prop}
    (outcome : Outcome live sb i W s result good) :
    (result = .error "balloc: out of blocks" ∧ free sb s < lacking live s i W) ∨
      lacking live s i W ≤ free sb s ∧ ∃ value s', result = .ok (value, s') ∧ good value s' := by
  rcases outcome with failed | ⟨value, s', ran, fills, done⟩
  · exact .inl failed
  · have spent := fills.spent
    exact .inr ⟨by omega, value, s', ran, done⟩

/-- One call does to the files what it does to the arrays, if there are enough free blocks. -/
theorem Call.run_spec (owned : Owned live sb s) (call : Call) (member : live call.inum) :
    (call.run sb s = .error "balloc: out of blocks" ∧ ¬call.Affords live sb s) ∨
      call.Affords live sb s ∧ ∃ reply s', call.run sb s = .ok (reply, s') ∧ Owned live sb s' ∧
        (reply, fileOf live s') = call.apply (fileOf live s) := by
  unfold Call.Affords
  cases call with
  | read inum off n =>
    have wraps : (off.toNat + n.toNat) % 2 ^ 32 < off.toNat ↔ 2 ^ 32 ≤ off.toNat + n.toNat := by
      have small := off.isLt
      have small' := n.isLt
      omega
    have outcome := (readi_spec owned member off.toNat n.toNat).imp_affords
    simp only [wraps] at outcome
    refine outcome.imp (fun failed => ?_) fun done => ⟨done.1, ?_⟩
    · exact ⟨bind_of_error failed.1, Nat.not_le_of_lt failed.2⟩
    · obtain ⟨-, result, s', ran, grew, value⟩ := done
      refine ⟨.bytes result, s', bind_of_ok ran, grew.owned, ?_⟩
      have files : fileOf live s' = fileOf live s := funext grew.fileOf_eq
      rw [value, files]
      simp only [Call.apply, Call.inum]
      split
      · rename_i refused
        simp only [refused, if_true]
      · rename_i accepted
        simp only [accepted, if_false]
  | write inum off src short =>
    change live inum at member
    refine (writei_spec owned member off.toNat src short).imp_affords.imp (fun failed => ?_)
      fun done => ⟨done.1, ?_⟩
    · exact ⟨bind_of_error failed.1, Nat.not_le_of_lt failed.2⟩
    · obtain ⟨-, result, s', ran, owned', -, value⟩ := done
      refine ⟨.count result, s', bind_of_ok ran, owned', ?_⟩
      simp only [Call.apply]
      split
      · rename_i refused
        rw [if_pos refused] at value
        rw [value.1, value.2]
      · rename_i accepted
        rw [if_neg accepted] at value
        rw [value.1, funext value.2]
  | trunc inum =>
    change live inum at member
    obtain ⟨s', ran, owned', value⟩ := itrunc_spec owned member
    refine .inr ⟨Nat.zero_le _, .done, s', ?_, owned', ?_⟩
    · unfold Call.run
      rw [bind_of_ok ran]
      rfl
    · rw [funext value]
      rfl

/-- Every sequence of calls does to the files what it does to the arrays, if each call finds the
free blocks that it needs. If one does not, it stops the kernel in balloc. -/
theorem files_are_arrays (calls : List Call) (owned : Owned live sb s)
    (members : ∀ call ∈ calls, live call.inum) :
    (Enough live sb calls s →
      ∃ s', runCalls sb calls s = .ok ((applyCalls (fileOf live s) calls).1, s') ∧
        Owned live sb s' ∧ fileOf live s' = (applyCalls (fileOf live s) calls).2) ∧
    (¬Enough live sb calls s → runCalls sb calls s = .error "balloc: out of blocks") := by
  induction calls generalizing s with
  | nil => exact ⟨fun _ => ⟨s, rfl, owned, rfl⟩, fun short => absurd trivial short⟩
  | cons call rest ih =>
    rcases call.run_spec owned (members call List.mem_cons_self) with
      ⟨failed, short⟩ | ⟨affords, reply, s1, ran, owned1, step⟩
    · exact ⟨fun enough => absurd enough.1 short, fun _ => bind_of_error failed⟩
    · have later := ih owned1 fun c inside => members c (List.mem_cons_of_mem _ inside)
      refine ⟨fun enough => ?_, fun short => ?_⟩
      · obtain ⟨s', done, owned', files⟩ := later.1 (enough.2 reply s1 ran)
        have applied : applyCalls (fileOf live s) (call :: rest) =
            (reply :: (applyCalls (fileOf live s1) rest).1,
              (applyCalls (fileOf live s1) rest).2) := by
          rw [applyCalls, ← step]
        refine ⟨s', ?_, owned', ?_⟩
        · rw [runCalls, bind_of_ok ran, bind_of_ok done, applied]
          rfl
        · rw [files, applied]
      · have stops : ¬Enough live sb rest s1 := by
          intro enough
          refine short ⟨affords, fun reply' s' ran' => ?_⟩
          rw [ran] at ran'
          cases ran'
          exact enough
        rw [runCalls, bind_of_ok ran, bind_of_error (later.2 stops)]

/-! ## An empty file on a small disk -/

def smallDisk : Superblock := ⟨64, 8, 2, 4, by decide, by decide⟩

/-- One empty file, and a disk with the bitmap `bits`. -/
def emptyFile (bits : Block) : State :=
  ⟨fun b => if b = 4 then bits else zeroBlock,
    fun _ => ⟨1, true, { noDinode with type := T_FILE }⟩, []⟩

theorem emptyFile_owned {bits : Block}
    (marked : ∀ b, b < smallDisk.nmeta → bitAt smallDisk (emptyFile bits).disk b = true) :
    Owned (· = 1) smallDisk (emptyFile bits) := by
  have nothing : ∀ x, owns (viewOf (· = 1) (emptyFile bits)) (emptyFile bits).disk x = none := by
    intro x
    have addrs : ∀ j, (viewOf (· = 1) (emptyFile bits) j).addrs = noDinode.addrs := by
      intro j
      unfold viewOf
      split <;> rfl
    rw [@owns_addrs (fun _ => noDinode) _ _ addrs]
    obtain ⟨j, k | k⟩ := x
    · rfl
    · rfl
  have type : T_FILE ≠ T_DEV := by decide
  refine ⟨fun i member => by rw [member]; decide, fun i _ => type, fun i _ => Nat.zero_le _,
    ⟨?_, ?_⟩, fun b low _ => marked b low⟩
  · intro x b here
    rw [nothing] at here
    cases here
  · intro x y b here
    rw [nothing] at here
    cases here

/-- The blocks after the metadata are free. -/
def freshState : State := emptyFile fun k => if k.val = 0 then 31 else 0

theorem freshState_owned : Owned (· = 1) smallDisk freshState := emptyFile_owned (by decide)

theorem freshState_free : free smallDisk freshState = 59 := by decide +kernel

/-- Two bytes are written and the second one is read back. -/
def writesThenReads : List Call := [.write 1 0 [7, 8] (by decide), .read 1 1 5]

theorem freshState_enough : Enough (· = 1) smallDisk writesThenReads freshState := by
  have one : lacking (· = 1) freshState 1 (needs 0 2) ≤ 1 :=
    (lacking_le_card ..).trans (by decide +kernel)
  have many := freshState_free
  refine ⟨by change lacking (· = 1) freshState 1 (needs 0 2) ≤ _; omega, fun reply s1 ran => ?_⟩
  rcases (writei_spec freshState_owned rfl 0 [7, 8] (by decide)) with
    ⟨failed, -⟩ | ⟨result, s1', ran', fills, owned', -, value⟩
  · cases (bind_of_error failed).symm.trans ran
  · cases (bind_of_ok ran').symm.trans ran
    have spent : free smallDisk s1 + lacking (· = 1) freshState 1 (needs 0 2) = _ := fills.spent
    have two : fileOf (· = 1) s1 1 = [7, 8] := value.2 1
    refine ⟨?_, fun _ _ _ => trivial⟩
    have place : (Call.read 1 1 5).places (fileOf (· = 1) s1) = needs 1 1 := by
      simp only [Call.places, two]
      rfl
    have few : lacking (· = 1) s1 1 (needs 1 1) ≤ 1 :=
      (lacking_le_card ..).trans (by decide +kernel)
    unfold Call.Affords
    rw [place]
    change lacking (· = 1) s1 1 _ ≤ _
    omega

theorem files_are_arrays_fresh : ∃ s', runCalls smallDisk writesThenReads freshState =
    .ok ([.count (some 2), .bytes (some [8])], s') ∧ fileOf (· = 1) s' 1 = [7, 8] := by
  obtain ⟨s', ran, -, files⟩ := (files_are_arrays writesThenReads freshState_owned (by decide)).1
    freshState_enough
  exact ⟨s', ran, congrFun files 1⟩

/-- Every bit of the bitmap is set. -/
def fullState : State := emptyFile fun _ => 4294967295#32

theorem fullState_bit (b : Nat) (inside : b < 64) : bitAt smallDisk fullState.disk b = true := by
  revert b
  decide

theorem fullState_owned : Owned (· = 1) smallDisk fullState :=
  emptyFile_owned fun b low => fullState_bit b (Nat.lt_trans low (by decide))

/-- Writing one byte to an empty file, on a full disk. -/
theorem full_disk_stops_write : Owned (· = 1) smallDisk fullState ∧
    (fileOf (· = 1) fullState 1).length = 0 ∧
    writei smallDisk 1 0 [7] fullState = .error "balloc: out of blocks" := by
  refine ⟨fullState_owned, by rw [length_fileOf]; rfl, ?_⟩
  rcases writei_spec fullState_owned rfl 0 [7] (by decide) with ⟨failed, -⟩ | ⟨_, _, _, fills, -⟩
  · exact failed
  · have none : free smallDisk fullState = 0 := by decide +kernel
    have one : lacking (· = 1) fullState 1 (needs 0 1) = 1 := by decide +kernel
    have spent : _ + lacking (· = 1) fullState 1 (needs 0 1) = free smallDisk fullState :=
      fills.spent
    omega

end Xv6Cow.Fs
