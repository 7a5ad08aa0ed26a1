import Xv6Cow.ExecFailure

/- The arguments of system calls (syscall.c). The checks on user pointers add 32-bit numbers
that the program chooses; what keeps the sums from wrapping around is that no process ever
has a size of KERNBASE or more, through every way a size comes about. -/
namespace Xv6Cow

open Prog (Steps read update halt bind_ok_iff pure_ok_iff)

/-! ## Sizes of processes -/

/-- Every size in the table is below KERNBASE. -/
def Small (s : Kernel) : Prop := ∀ p, (s.ptable p).sz < KERNBASE

/-- Sizes that were small are small again. -/
def KeepsSmall (s t : Kernel) : Prop := Small s → Small t

theorem small_of_calm {α : Type} {prog : K α} (calm : Steps Calm prog) : Steps KeepsSmall prog := by
  intro s value t success small p
  rw [(calm s value t success).sz p]
  exact small p

theorem small_bind {α β : Type} {first : K α} {next : α → K β} (left : Steps KeepsSmall first)
    (right : ∀ value, Steps KeepsSmall (next value)) : Steps KeepsSmall (first >>= next) :=
  Steps.bind (fun before after small => after (before small)) left right

theorem small_pure {α : Type} (value : α) : Steps KeepsSmall (pure value : K α) :=
  small_of_calm (calm_pure value)

theorem small_read : Steps KeepsSmall (read : K Kernel) := small_of_calm calm_read

theorem small_update {change : Kernel → Kernel}
    (same : ∀ s p, ((change s).ptable p).sz = (s.ptable p).sz) :
    Steps KeepsSmall (update change : K Unit) := by
  refine Steps.update fun s small p => ?_
  rw [same]
  exact small p

theorem small_updateProc {p : Fin NPROC} {change : Proc → Proc}
    (fine : ∀ proc : Proc, proc.sz < KERNBASE → (change proc).sz < KERNBASE) :
    Steps KeepsSmall (updateProc p change) := by
  intro s value t success small q
  cases success
  change (Function.update s.ptable p (change (s.ptable p)) q).sz < KERNBASE
  by_cases here : q = p
  · rw [here, Function.update_self]
    exact fine _ (small p)
  · rw [Function.update_of_ne here]
    exact small q

theorem allocuvm_small {p : Fin NPROC} {d oldsz newsz sz : Nat} {s t : Kernel}
    (before : oldsz < KERNBASE) (success : allocuvm p d oldsz newsz s = .ok (sz, t)) :
    sz < KERNBASE := by
  unfold allocuvm at success
  rw [Prog.ite_apply] at success
  split at success
  · obtain ⟨rfl, -⟩ := pure_ok_iff.mp success
    decide
  rename_i inside
  rw [Prog.ite_apply] at success
  split at success
  · obtain ⟨rfl, -⟩ := pure_ok_iff.mp success
    exact before
  · obtain ⟨_, u, -, rest⟩ := bind_ok_iff.mp success
    obtain ⟨rfl, -⟩ := pure_ok_iff.mp rest
    exact Nat.lt_of_not_le inside

theorem allocuvm_grown {p : Fin NPROC} {d oldsz newsz sz : Nat} {s t : Kernel}
    (grows : oldsz ≤ newsz) (some' : sz ≠ 0) (success : allocuvm p d oldsz newsz s = .ok (sz, t)) :
    sz < KERNBASE := by
  unfold allocuvm at success
  rw [Prog.ite_apply] at success
  split at success
  · exact absurd (pure_ok_iff.mp success).1 some'
  rename_i inside
  rw [if_neg (Nat.not_lt.mpr grows)] at success
  obtain ⟨_, u, -, rest⟩ := bind_ok_iff.mp success
  obtain ⟨rfl, -⟩ := pure_ok_iff.mp rest
  exact Nat.lt_of_not_le inside

theorem deallocuvm_le {p : Fin NPROC} {d oldsz newsz sz : Nat} {s t : Kernel}
    (success : deallocuvm p d oldsz newsz s = .ok (sz, t)) : sz ≤ oldsz := by
  unfold deallocuvm at success
  rw [Prog.ite_apply] at success
  split at success
  · obtain ⟨rfl, -⟩ := pure_ok_iff.mp success
    exact Nat.le_refl _
  · rename_i shrinks
    obtain ⟨_, u, -, rest⟩ := bind_ok_iff.mp success
    obtain ⟨rfl, -⟩ := pure_ok_iff.mp rest
    omega

theorem growproc_small (p : Fin NPROC) (n : Int) : Steps KeepsSmall (growproc p n) := by
  intro s value t success small
  have install : ∀ {sz : Nat} {u : Kernel}, Small u → sz < KERNBASE →
      (if sz = 0 then pure false else do
        updateProc p (fun proc => { proc with sz := sz })
        pure true : K Bool) u = .ok (value, t) → Small t := by
    intro sz u small below rest
    have steps : Steps KeepsSmall (if sz = 0 then pure false else do
        updateProc p (fun proc => { proc with sz := sz })
        pure true : K Bool) :=
      Steps.ite (fun _ => small_pure _) fun _ =>
        small_bind (small_updateProc fun _ _ => below) fun _ => small_pure _
    exact steps u value t rest small
  unfold growproc at success
  rw [Prog.read_bind] at success
  dsimp only at success
  rw [Prog.ite_apply] at success
  split at success
  · exact small_pure _ s value t success small
  rw [Prog.ite_apply] at success
  split at success
  · obtain ⟨sz, u, grown, rest⟩ := bind_ok_iff.mp success
    exact install (small_of_calm (allocuvm_calm _ _ _ _) s sz u grown small)
      (allocuvm_small (small p) grown) rest
  · obtain ⟨sz, u, shrunk, rest⟩ := bind_ok_iff.mp success
    exact install (small_of_calm (deallocuvm_calm _ _ _ _) s sz u shrunk small)
      (Nat.lt_of_le_of_lt (deallocuvm_le shrunk) (small p)) rest

theorem execStack_small {p : Fin NPROC} {d sz top : Nat} {argv : List (List Byte)} {s t : Kernel}
    (success : execStack p d argv sz s = .ok (some top, t)) : top < KERNBASE := by
  unfold execStack at success
  obtain ⟨grown, u, alloc, success⟩ := bind_ok_iff.mp success
  rw [Prog.ite_apply] at success
  split at success
  · exact absurd (pure_ok_iff.mp success).1 (Option.some_ne_none _)
  rename_i some'
  obtain ⟨_, v, -, success⟩ := bind_ok_iff.mp success
  obtain ⟨pushed, w, -, success⟩ := bind_ok_iff.mp success
  split at success
  · exact absurd (pure_ok_iff.mp success).1 (Option.some_ne_none _)
  obtain ⟨copied, x, -, success⟩ := bind_ok_iff.mp success
  rw [Prog.ite_apply] at success
  split at success
  · cases (pure_ok_iff.mp success).1
    exact allocuvm_grown (Nat.le_add_right _ _) some' alloc
  · exact absurd (pure_ok_iff.mp success).1 (Option.some_ne_none _)

theorem execImage_small {p : Fin NPROC} {d top : Nat} {file : File} {elf : ElfHdr}
    {argv : List (List Byte)} {s t : Kernel}
    (success : execImage p d file elf argv s = .ok (some top, t)) : top < KERNBASE := by
  unfold execImage at success
  obtain ⟨loaded, u, -, rest⟩ := bind_ok_iff.mp success
  split at rest
  · exact absurd (pure_ok_iff.mp rest).1 (Option.some_ne_none _)
  · exact execStack_small rest

theorem execCommit_small {p : Fin NPROC} {d sz : Nat} (below : sz < KERNBASE) :
    Steps KeepsSmall (execCommit p d sz) :=
  small_bind small_read fun _ => small_bind (small_updateProc fun _ _ => below) fun _ =>
    small_of_calm (freevm_calm _ _)

theorem exec_small (p : Fin NPROC) (file : Option File) (argv : List (List Byte)) :
    Steps KeepsSmall (exec p file argv) := by
  unfold exec
  split
  · exact small_pure _
  split
  · exact small_pure _
  refine Steps.ite (fun _ => small_pure _) fun _ =>
    small_bind (small_of_calm setupkvm_calm) fun d => ?_
  intro s value t success small
  obtain ⟨image, u, made, rest⟩ := bind_ok_iff.mp success
  have between := small_of_calm (execImage_calm _ _ _ _ _) s image u made small
  cases image with
  | none =>
    exact small_bind (small_of_calm (freevm_calm _ _)) (fun _ =>
      small_pure _) u value t rest between
  | some sz =>
    exact small_bind (execCommit_small (execImage_small made)) (fun _ => small_pure _) u value t
      rest between

theorem allocproc_small : Steps KeepsSmall allocproc := by
  refine small_bind small_read fun s => ?_
  split
  · exact small_pure _
  · exact small_bind (small_updateProc fun _ small => small) fun _ =>
      small_bind (small_update fun _ _ => rfl) fun _ =>
      small_bind (small_of_calm kalloc_calm) fun _ =>
        small_bind (small_updateProc fun _ small => small) fun _ => small_pure _

theorem forkWith_small {copy : Nat → Nat → Fin NPROC → K Nat}
    (calm : ∀ pgdir sz np, Steps Calm (copy pgdir sz np)) (p : Fin NPROC) :
    Steps KeepsSmall (forkWith copy p) := by
  refine small_bind allocproc_small fun np => ?_
  split
  · exact small_pure _
  · intro s value t success small
    rw [Prog.read_bind] at success
    refine small_bind (small_of_calm (calm _ _ _)) (fun _ => ?_) s value t success small
    exact small_bind (small_updateProc fun _ _ => small p) fun _ => small_pure _

theorem exit_small (p : Fin NPROC) : Steps KeepsSmall (exit p) :=
  small_bind small_read fun _ => Steps.ite (fun _ => small_of_calm (calm_panic _)) fun _ =>
    small_update fun _ q => exited_field (fun _ _ => rfl) (fun _ _ => rfl) q

theorem reap_small (q : Fin NPROC) : Steps KeepsSmall (reap q) :=
  small_bind small_read fun _ => small_bind (small_of_calm (clearZombie_calm _)) fun _ =>
    small_bind (small_of_calm (kfree_calm _)) fun _ =>
      small_bind (small_updateProc fun _ small => small) fun _ =>
        small_bind (small_of_calm (subRss_calm _)) fun _ =>
          small_bind (small_of_calm (freevmProc_calm _ _)) fun _ =>
            small_updateProc fun _ small => small

theorem wait_small (p : Fin NPROC) : Steps KeepsSmall (wait p) := by
  refine small_bind small_read fun s => ?_
  split
  · exact small_bind (reap_small _) fun _ => small_pure _
  · exact Steps.ite (fun _ => small_pure _) fun _ => small_pure _

theorem pipealloc_small (room : Nat) : Steps KeepsSmall (pipealloc room) :=
  Steps.ite (fun _ => small_pure _) fun _ => small_bind (small_of_calm kalloc_calm) fun _ =>
    small_bind (small_update fun _ _ => rfl) fun _ => small_pure _

theorem pipeclose_small (k : Nat) (writable : Bool) : Steps KeepsSmall (pipeclose k writable) := by
  refine small_bind small_read fun s => ?_
  split
  · exact Steps.halt _
  · exact Steps.ite (fun _ => small_update fun _ _ => rfl) fun _ =>
      small_bind (small_of_calm (kfree_calm _)) fun _ => small_update fun _ _ => rfl

theorem perform_small (label : Label) : Steps KeepsSmall (perform fork label) := by
  cases label with
  | fork p => exact small_bind (forkWith_small copyuvmCow_calm p) fun _ => small_pure _
  | read p va => exact small_bind (small_of_calm (userRead_calm p va)) fun _ => small_pure _
  | write p va b => exact small_bind (small_of_calm (userWrite_calm p va b)) fun _ => small_pure _
  | fault p va => exact small_bind (small_of_calm (handlePageFault_calm p va)) fun _ => small_pure _
  | sbrk p n => exact small_bind (growproc_small p n) fun _ => small_pure _
  | exec p file argv => exact small_bind (exec_small p file argv) fun _ => small_pure _
  | exit p => exact small_bind (exit_small p) fun _ => small_pure _
  | wait p => exact small_bind (wait_small p) fun _ => small_pure _
  | pipealloc room => exact small_bind (pipealloc_small room) fun _ => small_pure _
  | pipeclose k writable => exact small_bind (pipeclose_small k writable) fun _ => small_pure _
  | kalloc => exact small_bind (small_of_calm kalloc_calm) fun _ => small_pure _
  | bwrite blockno data => exact small_bind (small_update fun _ _ => rfl) fun _ => small_pure _

theorem boot_small {mem : Nat → Page} {disk : Nat → Block} {s : Kernel}
    (booted : boot (powerOn mem disk) = .ok ((), s)) : Small s := by
  obtain ⟨g, k, d, q, r, again, facts⟩ := boot_ok mem disk
  rw [booted] at again
  cases again
  intro p
  rw [facts.ptable]
  by_cases here : p = 0
  · rw [here, Function.update_self]
    exact (by decide : PGSIZE < KERNBASE)
  · rw [Function.update_of_ne here]
    decide

theorem Reachable.small {s : Kernel} (reachable : Reachable (Step fork) s) : Small s := by
  obtain ⟨mem, disk, start, trace, booted, run⟩ := reachable
  refine run.invariant (I := Small) ?_ (boot_small booted)
  intro s label out t small step
  exact perform_small label s out t step.2 small

/-! ## Arguments -/

/-- The address of argument `n`: tf->esp + 4 + 4*n. -/
def argAddr (esp n : Word) : Nat := (esp + 4 + 4 * n).toNat

/-- argint. C ints are given by their 32 bits. -/
def argint (s : Kernel) (p : Fin NPROC) (esp n : Word) : Option Nat := fetchint s p (argAddr esp n)

def argptr (s : Kernel) (p : Fin NPROC) (esp n size : Word) : Option Nat := do
  let i ← argint s p esp n
  if size.toInt < 0 ∨ (s.ptable p).sz ≤ i ∨ (s.ptable p).sz < (i + size.toNat) % 2 ^ 32 then none
  else some i

/-- argstr: the string, without its NUL. -/
def argstr (s : Kernel) (p : Fin NPROC) (esp n : Word) : Option (List Byte) := do
  let addr ← argint s p esp n
  fetchstr s p addr

/-- The `n` bytes from `addr` on are bytes of the process, in one piece. -/
def Inside (s : Kernel) (p : Fin NPROC) (addr n : Nat) : Prop :=
  addr < (s.ptable p).sz ∧ addr + n ≤ (s.ptable p).sz

/-- The process has a string of `len` bytes at `addr`, and its terminator. -/
def StringAt (s : Kernel) (p : Fin NPROC) (addr len : Nat) : Prop :=
  addr + len < (s.ptable p).sz ∧ userMem s p (addr + len) = some 0 ∧
    ∀ k < len, ∃ b, b ≠ 0 ∧ userMem s p (addr + k) = some b

variable {s : Kernel} {p : Fin NPROC}

theorem fetchint_inside {addr value : Nat} (small : (s.ptable p).sz < KERNBASE)
    (fetched : fetchint s p addr = some value) : Inside s p addr 4 := by
  unfold fetchint at fetched
  split at fetched
  · cases fetched
  · rename_i inside
    rw [KERNBASE_eq] at small
    unfold Inside
    omega

theorem argptr_inside {esp n size : Word} {i : Nat} (small : (s.ptable p).sz < KERNBASE)
    (found : argptr s p esp n size = some i) : 0 ≤ size.toInt ∧ Inside s p i size.toInt.toNat := by
  obtain ⟨value, -, checked⟩ := Option.bind_eq_some_iff.mp found
  split at checked
  · cases checked
  · rename_i inside
    cases checked
    have positive : 0 ≤ size.toInt := by omega
    have same := BitVec.toInt_eq_toNat_cond size
    have wide : size.toNat < 4294967296 := size.isLt
    rw [KERNBASE_eq] at small
    refine ⟨positive, ?_⟩
    unfold Inside
    split at same <;> omega

theorem fetchstr_stringAt {addr : Nat} {arg : List Byte} (found : fetchstr s p addr = some arg) :
    StringAt s p addr arg.length := by
  unfold fetchstr at found
  split at found
  · cases found
  · obtain ⟨plain, length, bytes⟩ := scanstr_some_iff.mp found
    refine ⟨by omega, ?_, fun k inside => ⟨arg[k], fun zero => ?_, ?_⟩⟩
    · rw [bytes _ (Nat.le_refl _), List.getD_eq_getElem?_getD, List.getElem?_concat_length]
      rfl
    · exact plain (zero ▸ List.getElem_mem inside)
    · rw [bytes k (Nat.le_of_lt inside), List.getD_eq_getElem?_getD,
        List.getElem?_append_left inside, List.getElem?_eq_getElem inside]
      rfl

/-- In every reachable state the sizes of processes are below KERNBASE, and what the checks of
system call arguments let through lies in the memory of the process without wrapping. -/
theorem pointer_checks_sound (reachable : Reachable (Step fork) s) (p : Fin NPROC) :
    (s.ptable p).sz < KERNBASE ∧
      (∀ addr value, fetchint s p addr = some value → Inside s p addr 4) ∧
      (∀ esp n value, argint s p esp n = some value → Inside s p (argAddr esp n) 4) ∧
      (∀ esp n size i, argptr s p esp n size = some i →
        0 ≤ size.toInt ∧ Inside s p i size.toInt.toNat) ∧
      (∀ addr arg, fetchstr s p addr = some arg → StringAt s p addr arg.length) ∧
      ∀ esp n arg, argstr s p esp n = some arg →
        ∃ addr, argint s p esp n = some addr ∧ StringAt s p addr arg.length := by
  have small := reachable.small p
  refine ⟨small, ?_, ?_, ?_, ?_, ?_⟩
  · intro addr value fetched
    exact fetchint_inside small fetched
  · intro esp n value fetched
    exact fetchint_inside small fetched
  · intro esp n size i found
    exact argptr_inside small found
  · intro addr arg found
    exact fetchstr_stringAt found
  · intro esp n arg found
    obtain ⟨addr, fetched, found⟩ := Option.bind_eq_some_iff.mp found
    exact ⟨addr, fetched, fetchstr_stringAt found⟩

/-- A word and a buffer of the first process. -/
theorem pointer_checks_sound_first : ∃ s, fetchint s 0 0x24 = some 0x1c ∧ Inside s 0 0x24 4 ∧
    argptr s 0 4084#32 0 4096#32 = some 0 ∧ Inside s 0 0 4096 := by
  obtain ⟨g, k, d, q, s, booted, facts⟩ := boot_ok (fun _ => zeroPage) fun _ _ => 0#32
  obtain ⟨-, words, -, buffers, -⟩ :=
    pointer_checks_sound (s := s) ⟨_, _, s, _, booted, .nil⟩ 0
  have word := facts.fetchint (a := 0x24) (n := 0x1c) (by decide) (by decide) (by decide)
  have pointer := facts.fetchint (a := 4088) (n := 0) (by decide) (by decide) (by decide)
  have buffer : argptr s 0 4084#32 0 4096#32 = some 0 := by
    unfold argptr argint
    rw [show argAddr 4084#32 0 = 4088 from rfl, pointer, Option.bind_eq_bind, Option.bind_some,
      facts.runs.2.1]
    rfl
  exact ⟨s, word, words _ _ word, buffer, (buffers _ _ _ _ buffer).2⟩

end Xv6Cow
