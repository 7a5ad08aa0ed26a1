import Xv6Cow.Calls
import Xv6Cow.Lib.Runs

/- The system as a machine: any process that can run takes any of its steps, in any
order. A step that panics is not taken. -/
namespace Xv6Cow

open Prog (read update halt)

/-- bwrite, for a block of the file system. -/
def bwrite (blockno : Nat) (data : Block) : K Unit :=
  update (fun s => { s with disk := Function.update s.disk blockno data })

/-- What a step does, over the fork to use. -/
def perform (forks : Fin NPROC → K (Option Nat)) : Label → K Out
  | .fork p => do
    let child ← forks p
    pure (.pid child)
  | .read p va => do
    let value ← userRead p va
    pure (.byte value)
  | .write p va b => do
    let success ← userWrite p va b
    pure (.flag success)
  | .fault p va => do
    handlePageFault p va
    pure .nothing
  | .sbrk p n => do
    let success ← growproc p n
    pure (.flag success)
  | .exec p file argv => do
    let success ← exec p file argv
    pure (.flag success)
  | .exit p => do
    exit p
    pure .nothing
  | .wait p => do
    let result ← wait p
    pure (.waited result)
  | .pipealloc room => do
    let success ← pipealloc room
    pure (.flag success)
  | .pipeclose k writable => do
    pipeclose k writable
    pure .nothing
  | .kalloc => do
    let _ ← kalloc
    pure .nothing
  | .bwrite blockno data => do
    bwrite blockno data
    pure .nothing

/-- Which steps can be tried: a process acts while it can run, touches its own memory
only, and the file system keeps off the swap blocks. -/
def Allowed (s : Kernel) : Label → Prop
  | .fork p => (s.ptable p).canRun = true
  | .read p va => (s.ptable p).canRun = true ∧ va < (s.ptable p).sz ∧ Legal s p va
  | .write p va _ => (s.ptable p).canRun = true ∧ va < (s.ptable p).sz ∧ Legal s p va
  | .fault p va => (s.ptable p).canRun = true ∧ va < (s.ptable p).sz ∧
      pteOf s.mem (s.ptable p).pgdir (va / PGSIZE) ≠ 0#32
  | .sbrk p _ => (s.ptable p).canRun = true
  | .exec p _ _ => (s.ptable p).canRun = true
  | .exit p => (s.ptable p).canRun = true
  | .wait p => (s.ptable p).canRun = true
  | .pipealloc _ => True
  | .pipeclose _ _ => True
  | .kalloc => True
  | .bwrite blockno _ => blockno < SWAPBASE ∨ SWAPBASE + SWAPBLOCKS ≤ blockno

def Step (forks : Fin NPROC → K (Option Nat)) (s : Kernel) (label : Label) (out : Out)
    (t : Kernel) : Prop :=
  Allowed s label ∧ perform forks label s = .ok (out, t)

/-- The process whose page tables a step goes through. -/
def Works (s : Kernel) (p : Fin NPROC) : Label → Prop
  | .fork q => p = q
  | .sbrk q _ => p = q
  | .exec q _ _ => p = q
  | .wait q => zombieChild s q = some p
  | _ => False

/-- The entries that a step may rewrite are not frozen. -/
def Spared (g : Ghost) (s : Kernel) (label : Label) : Prop :=
  (∀ p, Works s p label → g.Loose (s.ptable p).pgdir) ∧ match label with
    | .write p va _ => g.Thawed s.mem (s.ptable p).pgdir (va / PGSIZE)
    | .fault p va => g.Thawed s.mem (s.ptable p).pgdir (va / PGSIZE)
    | _ => True

/-- The faults a step takes are handled well. -/
def Handled (s t : Kernel) : Label → Prop
  | .read p va => FaultFine s t (s.ptable p).pgdir (va / PGSIZE)
  | .write p va _ => FaultFine s t (s.ptable p).pgdir (va / PGSIZE)
  | .fault p va => FaultFine s t (s.ptable p).pgdir (va / PGSIZE)
  | _ => True

variable {loan : Set Nat} {g : Ghost} {s t : Kernel} {label : Label} {out : Out}

theorem canRun_live {proc : Proc} (runs : proc.canRun = true) : proc.live = true := by
  unfold Proc.canRun at runs
  unfold Proc.live
  split at runs <;> simp_all

theorem perform_ok {α : Type} {prog : K α} {wrap : α → Out}
    (success : (do let value ← prog; pure (wrap value) : K Out) s = .ok (out, t)) :
    ∃ value, prog s = .ok (value, t) ∧ out = wrap value := by
  rw [Prog.bind_ok_iff] at success
  obtain ⟨value, u, done, rest⟩ := success
  obtain ⟨rfl, rfl⟩ := Prog.pure_ok_iff.mp rest
  exact ⟨value, done, rfl⟩

theorem grows_wrap {α : Type} {prog : K α} (grows : Prog.Steps Grows prog) (wrap : α → Out) :
    Prog.Steps Grows (do let value ← prog; pure (wrap value) : K Out) :=
  grows_bind grows (fun _ => grows_of_calm (calm_pure _))

theorem bwrite_grows (blockno : Nat) (data : Block) : Prog.Steps Grows (bwrite blockno data) :=
  grows_update (fun _ => rfl)

theorem perform_grows {forks : Fin NPROC → K (Option Nat)}
    (copies : ∀ p, Prog.Steps Grows (forks p)) (label : Label) :
    Prog.Steps Grows (perform forks label) := by
  cases label with
  | fork p => exact grows_wrap (copies p) _
  | read p va => exact grows_wrap (grows_of_calm (userRead_calm p va)) _
  | write p va b => exact grows_wrap (grows_of_calm (userWrite_calm p va b)) _
  | fault p va => exact grows_wrap (grows_of_calm (handlePageFault_calm p va)) _
  | sbrk p n => exact grows_wrap (growproc_steps (grows_covers p) n) _
  | exec p file argv => exact grows_wrap (exec_steps (grows_covers p) file argv) _
  | exit p => exact grows_wrap (exit_grows p) _
  | wait p => exact grows_wrap (wait_grows p) _
  | pipealloc room => exact grows_wrap (pipealloc_steps (grows_covers 0) room) _
  | pipeclose k writable => exact grows_wrap (pipeclose_steps (grows_covers 0) k writable) _
  | kalloc => exact grows_wrap (grows_of_calm kalloc_calm) _
  | bwrite blockno data => exact grows_wrap (bwrite_grows blockno data) _

theorem fork_grows (p : Fin NPROC) : Prog.Steps Grows (fork p) :=
  forkWith_grows copyuvmCow_calm p

theorem forkEager_grows (p : Fin NPROC) : Prog.Steps Grows (forkEager p) :=
  forkWith_grows (fun pgdir sz _ => copyuvm_calm pgdir sz) p

theorem bwrite_goes {blockno : Nat} {data : Block} {done : Unit} (settled : Settled loan g s)
    (outside : blockno < SWAPBASE ∨ SWAPBASE + SWAPBLOCKS ≤ blockno)
    (success : bwrite blockno data s = .ok (done, t)) : Goes loan g s t (fun a b => b = a) := by
  obtain rfl := Prog.update_ok_iff.mp success
  have same : ∀ j < NPAGE, diskPage (Function.update s.disk blockno data) (SWAPBASE + j * BPPAGE) =
      diskPage s.disk (SWAPBASE + j * BPPAGE) := by
    intro j small
    funext i
    have other : SWAPBASE + j * BPPAGE + i.val / 128 ≠ blockno := by
      have inside := i.isLt
      rw [NPAGE_eq] at small
      rw [show SWAPBLOCKS = 3200 from rfl, SWAPBASE_eq] at outside
      rw [SWAPBASE_eq, BPPAGE_eq]
      omega
    unfold diskPage
    rw [Function.update_of_ne other]
  refine ⟨g, ⟨settled.rep.writeElsewhere same, settled.stays, ?_⟩, Follows.refl _ _ g,
    fun a shows => ⟨a, rfl, ⟨shows.nextpid, shows.initproc, shows.task⟩⟩⟩
  exact settled.census

theorem step_goes {forks : Fin NPROC → K (Option Nat)} (settled : Settled loan g s)
    (quiet : Quiet g t.log) (step : Step forks s label out t)
    (spared : Spared g s label) (handled : Handled s t label)
    (copies : ∀ p child, label = .fork p → (s.ptable p).live = true →
      forks p s = .ok (child, t) →
      Goes loan g s t (fun a b => (Out.pid child, b) = a.fork p)) :
    ∃ loan', (label ≠ .kalloc → loan' = loan) ∧
      Goes loan' g s t (fun a b => a.Next out b label) := by
  obtain ⟨allowed, success⟩ := step
  obtain ⟨loose, thawed⟩ := spared
  cases label with
  | fork p =>
    obtain ⟨child, forked, rfl⟩ := perform_ok success
    exact ⟨loan, fun _ => rfl, copies p child rfl (canRun_live allowed) forked⟩
  | read p va =>
    obtain ⟨runs, below, legal⟩ := allowed
    obtain ⟨value, done, rfl⟩ := perform_ok success
    exact ⟨loan, fun _ => rfl, userRead_goes settled (canRun_live runs) below quiet handled legal
      done⟩
  | write p va b =>
    obtain ⟨runs, below, legal⟩ := allowed
    obtain ⟨value, done, rfl⟩ := perform_ok success
    exact ⟨loan, fun _ => rfl, userWrite_goes settled (canRun_live runs) below quiet handled thawed
      legal done⟩
  | fault p va =>
    obtain ⟨runs, below, mapped⟩ := allowed
    obtain ⟨value, done, rfl⟩ := perform_ok success
    exact ⟨loan, fun _ => rfl, handlePageFault_goes settled (canRun_live runs) below quiet handled
      thawed mapped done⟩
  | sbrk p n =>
    obtain ⟨value, done, rfl⟩ := perform_ok success
    exact ⟨loan, fun _ => rfl, growproc_goes settled (canRun_live allowed) (loose p rfl) done quiet⟩
  | exec p file argv =>
    obtain ⟨value, done, rfl⟩ := perform_ok success
    exact ⟨loan, fun _ => rfl, exec_goes settled (canRun_live allowed) (loose p rfl) done quiet⟩
  | exit p =>
    obtain ⟨value, done, rfl⟩ := perform_ok success
    exact ⟨loan, fun _ => rfl, exit_goes settled (canRun_live allowed) done⟩
  | wait p =>
    obtain ⟨value, done, rfl⟩ := perform_ok success
    exact ⟨loan, fun _ => rfl, wait_goes settled loose done⟩
  | pipealloc room =>
    obtain ⟨value, done, rfl⟩ := perform_ok success
    exact ⟨loan, fun _ => rfl, pipealloc_goes settled done quiet⟩
  | pipeclose k writable =>
    obtain ⟨value, done, rfl⟩ := perform_ok success
    exact ⟨loan, fun _ => rfl, pipeclose_goes settled done⟩
  | kalloc =>
    obtain ⟨q, done, rfl⟩ := perform_ok success
    exact ⟨insert q loan, fun other => absurd rfl other, kalloc_goes settled done quiet⟩
  | bwrite blockno data =>
    obtain ⟨value, done, rfl⟩ := perform_ok success
    exact ⟨loan, fun _ => rfl, bwrite_goes settled allowed done⟩

/-! ## Steps without pressure, and steps that evict with care -/

/-- The free list was not empty at any call of kalloc: nothing was evicted. -/
def Ample (s t : Kernel) : Prop := ∀ e, ¬ Evicted s t e

/-- What a step that evicts pages needs in order to be safe. Victims are live
processes; fork loses no page of the parent to an eviction; a fault does not see
its own entry evicted, and the block a swapped entry names is not the number of a
page in use. -/
structure Clean (s : Kernel) (label : Label) (t : Kernel) : Prop where
  victims : ∀ e, Evicted s t e → e.live = true
  handled : Handled s t label
  spares : ∀ p, label = .fork p → Spares (s.ptable p).pgdir s t

/-- The invariant of runs in which evictions are atomic. -/
structure Sound (loan : Set Nat) (g : Ghost) (s : Kernel) : Prop where
  settled : Settled loan g s
  quiet : Quiet g s.log
  thawed : g.frozen = fun _ => none
  unreserved : g.reserved = fun _ => none

theorem Sound.loose (sound : Sound loan g s) (d : Nat) : g.Loose d := by
  intro ptr w frozen
  rw [sound.thawed] at frozen
  cases frozen

theorem Sound.thaws (sound : Sound loan g s) (d v : Nat) : g.Thawed s.mem d v := by
  intro x _
  rw [sound.thawed]

theorem Sound.spared (sound : Sound loan g s) (label : Label) : Spared g s label := by
  refine ⟨fun p _ => sound.loose _, ?_⟩
  cases label with
  | write p va b => exact sound.thaws _ _
  | fault p va => exact sound.thaws _ _
  | _ => trivial

/-- The new part of the history is as quiet as its evictions are of live processes. -/
theorem Sound.quiet_after (sound : Sound loan g s) (grows : Grows s t)
    (victims : ∀ e, Evicted s t e → e.live = true) : Quiet g t.log := by
  intro e member
  rw [since_trans sound.settled.rep.base grows, List.mem_append] at member
  rcases member with recent | old
  · refine ⟨victims e recent, ?_, by rw [sound.thawed]⟩
    rw [sound.settled.stays]
    exact (Option.some_ne_none _).symm
  · exact sound.quiet e old

theorem Sound.after {h : Ghost} {loan' : Set Nat} (sound : Sound loan g s)
    (settled : Settled loan' h t) (follows : Follows s t g h) (quiet : Quiet g t.log) :
    Sound loan' h t := by
  refine ⟨settled, ?_, follows.frozen.trans sound.thawed, follows.reserved.trans sound.unreserved⟩
  intro e member
  rw [follows.base] at member
  obtain ⟨live, -, thawed⟩ := quiet e member
  refine ⟨live, ?_, by rw [follows.frozen]; exact thawed⟩
  rw [settled.stays]
  exact (Option.some_ne_none _).symm

theorem Ample.spares (ample : Ample s t) (d : Nat) : Spares d s t :=
  fun e evicted => absurd evicted (ample e)

/-- A safe step keeps the invariant and does to the tasks what it should. -/
theorem clean_step (sound : Sound loan g s) (step : Step fork s label out t)
    (clean : Clean s label t) :
    ∃ loan' h, (label ≠ .kalloc → loan' = loan) ∧ Sound loan' h t ∧ Follows s t g h ∧
      ∀ a, Shows g s a → ∃ b, a.Next out b label ∧ Shows h t b := by
  have grows := perform_grows fork_grows label s out t step.2
  have quiet := sound.quiet_after grows clean.victims
  obtain ⟨loan', same, h, settled, follows, goes⟩ := step_goes sound.settled quiet step
    (sound.spared label) clean.handled (fun p child here live forked =>
      fork_goes sound.settled live (sound.loose _) forked quiet (clean.spares p here))
  exact ⟨loan', h, same, sound.after settled follows quiet, follows, goes⟩

/-! ## Runs without pressure -/

/-- The invariant of runs in which nothing is ever evicted. -/
structure Roomy (pool : Finset Nat) (loan : Set Nat) (g : Ghost) (s : Kernel) : Prop where
  sound : Sound loan g s
  young : g.aged = false
  still : ∀ e, Event.evict e ∉ since g.base s.log
  pool : g.pool = pool

variable {pool : Finset Nat}

theorem Roomy.handled (roomy : Roomy pool loan g s) {forks : Fin NPROC → K (Option Nat)}
    (step : Step forks s label out t) (ample : Ample s t) : Handled s t label := by
  have fine : ∀ {p va}, (s.ptable p).canRun = true → va < (s.ptable p).sz →
      FaultFine s t (s.ptable p).pgdir (va / PGSIZE) := by
    intro p va runs below
    have live := canRun_live runs
    refine ⟨fun _ _ e evicted => absurd evicted (ample e), fun swapped => ?_⟩
    rw [roomy.sound.settled.rep.unswapped roomy.young roomy.still (roomy.sound.settled.inside live)
      (roomy.sound.settled.user live below)] at swapped
    cases swapped
  obtain ⟨allowed, -⟩ := step
  cases label with
  | read p va => exact fine allowed.1 allowed.2.1
  | write p va b => exact fine allowed.1 allowed.2.1
  | fault p va => exact fine allowed.1 allowed.2.1
  | _ => trivial

/-- Without evictions, both ways to fork keep the invariant and do to the tasks what
they should. -/
theorem ample_step {forks : Fin NPROC → K (Option Nat)} (roomy : Roomy pool loan g s)
    (step : Step forks s label out t) (ample : Ample s t) (grows : Grows s t)
    (copies : ∀ p child, label = .fork p → (s.ptable p).live = true → forks p s = .ok (child, t) →
      Quiet g t.log → Goes loan g s t (fun a b => (Out.pid child, b) = a.fork p)) :
    ∃ loan' h, (label ≠ .kalloc → loan' = loan) ∧ Roomy pool loan' h t ∧
      ∀ a, Shows g s a → ∃ b, a.Next out b label ∧ Shows h t b := by
  have quiet := roomy.sound.quiet_after grows (fun e evicted => absurd evicted (ample e))
  obtain ⟨loan', same, h, settled, follows, goes⟩ := step_goes roomy.sound.settled quiet step
    (roomy.sound.spared label) (roomy.handled step ample)
    (fun p child here live forked => copies p child here live forked quiet)
  refine ⟨loan', h, same, ⟨roomy.sound.after settled follows quiet, follows.aged.trans roomy.young,
    ?_, (follows.pool ample).trans roomy.pool⟩, goes⟩
  intro e member
  rw [follows.base, since_trans roomy.sound.settled.rep.base grows, List.mem_append] at member
  rcases member with recent | old
  · exact ample e recent
  · exact roomy.still e old

theorem ample_step_cow (roomy : Roomy pool loan g s) (step : Step fork s label out t)
    (ample : Ample s t) :
    ∃ loan' h, (label ≠ .kalloc → loan' = loan) ∧ Roomy pool loan' h t ∧
      ∀ a, Shows g s a → ∃ b, a.Next out b label ∧ Shows h t b :=
  ample_step roomy step ample (perform_grows fork_grows label s out t step.2)
    (fun _ _ _ live forked quiet => fork_goes roomy.sound.settled live (roomy.sound.loose _) forked
      quiet (ample.spares _))

theorem ample_step_eager (roomy : Roomy pool loan g s) (step : Step forkEager s label out t)
    (ample : Ample s t) :
    ∃ loan' h, (label ≠ .kalloc → loan' = loan) ∧ Roomy pool loan' h t ∧
      ∀ a, Shows g s a → ∃ b, a.Next out b label ∧ Shows h t b :=
  ample_step roomy step ample (perform_grows forkEager_grows label s out t step.2)
    (fun _ _ _ live forked quiet => forkEager_goes roomy.sound.settled live forked quiet ample)

end Xv6Cow
