import Xv6Cow.PageFault

/- Process control: proc.c, the start-up of kalloc.c and pageswap.c, and the page
fault case of trap.c. Kernel stacks are allocated and freed here, but what the
kernel keeps in them (trap frame, context) is not part of the state. -/
namespace Xv6Cow

open Prog (read update halt)

/-! ## Start-up -/

def freerange : Nat → Nat → K Unit
  | 0, _ => pure ()
  | n + 1, q => do
    kfree q
    storeRefcnt q 0
    freerange n (q + 1)

/-- kinit1 and kinit2: free the pages that lie in `[vstart, vend)`. -/
def kinit (vstart vend : Nat) : K Unit :=
  freerange (vend / PGSIZE - pagesOf vstart) (pagesOf vstart)

def swapinit : K Unit :=
  update (fun s =>
    { s with
      swapSlots := fun i =>
        if i < NPAGE then
          { s.swapSlots i with
            isFree := true, pagePerm := 0#32, blockno := SWAPBASE + i * BPPAGE }
        else s.swapSlots i })

/-- The first UNUSED entry of ptable. -/
def firstUnused (s : Kernel) : Option (Fin NPROC) :=
  (List.finRange NPROC).find? (fun p => (s.ptable p).state = .unused)

/-- allocproc; `none` stands for 0. -/
def allocproc : K (Option (Fin NPROC)) := do
  let s ← read
  match firstUnused s with
  | none => pure none
  | some p => do
    updateProc p (fun proc => { proc with state := .embryo, pid := s.nextpid })
    update (fun s => { s with nextpid := s.nextpid + 1 })
    let kstack ← kalloc
    updateProc p (fun proc => { proc with kstack := kstack })
    pure (some p)

/-- _binary_initcode_start, from the assembled initcode. -/
def initcode : List Byte := [
  0x68, 0x24, 0x00, 0x00, 0x00, 0x68, 0x1c, 0x00, 0x00, 0x00, 0x6a, 0x00, 0xb8, 0x07, 0x00, 0x00,
  0x00, 0xcd, 0x40, 0xb8, 0x02, 0x00, 0x00, 0x00, 0xcd, 0x40, 0xeb, 0xf7, 0x2f, 0x69, 0x6e, 0x69,
  0x74, 0x00, 0x00, 0x90, 0x1c, 0x00, 0x00, 0x00, 0x00, 0x00, 0x00, 0x00]

def userinit : K Unit := do
  let np ← allocproc
  match np with
  | none => halt .nullDeref
  | some p => do
    update (fun s => { s with initproc := some p })
    let pgdir ← setupkvm
    updateProc p (fun proc => { proc with pgdir := pgdir })
    inituvm pgdir (fun k => initcode.getD k 0) initcode.length
    updateProc p (fun proc => { proc with sz := PGSIZE, state := .runnable })

/-- Static storage before main runs: zeros, but for nextpid. Memory and the disk
hold what they hold. -/
def powerOn (mem : Nat → Page) (disk : Nat → Block) : Kernel where
  mem := mem
  pageToRefcnt := fun _ => 0
  freelist := []
  numFreePages := 0
  swapSlots := fun _ => ⟨false, 0#32, 0, 0⟩
  disk := disk
  ptable := fun _ => ⟨0, 0#32, 0, 0, .unused, 0, none, false⟩
  nextpid := 1
  initproc := none
  kpgdir := 0
  pipes := []
  log := []

/-- main up to the first process, and swapinit, which that process runs first
(forkret). With NCPU 1 startothers allocates nothing. -/
def boot : K Unit := do
  kinit endPa (4 * 1024 * 1024)
  kvmalloc
  kinit (4 * 1024 * 1024) PHYSTOP
  userinit
  swapinit

/-! ## System calls -/

/-- growproc; false stands for -1. `n` is a C int. -/
def growproc (p : Fin NPROC) (n : Int) : K Bool := do
  let s ← read
  let proc := s.ptable p
  let newsz := ((proc.sz + n) % 2 ^ 32).toNat
  if n = 0 then pure true
  else do
    let sz ← if 0 < n then allocuvm p proc.pgdir proc.sz newsz
      else deallocuvm p proc.pgdir proc.sz newsz
    if sz = 0 then pure false
    else do
      updateProc p (fun proc => { proc with sz := sz })
      pure true

/-- fork over the function that copies the address space: copyuvm_cow, or copyuvm
for the machine it is compared with. `none` stands for -1. -/
def forkWith (copy : Nat → Nat → Fin NPROC → K Nat) (p : Fin NPROC) : K (Option Nat) := do
  let np ← allocproc
  match np with
  | none => pure none
  | some np => do
    let s ← read
    let pgdir ← copy (s.ptable p).pgdir (s.ptable p).sz np
    updateProc np (fun proc =>
      { proc with
        pgdir := pgdir, sz := (s.ptable p).sz, parent := some p, state := .runnable })
    pure (some (s.ptable np).pid)

def fork : Fin NPROC → K (Option Nat) := forkWith copyuvmCow

/-- The fork of the machine without copy-on-write. -/
def forkEager : Fin NPROC → K (Option Nat) := forkWith (fun pgdir sz _ => copyuvm pgdir sz)

/-- The loop of exit over ptable, and the last assignment. -/
def exited (s : Kernel) (p : Fin NPROC) : Kernel :=
  { s with
    ptable := fun q =>
      let proc := if (s.ptable q).parent = some p then
        { s.ptable q with parent := s.initproc } else s.ptable q
      if q = p then { proc with state := .zombie } else proc }

def exit (p : Fin NPROC) : K Unit := do
  let s ← read
  if s.initproc = some p then panic "init exiting"
  else update (fun s => exited s p)

inductive WaitResult where
  | reaped (pid : Nat)
  | noChildren
  | sleeps
  deriving DecidableEq

/-- The first exited child in ptable. -/
def zombieChild (s : Kernel) (p : Fin NPROC) : Option (Fin NPROC) :=
  (List.finRange NPROC).find? (fun q =>
    (s.ptable q).parent = some p ∧ (s.ptable q).state = .zombie)

def hasChild (s : Kernel) (p : Fin NPROC) : Bool :=
  (List.finRange NPROC).any (fun q => (s.ptable q).parent = some p)

/-- What wait does with the exited child `q`. The entry keeps its pgdir and sz. -/
def reap (q : Fin NPROC) : K Unit := do
  let s ← read
  clearZombie (s.ptable q).pgdir
  kfree (s.ptable q).kstack
  updateProc q (fun proc => { proc with kstack := 0 })
  subRss q
  freevmProc q (s.ptable q).pgdir
  updateProc q (fun proc =>
    { proc with pid := 0, parent := none, killed := false, state := .unused })

def wait (p : Fin NPROC) : K WaitResult := do
  let s ← read
  match zombieChild s p with
  | some q => do
    reap q
    pure (.reaped (s.ptable q).pid)
  | none =>
    if !hasChild s p || (s.ptable p).killed then pure .noChildren else pure .sleeps

/-- trap, for a page fault taken in user mode: the handler, and exit if the
process has been killed. -/
def trapPageFault (p : Fin NPROC) (va : Nat) : K Unit := do
  handlePageFault p va
  let s ← read
  if (s.ptable p).killed then exit p else pure ()

/-! ## Pipes (pipe.c) -/

/-- pipealloc; `room` is the number of free entries in the file table, of which
it takes two before it calls kalloc. -/
def pipealloc (room : Nat) : K Bool :=
  if room < 2 then pure false
  else do
    let page ← kalloc
    update (fun s => { s with pipes := ⟨page, true, true⟩ :: s.pipes })
    pure true

/-- pipeclose on the pipe at position `k`. -/
def pipeclose (k : Nat) (writable : Bool) : K Unit := do
  let s ← read
  match s.pipes[k]? with
  | none => halt .nullDeref
  | some pipe => do
    let closed : Pipe := if writable then { pipe with writeopen := false }
      else { pipe with readopen := false }
    if closed.readopen || closed.writeopen then
      update (fun s => { s with pipes := s.pipes.set k closed })
    else do
      kfree closed.page
      update (fun s => { s with pipes := s.pipes.eraseIdx k })

end Xv6Cow
