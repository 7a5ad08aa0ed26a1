import Xv6Cow.FaultSafety
import Xv6Cow.Plenty

/- The spin locks of the kernel paths that store into a user buffer (console.c, pipe.c), and of
the page fault that such a store can take (pageswap.c, kalloc.c, bio.c, sleeplock.c, ide.c), on
the CPU that runs them. -/
namespace Xv6Cow.Locks

open Prog (read update halt bind_of_ok bind_of_error bind_ok_iff)

inductive Lock
  | cons
  | pipe
  | kmem
  | ptable
  | bcache
  | ide
  /-- The spin locks inside the sleep-locks of the console's inode and of a buffer. -/
  | inode
  | buf (blockno : Nat)
  deriving DecidableEq

inductive Stop
  | acquire
  | release
  | sched
  /-- The kernel stops for another reason than its locks. -/
  | elsewhere

/-- The state is the list of the locks that the CPU holds. -/
abbrev L := Prog Stop (List Lock) Unit

def acquire (l : Lock) : L := do
  let held ← read
  if l ∈ held then halt .acquire else update (l :: ·)

def release (l : Lock) : L := do
  let held ← read
  if l ∈ held then update (List.erase · l) else halt .release

/-- mycpu()->ncli counts the locks held. -/
def sched : L := do
  let held ← read
  if held = [.ptable] then pure () else halt .sched

/-- The locks that the kernel sleeps with are others than ptable.lock. -/
def sleep (l : Lock) : L := do
  acquire .ptable
  release l
  sched
  release .ptable
  acquire l

/-- What a piece of code does with locks: `under` is an acquire, the body and the release. -/
inductive Code
  | skip
  | seq (first second : Code)
  | under (l : Lock) (body : Code)
  | sleep (l : Lock)
  | stop

def Code.run : Code → L
  | .skip => pure ()
  | .seq first second => do first.run; second.run
  | .under l body => do acquire l; body.run; release l
  | .sleep l => Locks.sleep l
  | .stop => halt .elsewhere

/-! ## Code that goes through -/

section Fine

variable {held held' : List Lock} {l : Lock} {code first second : Code}

theorem acquire_ok_iff : acquire l held = .ok ((), held') ↔ l ∉ held ∧ held' = l :: held := by
  unfold acquire
  rw [Prog.read_bind, Prog.refuse_ok_iff, Prog.update_ok_iff]

theorem release_ok_iff : release l held = .ok ((), held') ↔ l ∈ held ∧ held' = held.erase l := by
  unfold release
  rw [Prog.read_bind, Prog.guard_ok_iff, Prog.update_ok_iff]

theorem sched_ok_iff : sched held = .ok ((), held') ↔ held = [.ptable] ∧ held' = [.ptable] := by
  unfold sched
  rw [Prog.read_bind, Prog.guard_ok_iff, Prog.pure_ok_iff]
  exact and_congr_right fun only => by rw [only, and_iff_right rfl]

/-- A process may sleep if it holds the lock that it gives up, and no other. -/
theorem sleep_ok_iff :
    sleep l held = .ok ((), held') ↔ held = [l] ∧ l ≠ .ptable ∧ held' = [l] := by
  unfold sleep
  constructor
  · intro slept
    obtain ⟨_, taken, acquired, slept⟩ := bind_ok_iff.mp slept
    obtain ⟨free, rfl⟩ := acquire_ok_iff.mp acquired
    obtain ⟨_, left, released, slept⟩ := bind_ok_iff.mp slept
    obtain ⟨member, rfl⟩ := release_ok_iff.mp released
    obtain ⟨_, _, alone, slept⟩ := bind_ok_iff.mp slept
    obtain ⟨only, rfl⟩ := sched_ok_iff.mp alone
    obtain ⟨_, _, gone, again⟩ := bind_ok_iff.mp slept
    obtain ⟨-, rfl⟩ := release_ok_iff.mp gone
    have other : l ≠ .ptable := by
      rintro rfl
      rw [List.erase_cons_head] at only
      exact free (only ▸ List.mem_cons_self)
    rw [List.erase_cons_tail (by simpa using other.symm), List.cons.injEq] at only
    have perm := List.perm_cons_erase ((List.mem_cons.mp member).resolve_left other)
    rw [only.2] at perm
    exact ⟨List.perm_singleton.mp perm, other, (acquire_ok_iff.mp again).2⟩
  · rintro ⟨rfl, other, rfl⟩
    have left : [Lock.ptable, l].erase l = [.ptable] := by
      rw [List.erase_cons_tail (by simpa using other.symm), List.erase_cons_head]
    refine (bind_of_ok (acquire_ok_iff.mpr ⟨by simpa using other.symm, rfl⟩)).trans ?_
    refine (bind_of_ok (release_ok_iff.mpr ⟨by simp, left.symm⟩)).trans ?_
    refine (bind_of_ok (sched_ok_iff.mpr ⟨rfl, rfl⟩)).trans ?_
    refine (bind_of_ok (release_ok_iff.mpr ⟨List.mem_cons_self, rfl⟩)).trans ?_
    exact acquire_ok_iff.mpr ⟨by simp, by simp⟩

/-- Whatever goes through has given back the locks that it took. -/
theorem Code.run_balanced (through : code.run held = .ok ((), held')) : held' = held := by
  induction code generalizing held held' with
  | skip => exact (Prog.pure_ok_iff.mp through).2
  | seq first second ih ih' =>
    obtain ⟨_, between, ran, rest⟩ := bind_ok_iff.mp through
    rw [ih' rest, ih ran]
  | under l body ih =>
    obtain ⟨_, taken, acquired, rest⟩ := bind_ok_iff.mp through
    obtain ⟨_, inner, ran, released⟩ := bind_ok_iff.mp rest
    rw [(release_ok_iff.mp released).2, ih ran, (acquire_ok_iff.mp acquired).2,
      List.erase_cons_head]
  | sleep l =>
    obtain ⟨only, -, after⟩ := sleep_ok_iff.mp through
    rw [after, only]
  | stop => cases through

/-- With `held` held, the code returns and no lock operation of it panics. -/
def Fine (held : List Lock) (code : Code) : Prop := code.run held = .ok ((), held)

@[simp] theorem fine_skip : Fine held .skip := rfl

@[simp] theorem fine_stop : ¬Fine held .stop := nofun

@[simp] theorem fine_seq : Fine held (.seq first second) ↔ Fine held first ∧ Fine held second := by
  constructor
  · intro through
    obtain ⟨_, between, ran, rest⟩ := bind_ok_iff.mp through
    obtain rfl := Code.run_balanced ran
    exact ⟨ran, rest⟩
  · rintro ⟨ran, rest⟩
    exact (bind_of_ok ran).trans rest

@[simp] theorem fine_under : Fine held (.under l code) ↔ l ∉ held ∧ Fine (l :: held) code := by
  constructor
  · intro through
    obtain ⟨_, taken, acquired, rest⟩ := bind_ok_iff.mp through
    obtain ⟨_, inner, ran, -⟩ := bind_ok_iff.mp rest
    obtain ⟨free, rfl⟩ := acquire_ok_iff.mp acquired
    obtain rfl := Code.run_balanced ran
    exact ⟨free, ran⟩
  · rintro ⟨free, ran⟩
    refine (bind_of_ok (acquire_ok_iff.mpr ⟨free, rfl⟩)).trans ((bind_of_ok ran).trans ?_)
    exact release_ok_iff.mpr ⟨List.mem_cons_self, by rw [List.erase_cons_head]⟩

@[simp] theorem fine_sleep : Fine held (.sleep l) ↔ held = [l] ∧ l ≠ .ptable := by
  refine sleep_ok_iff.trans ⟨fun slept => ⟨slept.1, slept.2.1⟩, fun slept => ?_⟩
  exact ⟨slept.1, slept.2, slept.1⟩

end Fine

/-! ## The code -/

/-- The buffer cache: which blocks are cached and valid, and which buffers some other process
has locked. -/
structure Cache where
  valid : Nat → Bool
  busy : Nat → Bool

def critical (l : Lock) : Code := .under l .skip

/-- cons.locking is set. -/
def cprintf : Code := critical .cons

def wakeup : Code := critical .ptable

def holdingsleep (l : Lock) : Code := critical l

def acquiresleep (l : Lock) (locked : Bool) : Code :=
  .under l (if locked then .sleep l else .skip)

def releasesleep (l : Lock) : Code := .under l wakeup

/-- The request is finished by an interrupt, which needs idelock: the caller sleeps. -/
def iderw (b : Nat) : Code := .seq (holdingsleep (.buf b)) (.under .ide (.sleep .ide))

section Source

variable (cache : Cache)

def bread (b : Nat) : Code :=
  .seq (critical .bcache) (.seq (acquiresleep (.buf b) (cache.busy b))
    (if cache.valid b then .skip else iderw b))

def bwrite (b : Nat) : Code := .seq (holdingsleep (.buf b)) (iderw b)

def brelse (b : Nat) : Code :=
  .seq (holdingsleep (.buf b)) (.seq (releasesleep (.buf b)) (critical .bcache))

/-- The eight blocks of a slot. -/
def eachBlock (code : Nat → Code) (blockno : Nat) : Code :=
  ((List.range BPPAGE).map fun i => code (blockno + i)).foldr .seq .skip

def writePageToSwap : Nat → Code :=
  eachBlock fun b => .seq (bread cache b) (.seq (bwrite b) (brelse b))

def readPageFromSwap : Nat → Code := eachBlock fun b => .seq (bread cache b) (brelse b)

/-- swap_out's write and its kfree. -/
def swapOutLocks (s : Kernel) : Code :=
  match swapReserve s with
  | .ok (job, t) => .seq (writePageToSwap cache (t.swapSlots job.slot).blockno)
      (if s.pageToRefcnt job.frame ≤ 1 then critical .kmem else .skip)
  | .error _ => .stop

def kallocLocks (s : Kernel) : Code :=
  match s.freelist with
  | _ :: _ => critical .kmem
  | [] =>
    match _outcome : swapOut s with
    | .error _ => .stop
    | .ok (_, t) => .seq (critical .kmem) (.seq (swapOutLocks cache s) (kallocLocks t))
termination_by freeSlots s
decreasing_by exact swapOut_freeSlots _outcome

/-- handle_page_fault, for a fault at `va`. -/
def faultLocks (s : Kernel) (p : Fin NPROC) (va : Nat) : Code :=
  match tablePage s.mem (s.ptable p).pgdir (pdx (va / PGSIZE)) with
  | none => .stop
  | some x =>
    let w := s.mem x (ptx (va / PGSIZE))
    if has w PTE_P then .seq cprintf
      (if 1 < s.pageToRefcnt (ppn w) then .seq (kallocLocks cache s) (.seq cprintf cprintf)
      else cprintf)
    else .seq cprintf (.seq (kallocLocks cache s) (readPageFromSwap cache (ppn w)))

/-- The kernel's own stores need PTE_P and, as CR0_WP is set, PTE_W. -/
def storable (s : Kernel) (p : Fin NPROC) (va : Nat) : Bool :=
  has (pteOf s.mem (s.ptable p).pgdir (va / PGSIZE)) PTE_P &&
    has (pteOf s.mem (s.ptable p).pgdir (va / PGSIZE)) PTE_W

/-- What happens in the loop of a read. A store that faults is tried again: it is there once
more, with the state that it then finds. -/
inductive Event
  | wait
  | store (s : Kernel) (va : Nat)

def eventLocks (p : Fin NPROC) (l : Lock) : Event → Code
  | .wait => .sleep l
  | .store s va => if storable s p va then .skip else faultLocks cache s p va

def loopLocks (p : Fin NPROC) (l : Lock) (events : List Event) : Code :=
  (events.map (eventLocks cache p l)).foldr .seq .skip

/-- `locked`: some other process has locked the inode when it comes to ilock. -/
def consoleread (p : Fin NPROC) (events : List Event) (locked : Bool) : Code :=
  .seq (.seq (holdingsleep .inode) (releasesleep .inode))
    (.seq (.under .cons (loopLocks cache p .cons events)) (acquiresleep .inode locked))

/-- `none`: the process is killed while it waits. -/
def piperead (p : Fin NPROC) (waits : Nat) (stores : Option (List (Kernel × Nat))) : Code :=
  .under .pipe (.seq (loopLocks cache p .pipe (List.replicate waits .wait ++
      (stores.getD []).map fun store => .store store.1 store.2))
    (if stores.isSome then wakeup else .skip))

end Source

/-! ## A store under a lock -/

section Store

variable {cache : Cache} {held : List Lock} {l : Lock} {p : Fin NPROC} {s : Kernel} {va b : Nat}

@[simp] theorem fine_critical : Fine held (critical l) ↔ l ∉ held := by simp [critical]

theorem fine_fold {codes : List Code} :
    Fine held (codes.foldr .seq .skip) ↔ ∀ code ∈ codes, Fine held code := by
  induction codes with
  | nil => simp
  | cons code rest ih => simp [ih]

/-- A transfer sleeps, so that no lock may be held. -/
theorem fine_iderw : Fine held (iderw b) ↔ held = [] := by
  constructor
  · intro fine
    simp only [iderw, fine_seq, fine_under, fine_sleep] at fine
    simpa using fine.2.2.1
  · rintro rfl
    simp [iderw, holdingsleep]

theorem fine_bread : Fine held (bread cache b) ↔ .bcache ∉ held ∧ .buf b ∉ held ∧
    (held = [] ∨ cache.valid b = true ∧ cache.busy b = false) := by
  unfold bread acquiresleep
  cases cache.busy b <;> cases cache.valid b <;> simp +contextual [fine_iderw]

theorem fine_brelse : Fine held (brelse b) ↔ .buf b ∉ held ∧ .ptable ∉ held ∧ .bcache ∉ held := by
  simp +contextual [brelse, holdingsleep, releasesleep, wakeup]

theorem fine_writePageToSwap : Fine held (writePageToSwap cache b) ↔ held = [] := by
  unfold writePageToSwap eachBlock
  rw [fine_fold, List.forall_mem_map]
  constructor
  · intro fine
    have first := fine 0 (List.mem_range.mpr (by decide))
    simp only [bwrite, fine_seq, fine_iderw] at first
    exact first.2.1.2
  · rintro rfl
    simp [fine_bread, fine_brelse, fine_iderw, bwrite, holdingsleep]

theorem fine_readPageFromSwap (pipe : held = [] ∨ held = [.pipe]) :
    Fine held (readPageFromSwap cache b) ↔
      held = [] ∨ ∀ i < BPPAGE, cache.valid (b + i) = true ∧ cache.busy (b + i) = false := by
  unfold readPageFromSwap eachBlock
  rw [fine_fold, List.forall_mem_map]
  rcases pipe with rfl | rfl <;> simp [fine_bread, fine_brelse]

theorem idle_kallocLocks {q : Nat} {t : Kernel} (allocated : kalloc s = .ok (q, t)) :
    Fine [] (kallocLocks cache s) := by
  refine kalloc_induction (motive := fun s _ _ => Fine [] (kallocLocks cache s)) ?_ ?_ allocated
  · intro s q rest list
    rw [kallocLocks, list]
    simp
  · intro s t q r empty evicted _ ih
    obtain ⟨job, v, _, reserved, _⟩ := swapOut_ok evicted
    rw [kallocLocks, empty]
    dsimp only
    split
    · rename_i failed
      rw [evicted] at failed
      cases failed
    · rename_i out
      rw [evicted] at out
      cases out
      unfold swapOutLocks
      rw [reserved]
      dsimp only
      split <;> simp [fine_writePageToSwap, ih]

/-- A fault that the handler gets through needs no lock that it holds already, if none is held
when it is taken. -/
theorem idle_faultLocks {done : Unit} {t : Kernel}
    (handled : handlePageFault p va s = .ok (done, t)) : Fine [] (faultLocks cache s p va) := by
  obtain ⟨x, table, flags⟩ := handlePageFault_ok handled
  unfold faultLocks cprintf
  rw [table]
  dsimp only
  rw [← pteOf_of_table table]
  rcases flags with ⟨present, rest⟩ | ⟨absent, rest⟩
  · rw [present, if_pos rfl]
    split
    · rename_i shared
      obtain ⟨-, ⟨-, copied⟩ | ⟨single, -⟩⟩ := presentFault_ok rest
      · obtain ⟨q, u, allocated, -⟩ := cowPage_ok copied
        simp [idle_kallocLocks allocated]
      · omega
    · simp
  · obtain ⟨q, u, allocated, -⟩ := swapIn_ok rest
    rw [absent, if_neg Bool.false_ne_true]
    simp [idle_kallocLocks allocated, fine_readPageFromSwap]

/-- Under the pipe's lock kalloc must find a free page: an eviction writes to disk and sleeps. -/
theorem pipe_kallocLocks : Fine [.pipe] (kallocLocks cache s) ↔ s.freelist ≠ [] := by
  rw [kallocLocks]
  split
  · rename_i list
    simp [list]
  · rename_i empty
    split
    · simp [empty]
    · unfold swapOutLocks
      split <;> simp [empty, fine_writePageToSwap]

/-- When the store of a byte goes through under the pipe's lock. -/
def PipeSafe (cache : Cache) (p : Fin NPROC) (s : Kernel) (va : Nat) : Prop :=
  storable s p va = true ∨ ∃ x, tablePage s.mem (s.ptable p).pgdir (pdx (va / PGSIZE)) = some x ∧
    if has (s.mem x (ptx (va / PGSIZE))) PTE_P then
      s.pageToRefcnt (ppn (s.mem x (ptx (va / PGSIZE)))) ≤ 1 ∨ s.freelist ≠ []
    else s.freelist ≠ [] ∧ ∀ i < BPPAGE,
      cache.valid (ppn (s.mem x (ptx (va / PGSIZE))) + i) = true ∧
      cache.busy (ppn (s.mem x (ptx (va / PGSIZE))) + i) = false

theorem pipe_store : Fine [.pipe] (eventLocks cache p l (.store s va)) ↔ PipeSafe cache p s va := by
  unfold eventLocks PipeSafe
  dsimp only
  split
  · simp [*]
  · rename_i faults
    unfold faultLocks
    split
    · rename_i absent
      simp [absent, faults]
    · rename_i x table
      simp only [table, faults, cprintf, Bool.false_eq_true, false_or, Option.some.injEq,
        exists_eq_left']
      split
      · split
        · rename_i shared
          simp [pipe_kallocLocks, Int.not_le.mpr shared]
        · rename_i single
          simp [Int.not_lt.mp single]
      · simp [pipe_kallocLocks, fine_readPageFromSwap]

/-- Every path of the handler prints, and needs the console's lock for that. -/
theorem console_store :
    Fine [.cons] (eventLocks cache p l (.store s va)) ↔ storable s p va = true := by
  unfold eventLocks faultLocks cprintf
  dsimp only
  split
  · simp [*]
  · rename_i faults
    split
    · simp [faults]
    · split <;> simp [faults]

theorem fine_loop {events : List Event} (other : l ≠ .ptable) :
    Fine [l] (loopLocks cache p l events) ↔
      ∀ s va, .store s va ∈ events → Fine [l] (eventLocks cache p l (.store s va)) := by
  unfold loopLocks
  rw [fine_fold, List.forall_mem_map]
  refine ⟨fun fine s va member => fine _ member, fun fine event member => ?_⟩
  cases event with
  | wait => exact fine_sleep.mpr ⟨rfl, other⟩
  | store s va => exact fine s va member

end Store

/-- A console read meets no lock twice exactly when no store of it faults. A pipe read also
survives a fault that neither evicts nor reads the disk. -/
theorem reads_quiet_iff (cache : Cache) (p : Fin NPROC) :
    (∀ events locked, Fine [] (consoleread cache p events locked) ↔
      ∀ s va, .store s va ∈ events → storable s p va = true) ∧
    ∀ waits stores, Fine [] (piperead cache p waits stores) ↔
      ∀ store ∈ stores.getD [], PipeSafe cache p store.1 store.2 := by
  constructor
  · intro events locked
    unfold consoleread acquiresleep
    simp only [fine_seq, fine_under, fine_loop (show Lock.cons ≠ .ptable by decide), console_store]
    cases locked <;> simp [holdingsleep, releasesleep, wakeup]
  · intro waits stores
    unfold piperead
    simp only [fine_seq, fine_under, fine_loop (show Lock.pipe ≠ .ptable by decide), pipe_store]
    cases stores <;> simp [wakeup]

/-- The handler prints whatever the fault is, here under the console's lock. -/
theorem consoleread_panics {p : Fin NPROC} {s : Kernel} {va : Nat} (cache : Cache)
    (events : List Event) (locked : Bool)
    (mapped : pteOf s.mem (s.ptable p).pgdir (va / PGSIZE) ≠ 0#32)
    (faults : storable s p va = false) :
    (consoleread cache p (.store s va :: events) locked).run [] = .error .acquire := by
  obtain ⟨x, table⟩ := table_of_pteOf mapped
  have opened : Fine [] (.seq (holdingsleep .inode) (releasesleep .inode)) := by
    simp [holdingsleep, releasesleep, wakeup]
  have printed : cprintf.run [.cons] = .error .acquire := rfl
  have handled : (eventLocks cache p .cons (.store s va)).run [.cons] = .error .acquire := by
    unfold eventLocks faultLocks
    dsimp only
    rw [faults, if_neg Bool.false_ne_true, table]
    dsimp only
    split <;> exact bind_of_error printed
  have taken : acquire .cons [] = .ok ((), [.cons]) := rfl
  refine (bind_of_ok opened).trans (bind_of_error ?_)
  exact (bind_of_ok taken).trans (bind_of_error (bind_of_error handled))

/-- After the first fork the page of the first process is shared and there are free pages. A read
of one character into it ends in panic("acquire"). -/
theorem reads_deadlock : ∃ s t, boot (powerOn (fun _ => zeroPage) (fun _ _ => 0#32)) = .ok ((), s) ∧
    Step fork s (.fork 0) (.pid (some 2)) t ∧ t.freelist ≠ [] ∧
    accessible (pteOf t.mem (t.ptable 0).pgdir 0) = true ∧
    ∀ cache locked, (consoleread cache 0 [.store t 0] locked).run [] = .error .acquire := by
  obtain ⟨g, k, d, q, s, booted, facts⟩ := boot_ok (fun _ => zeroPage) (fun _ _ => 0#32)
  obtain ⟨runs, -, pgdir⟩ := facts.runs
  obtain ⟨k', d', t, used, forked, list, count, ⟨mem, refcnt, free, num, shape⟩, -, -, -, entry⟩ :=
    facts.fork_room
  have parent : (t.ptable 0).pgdir = d := by
    rw [shape]
    dsimp only
    rw [Function.update_of_ne (by decide), pgdir]
  have two : s.nextpid = 2 := facts.nextpid
  have shared : accessible (pteOf t.mem (t.ptable 0).pgdir 0) = true := by
    have word := userWord_map facts.frame
    rw [parent, entry, accessible, has_andNot_P, has_andNot_U, word.present, word.user]
    rfl
  refine ⟨s, t, booted, ⟨runs, ?_⟩, fun empty => ?_, shared, fun cache locked => ?_⟩
  · rw [← two]
    unfold perform
    exact bind_of_ok forked
  · have length := congrArg List.length list
    rw [empty, List.append_nil, facts.room, count] at length
    cases length
  · refine consoleread_panics cache [] locked (fun zero => ?_) ?_
    · rw [Nat.zero_div] at zero
      rw [zero] at shared
      cases shared
    · rw [storable, Nat.zero_div, parent, entry, has_andNot_W, Bool.and_false]

end Xv6Cow.Locks
