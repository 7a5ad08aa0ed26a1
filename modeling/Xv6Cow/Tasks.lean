import Xv6Cow.Exec

/- What the processes of the system are for their users: each has a memory of its
own, and there are no frames, no reference counts and no swap. A machine on such
processes says what every system call and every access means. -/
namespace Xv6Cow

/-- The pages of a memory: whether the user may access them, and their bytes. -/
abbrev Memory : Type := Nat → Option (Bool × Page)

structure Task where
  state : ProcState
  pid : Nat
  parent : Option (Fin NPROC)
  killed : Bool
  sz : Nat
  pages : Memory

structure Tasks where
  table : Fin NPROC → Task
  nextpid : Nat
  initproc : Option (Fin NPROC)

/-- The steps of the system. -/
inductive Label where
  | fork (p : Fin NPROC)
  | read (p : Fin NPROC) (va : Nat)
  | write (p : Fin NPROC) (va : Nat) (b : Byte)
  | fault (p : Fin NPROC) (va : Nat)
  | sbrk (p : Fin NPROC) (n : Int)
  | exec (p : Fin NPROC) (file : Option File) (argv : List (List Byte))
  | exit (p : Fin NPROC)
  | wait (p : Fin NPROC)
  | pipealloc (room : Nat)
  | pipeclose (k : Nat) (writable : Bool)
  /-- A page for some other part of the kernel. -/
  | kalloc
  /-- A write of the file system. -/
  | bwrite (blockno : Nat) (data : Block)

/-- What a step shows to the outside. -/
inductive Out where
  | nothing
  | pid (child : Option Nat)
  | byte (value : Option Byte)
  | flag (success : Bool)
  | waited (result : WaitResult)
  deriving DecidableEq

namespace Memory

/-- The pages from `lo` up to `hi` are replaced. -/
def fill (memory : Memory) (lo hi : Nat) (content : Option (Bool × Page)) : Memory := fun u =>
  if lo ≤ u ∧ u < hi then content else memory u

/-- A byte is written. -/
def setByte (memory : Memory) (va : Nat) (b : Byte) : Memory := fun u =>
  if u = va / PGSIZE then (memory u).map (fun x => (x.1, x.2.setByte (va % PGSIZE) b))
  else memory u

def byte (memory : Memory) (va : Nat) : Option Byte :=
  (memory (va / PGSIZE)).map (fun x => x.2.byte (va % PGSIZE))

end Memory

/-- sbrk(n) on a memory of size `sz`: its result, the new size and the pages. A
result of size 0 is taken for a failure, and the size stays. -/
def resize (n : Int) (sz : Nat) (pages : Memory) : Bool × Nat × Memory :=
  let newsz := ((sz + n) % 2 ^ 32).toNat
  if n = 0 then (true, sz, pages)
  else if 0 < n then
    if KERNBASE ≤ newsz then (false, sz, pages)
    else if newsz < sz then (true, sz, pages)
    else if newsz = 0 then (false, sz, pages)
    else (true, newsz, pages.fill (pagesOf sz) (pagesOf newsz) (some (true, zeroPage)))
  else if sz ≤ newsz then (decide (sz ≠ 0), sz, pages)
  else if newsz = 0 then (false, sz, pages.fill (pagesOf newsz) (pagesOf sz) none)
  else (true, newsz, pages.fill (pagesOf newsz) (pagesOf sz) none)

namespace Tasks

/-- The first entry of the table with a property. -/
def first (a : Tasks) (test : Task → Bool) : Option (Fin NPROC) :=
  (List.finRange NPROC).find? (fun p => test (a.table p))

def set (a : Tasks) (p : Fin NPROC) (task : Task) : Tasks :=
  { a with table := Function.update a.table p task }

def fork (a : Tasks) (p : Fin NPROC) : Out × Tasks :=
  match a.first (fun task => task.state = .unused) with
  | none => (.pid none, a)
  | some np =>
    let parent := a.table p
    let child : Task :=
      ⟨.runnable, a.nextpid, some p, (a.table np).killed, parent.sz, parent.pages⟩
    (.pid (some a.nextpid), { a.set np child with nextpid := a.nextpid + 1 })

def read (a : Tasks) (p : Fin NPROC) (va : Nat) : Out × Tasks :=
  (.byte ((a.table p).pages.byte va), a)

def write (a : Tasks) (p : Fin NPROC) (va : Nat) (b : Byte) : Out × Tasks :=
  let task := a.table p
  (.flag true, a.set p { task with pages := task.pages.setByte va b })

def sbrk (a : Tasks) (p : Fin NPROC) (n : Int) : Out × Tasks :=
  let task := a.table p
  let (success, sz, pages) := resize n task.sz task.pages
  (.flag success, a.set p { task with sz := sz, pages := pages })

def exit (a : Tasks) (p : Fin NPROC) : Out × Tasks :=
  (.nothing,
    { a with
      table := fun q =>
        let task := if (a.table q).parent = some p then { a.table q with parent := a.initproc }
          else a.table q
        if q = p then { task with state := .zombie } else task })

/-- A free entry of the table. -/
def vacant : Task := ⟨.unused, 0, none, false, 0, fun _ => none⟩

def wait (a : Tasks) (p : Fin NPROC) : Out × Tasks :=
  match a.first (fun task => task.parent = some p ∧ task.state = .zombie) with
  | some q => (.waited (.reaped (a.table q).pid), a.set q vacant)
  | none =>
    if !(List.finRange NPROC).any (fun q => (a.table q).parent = some p) || (a.table p).killed then
      (.waited .noChildren, a)
    else (.waited .sleeps, a)

/-- A page fault that is handled, a page taken for the kernel and a write to the
disk are nothing to the processes. What exec puts in memory is left open. -/
def Next (a : Tasks) (out : Out) (b : Tasks) : Label → Prop
  | .fork p => (out, b) = a.fork p
  | .read p va => (out, b) = a.read p va
  | .write p va byte => (out, b) = a.write p va byte
  | .sbrk p n => (out, b) = a.sbrk p n
  | .exec p _ _ => (out = .flag false ∧ b = a) ∨
      ∃ sz pages, out = .flag true ∧ b = a.set p { a.table p with sz := sz, pages := pages }
  | .exit p => (out, b) = a.exit p
  | .wait p => (out, b) = a.wait p
  | .fault _ _ => b = a
  | .pipealloc _ => b = a
  | .pipeclose _ _ => b = a
  | .kalloc => b = a
  | .bwrite _ _ => b = a

end Tasks

end Xv6Cow
