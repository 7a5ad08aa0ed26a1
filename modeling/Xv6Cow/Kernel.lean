import Xv6Cow.Lib.Prog
import Xv6Cow.Word

/- The state of the kernel that memory management reads and writes: physical
memory, the allocator (kalloc.c), the swap slots and the disk blocks behind them
(pageswap.c, bio.c), and the process table (proc.h). Page directories and page
tables are ordinary pages of `mem`. -/
namespace Xv6Cow

open Prog (read update halt halt_ok_iff guard_ok_iff update_ok_iff)

/-- How the kernel stops short of returning: a call to panic, or an access the C
program must not make. -/
inductive Fault where
  | panic (message : String)
  | nullDeref
  | outOfBounds
  | unmapped
  deriving DecidableEq, Repr

/-- enum procstate. -/
inductive ProcState where
  | unused | embryo | sleeping | runnable | running | zombie
  deriving DecidableEq, Repr

/-- struct proc: the fields that memory management and process control use. A
page directory and a kernel stack are named by their page number, 0 being null. -/
structure Proc where
  sz : Nat
  rss : Word
  pgdir : Nat
  kstack : Nat
  state : ProcState
  pid : Nat
  parent : Option (Fin NPROC)
  killed : Bool

/-- A process whose page directory is in place: neither UNUSED nor EMBRYO. -/
def Proc.live (p : Proc) : Bool :=
  match p.state with
  | .unused => false
  | .embryo => false
  | _ => true

/-- A process that can take a step of its own. -/
def Proc.canRun (p : Proc) : Bool :=
  match p.state with
  | .runnable => true
  | .running => true
  | _ => false

/-- struct swapslothdr. -/
structure SwapSlot where
  isFree : Bool
  pagePerm : Word
  blockno : Nat
  refcntToDisk : Int

/-- struct pipe, less its buffer: the page it lives in and its two open flags. -/
structure Pipe where
  page : Nat
  readopen : Bool
  writeopen : Bool

/-- The 512 bytes of a disk block. -/
abbrev Block : Type := Fin 128 → Word

/-- The address of a page-table entry: a page and a word in it. -/
structure PtePtr where
  page : Nat
  index : Fin 1024
  deriving DecidableEq

/-- What the history variable `log` records of one call of swap_out: the victim
process and whether it was live, the entry rewritten, the page it held with its
flags and bytes, and whether the page went to the free list. -/
structure Eviction where
  victim : Fin NPROC
  live : Bool
  ptr : PtePtr
  frame : Nat
  slot : Nat
  perm : Word
  bytes : Page
  freed : Bool

inductive Event where
  | evict (e : Eviction)
  | swapRead (blockno : Nat)

structure Kernel where
  mem : Nat → Page
  pageToRefcnt : Nat → Int
  freelist : List Nat
  numFreePages : Nat
  swapSlots : Nat → SwapSlot
  disk : Nat → Block
  ptable : Fin NPROC → Proc
  nextpid : Nat
  initproc : Option (Fin NPROC)
  kpgdir : Nat
  pipes : List Pipe
  /-- History only: nothing in the kernel reads it. -/
  log : List Event

abbrev K : Type → Type := Prog Fault Kernel

def panic {α : Type} (message : String) : K α := halt (.panic message)

/-! Memory accesses through the kernel's direct map, which ends at PHYSTOP. -/

def loadWord (ptr : PtePtr) : K Word := do
  let s ← read
  if ptr.page < NPHYS then pure (s.mem ptr.page ptr.index) else halt .unmapped

def setWord (mem : Nat → Page) (ptr : PtePtr) (w : Word) : Nat → Page :=
  Function.update mem ptr.page (Function.update (mem ptr.page) ptr.index w)

def storeWord (ptr : PtePtr) (w : Word) : K Unit := do
  if ptr.page < NPHYS then update (fun s => { s with mem := setWord s.mem ptr w })
  else halt .unmapped

/-- `*pte` of a pointer that may be null. -/
def derefPte (pte : Option PtePtr) : K Word :=
  match pte with
  | none => halt .nullDeref
  | some ptr => loadWord ptr

def loadPage (q : Nat) : K Page := do
  let s ← read
  if q < NPHYS then pure (s.mem q) else halt .unmapped

def storePage (q : Nat) (page : Page) : K Unit := do
  if q < NPHYS then update (fun s => { s with mem := Function.update s.mem q page })
  else halt .unmapped

/-- `page_to_refcnt[i]`. -/
def loadRefcnt (i : Nat) : K Int := do
  let s ← read
  if i < NPHYS then pure (s.pageToRefcnt i) else halt .outOfBounds

def storeRefcnt (i : Nat) (count : Int) : K Unit := do
  if i < NPHYS then
    update (fun s => { s with pageToRefcnt := Function.update s.pageToRefcnt i count })
  else halt .outOfBounds

/-- `swap_slots[i]`. -/
def loadSlot (i : Nat) : K SwapSlot := do
  let s ← read
  if i < NPAGE then pure (s.swapSlots i) else halt .outOfBounds

def storeSlot (i : Nat) (slot : SwapSlot) : K Unit := do
  if i < NPAGE then update (fun s => { s with swapSlots := Function.update s.swapSlots i slot })
  else halt .outOfBounds

def setProc (s : Kernel) (p : Fin NPROC) (proc : Proc) : Kernel :=
  { s with ptable := Function.update s.ptable p proc }

def updateProc (p : Fin NPROC) (change : Proc → Proc) : K Unit :=
  update (fun s => setProc s p (change (s.ptable p)))

def addRss (p : Fin NPROC) : K Unit :=
  updateProc p (fun proc => { proc with rss := proc.rss + BitVec.ofNat 32 PGSIZE })

def subRss (p : Fin NPROC) : K Unit :=
  updateProc p (fun proc => { proc with rss := proc.rss - BitVec.ofNat 32 PGSIZE })

def logEvent (e : Event) : K Unit := update (fun s => { s with log := e :: s.log })

/-! What the accesses return. -/

section Access

variable {s t : Kernel} {ptr : PtePtr} {u : Unit}

theorem loadWord_ok_iff {w : Word} :
    loadWord ptr s = .ok (w, t) ↔ ptr.page < NPHYS ∧ w = s.mem ptr.page ptr.index ∧ t = s := by
  unfold loadWord
  rw [Prog.read_bind, guard_ok_iff, Prog.pure_ok_iff]

theorem storeWord_ok_iff {w : Word} :
    storeWord ptr w s = .ok (u, t) ↔
      ptr.page < NPHYS ∧ t = { s with mem := setWord s.mem ptr w } := by
  unfold storeWord
  rw [guard_ok_iff, update_ok_iff]

theorem derefPte_ok_iff {pte : Option PtePtr} {w : Word} :
    derefPte pte s = .ok (w, t) ↔
      ∃ ptr, pte = some ptr ∧ ptr.page < NPHYS ∧ w = s.mem ptr.page ptr.index ∧ t = s := by
  cases pte with
  | none =>
    simp only [derefPte, halt_ok_iff, false_iff]
    rintro ⟨_, impossible, _⟩
    cases impossible
  | some ptr =>
    simp only [derefPte, loadWord_ok_iff, Option.some.injEq]
    constructor
    · intro success
      exact ⟨ptr, rfl, success⟩
    · rintro ⟨_, rfl, success⟩
      exact success

theorem loadPage_ok_iff {q : Nat} {page : Page} :
    loadPage q s = .ok (page, t) ↔ q < NPHYS ∧ page = s.mem q ∧ t = s := by
  unfold loadPage
  rw [Prog.read_bind, guard_ok_iff, Prog.pure_ok_iff]

theorem storePage_ok_iff {q : Nat} {page : Page} :
    storePage q page s = .ok (u, t) ↔
      q < NPHYS ∧ t = { s with mem := Function.update s.mem q page } := by
  unfold storePage
  rw [guard_ok_iff, update_ok_iff]

theorem loadRefcnt_ok_iff {i : Nat} {count : Int} :
    loadRefcnt i s = .ok (count, t) ↔ i < NPHYS ∧ count = s.pageToRefcnt i ∧ t = s := by
  unfold loadRefcnt
  rw [Prog.read_bind, guard_ok_iff, Prog.pure_ok_iff]

theorem storeRefcnt_ok_iff {i : Nat} {count : Int} :
    storeRefcnt i count s = .ok (u, t) ↔
      i < NPHYS ∧ t = { s with pageToRefcnt := Function.update s.pageToRefcnt i count } := by
  unfold storeRefcnt
  rw [guard_ok_iff, update_ok_iff]

theorem loadSlot_ok_iff {i : Nat} {slot : SwapSlot} :
    loadSlot i s = .ok (slot, t) ↔ i < NPAGE ∧ slot = s.swapSlots i ∧ t = s := by
  unfold loadSlot
  rw [Prog.read_bind, guard_ok_iff, Prog.pure_ok_iff]

theorem storeSlot_ok_iff {i : Nat} {slot : SwapSlot} :
    storeSlot i slot s = .ok (u, t) ↔
      i < NPAGE ∧ t = { s with swapSlots := Function.update s.swapSlots i slot } := by
  unfold storeSlot
  rw [guard_ok_iff, update_ok_iff]

end Access

end Xv6Cow
