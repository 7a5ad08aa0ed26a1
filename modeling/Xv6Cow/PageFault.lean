import Xv6Cow.Vm

/- The fault path: handle_page_fault and cow_page of pageswap.c, and a user
program's accesses to its memory, which reach it through the MMU. -/
namespace Xv6Cow

open Prog (read update halt)

/-- cow_page. Every read of `*pte` comes after the call of kalloc. -/
def cowPage (pte : PtePtr) : K Unit := do
  let copy ← kalloc
  let w ← loadWord pte
  let count ← loadRefcnt (ppn w)
  storeRefcnt (ppn w) (count - 1)
  let page ← loadPage (ppn w)
  storePage copy page
  storeWord pte (pageWord copy ||| pteFlags w ||| PTE_W)

/-- `(blockno - SWAPBASE) / BPPAGE` on uints, where a block number below SWAPBASE
wraps around. -/
def swapIndex (blockno : Nat) : Nat := (2 ^ 32 + blockno - SWAPBASE) % 2 ^ 32 / BPPAGE

/-- The branch for an entry without PTE_P. The entry is read again after kalloc,
and the count is stored at the block number it still holds. -/
def swapIn (p : Fin NPROC) (pte : PtePtr) : K Unit := do
  let pg ← kalloc
  addRss p
  let w ← loadWord pte
  readPageFromSwap (ppn w) pg
  let slot ← loadSlot (swapIndex (ppn w))
  storeRefcnt (ppn w) slot.refcntToDisk
  storeWord pte (pageWord pg ||| slot.pagePerm ||| PTE_P)
  storeSlot (swapIndex (ppn w)) { slot with isFree := true }

/-- The branch for an entry with PTE_P, whose value is `w`. -/
def presentFault (pte : PtePtr) (w : Word) : K Unit := do
  let count ← loadRefcnt (ppn w)
  if 1 < count then cowPage pte else storeWord pte (w ||| PTE_W)

/-- handle_page_fault, for the process `p` and rcr2() = `va`. -/
def handlePageFault (p : Fin NPROC) (va : Nat) : K Unit := do
  let s ← read
  let pte ← walkpgdirNoAlloc (s.ptable p).pgdir (va / PGSIZE)
  match pte with
  | none => halt .nullDeref
  | some ptr => do
    let w ← loadWord ptr
    if has w PTE_P then presentFault ptr w else swapIn p ptr

/-! ## User accesses

The hardware walks the page table, insists on PTE_P and PTE_U, and on PTE_W for a
store, and marks the entry accessed (and dirty). An access it refuses is not
performed; `none` and `false` say so. -/

def userLoad (p : Fin NPROC) (va : Nat) : K (Option Byte) := do
  let s ← read
  let pte ← walkpgdirNoAlloc (s.ptable p).pgdir (va / PGSIZE)
  match pte with
  | none => pure none
  | some ptr => do
    let w ← loadWord ptr
    if has w PTE_P && has w PTE_U then do
      storeWord ptr (w ||| PTE_A)
      let page ← loadPage (ppn w)
      pure (some (page.byte (va % PGSIZE)))
    else pure none

def userStore (p : Fin NPROC) (va : Nat) (b : Byte) : K Bool := do
  let s ← read
  let pte ← walkpgdirNoAlloc (s.ptable p).pgdir (va / PGSIZE)
  match pte with
  | none => pure false
  | some ptr => do
    let w ← loadWord ptr
    if has w PTE_P && has w PTE_U && has w PTE_W then do
      storeWord ptr (w ||| (PTE_A ||| PTE_D))
      let page ← loadPage (ppn w)
      storePage (ppn w) (page.setByte (va % PGSIZE) b)
      pure true
    else pure false

/-- A load instruction: if it faults, the handler runs and it is tried again. -/
def userRead (p : Fin NPROC) (va : Nat) : K (Option Byte) := do
  let first ← userLoad p va
  match first with
  | some b => pure (some b)
  | none => do
    handlePageFault p va
    userLoad p va

/-- The handler runs and the store is tried again. -/
def faultStore (p : Fin NPROC) (va : Nat) (b : Byte) : K Bool := do
  handlePageFault p va
  userStore p va b

/-- A store instruction. A page that comes back from swap without PTE_W faults
once more. -/
def userWrite (p : Fin NPROC) (va : Nat) (b : Byte) : K Bool := do
  let first ← userStore p va b
  if first then pure true
  else do
    let second ← faultStore p va b
    if second then pure true else faultStore p va b

end Xv6Cow
