import Xv6Cow.Swap

/- vm.c, with the slot functions of pageswap.c that its teardown loops call.
Virtual addresses appear as page numbers wherever the source keeps them page
aligned. kalloc never returns 0 here, so the `goto bad` branches that test for it
are unreachable and have no counterpart. -/
namespace Xv6Cow

open Prog (read update halt)

def zeroPage : Page := fun _ => 0#32

/-- walkpgdir(pgdir, va, 1). -/
def walkpgdir (pgdir v : Nat) : K PtePtr := do
  let pde ← loadWord ⟨pgdir, pdx v⟩
  if has pde PTE_P then pure ⟨ppn pde, ptx v⟩
  else do
    let pgtab ← kalloc
    storePage pgtab zeroPage
    storeWord ⟨pgdir, pdx v⟩ (pageWord pgtab ||| PTE_P ||| PTE_W ||| PTE_U)
    pure ⟨pgtab, ptx v⟩

/-- One round of the loop of mappages: page `v` gets the physical page `q`. -/
def mapPage (pgdir : Nat) (perm : Word) (v q : Nat) : K Unit := do
  let pte ← walkpgdir pgdir v
  let w ← loadWord pte
  if has w PTE_P then panic "remap"
  else storeWord pte (pageWord q ||| perm ||| PTE_P)

def mapLoop (pgdir : Nat) (perm : Word) : Nat → Nat → Nat → K Unit
  | 0, _, _ => pure ()
  | n + 1, v, q => do
    mapPage pgdir perm v q
    mapLoop pgdir perm n (v + 1) (q + 1)

/-- mappages, on page-aligned `pa`. -/
def mappages (pgdir va size pa : Nat) (perm : Word) : K Unit :=
  mapLoop pgdir perm ((va + size - 1) / PGSIZE - va / PGSIZE + 1) (va / PGSIZE) (pa / PGSIZE)

/-- An entry of kmap: virt, phys_start, the size and perm. -/
structure KMap where
  virt : Nat
  physStart : Nat
  size : Nat
  perm : Word

/-- The table kmap. The last size is the unsigned `0 - DEVSPACE`. -/
def kmap : List KMap := [
  ⟨KERNBASE, 0, EXTMEM, PTE_W⟩,
  ⟨KERNLINK, EXTMEM, dataPa - EXTMEM, 0#32⟩,
  ⟨KERNBASE + dataPa, dataPa, PHYSTOP - dataPa, PTE_W⟩,
  ⟨DEVSPACE, DEVSPACE, 2 ^ 32 - DEVSPACE, PTE_W⟩]

def mapKernel (pgdir : Nat) : List KMap → K Unit
  | [] => pure ()
  | k :: rest => do
    mappages pgdir k.virt k.size k.physStart k.perm
    mapKernel pgdir rest

def setupkvm : K Nat := do
  let pgdir ← kalloc
  storePage pgdir zeroPage
  mapKernel pgdir kmap
  pure pgdir

def kvmalloc : K Unit := do
  let pgdir ← setupkvm
  update (fun s => { s with kpgdir := pgdir })

/-- inituvm; `init` is read for `sz` bytes. -/
def inituvm (pgdir : Nat) (init : Nat → Byte) (sz : Nat) : K Unit :=
  if PGSIZE ≤ sz then panic "inituvm: more than a page"
  else do
    let mem ← kalloc
    storePage mem zeroPage
    mappages pgdir 0 PGSIZE (mem * PGSIZE) (PTE_W ||| PTE_U)
    storePage mem (zeroPage.patch 0 sz init)

def allocLoop (p : Fin NPROC) (pgdir : Nat) : Nat → Nat → K Unit
  | 0, _ => pure ()
  | n + 1, v => do
    let mem ← kalloc
    storePage mem zeroPage
    mappages pgdir (v * PGSIZE) PGSIZE (mem * PGSIZE) (PTE_W ||| PTE_U)
    addRss p
    allocLoop p pgdir n (v + 1)

/-- allocuvm; `p` is myproc(). -/
def allocuvm (p : Fin NPROC) (pgdir oldsz newsz : Nat) : K Nat :=
  if KERNBASE ≤ newsz then pure 0
  else if newsz < oldsz then pure oldsz
  else do
    allocLoop p pgdir (pagesOf newsz - pagesOf oldsz) (pagesOf oldsz)
    pure newsz

/-! ## Giving pages and slots back -/

/-- `(blockno - SWAPBASE) / BPPAGE` on ints: division truncates towards zero, as
subtraction on `Nat` does here. -/
def slotOf (w : Word) : Nat := (ppn w - SWAPBASE) / BPPAGE

def clearSlot (pte : PtePtr) : K Unit := do
  let w ← loadWord pte
  let slot ← loadSlot (slotOf w)
  storeSlot (slotOf w) { slot with isFree := true }

def decSwapSlotRefcnt (pte : PtePtr) : K Int := do
  let w ← loadWord pte
  let slot ← loadSlot (slotOf w)
  if slot.refcntToDisk = 0 then panic "refcnt already 0\n"
  else do
    storeSlot (slotOf w) { slot with refcntToDisk := slot.refcntToDisk - 1 }
    pure (slot.refcntToDisk - 1)

/-- What deallocuvm does with a swapped entry. The entry keeps its value. -/
def dropSwapped (pte : PtePtr) : K Unit := do
  let refcnt ← decSwapSlotRefcnt pte
  if refcnt = 0 then clearSlot pte else pure ()

/-- The loop body of deallocuvm and deallocuvm_proc, which differ in what they do
with a swapped entry and in whose rss they lower. -/
def deallocEntry (p : Fin NPROC) (swapped : PtePtr → K Unit) (pte : PtePtr) : K Unit := do
  let w ← loadWord pte
  if has w PTE_P then
    if ppn w = 0 then panic "kfree"
    else do
      kfree (ppn w)
      subRss p
      storeWord pte 0#32
  else if has w PTE_SW then swapped pte
  else pure ()

/-- The loop from page `v` up to `last`. Where there is no page table it goes on
with the next directory entry. -/
def deallocLoop (p : Fin NPROC) (swapped : PtePtr → K Unit) (pgdir last v : Nat) : K Unit :=
  if v < last then do
    let pte ← walkpgdirNoAlloc pgdir v
    match pte with
    | none => deallocLoop p swapped pgdir last ((v / 1024 + 1) * 1024)
    | some ptr => do
      deallocEntry p swapped ptr
      deallocLoop p swapped pgdir last (v + 1)
  else pure ()
termination_by last - v

/-- deallocuvm; `p` is myproc(). -/
def deallocuvm (p : Fin NPROC) (pgdir oldsz newsz : Nat) : K Nat :=
  if oldsz ≤ newsz then pure oldsz
  else do
    deallocLoop p dropSwapped pgdir (pagesOf oldsz) (pagesOf newsz)
    pure newsz

def deallocuvmProc (p : Fin NPROC) (pgdir oldsz newsz : Nat) : K Nat :=
  if oldsz ≤ newsz then pure oldsz
  else do
    deallocLoop p clearSlot pgdir (pagesOf oldsz) (pagesOf newsz)
    pure newsz

/-- Free the page tables a directory points to. -/
def freeTable (pde : Word) : K Unit :=
  if has pde PTE_P then kfree (ppn pde) else pure ()

def freeTables (pgdir : Nat) : Nat → Nat → K Unit
  | 0, _ => pure ()
  | n + 1, i => do
    let pde ← loadWord ⟨pgdir, ptx i⟩
    freeTable pde
    freeTables pgdir n (i + 1)

def freevm (p : Fin NPROC) (pgdir : Nat) : K Unit :=
  if pgdir = 0 then panic "freevm: no pgdir"
  else do
    let _ ← deallocuvm p pgdir KERNBASE 0
    freeTables pgdir NPDENTRIES 0
    kfree pgdir

def freevmProc (p : Fin NPROC) (pgdir : Nat) : K Unit :=
  if pgdir = 0 then panic "freevm: no pgdir"
  else do
    let _ ← deallocuvmProc p pgdir KERNBASE 0
    freeTables pgdir NPDENTRIES 0
    kfree pgdir

def clearZombieEntry (pte : PtePtr) : K Unit := do
  let w ← loadWord pte
  if isSwapped w then do
    clearSlot pte
    storeWord pte 0#32
  else pure ()

def clearZombieTable (t : Nat) : Nat → Nat → K Unit
  | 0, _ => pure ()
  | n + 1, j => do
    clearZombieEntry ⟨t, ptx j⟩
    clearZombieTable t n (j + 1)

def clearZombieDir (pde : Word) : K Unit :=
  if has pde PTE_P then clearZombieTable (ppn pde) NPTENTRIES 0 else pure ()

def clearZombieFrom (pgdir : Nat) : Nat → Nat → K Unit
  | 0, _ => pure ()
  | n + 1, i => do
    let pde ← loadWord ⟨pgdir, ptx i⟩
    clearZombieDir pde
    clearZombieFrom pgdir n (i + 1)

/-- clear_zombie, on the directory of the process. -/
def clearZombie (pgdir : Nat) : K Unit := clearZombieFrom pgdir NPDENTRIES 0

def clearpteu (pgdir v : Nat) : K Unit := do
  let pte ← walkpgdirNoAlloc pgdir v
  match pte with
  | none => panic "clearpteu"
  | some ptr => do
    let w ← loadWord ptr
    storeWord ptr (w &&& ~~~PTE_U)

/-! ## Copying an address space -/

/-- The entry of page `v`, which the two copy loops insist on. -/
def presentEntry (pgdir v : Nat) : K (PtePtr × Word) := do
  let pte ← walkpgdirNoAlloc pgdir v
  match pte with
  | none => panic "copyuvm: pte should exist"
  | some ptr => do
    let w ← loadWord ptr
    if has w PTE_P then pure (ptr, w) else panic "copyuvm: page not present"

def copyLoop (d pgdir : Nat) : Nat → Nat → K Unit
  | 0, _ => pure ()
  | n + 1, v => do
    let (_, w) ← presentEntry pgdir v
    let mem ← kalloc
    let page ← loadPage (ppn w)
    storePage mem page
    mappages d (v * PGSIZE) PGSIZE (mem * PGSIZE) (pteFlags w)
    copyLoop d pgdir n (v + 1)

/-- copyuvm: every page gets a private copy. -/
def copyuvm (pgdir sz : Nat) : K Nat := do
  let d ← setupkvm
  copyLoop d pgdir (pagesOf sz) 0
  pure d

def cowLoop (p : Fin NPROC) (d pgdir : Nat) : Nat → Nat → K Unit
  | 0, _ => pure ()
  | n + 1, v => do
    addRss p
    let (ptr, w) ← presentEntry pgdir v
    storeWord ptr (w &&& ~~~PTE_W)
    mappages d (v * PGSIZE) PGSIZE (ppn w * PGSIZE) (pteFlags w &&& ~~~PTE_W)
    let count ← loadRefcnt (ppn w)
    storeRefcnt (ppn w) (count + 1)
    cowLoop p d pgdir n (v + 1)

/-- copyuvm_cow: the pages are shared, and writable in neither address space. -/
def copyuvmCow (pgdir sz : Nat) (p : Fin NPROC) : K Nat := do
  let d ← setupkvm
  cowLoop p d pgdir (pagesOf sz) 0
  pure d

/-! ## Copying into an address space -/

def uva2ka (pgdir v : Nat) : K (Option Nat) := do
  let pte ← walkpgdirNoAlloc pgdir v
  let w ← derefPte pte
  if has w PTE_P && has w PTE_U then pure (some (ppn w)) else pure none

/-- The loop of copyout at address `va`, with `len` bytes to go; `done` have been
copied from `buf`. -/
def copyoutLoop (pgdir : Nat) (buf : Nat → Byte) (va done len : Nat) : K Bool :=
  if 0 < len then do
    let pa ← uva2ka pgdir (va / PGSIZE)
    match pa with
    | none => pure false
    | some q => do
      let page ← loadPage q
      let n := min (PGSIZE - va % PGSIZE) len
      storePage q (page.patch (va % PGSIZE) n (fun k => buf (done + k)))
      copyoutLoop pgdir buf ((va / PGSIZE + 1) * PGSIZE % 2 ^ 32) (done + n) (len - n)
  else pure true
termination_by len
decreasing_by
  have room : 0 < PGSIZE - va % PGSIZE := Nat.sub_pos_of_lt (Nat.mod_lt va (by decide))
  omega

/-- copyout; false stands for -1. -/
def copyout (pgdir va : Nat) (buf : List Byte) : K Bool :=
  copyoutLoop pgdir (fun k => buf.getD k 0) va 0 buf.length

end Xv6Cow
